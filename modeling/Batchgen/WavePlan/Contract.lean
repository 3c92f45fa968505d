import Batchgen.WavePlan.Work

/-!
# The contract of a plan

`PlanValid` is what a schedule promises to its executor, without the dictionaries of the validator: every
chunk is a forward within its budgets, reads only what is resident, and releases exactly the segments
whose last reader it runs.  What an item reads follows from the parent links, so the items of a segment
come before its readers on every level.
-/

namespace Batchgen.WavePlan

open List

variable {x y : PlanItem} {seg : ℕ}

/-! ### Chunks -/

/-- The rows of a chunk. -/
def forwardItems (items : List PlanItem) : List PlanItem :=
  items.filter fun item => item.kind ≠ .materialize

def sumTokens (items : List PlanItem) : ℕ := (items.map PlanItem.tokens).sum

def sumKeys (items : List PlanItem) : ℕ := (items.map PlanItem.tokenEnd).sum

/-- Every item of `items` reads what was written before the chunk, or earlier in it where that is
allowed. -/
def ReadsOk (sameChunk : Bool) (done items : List PlanItem) : Prop :=
  ∀ before item after, items = before ++ item :: after → ∀ seg ∈ item.prefixSegments,
    seg ∈ written done ∨ (sameChunk = true ∧ seg ∈ written before)

/-- A chunk that runs once `done` is done, of the work list `items`. -/
structure ChunkOk (cfg : PlanConfig) (pages : ℕ → ℕ) (items done : List PlanItem) (chunk : PlanChunk) :
    Prop where
  forward : forwardItems chunk.items ≠ []
  tokens : sumTokens (forwardItems chunk.items) ≤ cfg.chunkTokens ∨
    (forwardItems chunk.items).length = 1
  keys : ∀ chunkKeys, cfg.chunkKeys = some chunkKeys →
    (sumKeys (forwardItems chunk.items) : ℤ) ≤ chunkKeys ∨ (forwardItems chunk.items).length = 1
  reads : ReadsOk cfg.sameChunkAncestors done chunk.items
  inUse : chunk.poolPagesInUse =
    sumPages pages ((itemTasks items).resident done ++ written chunk.items)
  fits : chunk.poolPagesInUse ≤ cfg.poolPages
  release : chunk.releaseAfter.Perm ((itemTasks items).expired done chunk.items)

def ChunksOk (cfg : PlanConfig) (pages : ℕ → ℕ) (items : List PlanItem) :
    List PlanItem → List PlanChunk → Prop
  | _, [] => True
  | done, chunk :: chunks =>
    ChunkOk cfg pages items done chunk ∧ ChunksOk cfg pages items (done ++ chunk.items) chunks

def chunkItems (chunks : List PlanChunk) : List PlanItem := chunks.flatMap PlanChunk.items

theorem chunkItems_append (chunks more : List PlanChunk) :
    chunkItems (chunks ++ more) = chunkItems chunks ++ chunkItems more :=
  flatMap_append

theorem chunkItems_cons (chunk : PlanChunk) (chunks : List PlanChunk) :
    chunkItems (chunk :: chunks) = chunk.items ++ chunkItems chunks :=
  rfl

theorem chunksOk_append {cfg : PlanConfig} {pages : ℕ → ℕ} {items done : List PlanItem} {chunks more : List PlanChunk} :
    ChunksOk cfg pages items done (chunks ++ more) ↔ ChunksOk cfg pages items done chunks ∧
      ChunksOk cfg pages items (done ++ chunkItems chunks) more := by
  induction chunks generalizing done with
  | nil => simp [ChunksOk, chunkItems]
  | cons chunk chunks ih =>
    rw [cons_append, ChunksOk, ChunksOk, ih, and_assoc, chunkItems_cons, append_assoc]

/-! ### Plans -/

def WavePrefixPlan.config (plan : WavePrefixPlan) : PlanConfig where
  blockTokens := plan.blockTokens
  poolPages := plan.poolPages
  chunkTokens := plan.chunkTokens
  sameChunkAncestors := plan.sameChunkAncestors
  chunkKeys := plan.chunkKeys

/-- `segment_pages`. -/
def WavePrefixPlan.pages (plan : WavePrefixPlan) : ℕ → ℕ :=
  segmentPages plan.blockTokens plan.segments

def peakPages (chunks : List PlanChunk) : ℤ := (chunks.map PlanChunk.poolPagesInUse).foldl max 0

structure PlanValid (prompts : List Tokens) (items : List PlanItem) (plan : WavePrefixPlan) : Prop where
  block : 0 < plan.blockTokens
  segments : SegmentsValid prompts plan.blockTokens plan.segments
  work : ItemsValid prompts plan.segments items
  perm : (chunkItems plan.chunks).Perm items
  chunks : ChunksOk plan.config plan.pages items [] plan.chunks
  promptTokens : plan.promptTokens = (prompts.map List.length).sum
  computed : plan.computedTokens = computedTokens plan.chunks
  loaded : plan.materializedTokens = loadedTokens plan.segments
  peak : plan.peakPoolPages = peakPages plan.chunks

/-! ### What an item reads -/

namespace ItemsValid

variable {prompts : List Tokens} {blockTokens : ℕ} {segments : List PlanSegment} {items : List PlanItem}

section

variable (h : ItemsValid prompts segments items)
include h

theorem nodup : items.Nodup := h.keys.of_map _

theorem eq_of_key (hx : x ∈ items) (hy : y ∈ items) (hkey : x.key = y.key) : x = y :=
  inj_on_of_nodup_map h.keys hx hy hkey

theorem eq_of_writes (hx : x ∈ items) (hy : y ∈ items) (hwx : x.writes = some seg)
    (hwy : y.writes = some seg) : x = y :=
  h.eq_of_key hx hy ((key_eq_segment.mpr (writes_eq_some.mp hwx)).trans
    (key_eq_segment.mpr (writes_eq_some.mp hwy)).symm)

theorem written_iff : seg ∈ written items ↔ seg < segments.length := by
  rw [mem_written_iff_key, h.hasSegments]

theorem written_nodup : (written items).Nodup := by
  rw [written, List.Nodup, pairwise_filterMap]
  refine h.nodup.imp_of_mem fun {x y} hx hy hne seg hwx seg' hwy heq => ?_
  subst heq
  exact hne (h.eq_of_writes hx hy hwx hwy)

/-- A segment item spells out its parent. -/
theorem parentOf_writes (hy : y ∈ items) (hwy : y.writes = some seg) :
    parentOf segments seg = y.prefixSegments.getLast? := by
  obtain ⟨hkind, rfl⟩ := writes_eq_some.mp hwy
  obtain ⟨s, hs, -, -, -, hparent⟩ := (h.valid y hy).segment hkind
  rw [parentOf, hs, ← hparent]
  rfl

end

theorem parentOf_lt (hseg : SegmentsValid prompts blockTokens segments) {up : ℕ}
    (hup : parentOf segments seg = some up) : up < seg := by
  obtain ⟨s, hs, hparent⟩ := Option.bind_eq_some_iff.mp hup
  exact ((hseg seg s hs).parent up hparent).1

variable (h : ItemsValid prompts segments items)
include h

section

variable (hx : x ∈ items) (hread : seg ∈ x.prefixSegments) (hy : y ∈ items) (hwy : y.writes = some seg)
include hx hread hy hwy

/-- What the item of `seg` reads, and then `seg`, is how every reader of `seg` starts. -/
theorem prefix_split : ∃ after, x.prefixSegments = y.prefixSegments ++ seg :: after := by
  obtain ⟨before, after, hsplit⟩ := append_of_mem hread
  have hlinked := (h.valid x hx).linked
  rw [hsplit] at hlinked
  obtain ⟨hbefore, hrest⟩ := linkedFrom_append.mp hlinked
  have hparent : before.getLast? = y.prefixSegments.getLast? := by
    rw [← h.parentOf_writes hy hwy, hrest.1, Option.or_none]
  have heq : before = y.prefixSegments :=
    hbefore.unique (h.valid y hy).linked hparent
  exact ⟨after, heq ▸ hsplit⟩

theorem prefix_lt : y.prefixSegments.length < x.prefixSegments.length := by
  obtain ⟨after, hsplit⟩ := h.prefix_split hx hread hy hwy
  rw [hsplit, length_append, length_cons]
  omega

end

/-- Every segment has a reader: the tail of a member. -/
theorem exists_reader (hseg : SegmentsValid prompts blockTokens segments)
    (hlt : seg < segments.length) : ∃ x ∈ items, x.kind = .tail ∧ seg ∈ x.prefixSegments := by
  have hs := getElem?_eq_getElem hlt
  have hvalid := hseg seg _ hs
  have hpos : 0 < (segments[seg]).members.length := by
    have hshared := hvalid.shared
    split at hshared <;> omega
  obtain ⟨index, hindex⟩ := exists_mem_of_length_pos hpos
  obtain ⟨tokens, htokens, -⟩ := hvalid.inside index hindex
  have hkey := (h.hasTails index).mpr (List.getElem?_eq_some_iff.mp htokens).1
  obtain ⟨x, hx, hxkey⟩ := mem_map.mp hkey
  obtain ⟨hkind, rfl⟩ := key_eq_tail.mp hxkey
  obtain ⟨-, -, -, -, hmem⟩ := (h.valid x hx).tail hkind
  exact ⟨x, hx, hkind, (hmem seg).mpr ⟨_, hs, hindex⟩⟩

end ItemsValid

end Batchgen.WavePlan
