import Batchgen.Library.Outcome
import Batchgen.WavePlan.Validate
import Batchgen.WavePlan.Accounting

/-!
# Plans pass their validator

The validator replays a plan with dictionaries of its own.  Behind every chunk they hold what the contract
speaks about: the positions of the items so far, the releases so far, and the pages of the residents
(`CheckedAt`).
-/

namespace Batchgen.WavePlan

open Function List Outcome

variable {ε : Type} {segments : List PlanSegment} {seg position block id first : ℕ} {e : PlanAssertion}
  {prompts : List Tokens} {chunks rest : List PlanChunk} {key : ItemKey} {reads : List (ℕ × ℕ)}

/-! ### Checks that pass -/

theorem check_ok {p : Prop} [Decidable p] (h : p) : check p e = .ok () := if_pos h

theorem check_bind {β : Type} {p : Prop} [Decidable p] {f : Unit → Except PlanAssertion β} (h : p) :
    (check p e >>= f) = f () := by
  rw [check_ok h]
  rfl

theorem fetch_bind {α β : Type} {value : Option α} {a : α} {f : α → Except PlanAssertion β} (h : value = some a) :
    (fetch value e >>= f) = f a := by
  rw [h]
  rfl

theorem ok_bind {α β : Type} (a : α) (f : α → Except ε β) : (Except.ok a >>= f) = f a :=
  rfl

/-- A loop that never fails, with what holds after each part of the list. -/
theorem foldlM_ok {α σ : Type} {f : σ → α → Except ε σ} {xs : List α} {s : σ} (I : List α → σ → Prop)
    (hstep : ∀ before x after s, xs = before ++ x :: after → I before s → ∃ s', f s x = .ok s' ∧ I (before ++ [x]) s')
    (hstart : I [] s) : ∃ s', xs.foldlM f s = .ok s' ∧ I xs s' := by
  induction xs using List.reverseRecOn with
  | nil => exact ⟨s, rfl, hstart⟩
  | append_singleton xs x ih =>
    obtain ⟨mid, hmid, hI⟩ := ih fun before y after s hsplit =>
      hstep before y (after ++ [x]) s (by rw [hsplit, append_assoc, cons_append])
    obtain ⟨last, hlast, hI⟩ := hstep xs x [] mid rfl hI
    refine ⟨last, ?_, hI⟩
    rw [foldlM_append, hmid]
    change (f mid x >>= fun s => pure s) = .ok last
    rw [hlast]
    rfl

theorem zipIdx_split {α : Type*} {xs : List α} {before after : List (α × ℕ)} {x : α} {k : ℕ}
    (h : xs.zipIdx = before ++ (x, k) :: after) :
    xs = before.map Prod.fst ++ x :: after.map Prod.fst ∧ k = before.length := by
  constructor
  · have hmap := congrArg (List.map Prod.fst) h
    rwa [zipIdx_map_fst, map_append, map_cons] at hmap
  · have hget : xs.zipIdx[before.length]? = some (x, k) := by
      rw [h, getElem?_append_right le_rfl, Nat.sub_self]
      rfl
    rw [getElem?_zipIdx, Option.map_eq_some_iff] at hget
    obtain ⟨a, -, heq⟩ := hget
    have := congrArg Prod.snd heq
    simpa using this.symm

/-- The same over a list with its positions. -/
theorem foldlM_zipIdx_ok {α σ : Type} {f : σ → α × ℕ → Except ε σ} {xs : List α} {s : σ} (I : List α → σ → Prop)
    (hstep : ∀ before x after s, xs = before ++ x :: after → I before s →
      ∃ s', f s (x, before.length) = .ok s' ∧ I (before ++ [x]) s')
    (hstart : I [] s) : ∃ s', xs.zipIdx.foldlM f s = .ok s' ∧ I xs s' := by
  have hrun : ∃ s', xs.zipIdx.foldlM f s = .ok s' ∧ I (xs.zipIdx.map Prod.fst) s' := by
    refine foldlM_ok (fun before s => I (before.map Prod.fst) s) ?_ hstart
    rintro before ⟨x, k⟩ after s hsplit hs
    obtain ⟨hxs, rfl⟩ := zipIdx_split hsplit
    have hnext := hstep _ x _ s hxs hs
    rw [length_map] at hnext
    rwa [map_append]
  rwa [zipIdx_map_fst] at hrun

/-! ### Segments -/

theorem pagesAt_ok {plan : WavePrefixPlan} {s : PlanSegment} (h : plan.segments[seg]? = some s) :
    pagesAt plan seg = .ok (plan.pages seg) := by
  rw [pagesAt, fetch_bind h, WavePrefixPlan.pages, segmentPages, h]
  rfl

theorem slice_eq {tokens tokens' : Tokens} {start stop : ℕ} (h : tokens.take stop = tokens'.take stop) :
    slice tokens start stop = slice tokens' start stop :=
  congrArg (List.drop start) h

theorem checkParent_ok {seg : PlanSegment} (h : SegmentValid prompts block segments id seg) :
    checkParent segments seg = .ok () := by
  unfold checkParent
  cases hup : seg.parentId with
  | none => exact check_ok (h.root hup)
  | some up =>
    obtain ⟨-, parent, hparent, hend, hmembers, -⟩ := h.parent up hup
    dsimp only
    rw [fetch_bind hparent, check_bind hend]
    exact check_ok fun index hindex => hmembers hindex

theorem checkSegment_ok {seg : PlanSegment} (h : SegmentValid prompts block segments id seg) :
    checkSegment prompts block segments seg = .ok () := by
  have hpos : seg.members ≠ [] := by
    intro hnil
    have hshared := h.shared
    rw [hnil] at hshared
    split at hshared <;> cases hshared
  obtain ⟨first, rest, hmembers⟩ := exists_cons_of_ne_nil hpos
  have hfirst : first ∈ seg.members := by
    rw [hmembers]
    exact mem_cons_self
  obtain ⟨tokens, htokens, -⟩ := h.inside first hfirst
  have hhead : seg.members.head? = some first := by rw [hmembers, head?_cons]
  have hloaded : seg.materialized = true → seg.parentId = none ∧ seg.tokenStart = 0 := fun hload =>
    ⟨h.loaded hload, h.root (h.loaded hload)⟩
  unfold checkSegment
  rw [check_bind ⟨Nat.mod_eq_zero_of_dvd h.aligned.1, Nat.mod_eq_zero_of_dvd h.aligned.2⟩,
    check_bind h.nonempty, check_bind h.shared, check_bind hloaded, checkParent_ok h,
    ok_bind, fetch_bind hhead, fetch_bind htokens]
  refine except_forM_ok.2 fun index hindex => ?_
  obtain ⟨own, hown, hinside⟩ := h.inside index hindex
  have hnonempty := h.nonempty
  have hprivate : (seg.tokenEnd : ℤ) ≤ own.length - 1 := by omega
  unfold checkMember
  rw [fetch_bind hown, check_bind hprivate]
  exact check_ok (slice_eq (h.agree index hindex first hfirst own tokens hown htokens))

/-! ### Positions -/

def entriesAt (chunks : List PlanChunk) : List (ItemKey × ℕ) :=
  chunks.zipIdx.flatMap fun entry => entry.1.items.map fun item => (item.key, entry.2)

def ordersAt (chunks : List PlanChunk) : List (ItemKey × ℕ) :=
  chunks.flatMap fun chunk => chunk.items.zipIdx.map fun entry => (entry.1.key, entry.2)

def releasesAt (chunks : List PlanChunk) : List (ℕ × ℕ) :=
  chunks.zipIdx.flatMap fun entry => entry.1.releaseAfter.map fun seg => (seg, entry.2)

theorem zipIdx_flatMap_append {α β : Type*} (f : α × ℕ → List β) (xs : List α) (x : α) :
    (xs ++ [x]).zipIdx.flatMap f = xs.zipIdx.flatMap f ++ f (x, xs.length) := by
  rw [zipIdx_append, flatMap_append]
  simp

section

variable (done : List PlanChunk) (chunk : PlanChunk)
include done chunk

theorem entriesAt_append :
    entriesAt (done ++ [chunk]) = entriesAt done ++ chunk.items.map fun item => (item.key, done.length) :=
  zipIdx_flatMap_append _ done chunk

theorem ordersAt_append :
    ordersAt (done ++ [chunk]) = ordersAt done ++ chunk.items.zipIdx.map fun entry => (entry.1.key, entry.2) := by
  rw [ordersAt, flatMap_append, flatMap_singleton]
  rfl

theorem releasesAt_append :
    releasesAt (done ++ [chunk]) = releasesAt done ++ chunk.releaseAfter.map fun seg => (seg, done.length) :=
  zipIdx_flatMap_append _ done chunk

theorem releaseKeys_append :
    (releasesAt (done ++ [chunk])).map Prod.fst = (releasesAt done).map Prod.fst ++ chunk.releaseAfter := by
  rw [releasesAt_append, map_append, map_map]
  exact congrArg _ (map_id _)

theorem chunkItems_snoc : chunkItems (done ++ [chunk]) = chunkItems done ++ chunk.items := by
  rw [chunkItems_append]
  exact congrArg _ (append_nil _)

theorem peakPages_append : peakPages (done ++ [chunk]) = max (peakPages done) chunk.poolPagesInUse := by
  rw [peakPages, map_append, foldl_append]
  rfl

end

theorem entriesAt_keys (chunks : List PlanChunk) :
    (entriesAt chunks).map Prod.fst = (chunkItems chunks).map PlanItem.key := by
  induction chunks using List.reverseRecOn with
  | nil => rfl
  | append_singleton chunks chunk ih =>
    rw [entriesAt_append, chunkItems_snoc, map_append, map_append, ih, map_map]
    rfl

theorem ordersAt_keys (chunks : List PlanChunk) :
    (ordersAt chunks).map Prod.fst = (chunkItems chunks).map PlanItem.key := by
  induction chunks using List.reverseRecOn with
  | nil => rfl
  | append_singleton chunks chunk ih =>
    rw [ordersAt_append, chunkItems_snoc, map_append, map_append, ih, map_map]
    congr 1
    rw [← zipIdx_map_fst 0 chunk.items, map_map, zipIdx_map_fst]
    rfl

theorem mem_zipIdx_flatMap {α β : Type*} {f : α × ℕ → List β} {xs : List α} {b : β} :
    b ∈ xs.zipIdx.flatMap f ↔ ∃ before x after, xs = before ++ x :: after ∧ b ∈ f (x, before.length) := by
  rw [mem_flatMap]
  constructor
  · rintro ⟨⟨x, k⟩, hx, hb⟩
    obtain ⟨before, after, hsplit⟩ := append_of_mem hx
    obtain ⟨hxs, hk⟩ := zipIdx_split hsplit
    refine ⟨_, x, _, hxs, ?_⟩
    rwa [length_map, ← hk]
  · rintro ⟨before, x, after, rfl, hb⟩
    refine ⟨(x, before.length), ?_, hb⟩
    rw [mem_zipIdx_iff_getElem?, getElem?_append_right le_rfl, Nat.sub_self]
    rfl

/-- A list of entries, each with the position of the chunk it comes from. -/
theorem mem_positions {β γ : Type*} {g : PlanChunk → List γ} {f : γ → β} {b : β} :
    (b, position) ∈ chunks.zipIdx.flatMap (fun entry => (g entry.1).map fun c => (f c, entry.2)) ↔
      ∃ before chunk after, chunks = before ++ chunk :: after ∧ before.length = position ∧ b ∈ (g chunk).map f := by
  rw [mem_zipIdx_flatMap]
  simp only [mem_map, Prod.mk.injEq]
  constructor
  · rintro ⟨before, chunk, after, hsplit, c, hc, hb, hposition⟩
    exact ⟨before, chunk, after, hsplit, hposition, c, hc, hb⟩
  · rintro ⟨before, chunk, after, hsplit, hposition, c, hc, hb⟩
    exact ⟨before, chunk, after, hsplit, c, hc, hb, hposition⟩

theorem mem_entriesAt :
    (key, position) ∈ entriesAt chunks ↔ ∃ before chunk after, chunks = before ++ chunk :: after ∧
      before.length = position ∧ key ∈ chunk.items.map PlanItem.key :=
  mem_positions

theorem mem_releasesAt :
    (seg, position) ∈ releasesAt chunks ↔ ∃ before chunk after, chunks = before ++ chunk :: after ∧
      before.length = position ∧ seg ∈ chunk.releaseAfter := by
  rw [releasesAt, mem_positions]
  simp only [map_id']

theorem mem_planReads :
    (seg, position) ∈ planReads chunks ↔ ∃ before chunk after, chunks = before ++ chunk :: after ∧
      before.length = position ∧ ∃ x ∈ chunk.items, seg ∈ x.prefixSegments := by
  have hreads : planReads chunks = chunks.zipIdx.flatMap fun entry =>
      (entry.1.items.flatMap PlanItem.prefixSegments).map fun seg => (seg, entry.2) := by
    simp only [planReads, map_flatMap]
  rw [hreads, mem_positions (g := fun chunk => chunk.items.flatMap PlanItem.prefixSegments)]
  simp only [map_id', mem_flatMap]

/-! ### The contract at one position -/

section Replay

variable {items : List PlanItem} {plan : WavePrefixPlan} (h : PlanValid prompts items plan) {done : List PlanChunk}
  {chunk : PlanChunk} {x : PlanItem}

theorem checkChain_ok {up : Option ℕ} {chain : List ℕ}
    (hlinked : LinkedFrom (parentOf plan.segments) up chain) : checkChain plan chain = .ok () := by
  induction chain generalizing up with
  | nil => rfl
  | cons seg chain ih =>
    cases chain with
    | nil => rfl
    | cons next chain =>
      obtain ⟨s, hs, hparent⟩ := Option.bind_eq_some_iff.mp hlinked.2.1
      rw [checkChain, fetch_bind hs, check_bind hparent]
      exact ih hlinked.2

theorem checkStart_ok (hvalid : ItemValid prompts plan.segments x) : checkStart plan x = .ok () := by
  have hstart := hvalid.start
  unfold checkStart
  rw [chainEnd] at hstart
  cases hlast : x.prefixSegments.getLast? with
  | none =>
    rw [hlast] at hstart
    exact check_ok hstart
  | some last =>
    rw [hlast] at hstart
    have hlt := hvalid.known last (mem_of_getLast? hlast)
    have hget := getElem?_eq_getElem hlt
    have hend : x.tokenStart = (plan.segments[last]).tokenEnd := by
      refine hstart.trans ?_
      change endOf plan.segments last = _
      rw [endOf, hget]
      rfl
    dsimp only
    rw [fetch_bind hget]
    exact check_ok hend

theorem chunkItems_split (hsplit : plan.chunks = done ++ chunk :: rest) :
    chunkItems plan.chunks = chunkItems done ++ chunk.items ++ chunkItems rest := by
  rw [hsplit, chunkItems_append, chunkItems_cons, append_assoc]

include h

theorem PlanValid.chunk_ok (hsplit : plan.chunks = done ++ chunk :: rest) :
    ChunkOk plan.config plan.pages items (chunkItems done) chunk := by
  have hchunks := h.chunks
  rw [hsplit, chunksOk_append] at hchunks
  simpa using hchunks.2.1

theorem PlanValid.keys_nodup : ((chunkItems plan.chunks).map PlanItem.key).Nodup :=
  (h.perm.map _).nodup_iff.mpr h.work.keys

theorem PlanValid.items_nodup : (chunkItems plan.chunks).Nodup := h.keys_nodup.of_map _

theorem PlanValid.written_nodup : (written (chunkItems plan.chunks)).Nodup :=
  (h.perm.filterMap _).nodup_iff.mpr h.work.written_nodup

theorem PlanValid.written_split (hsplit : plan.chunks = done ++ chunk :: rest) :
    (written (chunkItems done) ++ written chunk.items).Nodup := by
  have hnodup := h.written_nodup
  rw [chunkItems_split hsplit, written_append, written_append] at hnodup
  exact (nodup_append.mp hnodup).1

theorem PlanValid.mem_items (hsplit : plan.chunks = done ++ chunk :: rest)
    (hx : x ∈ chunkItems done ++ chunk.items) : x ∈ items := by
  refine h.perm.mem_iff.mp ?_
  rw [chunkItems_split hsplit]
  exact mem_append_left _ hx

theorem PlanValid.mem_release (hsplit : plan.chunks = done ++ chunk :: rest) :
    seg ∈ chunk.releaseAfter ↔
      (seg ∈ written (chunkItems done) ∧ ¬ (itemTasks items).Over (chunkItems done) seg ∨ seg ∈ written chunk.items) ∧
        (itemTasks items).Over (chunkItems done ++ chunk.items) seg := by
  rw [(h.chunk_ok hsplit).release.mem_iff, Tasks.mem_expired]
  rfl

theorem PlanValid.written_iff : seg ∈ written (chunkItems plan.chunks) ↔ seg < plan.segments.length := by
  rw [← h.work.written_iff]
  exact (h.perm.filterMap PlanItem.writes).mem_iff

/-- What has been released is what is written and has no reader left. -/
theorem PlanValid.mem_releases_iff (hsplit : plan.chunks = done ++ rest) : seg ∈ (releasesAt done).map Prod.fst ↔
    seg ∈ written (chunkItems done) ∧ (itemTasks items).Over (chunkItems done) seg := by
  induction done using List.reverseRecOn generalizing rest with
  | nil => exact ⟨fun hseg => (by cases hseg), fun hseg => (by cases hseg.1)⟩
  | append_singleton done chunk ih =>
    rw [append_assoc, singleton_append] at hsplit
    rw [releaseKeys_append, mem_append, ih hsplit, h.mem_release hsplit, chunkItems_snoc, written_append, mem_append]
    by_cases hbefore : seg ∈ written (chunkItems done) ∧ (itemTasks items).Over (chunkItems done) seg
    · have hover : (itemTasks items).Over (chunkItems done ++ chunk.items) seg :=
        hbefore.2.mono fun x _ hx => mem_append_left _ hx
      exact ⟨fun _ => ⟨Or.inl hbefore.1, hover⟩, fun _ => Or.inl hbefore⟩
    · rw [or_iff_right hbefore]
      refine and_congr_left fun _ => ⟨Or.imp_left And.left, Or.imp_left fun hin => ⟨hin, fun hno => ?_⟩⟩
      exact hbefore ⟨hin, hno⟩

theorem PlanValid.expired_fresh (hsplit : plan.chunks = done ++ chunk :: rest)
    (hseg : seg ∈ chunk.releaseAfter) : seg ∉ (releasesAt done).map Prod.fst := by
  intro hin
  obtain ⟨hwritten, hover⟩ := (h.mem_releases_iff hsplit).mp hin
  have hexpired := (h.mem_release hsplit).mp hseg
  rcases hexpired.1 with hlive | hnew
  · exact hlive.2 hover
  · exact (nodup_append.mp (h.written_split hsplit)).2.2 seg hwritten seg hnew rfl

theorem PlanValid.release_nodup (hsplit : plan.chunks = done ++ chunk :: rest) : chunk.releaseAfter.Nodup := by
  rw [(h.chunk_ok hsplit).release.nodup_iff]
  exact List.Nodup.filter _ ((h.written_split hsplit).sublist (filter_sublist.append (List.Sublist.refl _)))

theorem PlanValid.releases_nodup (hsplit : plan.chunks = done ++ rest) : ((releasesAt done).map Prod.fst).Nodup := by
  induction done using List.reverseRecOn generalizing rest with
  | nil => exact nodup_nil
  | append_singleton done chunk ih =>
    rw [append_assoc, singleton_append] at hsplit
    rw [releaseKeys_append, nodup_append]
    refine ⟨ih hsplit, h.release_nodup hsplit, ?_⟩
    rintro seg hold other hnew rfl
    exact h.expired_fresh hsplit hnew hold

/-! ### One item -/

/-- The validator's state behind the chunks `done` and the items `before` of the next chunk. -/
structure CheckedAt (plan : WavePrefixPlan) (items : List PlanItem) (done : List PlanChunk)
    (before : List PlanItem) (st : Checked) : Prop where
  computedAt : st.computedAt = entriesAt done ++ before.map fun item => (item.key, done.length)
  orderAt : st.orderAt = ordersAt done ++ before.zipIdx.map fun entry => (entry.1.key, entry.2)
  releasedAt : st.releasedAt = releasesAt done
  live : st.live =
    sumPages plan.pages ((itemTasks items).resident (chunkItems done) ++ written before)
  peak : st.peak = peakPages done

variable {before after : List PlanItem} {st : Checked}
  (hsplit : plan.chunks = done ++ chunk :: rest) (hitems : chunk.items = before ++ x :: after)

include hsplit hitems in
theorem PlanValid.seen_nodup : ((chunkItems done ++ before).map PlanItem.key ++ [x.key]).Nodup := by
  have hnodup := h.keys_nodup
  have hsplitItems : chunkItems plan.chunks = ((chunkItems done ++ before) ++ [x]) ++ (after ++ chunkItems rest) := by
    rw [chunkItems_split hsplit, hitems]
    simp
  rw [hsplitItems, map_append, map_append, nodup_append] at hnodup
  exact hnodup.1

include hsplit hitems in
theorem PlanValid.key_fresh : x.key ∉ (chunkItems done ++ before).map PlanItem.key := fun hin =>
  (nodup_append.mp (h.seen_nodup hsplit hitems)).2.2 x.key hin x.key (mem_singleton_self _) rfl

include hsplit hitems in
theorem PlanValid.item_mem : x ∈ items := h.mem_items hsplit (mem_append_right _ (mem_of_split hitems))

include hsplit hitems in
/-- A read finds its segment computed and not yet released. -/
theorem checkRead_ok (hst : CheckedAt plan items done (before ++ [x]) st) (hseg : seg ∈ x.prefixSegments) :
    checkRead plan done.length before.length x.key st seg = .ok () := by
  have hseen := h.seen_nodup hsplit hitems
  have hcomputedKeys : (st.computedAt.map Prod.fst).Nodup := by
    have hkeys : ((before ++ [x]).map fun item => (item.key, done.length)).map Prod.fst =
        (before ++ [x]).map PlanItem.key := by
      rw [map_map]
      rfl
    rw [hst.computedAt, map_append, entriesAt_keys, hkeys]
    simpa using hseen
  have horderKeys : (st.orderAt.map Prod.fst).Nodup := by
    have hkeys : ((before ++ [x]).zipIdx.map fun entry => (entry.1.key, entry.2)).map Prod.fst =
        (before ++ [x]).map PlanItem.key := by
      rw [map_map]
      conv_rhs => rw [← zipIdx_map_fst 0 (before ++ [x]), map_map]
      rfl
    rw [hst.orderAt, map_append, ordersAt_keys, hkeys]
    simpa using hseen
  -- it is released only behind its last reader
  have hnotReleased : st.releasedAt.lookup seg = none := by
    rw [lookup_none_iff, hst.releasedAt]
    intro hin
    have hdone := ((h.mem_releases_iff hsplit).mp hin).2 x (h.item_mem hsplit hitems) hseg
    refine h.key_fresh hsplit hitems ?_
    rw [map_append]
    exact mem_append_left _ (mem_map_of_mem hdone)
  unfold checkRead
  rw [hnotReleased]
  rcases (h.chunk_ok hsplit).reads before x after hitems seg hseg with hwritten | ⟨hsame, hwritten⟩
  · obtain ⟨y, hy, hywrites⟩ := mem_written.mp hwritten
    have hykey := key_eq_segment.mpr hywrites
    obtain ⟨front, earlier, back, hdone, hyitems⟩ : ∃ front earlier back,
        done = front ++ earlier :: back ∧ y ∈ earlier.items := by
      obtain ⟨earlier, hearlier, hyitems⟩ := mem_flatMap.mp hy
      obtain ⟨front, back, hdone⟩ := append_of_mem hearlier
      exact ⟨front, earlier, back, hdone, hyitems⟩
    have hlookup : st.computedAt.lookup (.segment seg) = some front.length := by
      rw [lookup_eq_some_iff hcomputedKeys, hst.computedAt]
      exact mem_append_left _ (mem_entriesAt.mpr ⟨front, earlier, back, hdone, rfl, mem_map.mpr ⟨y, hyitems, hykey⟩⟩)
    have hlt : front.length < done.length := by
      rw [hdone, length_append, length_cons]
      omega
    have hnot : ¬ (plan.sameChunkAncestors = true ∧ front.length = done.length) := fun hboth =>
      hlt.ne hboth.2
    rw [hlookup, Option.getD_some]
    dsimp only
    rw [if_neg hnot, ok_bind, check_bind (Or.inl hlt)]
    exact check_ok le_rfl
  · obtain ⟨y, hy, hywrites⟩ := mem_written.mp hwritten
    have hykey := key_eq_segment.mpr hywrites
    obtain ⟨front, back, hbefore⟩ := append_of_mem hy
    have hlookup : st.computedAt.lookup (.segment seg) = some done.length := by
      rw [lookup_eq_some_iff hcomputedKeys, hst.computedAt]
      refine mem_append_right _ (mem_map.mpr ⟨y, mem_append_left _ hy, ?_⟩)
      rw [hykey]
    have horderLookup : st.orderAt.lookup (.segment seg) = some front.length := by
      rw [lookup_eq_some_iff horderKeys, hst.orderAt]
      refine mem_append_right _ (mem_map.mpr ⟨(y, front.length), ?_, ?_⟩)
      · rw [mem_zipIdx_iff_getElem?, hbefore, append_assoc, getElem?_append_right le_rfl, Nat.sub_self]
        rfl
      · rw [hykey]
    have hlt : front.length < before.length := by
      rw [hbefore, length_append, length_cons]
      omega
    have hsamePlan : plan.sameChunkAncestors = true ∧ done.length = done.length := ⟨hsame, rfl⟩
    rw [hlookup, Option.getD_some]
    dsimp only
    rw [if_pos hsamePlan, fetch_bind horderLookup, ok_bind, check_bind (Or.inr (decide_eq_true hlt))]
    exact check_ok le_rfl

theorem checkKind_ok (hx : x ∈ items) (hnonempty : ∀ tokens ∈ prompts, tokens ≠ []) :
    checkKind plan prompts x = .ok (sumPages plan.pages (written [x])) := by
  have hvalid := h.work.valid x hx
  have hseg : x.kind ≠ .tail → ∃ seg, plan.segments[x.ref]? = some seg ∧
      seg.materialized = decide (x.kind = .materialize) ∧
      (x.tokenStart = seg.tokenStart ∧ x.tokenEnd = seg.tokenEnd) ∧
      (x.prefixSegments = [] ∨ seg.materialized = false) ∧
      pagesAt plan x.ref = .ok (plan.pages x.ref) := by
    intro hkind
    obtain ⟨seg, hget, hloaded, hstart, hend, hparent⟩ := hvalid.segment hkind
    refine ⟨seg, hget, hloaded, ⟨hstart, hend⟩, ?_, pagesAt_ok hget⟩
    cases hmat : seg.materialized with
    | false => exact Or.inr rfl
    | true =>
      have hroot := (h.segments x.ref seg hget).loaded hmat
      exact Or.inl (getLast?_eq_none_iff.mp (hparent.symm.trans hroot))
  unfold checkKind
  cases hkind : x.kind with
  | tail =>
    obtain ⟨tokens, htokens, hend, hlt, hmem⟩ := hvalid.tail hkind
    have hlong : x.tokenStart + 1 ≤ x.tokenEnd := hlt (hnonempty tokens (mem_of_getElem? htokens))
    have hpooled : ∀ seg, seg ∈ (plan.segments.filter fun s => x.ref ∈ s.members).map
        PlanSegment.segmentId ↔ seg ∈ x.prefixSegments := by
      intro seg
      rw [hmem, mem_map]
      constructor
      · rintro ⟨s, hs, rfl⟩
        obtain ⟨hin, href⟩ := mem_filter.mp hs
        obtain ⟨id, hid⟩ := mem_iff_getElem?.mp hin
        have hnumbered := (h.segments id s hid).numbered
        exact ⟨s, hnumbered ▸ hid, of_decide_eq_true href⟩
      · rintro ⟨s, hs, href⟩
        exact ⟨s, mem_filter.mpr ⟨mem_of_getElem? hs, decide_eq_true href⟩, (h.segments seg s hs).numbered⟩
    have hwritten : written [x] = [] := by simp [written, PlanItem.writes, hkind]
    dsimp only
    rw [fetch_bind htokens, check_bind hend, check_bind hlong,
      check_bind ⟨fun seg hin => (hpooled seg).mpr hin, fun seg hin => (hpooled seg).mp hin⟩,
      hwritten]
    rfl
  | segment | materialize =>
    obtain ⟨seg, hget, hloaded, hrange, hroot, hpages⟩ := hseg (by rw [hkind]; simp)
    have hwritten : written [x] = [x.ref] := by simp [written, PlanItem.writes, hkind]
    rw [hkind] at hloaded
    dsimp only
    rw [fetch_bind hget, check_bind hloaded, check_bind hrange, check_bind hroot, hpages, hwritten]
    simp [sumPages]

include hsplit hitems in
theorem checkItem_ok (hnonempty : ∀ tokens ∈ prompts, tokens ≠ []) (hst : CheckedAt plan items done before st) :
    ∃ st', checkItem plan prompts done.length st (x, before.length) = .ok st' ∧
      CheckedAt plan items done (before ++ [x]) st' := by
  have hx := h.item_mem hsplit hitems
  have hvalid := h.work.valid x hx
  have hfresh : st.computedAt.lookup x.key = none := by
    have hkeys : st.computedAt.map Prod.fst = (chunkItems done ++ before).map PlanItem.key := by
      rw [hst.computedAt, map_append, entriesAt_keys, map_append, map_map]
      rfl
    rw [lookup_none_iff, hkeys]
    exact h.key_fresh hsplit hitems
  have hnext : CheckedAt plan items done (before ++ [x]) { st with
      computedAt := st.computedAt ++ [(x.key, done.length)]
      orderAt := st.orderAt ++ [(x.key, before.length)]
      live := st.live + sumPages plan.pages (written [x]) } := by
    refine ⟨?_, ?_, hst.releasedAt, ?_, hst.peak⟩
    · rw [hst.computedAt, map_append, append_assoc]
      rfl
    · rw [hst.orderAt, zipIdx_append, map_append, append_assoc]
      simp
    · rw [hst.live]
      simp only [written_append, sumPages_append]
      push_cast
      omega
  have hreads : ∀ seg ∈ x.prefixSegments, checkRead plan done.length before.length x.key { st with
      computedAt := st.computedAt ++ [(x.key, done.length)]
      orderAt := st.orderAt ++ [(x.key, before.length)] } seg = .ok () := by
    intro seg hseg
    -- the reads do not look at the pages
    have hread := checkRead_ok h hsplit hitems hnext hseg
    exact hread
  unfold checkItem
  dsimp only
  rw [check_bind hfresh, except_forM_ok.2 hreads, ok_bind, checkStart_ok hvalid, ok_bind,
    checkChain_ok hvalid.linked, ok_bind, checkKind_ok h hx hnonempty, ok_bind]
  exact ⟨_, rfl, hnext⟩

/-! ### One chunk -/

omit hitems in
include hsplit in
theorem checkReleases_ok (st : Checked) (hreleased : st.releasedAt = releasesAt done) :
    chunk.releaseAfter.foldlM (checkRelease plan done.length) st = .ok { st with
      releasedAt := releasesAt (done ++ [chunk])
      live := st.live - sumPages plan.pages chunk.releaseAfter } := by
  have hnodup := h.release_nodup hsplit
  rw [releasesAt_append]
  refine (foldlM_ok (f := checkRelease plan done.length) (s := st) (fun segs last => last = { st with
      releasedAt := releasesAt done ++ segs.map fun seg => (seg, done.length)
      live := st.live - sumPages plan.pages segs }) ?_ ?_).elim fun last hlast => hlast.1.trans (congrArg _ hlast.2)
  · rintro front seg back mid hsegs rfl
    have hseg := mem_of_split hsegs
    have hfresh : (releasesAt done ++ front.map fun seg => (seg, done.length)).lookup seg = none := by
      rw [lookup_none_iff, map_append, map_map, mem_append]
      rintro (hin | hin)
      · exact h.expired_fresh hsplit hseg hin
      · obtain ⟨other, hother, rfl⟩ := mem_map.mp hin
        rw [hsegs, nodup_append] at hnodup
        exact hnodup.2.2 other hother other mem_cons_self rfl
    have hlt : seg < plan.segments.length := by
      rw [← h.written_iff, chunkItems_split hsplit, written_append, written_append]
      refine mem_append_left _ (mem_append.mpr ?_)
      exact ((h.mem_release hsplit).mp hseg).1.imp_left And.left
    unfold checkRelease
    rw [check_bind hfresh, pagesAt_ok (getElem?_eq_getElem hlt), ok_bind]
    refine ⟨_, rfl, ?_⟩
    have hpages : sumPages plan.pages (front ++ [seg]) = sumPages plan.pages front + plan.pages seg := by
      simp [sumPages]
    simp only [map_append, map_cons, map_nil, append_assoc, hpages]
    push_cast
    rw [sub_sub]
  · simp [← hreleased, sumPages]

omit hitems in
include hsplit in
theorem checkChunk_ok (hnonempty : ∀ tokens ∈ prompts, tokens ≠ []) (hst : CheckedAt plan items done [] st) :
    ∃ st', checkChunk plan prompts st (chunk, done.length) = .ok st' ∧
      CheckedAt plan items (done ++ [chunk]) [] st' := by
  have hok := h.chunk_ok hsplit
  have hitemsNe : chunk.items ≠ [] := by
    intro hnil
    refine hok.forward ?_
    rw [hnil]
    rfl
  have hbudget : checkBudget plan (forwardItems chunk.items) = .ok () := by
    have htokens : sumTokens (forwardItems chunk.items) ≤ plan.chunkTokens ∨
        (forwardItems chunk.items).length = 1 := hok.tokens
    unfold checkBudget
    rw [check_bind htokens]
    cases hkeys : plan.chunkKeys with
    | none => rfl
    | some chunkKeys => exact check_ok (hok.keys chunkKeys hkeys)
  obtain ⟨mid, hmid, hmidAt⟩ := foldlM_zipIdx_ok (CheckedAt plan items done)
    (fun _ _ _ _ hsplitItems hs => checkItem_ok h hsplit hsplitItems hnonempty hs) hst
  have hinUse : chunk.poolPagesInUse = mid.live := hok.inUse.trans hmidAt.live.symm
  have hlast := checkReleases_ok h hsplit { mid with peak := max mid.peak mid.live } hmidAt.releasedAt
  unfold checkChunk
  dsimp only
  rw [check_bind hitemsNe, check_bind hok.forward, hbudget, ok_bind, hmid, ok_bind, check_bind hinUse]
  refine ⟨_, hlast, ?_, ?_, rfl, ?_, ?_⟩
  · exact (hmidAt.computedAt.trans (entriesAt_append done chunk).symm).trans (append_nil _).symm
  · exact (hmidAt.orderAt.trans (ordersAt_append done chunk).symm).trans (append_nil _).symm
  · have hweight : sumPages plan.pages ((itemTasks items).resident (chunkItems done ++ chunk.items)) +
          sumPages plan.pages ((itemTasks items).expired (chunkItems done) chunk.items) =
        sumPages plan.pages ((itemTasks items).resident (chunkItems done)) +
          sumPages plan.pages (written chunk.items) := (itemTasks items).weight_split plan.pages
    have hreleasedPages : sumPages plan.pages chunk.releaseAfter =
        sumPages plan.pages ((itemTasks items).expired (chunkItems done) chunk.items) :=
      (hok.release.map plan.pages).sum_eq
    have hbefore := hmidAt.live
    rw [sumPages_append] at hbefore
    rw [chunkItems_snoc]
    change mid.live - _ = _
    have hnil : sumPages plan.pages ((itemTasks items).resident (chunkItems done ++ chunk.items) ++
        written []) = sumPages plan.pages ((itemTasks items).resident (chunkItems done ++ chunk.items)) :=
      congrArg _ (append_nil _)
    rw [hnil]
    omega
  · rw [peakPages_append, ← hmidAt.peak, hinUse]

end Replay

/-! ### Behind the last chunk -/

/-- The largest position of a read of `seg`, but at least `first`. -/
def maxRead (reads : List (ℕ × ℕ)) (seg first : ℕ) : ℕ :=
  (reads.filter fun read => read.1 = seg).foldl (fun last read => max last read.2) first

theorem maxRead_append (reads : List (ℕ × ℕ)) (read : ℕ × ℕ) (seg first : ℕ) : maxRead (reads ++ [read]) seg first =
      if seg = read.1 then max (maxRead reads seg first) read.2 else maxRead reads seg first := by
  rw [maxRead, filter_append, foldl_append]
  by_cases heq : read.1 = seg
  · rw [if_pos heq.symm]
    simp [heq, maxRead]
  · rw [if_neg fun hsym => heq hsym.symm]
    simp [heq, maxRead]

theorem maxRead_le_iff {last : ℕ} : maxRead reads seg first ≤ last ↔
    first ≤ last ∧ ∀ position, (seg, position) ∈ reads → position ≤ last := by
  induction reads using List.reverseRecOn with
  | nil => exact ⟨fun hle => ⟨hle, fun position hin => by cases hin⟩, And.left⟩
  | append_singleton reads read ih =>
    obtain ⟨seg', position⟩ := read
    rw [maxRead_append]
    split
    · rename_i heq
      cases heq
      rw [max_le_iff, ih, and_assoc]
      simp [or_imp, forall_and]
    · rename_i hne
      have hother : seg ≠ seg' := hne
      rw [ih]
      simp [hother]

theorem dictMax_fold {dict : List (ℕ × ℕ)} (hkeys : ∀ read ∈ reads, read.1 ∈ dict.map Prod.fst) :
    reads.foldlM dictMax dict = .ok (dict.map fun entry => (entry.1, maxRead reads entry.1 entry.2)) := by
  induction reads using List.reverseRecOn with
  | nil =>
    have hid : dict.map (fun entry => (entry.1, maxRead [] entry.1 entry.2)) = dict := map_id dict
    rw [hid]
    rfl
  | append_singleton reads read ih =>
    rw [foldlM_append, ih fun r hr => hkeys r (mem_append_left _ hr)]
    have hfound : ∃ value, (dict.map fun entry => (entry.1, maxRead reads entry.1 entry.2)).lookup
        read.1 = some value := by
      refine Option.ne_none_iff_exists'.mp fun hnone => ?_
      rw [lookup_none_iff, map_map] at hnone
      exact hnone (hkeys read (mem_append_right _ mem_cons_self))
    obtain ⟨value, hvalue⟩ := hfound
    change (dictMax _ read >>= fun s => pure s) = _
    rw [dictMax, fetch_bind hvalue, ok_bind, map_map]
    refine congrArg Except.ok (map_congr_left fun entry _ => ?_)
    simp only [comp_apply]
    rw [maxRead_append]
    split <;> rfl

section Last

variable {items : List PlanItem} {plan : WavePrefixPlan} (h : PlanValid prompts items plan)
include h

/-- In one chunk only. -/
theorem PlanValid.position_le {before before' rest' : List PlanChunk} {chunk chunk' : PlanChunk} {x : PlanItem}
    (hsplit : plan.chunks = before ++ chunk :: rest) (hsplit' : plan.chunks = before' ++ chunk' :: rest')
    (hx : x ∈ chunkItems before ++ chunk.items) (hx' : x ∈ chunk'.items) : before'.length ≤ before.length := by
  by_contra hlt
  have hnodup := h.items_nodup
  have hfront : before ++ [chunk] <+: before' := by
    have hchunk : before ++ [chunk] <+: plan.chunks := ⟨rest, by rw [hsplit, append_assoc, singleton_append]⟩
    refine prefix_of_prefix_length_le hchunk ⟨chunk' :: rest', hsplit'.symm⟩ ?_
    rw [length_append, length_singleton]
    omega
  obtain ⟨mid, rfl⟩ := hfront
  rw [hsplit', chunkItems_append, chunkItems_append, chunkItems_snoc] at hnodup
  have hleft : x ∈ chunkItems before ++ chunk.items ++ chunkItems mid := mem_append_left _ hx
  have hright : x ∈ chunkItems (chunk' :: rest') := mem_append_left _ hx'
  exact (nodup_append.mp hnodup).2.2 x hleft x hright rfl

/-- A segment is released in the chunk of its last reader. -/
theorem PlanValid.release_position (hreleased : (seg, position) ∈ releasesAt plan.chunks)
    (hcomputed : (ItemKey.segment seg, first) ∈ entriesAt plan.chunks) :
    maxRead (planReads plan.chunks) seg first = position := by
  obtain ⟨before, chunk, rest, hsplit, rfl, hseg⟩ := mem_releasesAt.mp hreleased
  obtain ⟨front, earlier, back, hsplit', rfl, hkey⟩ := mem_entriesAt.mp hcomputed
  obtain ⟨y, hy, hykey⟩ := mem_map.mp hkey
  have hywrites := writes_eq_some.mpr (key_eq_segment.mp hykey)
  have hexpired := (h.mem_release hsplit).mp hseg
  have hyitems := h.mem_items hsplit' (mem_append_right _ hy)
  have hywritten : y ∈ chunkItems before ++ chunk.items := by
    have hin : seg ∈ written (chunkItems before ++ chunk.items) := by
      rw [written_append, mem_append]
      exact hexpired.1.imp_left And.left
    obtain ⟨z, hz, hzwrites⟩ := mem_written.mp hin
    rw [h.work.eq_of_writes hyitems (h.mem_items hsplit hz) hywrites (writes_eq_some.mpr hzwrites)]
    exact hz
  have hbounds := maxRead_le_iff.mp (le_refl (maxRead (planReads plan.chunks) seg front.length))
  refine le_antisymm (maxRead_le_iff.mpr ⟨h.position_le hsplit hsplit' hywritten hy, ?_⟩) ?_
  · intro position hposition
    obtain ⟨d, c, r, hd, rfl, x, hx, hs⟩ := mem_planReads.mp hposition
    exact h.position_le hsplit hd (hexpired.2 x (h.mem_items hd (mem_append_right _ hx)) hs) hx
  · rcases hexpired.1 with ⟨-, hlive⟩ | hnew
    · -- a reader was left before this chunk
      refine hbounds.2 _ (mem_planReads.mpr ⟨before, chunk, rest, hsplit, rfl, ?_⟩)
      have hsome : ∃ x ∈ items, seg ∈ x.prefixSegments ∧ x ∉ chunkItems before := by
        by_contra hnone
        push Not at hnone
        exact hlive fun x hx hs => hnone x hx hs
      obtain ⟨x, hx, hs, hnot⟩ := hsome
      exact ⟨x, (mem_append.mp (hexpired.2 x hx hs)).resolve_left hnot, hs⟩
    · -- or the segment is new
      obtain ⟨z, hz, hzwrites⟩ := mem_written.mp hnew
      have hzitems := h.mem_items hsplit (mem_append_right _ hz)
      have heq := h.work.eq_of_writes hyitems hzitems hywrites (writes_eq_some.mpr hzwrites)
      exact (h.position_le hsplit' hsplit (mem_append_right _ hy) (heq ▸ hz)).trans hbounds.1

theorem PlanValid.over_all (seg : ℕ) : (itemTasks items).Over (chunkItems plan.chunks) seg :=
  fun _ hx _ => h.perm.mem_iff.mpr hx

theorem PlanValid.resident_nil : (itemTasks items).resident (chunkItems plan.chunks) = [] :=
  filter_eq_nil_iff.mpr fun seg _ hlive => of_decide_eq_true hlive (h.over_all seg)

theorem PlanValid.mem_releases : seg ∈ (releasesAt plan.chunks).map Prod.fst ↔ seg < plan.segments.length := by
  rw [← h.written_iff, h.mem_releases_iff (append_nil _).symm]
  exact and_iff_left (h.over_all seg)

theorem PlanValid.ids_eq : plan.segments.map PlanSegment.segmentId = List.range plan.segments.length := by
  refine ext_getElem (by simp) fun id hid _ => ?_
  rw [length_map] at hid
  rw [getElem_map, getElem_range, (h.segments id _ (getElem?_eq_getElem hid)).numbered]

theorem PlanValid.mem_keys : key ∈ (entriesAt plan.chunks).map Prod.fst ↔ key ∈ expectedKeys plan prompts := by
  have hids : plan.segments.map (fun seg => ItemKey.segment seg.segmentId) =
      (List.range plan.segments.length).map ItemKey.segment := by
    rw [← h.ids_eq, map_map]
    rfl
  rw [entriesAt_keys, expectedKeys, hids]
  exact ((h.perm.map _).trans h.work.keys_perm).mem_iff

theorem PlanValid.peak_le {done : List PlanChunk} (hsplit : plan.chunks = done ++ rest) :
    peakPages done ≤ plan.poolPages := by
  induction done using List.reverseRecOn generalizing rest with
  | nil => exact Int.natCast_nonneg _
  | append_singleton done chunk ih =>
    rw [append_assoc, singleton_append] at hsplit
    rw [peakPages_append]
    exact max_le (ih hsplit) (h.chunk_ok hsplit).fits

omit h in
theorem mapM_ok {α β : Type} {f : α → Except ε β} {g : α → β} {xs : List α}
    (h : ∀ x ∈ xs, f x = .ok (g x)) : xs.mapM f = .ok (xs.map g) := by
  induction xs with
  | nil => rfl
  | cons x xs ih =>
    rw [mapM_cons, h x mem_cons_self, ok_bind, ih fun y hy => h y (mem_cons_of_mem _ hy)]
    rfl

/-- The dictionary of the last reads before the reads: each segment with the position it is computed at. -/
def firstAt (plan : WavePrefixPlan) (st : Checked) : List (ℕ × ℕ) :=
  plan.segments.map fun seg => (seg.segmentId, (st.computedAt.lookup (.segment seg.segmentId)).getD 0)

theorem PlanValid.firstAt_keys (st : Checked) : (firstAt plan st).map Prod.fst = List.range plan.segments.length := by
  rw [← h.ids_eq, firstAt, map_map]
  rfl

/-- The validator's last dictionary is the one of the releases. -/
theorem PlanValid.lastRead_ok {st : Checked} (hst : CheckedAt plan items plan.chunks [] st) :
    ∃ last, lastRead plan st = .ok last ∧ sameDict st.releasedAt last := by
  have hcomputed : st.computedAt = entriesAt plan.chunks := hst.computedAt.trans (append_nil _)
  have hkeys : ((entriesAt plan.chunks).map Prod.fst).Nodup := by
    rw [entriesAt_keys]
    exact h.keys_nodup
  have hposition : ∀ seg < plan.segments.length, ∃ first, (ItemKey.segment seg, first) ∈ entriesAt plan.chunks := by
    intro seg hlt
    have hin : ItemKey.segment seg ∈ (entriesAt plan.chunks).map Prod.fst := by
      rw [entriesAt_keys, (h.perm.map _).mem_iff, h.work.hasSegments]
      exact hlt
    obtain ⟨⟨key, first⟩, hentry, rfl⟩ := mem_map.mp hin
    exact ⟨first, hentry⟩
  have hfirst : ∀ seg ∈ plan.segments, (do
      let position ← fetch (st.computedAt.lookup (.segment seg.segmentId)) .keyError
      .ok (seg.segmentId, position) : Except PlanAssertion (ℕ × ℕ)) =
        .ok (seg.segmentId, (st.computedAt.lookup (.segment seg.segmentId)).getD 0) := by
    intro seg hseg
    obtain ⟨id, hid⟩ := mem_iff_getElem?.mp hseg
    obtain ⟨first, hentry⟩ := hposition id (List.getElem?_eq_some_iff.mp hid).1
    rw [(h.segments id seg hid).numbered, hcomputed, (lookup_eq_some_iff hkeys).mpr hentry]
    rfl
  have hreads : ∀ read ∈ planReads plan.chunks, read.1 ∈ (firstAt plan st).map Prod.fst := by
    rintro ⟨seg, position⟩ hread
    rw [h.firstAt_keys, mem_range]
    obtain ⟨d, c, r, hd, -, x, hx, hbegins⟩ := mem_planReads.mp hread
    exact (h.work.valid x (h.mem_items hd (mem_append_right _ hx))).known seg hbegins
  have hlast : lastRead plan st = (planReads plan.chunks).foldlM dictMax (firstAt plan st) := by
    rw [lastRead, mapM_ok hfirst, ok_bind, firstAt]
  refine ⟨_, hlast.trans (dictMax_fold hreads), fun seg hseg => ?_⟩
  have hlastKeys : ((firstAt plan st).map fun entry =>
      (entry.1, maxRead (planReads plan.chunks) entry.1 entry.2)).map Prod.fst = List.range plan.segments.length := by
    rw [← h.firstAt_keys st, map_map]
    rfl
  rw [hlastKeys, mem_append, hst.releasedAt, h.mem_releases, mem_range, or_self] at hseg
  obtain ⟨⟨seg', position⟩, hreleased, rfl⟩ := mem_map.mp (h.mem_releases.mpr hseg)
  obtain ⟨first, hentry⟩ := hposition seg' hseg
  have hmax := h.release_position hreleased hentry
  rw [hst.releasedAt, (lookup_eq_some_iff (h.releases_nodup (append_nil _).symm)).mpr hreleased]
  refine Eq.symm ((lookup_eq_some_iff (by rw [hlastKeys]; exact nodup_range)).mpr ?_)
  have hget := getElem?_eq_getElem hseg
  refine mem_map.mpr ⟨(seg', first), mem_map.mpr ⟨_, mem_of_getElem? hget, ?_⟩, ?_⟩
  · rw [(h.segments seg' _ hget).numbered, hcomputed, (lookup_eq_some_iff hkeys).mpr hentry]
    rfl
  · rw [hmax]

omit h in
theorem sum_filter_split (segments : List PlanSegment) (f g : PlanSegment → ℕ) :
    ((segments.filter fun seg => seg.materialized = false).map f).sum +
        ((segments.filter fun seg => seg.materialized = true).map g).sum =
      (segments.map fun seg => if seg.materialized = true then g seg else f seg).sum := by
  induction segments with
  | nil => rfl
  | cons seg segments ih =>
    cases hload : seg.materialized <;> simp [hload] at ih ⊢ <;> omega

theorem PlanValid.checkTokens_ok (hnonempty : ∀ tokens ∈ prompts, tokens ≠ []) : checkTokens plan prompts = .ok () := by
  have hcomputed : computedTokens plan.chunks = sumTokens (forwardItems items) := ((h.perm.filter _).map _).sum_eq
  have hconserved := h.work.tokens_conserved h.segments hnonempty
  have htotal : (prompts.map List.length).sum = computedTokens plan.chunks +
      ((plan.segments.filter fun seg => seg.materialized = false).map fun seg =>
        (seg.members.length - 1) * seg.tokens).sum +
      ((plan.segments.filter fun seg => seg.materialized = true).map fun seg =>
        seg.members.length * seg.tokens).sum := by
    rw [Nat.add_assoc, sum_filter_split, ← hconserved, hcomputed]
    congr 2
    refine map_congr_left fun seg _ => ?_
    split <;> rfl
  unfold checkTokens
  dsimp only
  rw [check_bind h.promptTokens, check_bind h.computed, check_bind h.loaded]
  exact check_ok htotal

/-- Every plan that keeps the contract passes the validator. -/
theorem PlanValid.validate_ok (hnonempty : ∀ tokens ∈ prompts, tokens ≠ []) :
    validateWavePrefixPlan plan prompts = .ok () := by
  have hsegments : ∀ seg ∈ plan.segments, checkSegment prompts plan.blockTokens plan.segments seg = .ok () := by
    intro seg hseg
    obtain ⟨id, hid⟩ := mem_iff_getElem?.mp hseg
    exact checkSegment_ok (h.segments id seg hid)
  have hstart : CheckedAt plan items [] [] Checked.start := ⟨rfl, rfl, rfl, rfl, rfl⟩
  obtain ⟨st, hloop, hst⟩ := foldlM_zipIdx_ok (fun done st => CheckedAt plan items done [] st)
    (fun _ _ _ _ hsplit hs => checkChunk_ok h hsplit hnonempty hs) hstart
  have hlive : st.live = 0 := by
    rw [hst.live, h.resident_nil]
    rfl
  have hpeak : st.peak = plan.peakPoolPages ∧ plan.peakPoolPages ≤ plan.poolPages := by
    rw [hst.peak, h.peak]
    exact ⟨rfl, h.peak_le (append_nil _).symm⟩
  have hreleases : sameSet (st.releasedAt.map Prod.fst) (List.range plan.segments.length) := by
    rw [hst.releasedAt]
    exact ⟨fun seg hseg => mem_range.mpr (h.mem_releases.mp hseg),
      fun seg hseg => h.mem_releases.mpr (mem_range.mp hseg)⟩
  have hkeys : sameSet (st.computedAt.map Prod.fst) (expectedKeys plan prompts) := by
    rw [hst.computedAt, map_nil, append_nil]
    exact ⟨fun key hkey => h.mem_keys.mp hkey, fun key hkey => h.mem_keys.mpr hkey⟩
  obtain ⟨last, hlast, hsame⟩ := h.lastRead_ok hst
  unfold validateWavePrefixPlan
  rw [except_forM_ok.2 hsegments, ok_bind, hloop, ok_bind, check_bind hlive, check_bind hpeak,
    check_bind hreleases, check_bind hkeys, hlast, ok_bind, check_bind hsame]
  exact h.checkTokens_ok hnonempty

end Last

end Batchgen.WavePlan
