import Batchgen.Library.Residency
import Batchgen.WavePlan.Layout

/-!
# Segments and work items

`SegmentsValid` and `ItemsValid` are what the chunk loop, the validator and the executor rely on: a
forest of segments over the prompts, and for each segment and each prompt one item, listed after
everything it reads.  `workOf_valid` says that `_schedule` builds such a work list.  As tasks, the items
write segments and read the segments of their prefix.
-/

namespace Batchgen.WavePlan

open Function List

variable {item : PlanItem} {seg index k old segmentId : ℕ} {items : List PlanItem} {seen : List ℕ} {l : Layout}
  {group : ℕ × List ℕ}

/-! ### What is required of them -/

/-- What an item computes: a load answers to the same key as the segment it replaces. -/
inductive ItemKey where
  | segment (id : ℕ)
  | tail (index : ℕ)
  deriving Repr, DecidableEq

def PlanItem.key (item : PlanItem) : ItemKey :=
  match item.kind with
  | .tail => .tail item.ref
  | .segment => .segment item.ref
  | .materialize => .segment item.ref

structure SegmentValid (prompts : List Tokens) (blockTokens : ℕ) (segments : List PlanSegment)
    (id : ℕ) (seg : PlanSegment) : Prop where
  numbered : seg.segmentId = id
  aligned : blockTokens ∣ seg.tokenStart ∧ blockTokens ∣ seg.tokenEnd
  nonempty : seg.tokenStart < seg.tokenEnd
  root : seg.parentId = none → seg.tokenStart = 0
  parent : ∀ up, seg.parentId = some up → up < id ∧ ∃ parent, segments[up]? = some parent ∧
    parent.tokenEnd = seg.tokenStart ∧ seg.members ⊆ parent.members ∧ parent.materialized = false
  loaded : seg.materialized = true → seg.parentId = none
  nodup : seg.members.Nodup
  shared : (if seg.materialized = true then 1 else 2) ≤ seg.members.length
  inside : ∀ index ∈ seg.members, ∃ tokens, prompts[index]? = some tokens ∧
    seg.tokenEnd ≤ tokens.length - 1
  agree : ∀ i ∈ seg.members, ∀ j ∈ seg.members, ∀ tokens tokens', prompts[i]? = some tokens →
    prompts[j]? = some tokens' → tokens.take seg.tokenEnd = tokens'.take seg.tokenEnd

def SegmentsValid (prompts : List Tokens) (blockTokens : ℕ) (segments : List PlanSegment) : Prop :=
  ∀ id seg, segments[id]? = some seg → SegmentValid prompts blockTokens segments id seg

/-- The position the chain `segs` ends at. -/
def chainEnd (segments : List PlanSegment) (segs : List ℕ) : ℕ :=
  match segs.getLast? with
  | some seg => endOf segments seg
  | none => 0

structure ItemValid (prompts : List Tokens) (segments : List PlanSegment) (item : PlanItem) :
    Prop where
  linked : LinkedFrom (parentOf segments) none item.prefixSegments
  known : ∀ seg ∈ item.prefixSegments, seg < segments.length
  start : item.tokenStart = chainEnd segments item.prefixSegments
  segment : item.kind ≠ .tail → ∃ seg, segments[item.ref]? = some seg ∧
    seg.materialized = decide (item.kind = .materialize) ∧ item.tokenStart = seg.tokenStart ∧
    item.tokenEnd = seg.tokenEnd ∧ seg.parentId = item.prefixSegments.getLast?
  tail : item.kind = .tail → ∃ tokens, prompts[item.ref]? = some tokens ∧
    item.tokenEnd = tokens.length ∧ (tokens ≠ [] → item.tokenStart < item.tokenEnd) ∧
    ∀ seg, seg ∈ item.prefixSegments ↔ ∃ s, segments[seg]? = some s ∧ item.ref ∈ s.members

def PlanItem.writes (item : PlanItem) : Option ℕ :=
  match item.kind with
  | .tail => none
  | .segment => some item.ref
  | .materialize => some item.ref

/-- The segments a list of items writes. -/
def written (items : List PlanItem) : List ℕ := items.filterMap PlanItem.writes

def itemTasks (items : List PlanItem) : Tasks PlanItem ℕ where
  all := items
  writes := PlanItem.writes
  reads := PlanItem.prefixSegments

/-- Every item comes after the items that write what it reads. -/
def OrderedFrom : List ℕ → List PlanItem → Prop
  | _, [] => True
  | seen, item :: items =>
    (∀ seg ∈ item.prefixSegments, seg ∈ seen) ∧ OrderedFrom (seen ++ written [item]) items

structure ItemsValid (prompts : List Tokens) (segments : List PlanSegment) (items : List PlanItem) :
    Prop where
  keys : (items.map PlanItem.key).Nodup
  hasSegments : ∀ seg, ItemKey.segment seg ∈ items.map PlanItem.key ↔ seg < segments.length
  hasTails : ∀ index, ItemKey.tail index ∈ items.map PlanItem.key ↔ index < prompts.length
  valid : ∀ item ∈ items, ItemValid prompts segments item

structure WorkValid (prompts : List Tokens) (blockTokens : ℕ) (work : Work) : Prop where
  segments : SegmentsValid prompts blockTokens work.segments
  items : ItemsValid prompts work.segments work.items
  ordered : OrderedFrom [] work.items
  pages : work.pages = segmentPages blockTokens work.segments
  need : work.need = needPages work.segments work.pages

/-! ### Lists of items -/

theorem written_append (xs ys : List PlanItem) : written (xs ++ ys) = written xs ++ written ys := by
  exact filterMap_append

theorem writes_eq_some : item.writes = some seg ↔ item.kind ≠ .tail ∧ item.ref = seg := by
  unfold PlanItem.writes
  cases item.kind <;> simp

theorem mem_written : seg ∈ written items ↔ ∃ item ∈ items, item.kind ≠ .tail ∧ item.ref = seg := by
  rw [written, mem_filterMap]
  exact exists_congr fun item => and_congr_right fun _ => writes_eq_some

theorem key_eq_segment : item.key = .segment seg ↔ item.kind ≠ .tail ∧ item.ref = seg := by
  unfold PlanItem.key
  cases item.kind <;> simp

theorem key_eq_tail : item.key = .tail index ↔ item.kind = .tail ∧ item.ref = index := by
  unfold PlanItem.key
  cases item.kind <;> simp

theorem mem_written_iff_key : seg ∈ written items ↔ ItemKey.segment seg ∈ items.map PlanItem.key := by
  rw [mem_written, mem_map]
  exact exists_congr fun item => and_congr_right fun _ => key_eq_segment.symm

theorem orderedFrom_append {xs ys : List PlanItem} :
    OrderedFrom seen (xs ++ ys) ↔ OrderedFrom seen xs ∧ OrderedFrom (seen ++ written xs) ys := by
  induction xs generalizing seen with
  | nil => simp [OrderedFrom, written]
  | cons x xs ih =>
    have hwritten : seen ++ written (x :: xs) = seen ++ written [x] ++ written xs := by
      rw [append_assoc, ← written_append, singleton_append]
    rw [cons_append, OrderedFrom, OrderedFrom, ih, and_assoc, hwritten]

/-- A list of readers of what is already there. -/
theorem orderedFrom_of_tails
    (h : ∀ item ∈ items, ∀ seg ∈ item.prefixSegments, seg ∈ seen) : OrderedFrom seen items := by
  induction items generalizing seen with
  | nil => trivial
  | cons item items ih =>
    refine ⟨h item mem_cons_self, ih fun other hother seg hseg => ?_⟩
    exact mem_append_left _ (h other (mem_cons_of_mem _ hother) seg hseg)

/-- An item finds what it reads among the items before it. -/
theorem OrderedFrom.split {before after : List PlanItem} (h : OrderedFrom [] (before ++ item :: after))
    (hseg : seg ∈ item.prefixSegments) : seg ∈ written before := by
  have hitem := (orderedFrom_append.mp h).2.1 seg hseg
  rwa [nil_append] at hitem

/-- The ancestors of a segment are read off its parent links. -/
theorem ancestry_eq {segments : List PlanSegment} {fuel : ℕ} {chain : List ℕ}
    (h : LinkedFrom (parentOf segments) none chain) (hfuel : chain.length ≤ fuel) :
    ancestry segments fuel chain.getLast? = chain := by
  induction chain using List.reverseRecOn generalizing fuel with
  | nil =>
    cases fuel with
    | zero => rfl
    | succ fuel => rfl
  | append_singleton chain seg ih =>
    rw [length_append, length_singleton] at hfuel
    obtain ⟨fuel, rfl⟩ : ∃ n, fuel = n + 1 := ⟨fuel - 1, by omega⟩
    obtain ⟨hchain, hseg⟩ := linkedFrom_append.mp h
    have hparent : parentOf segments seg = chain.getLast? := by
      have hup := hseg.1
      rwa [Option.or_none] at hup
    rw [getLast?_concat, ancestry, hparent, ih hchain (by omega)]

/-! ### The segments of a layout -/

namespace LayoutValid

variable {prompts : List Tokens} {blockTokens : ℕ} {tree : Tree} {threshold : Option ℤ}

theorem segments_length : (l.segments tree blockTokens).length = l.groups.length + l.order.length := by
  simp [Layout.segments]

theorem loaded_getElem? (hgroup : l.groups[k]? = some group) :
    (l.segments tree blockTokens)[k]? = some (Layout.loadedSegment k group) := by
  have hlt : k < (l.groups.mapIdx Layout.loadedSegment).length := by
    rw [length_mapIdx]
    exact (List.getElem?_eq_some_iff.mp hgroup).1
  rw [Layout.segments, getElem?_append_left hlt, getElem?_mapIdx, hgroup]
  rfl

theorem endOf_loaded (hgroup : l.groups[k]? = some group) : endOf (l.segments tree blockTokens) k = group.1 := by
  rw [endOf, loaded_getElem? hgroup]
  rfl

theorem computed_getElem? (hold : old ∈ l.order) :
    (l.segments tree blockTokens)[l.newId old]? = some (l.computedSegment tree blockTokens old) := by
  have hidx := idxOf_lt_length_of_mem hold
  rw [Layout.segments, getElem?_append_right (by rw [length_mapIdx]; exact Nat.le_add_right _ _),
    length_mapIdx, Layout.newId, Nat.add_sub_cancel_left, getElem?_map,
    getElem?_eq_getElem hidx, getElem_idxOf hidx]
  rfl

theorem parentOf_newId (hold : old ∈ l.order) :
    parentOf (l.segments tree blockTokens) (l.newId old) = (tree.parent old).map l.newId := by
  rw [parentOf, computed_getElem? hold]
  rfl

theorem endOf_newId (hold : old ∈ l.order) :
    endOf (l.segments tree blockTokens) (l.newId old) = tree.endBlock old * blockTokens := by
  rw [endOf, computed_getElem? hold]
  rfl

/-- The chain of a prompt under its new numbers. -/
theorem linked_newId {front : List ℕ} (hlinked : LinkedFrom tree.parent none front)
    (hmem : ∀ seg ∈ front, seg ∈ l.order) :
    LinkedFrom (parentOf (l.segments tree blockTokens)) none (front.map l.newId) :=
  hlinked.map fun seg hseg => parentOf_newId (hmem seg hseg)

variable (h : LayoutValid prompts blockTokens tree threshold l)
include h

/-- A segment is loaded or computed. -/
theorem segments_cases {seg : PlanSegment} (hseg : (l.segments tree blockTokens)[k]? = some seg) :
    (∃ group, l.groups[k]? = some group ∧ seg = Layout.loadedSegment k group) ∨
      ∃ old ∈ l.order, k = l.newId old ∧ seg = l.computedSegment tree blockTokens old := by
  rw [Layout.segments, getElem?_append] at hseg
  split at hseg
  · rw [getElem?_mapIdx, Option.map_eq_some_iff] at hseg
    obtain ⟨group, hgroup, rfl⟩ := hseg
    exact Or.inl ⟨group, hgroup, rfl⟩
  rename_i hge
  rw [length_mapIdx] at hge hseg
  rw [getElem?_map, Option.map_eq_some_iff] at hseg
  obtain ⟨old, hold, rfl⟩ := hseg
  obtain ⟨hlt, hget⟩ := List.getElem?_eq_some_iff.mp hold
  have hidx : l.order.idxOf old = k - l.groups.length := by
    rw [← hget, h.nodup.idxOf_getElem]
  refine Or.inr ⟨old, mem_of_getElem? hold, ?_, rfl⟩
  rw [Layout.newId, hidx]
  omega

theorem loaded_valid (hgroup : l.groups[k]? = some group) :
    SegmentValid prompts blockTokens (l.segments tree blockTokens) k (Layout.loadedSegment k group) := by
  have hmem := mem_of_getElem? hgroup
  have hvalid := h.groups.valid group hmem
  exact
    { numbered := rfl
      aligned := ⟨Nat.dvd_zero _, hvalid.aligned⟩
      nonempty := hvalid.pos
      root := fun _ => rfl
      parent := fun up hup => by cases hup
      loaded := fun _ => rfl
      nodup := (nodup_flatMap.mp h.groups.nodup).1 group hmem
      shared := length_pos_iff.mpr hvalid.nonempty
      inside := hvalid.inside
      agree := hvalid.agree }

theorem computed_inside (hmem : old ∈ l.chain index) :
    ∃ path tokens, tree.paths[index]? = some path ∧ prompts[index]? = some tokens ∧ old ∈ path ∧
      tree.endBlock old * blockTokens ≤ tokens.length - 1 := by
  obtain ⟨path, tokens, hpath, -, htokens, hchain⟩ := h.chain_eq (h.mem_chain hmem).1
  have hold : old ∈ path := by
    rw [hchain] at hmem
    exact (mem_filter.mp hmem).1
  exact ⟨path, tokens, hpath, htokens, hold, h.built.inside index path tokens hpath htokens old hold⟩

theorem computed_valid (hblock : 0 < blockTokens) (hold : old ∈ l.order) :
    SegmentValid prompts blockTokens (l.segments tree blockTokens) (l.newId old)
      (l.computedSegment tree blockTokens old) := by
  have hlt := ((h.mem old).mp hold).1
  exact
    { numbered := rfl
      aligned := ⟨Dvd.intro_left _ rfl, Dvd.intro_left _ rfl⟩
      nonempty := Nat.mul_lt_mul_of_pos_right (h.built.nonempty old hlt) hblock
      root := by
        intro hroot
        have hstart := h.built.root old hlt (Option.map_eq_none_iff.mp hroot)
        exact (congrArg (· * blockTokens) hstart).trans (Nat.zero_mul _)
      parent := by
        intro up hup
        obtain ⟨up, hparent, rfl⟩ := Option.map_eq_some_iff.mp hup
        obtain ⟨hmem, hbefore⟩ := h.newId_parent hold hparent
        refine ⟨hbefore, _, computed_getElem? hmem, ?_, fun index hindex => ?_, rfl⟩
        · exact congrArg (· * blockTokens) (h.built.parent old hlt up hparent).2
        · have hchain := h.mem_members.mp hindex
          exact h.mem_members.mpr ((h.chain_linked index).parent_mem hchain hparent)
      loaded := fun hloaded => by cases hloaded
      nodup := nodup_range.filter _
      shared := h.two_le_members hold
      inside := by
        intro index hindex
        obtain ⟨path, tokens, -, htokens, -, hend⟩ := h.computed_inside (h.mem_members.mp hindex)
        exact ⟨tokens, htokens, hend⟩
      agree := by
        intro i hi j hj tokens tokens' htokens htokens'
        obtain ⟨path, _, hpath, -, hmem, -⟩ := h.computed_inside (h.mem_members.mp hi)
        obtain ⟨path', _, hpath', -, hmem', -⟩ := h.computed_inside (h.mem_members.mp hj)
        exact h.built.shared i j path path' tokens tokens' hpath hpath' htokens htokens' old hmem hmem' }

theorem segments_valid (hblock : 0 < blockTokens) :
    SegmentsValid prompts blockTokens (l.segments tree blockTokens) := by
  intro id seg hseg
  rcases h.segments_cases hseg with ⟨group, hgroup, rfl⟩ | ⟨old, hold, rfl, rfl⟩
  · exact h.loaded_valid hgroup
  · exact h.computed_valid hblock hold

end LayoutValid

/-! ### The items of a layout -/

/-- Where the work list puts an item: at a loaded segment, at a computed one, or behind the tree. -/
inductive Place where
  | loaded (segmentId : ℕ)
  | computed (old : ℕ)
  | alone
  deriving Repr, DecidableEq

variable {place : Place}

namespace Layout

def places (l : Layout) : List Place :=
  (List.range l.groups.length).map .loaded ++ l.order.map .computed ++ [.alone]

def itemsAt (l : Layout) (segments : List PlanSegment) (lengths : List ℕ) (tree : Tree)
    (blockTokens : ℕ) : Place → List PlanItem
  | .loaded segmentId => l.loadedItems segments lengths segmentId
  | .computed old => l.segmentItem segments tree blockTokens old ::
      (l.tailsAt (some old)).map (l.tailItem segments lengths)
  | .alone => (l.tailsAt none).map (l.tailItem segments lengths)

theorem loaded_mem_places : Place.loaded segmentId ∈ l.places ↔ segmentId < l.groups.length := by
  simp [places]

theorem computed_mem_places : Place.computed old ∈ l.places ↔ old ∈ l.order := by
  simp [places]

/-- The place of a prompt's tail. -/
def placeOf (l : Layout) (index : ℕ) : Place :=
  match l.readers.lookup index, (l.chain index).getLast? with
  | some segmentId, _ => .loaded segmentId
  | none, some old => .computed old
  | none, none => .alone

theorem items_eq (l : Layout) (segments : List PlanSegment) (lengths : List ℕ) (tree : Tree) (blockTokens : ℕ) :
    l.items segments lengths tree blockTokens = l.places.flatMap (l.itemsAt segments lengths tree blockTokens) := by
  simp [items, places, itemsAt, flatMap_append, flatMap_map]

theorem mem_tailsAtMaterialized : index ∈ l.tailsAtMaterialized segmentId ↔
      index < l.chains.length ∧ l.placeOf index = .loaded segmentId := by
  rw [tailsAtMaterialized, mem_filter, mem_range, decide_eq_true_eq, placeOf]
  refine and_congr_right fun _ => ?_
  cases l.readers.lookup index <;> cases (l.chain index).getLast? <;> simp

theorem mem_tailsAt {old : Option ℕ} : index ∈ l.tailsAt old ↔ index < l.chains.length ∧
      l.placeOf index = (match old with | some old => .computed old | none => .alone) := by
  rw [tailsAt, mem_filter, mem_range, decide_eq_true_eq, placeOf]
  refine and_congr_right fun _ => ?_
  cases l.readers.lookup index <;> cases (l.chain index).getLast? <;> cases old <;> simp

section Keys

variable {segments : List PlanSegment} {lengths : List ℕ} {tree : Tree} {blockTokens : ℕ}

/-- The tails at a place. -/
theorem tail_mem_keys :
    ItemKey.tail index ∈ (l.itemsAt segments lengths tree blockTokens place).map PlanItem.key ↔
      index < l.chains.length ∧ l.placeOf index = place := by
  have hkey : PlanItem.key ∘ l.tailItem segments lengths = ItemKey.tail := rfl
  cases place with
  | loaded segmentId =>
    rw [itemsAt, loadedItems, map_cons, map_map]
    simp [PlanItem.key, comp_def, mem_tailsAtMaterialized]
  | computed old =>
    rw [itemsAt, map_cons, map_map, hkey]
    simp [segmentItem, PlanItem.key, mem_tailsAt]
  | alone =>
    rw [itemsAt, map_map, hkey]
    simp [mem_tailsAt]

/-- The segments at a place. -/
theorem segment_mem_keys :
    ItemKey.segment seg ∈ (l.itemsAt segments lengths tree blockTokens place).map PlanItem.key ↔
      place = .loaded seg ∨ ∃ old, place = .computed old ∧ seg = l.newId old := by
  cases place with
  | loaded segmentId =>
    rw [itemsAt, loadedItems, map_cons, map_map]
    simp [PlanItem.key, comp_def, eq_comm]
  | computed old =>
    rw [itemsAt, map_cons, map_map]
    simp [segmentItem, tailItem, PlanItem.key, comp_def]
  | alone =>
    rw [itemsAt, map_map]
    simp [tailItem, PlanItem.key, comp_def]

theorem itemsAt_keys_nodup (place : Place) :
    ((l.itemsAt segments lengths tree blockTokens place).map PlanItem.key).Nodup := by
  have hinj : Function.Injective ItemKey.tail := fun a b heq => ItemKey.tail.inj heq
  have htails : ∀ p : ℕ → Bool, (((List.range l.chains.length).filter p).map ItemKey.tail).Nodup := fun p =>
    (nodup_range.filter p).map hinj
  have hkey : PlanItem.key ∘ l.tailItem segments lengths = ItemKey.tail := rfl
  cases place with
  | loaded segmentId =>
    rw [itemsAt, loadedItems, map_cons, map_map, nodup_cons]
    exact ⟨by simp [PlanItem.key, comp_def], htails _⟩
  | computed old =>
    rw [itemsAt, map_cons, map_map, hkey, nodup_cons]
    exact ⟨by simp [segmentItem, PlanItem.key], htails _⟩
  | alone =>
    rw [itemsAt, map_map, hkey]
    exact htails _

end Keys

end Layout

/-- Lists of items put together place by place. -/
theorem orderedFrom_flatMap {α : Type*} {f : α → List PlanItem} {xs : List α}
    (h : ∀ before x after, xs = before ++ x :: after →
      OrderedFrom (seen ++ written (before.flatMap f)) (f x)) : OrderedFrom seen (xs.flatMap f) := by
  induction xs using List.reverseRecOn with
  | nil => trivial
  | append_singleton xs x ih =>
    rw [flatMap_append, orderedFrom_append]
    refine ⟨ih fun before y after hsplit => ?_, ?_⟩
    · exact h before y (after ++ [x]) (by rw [hsplit, append_assoc, cons_append])
    · rw [flatMap_singleton]
      exact h xs x [] rfl

namespace LayoutValid

variable {prompts : List Tokens} {blockTokens : ℕ} {tree : Tree} {threshold : Option ℤ}
variable (h : LayoutValid prompts blockTokens tree threshold l)
include h

theorem segment_lt_iff : seg < (l.segments tree blockTokens).length ↔
    Place.loaded seg ∈ l.places ∨ ∃ old, Place.computed old ∈ l.places ∧ seg = l.newId old := by
  simp only [Layout.loaded_mem_places, Layout.computed_mem_places]
  constructor
  · intro hlt
    rcases h.segments_cases (getElem?_eq_getElem hlt) with ⟨group, hgroup, -⟩ | ⟨old, hold, heq, -⟩
    · exact Or.inl (List.getElem?_eq_some_iff.mp hgroup).1
    · exact Or.inr ⟨old, hold, heq⟩
  · rw [segments_length]
    rintro (hlt | ⟨old, hold, rfl⟩)
    · omega
    · exact newId_lt hold

theorem placeOf_mem (index : ℕ) : l.placeOf index ∈ l.places := by
  rw [Layout.placeOf]
  cases hreader : l.readers.lookup index with
  | some segmentId =>
    obtain ⟨group, hgroup, -⟩ := (h.readers index segmentId).mp hreader
    exact Layout.loaded_mem_places.mpr (List.getElem?_eq_some_iff.mp hgroup).1
  | none =>
    cases hlast : (l.chain index).getLast? with
    | some old => exact Layout.computed_mem_places.mpr (h.mem_chain (mem_of_getLast? hlast)).2
    | none => simp [Layout.places]

theorem places_nodup : l.places.Nodup := by
  rw [Layout.places, nodup_append, nodup_append]
  refine ⟨⟨nodup_range.map fun a b heq => Place.loaded.inj heq,
    h.nodup.map fun a b heq => Place.computed.inj heq, ?_⟩, nodup_singleton _, ?_⟩
  · simp
  · rintro place hplace other hother rfl
    rw [mem_singleton] at hother
    simp [hother] at hplace

section

variable (segments : List PlanSegment) (lengths : List ℕ)
include segments lengths

theorem items_keys_nodup : ((l.items segments lengths tree blockTokens).map PlanItem.key).Nodup := by
  rw [Layout.items_eq, map_flatMap, nodup_flatMap]
  refine ⟨fun place _ => Layout.itemsAt_keys_nodup place, ?_⟩
  refine h.places_nodup.imp_of_mem fun {place place'} hplace hplace' hne => ?_
  -- a key has one place
  rintro (seg | index) hkey hkey'
  · rcases Layout.segment_mem_keys.mp hkey with rfl | ⟨old, rfl, rfl⟩ <;>
      rcases Layout.segment_mem_keys.mp hkey' with rfl | ⟨old', rfl, heq⟩
    · exact hne rfl
    · have hlt := Layout.loaded_mem_places.mp hplace
      rw [heq, Layout.newId] at hlt
      omega
    · have hlt := Layout.loaded_mem_places.mp hplace'
      rw [Layout.newId] at hlt
      omega
    · have hold := Layout.computed_mem_places.mp hplace
      exact hne (congrArg Place.computed (newId_inj hold heq))
  · exact hne ((Layout.tail_mem_keys.mp hkey).2.symm.trans (Layout.tail_mem_keys.mp hkey').2)

theorem items_hasSegments (seg : ℕ) :
    ItemKey.segment seg ∈ (l.items segments lengths tree blockTokens).map PlanItem.key ↔
      seg < (l.segments tree blockTokens).length := by
  rw [Layout.items_eq, map_flatMap, mem_flatMap, h.segment_lt_iff]
  constructor
  · rintro ⟨place, hplace, hkey⟩
    rcases Layout.segment_mem_keys.mp hkey with rfl | ⟨old, rfl, rfl⟩
    · exact Or.inl hplace
    · exact Or.inr ⟨old, hplace, rfl⟩
  · rintro (hplace | ⟨old, hplace, rfl⟩)
    · exact ⟨_, hplace, Layout.segment_mem_keys.mpr (Or.inl rfl)⟩
    · exact ⟨_, hplace, Layout.segment_mem_keys.mpr (Or.inr ⟨old, rfl, rfl⟩)⟩

theorem items_hasTails (index : ℕ) : ItemKey.tail index ∈ (l.items segments lengths tree blockTokens).map PlanItem.key ↔
      index < prompts.length := by
  rw [Layout.items_eq, map_flatMap, mem_flatMap, ← h.chains_length]
  constructor
  · rintro ⟨place, -, hkey⟩
    exact (Layout.tail_mem_keys.mp hkey).1
  · intro hindex
    exact ⟨_, h.placeOf_mem index, Layout.tail_mem_keys.mpr ⟨hindex, rfl⟩⟩

end

/-! ### What the items read -/

/-- The prefix of a segment item is the path to its segment. -/
theorem segmentItem_prefix (hold : old ∈ l.order) :
    ∃ front, LinkedFrom tree.parent none (front ++ [old]) ∧ (∀ seg ∈ front, seg ∈ l.order) ∧
      tree.parent old = front.getLast? ∧
      (l.segmentItem (l.segments tree blockTokens) tree blockTokens old).prefixSegments =
        front.map l.newId := by
  obtain ⟨front, hlinked, hmem⟩ := h.path_to hold
  obtain ⟨hfront, hlast⟩ := linkedFrom_append.mp hlinked
  have hparent : tree.parent old = front.getLast? := by
    have hup := hlast.1
    rwa [Option.or_none] at hup
  refine ⟨front, hlinked, hmem, hparent, ?_⟩
  have hnew : LinkedFrom (parentOf (l.segments tree blockTokens)) none (front.map l.newId) := linked_newId hfront hmem
  have hlt : ∀ x ∈ front, ∀ up, tree.parent x = some up → up < x := fun x hx up hup =>
    (h.built.parent x ((h.mem x).mp (hmem x hx)).1 up hup).1
  have hshort : (front.map l.newId).length ≤ (l.segments tree blockTokens).length := by
    have hsub : front.length ≤ l.order.length := (subperm_of_subset (hfront.sorted hlt).1.nodup hmem).length_le
    rw [length_map, segments_length]
    omega
  rw [Layout.segmentItem, hparent, ← getLast?_map]
  exact ancestry_eq hnew hshort

/-- The chain of a tail that ends at `old` is the path to `old`. -/
theorem chain_front (hlast : (l.chain index).getLast? = some old) :
    ∃ front, l.chain index = front ++ [old] ∧ LinkedFrom tree.parent none (front ++ [old]) := by
  obtain ⟨front, hchain⟩ := getLast?_eq_some_iff.mp hlast
  exact ⟨front, hchain, hchain ▸ h.chain_linked index⟩

theorem computed_ordered {before after : List ℕ} {lengths : List ℕ} (hsplit : l.order = before ++ old :: after)
    (hseen : ∀ seg ∈ before, l.newId seg ∈ seen) :
    OrderedFrom seen (l.itemsAt (l.segments tree blockTokens) lengths tree blockTokens (.computed old)) := by
  have hold := mem_of_split hsplit
  have hfront : ∀ front, LinkedFrom tree.parent none (front ++ [old]) → ∀ seg ∈ front.map l.newId, seg ∈ seen := by
    intro front hlinked seg hseg
    obtain ⟨up, hup, rfl⟩ := mem_map.mp hseg
    exact hseen up (h.front_before hlinked hsplit hup)
  constructor
  · obtain ⟨front, hlinked, -, -, hbegins⟩ := h.segmentItem_prefix hold
    rw [hbegins]
    exact hfront front hlinked
  · refine orderedFrom_of_tails fun item hitem seg hseg => ?_
    obtain ⟨index, hindex, rfl⟩ := mem_map.mp hitem
    rw [Layout.tailsAt, mem_filter, decide_eq_true_eq] at hindex
    obtain ⟨front, hchain, hlinked⟩ := h.chain_front hindex.2.2
    rw [Layout.tailItem, hchain, map_append, mem_append] at hseg
    rcases hseg with hseg | hseg
    · exact mem_append_left _ (hfront front hlinked seg hseg)
    · exact mem_append_right _ hseg

theorem items_ordered (lengths : List ℕ) :
    OrderedFrom [] (l.items (l.segments tree blockTokens) lengths tree blockTokens) := by
  rw [Layout.items, orderedFrom_append, orderedFrom_append]
  refine ⟨⟨?_, ?_⟩, ?_⟩
  · refine orderedFrom_flatMap fun before segmentId after _ => ⟨fun seg hseg => (by cases hseg), ?_⟩
    refine orderedFrom_of_tails fun item hitem seg hseg => ?_
    obtain ⟨index, -, rfl⟩ := mem_map.mp hitem
    exact mem_append_right _ hseg
  · refine orderedFrom_flatMap fun before old after hsplit => ?_
    refine h.computed_ordered hsplit fun seg hseg => mem_append_right _ ?_
    exact mem_written.mpr ⟨_, mem_flatMap.mpr ⟨seg, hseg, mem_cons_self⟩, by simp [Layout.segmentItem], rfl⟩
  · refine orderedFrom_of_tails fun item hitem seg hseg => ?_
    obtain ⟨index, hindex, rfl⟩ := mem_map.mp hitem
    rw [Layout.tailsAt, mem_filter, decide_eq_true_eq] at hindex
    rw [Layout.tailItem, getLast?_eq_none_iff.mp hindex.2.2] at hseg
    cases hseg

/-! ### Every item -/

omit h in
theorem load_valid (hlt : segmentId < l.groups.length) : ItemValid prompts (l.segments tree blockTokens)
      { kind := .materialize, ref := segmentId, prefixSegments := [], tokenStart := 0
        tokenEnd := endOf (l.segments tree blockTokens) segmentId } where
  linked := trivial
  known := fun seg hseg => by cases hseg
  start := rfl
  segment := by
    have hgroup := getElem?_eq_getElem hlt
    exact fun _ => ⟨_, loaded_getElem? hgroup, rfl, rfl, endOf_loaded hgroup, rfl⟩
  tail := fun htail => by cases htail

theorem segmentItem_valid (hold : old ∈ l.order) : ItemValid prompts (l.segments tree blockTokens)
      (l.segmentItem (l.segments tree blockTokens) tree blockTokens old) := by
  obtain ⟨front, hlinked, hmem, hparent, hbegins⟩ := h.segmentItem_prefix hold
  have hlt := ((h.mem old).mp hold).1
  refine ⟨?_, fun seg hseg => ?_, ?_, fun _ => ?_, fun htail => by cases htail⟩
  · rw [hbegins]
    exact linked_newId (linkedFrom_append.mp hlinked).1 hmem
  · rw [hbegins] at hseg
    obtain ⟨up, hup, rfl⟩ := mem_map.mp hseg
    rw [segments_length]
    exact newId_lt (hmem up hup)
  · rw [hbegins, chainEnd, getLast?_map, ← hparent]
    cases hup : tree.parent old with
    | none =>
      exact (congrArg (· * blockTokens) (h.built.root old hlt hup)).trans (Nat.zero_mul _)
    | some up =>
      refine Eq.trans ?_ (endOf_newId (h.newId_parent hold hup).1).symm
      exact congrArg (· * blockTokens) (h.built.parent old hlt up hup).2.symm
  · refine ⟨_, computed_getElem? hold, rfl, rfl, rfl, ?_⟩
    rw [hbegins, getLast?_map, ← hparent]
    rfl

omit h in
theorem lengths_getD {tokens : Tokens} (htokens : prompts[index]? = some tokens) :
    (prompts.map length).getD index 0 = tokens.length := by
  rw [getD_eq_getElem?_getD, getElem?_map, htokens]
  rfl

/-- The tail of a prompt whose prefix is loaded. -/
theorem reader_valid (hreader : l.readers.lookup index = some segmentId) :
    ItemValid prompts (l.segments tree blockTokens)
      { kind := .tail, ref := index, prefixSegments := [segmentId]
        tokenStart := endOf (l.segments tree blockTokens) segmentId
        tokenEnd := (prompts.map length).getD index 0 } := by
  obtain ⟨group, hgroup, hmem⟩ := (h.readers index segmentId).mp hreader
  have hsegment : (l.segments tree blockTokens)[segmentId]? = some _ := loaded_getElem? hgroup
  have hlt := (List.getElem?_eq_some_iff.mp hsegment).1
  have hvalid := h.groups.valid group (mem_of_getElem? hgroup)
  refine ⟨⟨?_, trivial⟩, ?_, rfl, fun hkind => absurd rfl hkind, fun _ => ?_⟩
  · rw [parentOf, hsegment]
    rfl
  · intro seg hseg
    rw [mem_singleton.mp hseg]
    exact hlt
  · obtain ⟨tokens, htokens, hinside⟩ := hvalid.inside index hmem
    have hpos := hvalid.pos
    refine ⟨tokens, htokens, lengths_getD htokens, fun _ => ?_, fun seg => ?_⟩
    · have hlength : group.1 < tokens.length := by omega
      rw [endOf_loaded hgroup, lengths_getD htokens]
      exact hlength
    · rw [mem_singleton]
      constructor
      · rintro rfl
        exact ⟨_, hsegment, hmem⟩
      · rintro ⟨s, hs, hin⟩
        rcases h.segments_cases hs with ⟨group', hgroup', rfl⟩ | ⟨old, -, -, rfl⟩
        · have hother := (h.readers index seg).mpr ⟨group', hgroup', hin⟩
          exact Option.some.inj (hother.symm.trans hreader)
        · have hchain := h.mem_members.mp hin
          rw [h.chain_of_reader hreader] at hchain
          cases hchain

/-- The tail of a prompt that computes all it shares. -/
theorem tailItem_valid (hindex : index < prompts.length) (hreader : l.readers.lookup index = none) :
    ItemValid prompts (l.segments tree blockTokens)
      (l.tailItem (l.segments tree blockTokens) (prompts.map length) index) := by
  have hmem : ∀ seg ∈ l.chain index, seg ∈ l.order := fun seg hseg => (h.mem_chain hseg).2
  refine ⟨linked_newId (h.chain_linked index) hmem, fun seg hseg => ?_, rfl, fun hkind => absurd rfl hkind, fun _ => ?_⟩
  · obtain ⟨old, hold, rfl⟩ := mem_map.mp hseg
    rw [segments_length]
    exact newId_lt (hmem old hold)
  · have htokens := getElem?_eq_getElem hindex
    refine ⟨_, htokens, lengths_getD htokens, fun hnonempty => ?_, fun seg => ?_⟩
    · rw [Layout.tailItem, lengths_getD htokens, getLast?_map]
      cases hlast : (l.chain index).getLast? with
      | none => exact length_pos_iff.mpr hnonempty
      | some old =>
        have hold := mem_of_getLast? hlast
        obtain ⟨path, tokens, -, htokens', -, hend⟩ := h.computed_inside hold
        cases htokens.symm.trans htokens'
        have hpos := length_pos_iff.mpr hnonempty
        have hlength : tree.endBlock old * blockTokens < (prompts[index]).length := by omega
        exact (endOf_newId (hmem old hold)).trans_lt hlength
    · constructor
      · intro hseg
        obtain ⟨old, hold, rfl⟩ := mem_map.mp hseg
        exact ⟨_, computed_getElem? (hmem old hold), h.mem_members.mpr hold⟩
      · rintro ⟨s, hs, hin⟩
        rcases h.segments_cases hs with ⟨group, hgroup, rfl⟩ | ⟨old, -, rfl, rfl⟩
        · rw [(h.readers index seg).mpr ⟨group, hgroup, hin⟩] at hreader
          cases hreader
        · exact mem_map_of_mem (h.mem_members.mp hin)

theorem items_valid : ItemsValid prompts (l.segments tree blockTokens)
      (l.items (l.segments tree blockTokens) (prompts.map length) tree blockTokens) where
  keys := h.items_keys_nodup _ _
  hasSegments := h.items_hasSegments _ _
  hasTails := h.items_hasTails _ _
  valid := by
    have htails : ∀ up, ∀ item ∈ (l.tailsAt up).map
        (l.tailItem (l.segments tree blockTokens) (prompts.map List.length)),
        ItemValid prompts (l.segments tree blockTokens) item := by
      intro up item hitem
      obtain ⟨index, hindex, rfl⟩ := mem_map.mp hitem
      rw [Layout.tailsAt, mem_filter, mem_range, decide_eq_true_eq, h.chains_length] at hindex
      exact h.tailItem_valid hindex.1 hindex.2.1
    intro item hitem
    rw [Layout.items, mem_append, mem_append, mem_flatMap, mem_flatMap] at hitem
    rcases hitem with (⟨segmentId, hlt, hitem⟩ | ⟨old, hold, hitem⟩) | hitem
    · rcases mem_cons.mp hitem with rfl | hitem
      · exact load_valid (mem_range.mp hlt)
      · obtain ⟨index, hindex, rfl⟩ := mem_map.mp hitem
        rw [Layout.tailsAtMaterialized, mem_filter, decide_eq_true_eq] at hindex
        exact h.reader_valid hindex.2
    · rcases mem_cons.mp hitem with rfl | hitem
      · exact h.segmentItem_valid hold
      · exact htails _ item hitem
    · exact htails _ item hitem

end LayoutValid

theorem workOf_valid {prompts : List Tokens} {cfg : PlanConfig} {tree : Tree} {threshold : Option ℤ}
    (h : LayoutValid prompts cfg.blockTokens tree threshold l) (hblock : 0 < cfg.blockTokens) :
    WorkValid prompts cfg.blockTokens (workOf cfg tree (prompts.map length) l) where
  segments := h.segments_valid hblock
  items := h.items_valid
  ordered := h.items_ordered _
  pages := rfl
  need := rfl

end Batchgen.WavePlan
