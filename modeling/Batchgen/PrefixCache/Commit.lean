import Batchgen.PrefixCache.References

/-!
# The two passes of a commit

The first pass counts what the blocks that are not resident will take; the second writes them, one node
a block.  A write behind the used part of the arenas changes no node (`Scratch`), and a node is there
once its slot and the two ends have been set (`insertBlock_ends`).

* `PagesFit` — the condition on the pages a commit brings under which the checks of the second pass are exact,
  so that it writes inside the arenas;
* `insertBlocks_ends` — the second pass on the view: new nodes come in free slots (`Inserts`), also when it throws;
* `commitBlocksLocked_ends` — both passes.  With tables of the intended size a node slot is never
  missing in the second pass, so no page is counted for a node that is not published.
-/

namespace Batchgen.PrefixCache

open MachineInt Outcome Function List

variable {cfg : HostPrefixCacheCoordinator} {r r' r₁ : Region} {v v' : View} {n epoch index rawStart rawEnd : ℕ}
  {specs : List HostKVGroupSpec} {blocks : List (ℕ × PrefixDigest)}
  {refs : Multiset (ℕ × ℕ)} {node : NodeSnapshot} {byGroup : ℕ → Option (List ℕ)} {namespaceDigest : PrefixDigest}

/-! ### Faults -/

/-- The exceptions that report a node that is gone or a counter that is too low. -/
def PrefixCacheError.isLost : PrefixCacheError → Bool
  | .attachNonResident | .attachmentNonResident | .materializationNonResident
  | .nodeIndexOutOfRange | .activeRefUnderflow | .pendingLoadRefUnderflow
  | .pendingLoadUnderflow => true
  | _ => false

/-- An exception, and none of those. -/
def Fault.Ordinary : Fault → Prop
  | .thrown error => error.isLost = false
  | .outOfBounds => False

theorem TableFault.ordinary {fault : Fault} (h : TableFault fault) : fault.Ordinary := by
  cases fault with
  | outOfBounds => exact h
  | thrown error => cases error <;> first | rfl | exact absurd h id

/-- **The condition on the pages of a commit**: behind a full arena, what one block can take is still counted
exactly in 32 bits. -/
def PagesFit (cfg : HostPrefixCacheCoordinator) (byGroup : ℕ → Option (List ℕ)) : Prop :=
  cfg.maxGroupEntries + cfg.groupSpecs.length < 2 ^ 32 ∧
    cfg.maxPageHandles + (cfg.groupSpecs.map fun spec => ((byGroup spec.groupId).getD []).length).sum < 2 ^ 32

theorem sliceHandles_le (byGroup : ℕ → Option (List ℕ)) (rawStart rawEnd : ℕ) (specs : List HostKVGroupSpec) :
    sliceHandles (specs.filterMap (groupSlice byGroup rawStart rawEnd)) ≤
      (specs.map fun spec => ((byGroup spec.groupId).getD []).length).sum := by
  induction specs with
  | nil => exact le_rfl
  | cons spec rest ih =>
    rw [map_cons, sum_cons]
    cases hslice : groupSlice byGroup rawStart rawEnd spec with
    | none =>
      rw [filterMap_cons_none hslice]
      omega
    | some slice =>
      rw [filterMap_cons_some hslice]
      have hlength : slice.2.length ≤ ((byGroup spec.groupId).getD []).length := by
        unfold groupSlice at hslice
        split at hslice
        · simp at hslice
        · next pages hpages =>
          split at hslice
          · simp at hslice
          split at hslice
          · simp at hslice
          · obtain rfl := Option.some.inj hslice
            rw [hpages]
            simp
      exact Nat.add_le_add hlength ih

/-- What a block takes is counted exactly. -/
theorem PagesFit.slices (h : PagesFit cfg byGroup) (rawStart rawEnd : ℕ) :
    cfg.maxGroupEntries + (groupSlices cfg byGroup rawStart rawEnd).length < 2 ^ 32 ∧
      cfg.maxPageHandles + sliceHandles (groupSlices cfg byGroup rawStart rawEnd) < 2 ^ 32 := by
  have hlength : (groupSlices cfg byGroup rawStart rawEnd).length ≤ cfg.groupSpecs.length := length_filterMap_le ..
  have hhandles := sliceHandles_le byGroup rawStart rawEnd cfg.groupSpecs
  unfold PagesFit at h
  unfold groupSlices at hlength ⊢
  omega

/-! ### Writes behind the used part -/

/-- `r'` differs from `r` in its tables, and in its arenas from entry `e` and handle `c` on. -/
structure Scratch (e c : ℕ) (r r' : Region) : Prop where
  nodes : r'.nodes = r.nodes
  nextGroupEntry : r'.nextGroupEntry = r.nextGroupEntry
  nextPageHandle : r'.nextPageHandle = r.nextPageHandle
  globalEpoch : r'.globalEpoch = r.globalEpoch
  entries : ∀ k, k < e → r'.groupEntries k = r.groupEntries k
  handles : ∀ cell, cell < c → r'.pageHandles cell = r.pageHandles cell

variable {e c : ℕ}

theorem Scratch.refl (e c : ℕ) (r : Region) : Scratch e c r r := ⟨rfl, rfl, rfl, rfl, fun _ _ => rfl, fun _ _ => rfl⟩

theorem Scratch.trans {r'' : Region} {e' c' : ℕ} (h : Scratch e c r r') (h' : Scratch e' c' r' r'')
    (he : e ≤ e') (hc : c ≤ c') : Scratch e c r r'' := by
  refine ⟨h'.nodes.trans h.nodes, h'.nextGroupEntry.trans h.nextGroupEntry,
    h'.nextPageHandle.trans h.nextPageHandle, h'.globalEpoch.trans h.globalEpoch, ?_, ?_⟩
  · intro k hk
    rw [h'.entries k (by omega), h.entries k hk]
  · intro cell hcell
    rw [h'.handles cell (by omega), h.handles cell hcell]

theorem Scratch.of_tables (e c : ℕ) (h : TablesOnly r r') : Scratch e c r r' := by
  obtain ⟨_, _, rfl⟩ := h
  exact ⟨rfl, rfl, rfl, rfl, fun _ _ => rfl, fun _ _ => rfl⟩

theorem Scratch.arena (h : Scratch r.nextGroupEntry r.nextPageHandle r r') (hok : ArenaOk cfg r) :
    ArenaOk cfg r' ∧ r'.view cfg = r.view cfg :=
  hok.frame h.nodes h.nextGroupEntry h.nextPageHandle h.entries h.handles

/-- The page references of a table that is to hold them. -/
def RefsHeld (cfg : HostPrefixCacheCoordinator) (refs : Multiset (ℕ × ℕ)) (r : Region) : Prop :=
  TablesFit cfg → PageRefsOk cfg r.pageRefSlots refs

theorem incrementPageRefLocked_ends (hrefs : RefsHeld cfg refs r) (hcard : refs.card ≤ cfg.maxPageHandles)
    (groupId page : ℕ) :
    Ends (incrementPageRefLocked cfg groupId page) r
      (fun _ r' => TablesOnly r r' ∧ (TablesFit cfg → r'.nodeIndexSlots = r.nodeIndexSlots) ∧
        RefsHeld cfg ((groupId, page) ::ₘ refs) r') (fun e r' => TableBroken cfg e ∧ TablesOnly r r') := by
  by_cases hfit : TablesFit cfg
  · obtain ⟨slots, hrun, hok⟩ := (hrefs hfit).increment hfit hcard groupId page
    unfold Ends
    rw [hrun]
    exact ⟨(TablesOnly.refl r).refs slots, fun _ => rfl, fun _ => hok⟩
  · refine (incrementPageRefLocked_keeps groupId page r (TablesOnly.refl r)).mono ?_ ?_
    · intro _ r' htables
      exact ⟨htables, fun hfit' => absurd hfit' hfit, fun hfit' => absurd hfit' hfit⟩
    · intro e r' he
      exact ⟨⟨he.1, hfit⟩, he.2⟩

/-- **The pages of one entry.** -/
theorem writeHandles_ends (groupId : ℕ) (pages : List ℕ) (c : ℕ) (hc : c + pages.length ≤ cfg.maxPageHandles)
    (hrefs : RefsHeld cfg refs r) (hcard : refs.card ≤ c) (e : ℕ) :
    Ends (writeHandles cfg groupId pages c) r
      (fun c' r' => c' = c + pages.length ∧ Scratch e c r r' ∧ r'.groupEntries = r.groupEntries ∧
        ((range pages.length).map fun pageIdx => r'.pageHandles (c + pageIdx)) = pages ∧
        (TablesFit cfg → r'.nodeIndexSlots = r.nodeIndexSlots) ∧
        RefsHeld cfg (refs + (pages.map fun page => (groupId, page) : List (ℕ × ℕ))) r')
      (fun fault r' => TableBroken cfg fault ∧ Scratch e c r r') := by
  induction pages generalizing r c refs with
  | nil =>
    refine ⟨rfl, Scratch.refl e c r, rfl, rfl, fun _ => rfl, ?_⟩
    simpa using hrefs
  | cons page rest ih =>
    rw [length_cons] at hc
    rw [writeHandles, if_neg (by omega), ends_bind, ends_modify, ends_bind]
    have hwrite : Scratch e c r { r with pageHandles := update r.pageHandles c page } :=
      ⟨rfl, rfl, rfl, rfl, fun _ _ => rfl, fun cell hcell => update_of_ne (by omega) _ _⟩
    have hrefs₀ : RefsHeld cfg refs { r with pageHandles := update r.pageHandles c page } := hrefs
    refine (incrementPageRefLocked_ends hrefs₀ (by omega) groupId page).mono ?_ ?_
    · intro _ r₁ hr₁
      obtain ⟨htables, hindex, hrefs₁⟩ := hr₁
      have hcard₁ : ((groupId, page) ::ₘ refs).card ≤ c + 1 := by
        rw [Multiset.card_cons]
        omega
      have hscratch₁ := hwrite.trans (Scratch.of_tables e c htables) le_rfl le_rfl
      refine (ih (c + 1) (by omega) hrefs₁ hcard₁).mono ?_ ?_
      · intro c' r' hr'
        obtain ⟨hc', hscratch, hentries, hpages, hindex', hrefs'⟩ := hr'
        refine ⟨by rw [length_cons]; omega, hscratch₁.trans hscratch le_rfl (by omega), ?_, ?_, ?_, ?_⟩
        · rw [hentries]
          obtain ⟨_, _, rfl⟩ := htables
          rfl
        · rw [length_cons, range_succ_eq_map, map_cons, map_map]
          congr 1
          · rw [Nat.add_zero, hscratch.handles c (by omega)]
            obtain ⟨_, _, rfl⟩ := htables
            exact update_self ..
          · refine Eq.trans (map_congr_left fun pageIdx _ => ?_) hpages
            show r'.pageHandles (c + (pageIdx + 1)) = _
            rw [show c + (pageIdx + 1) = c + 1 + pageIdx by omega]
        · intro hfit
          rw [hindex' hfit, hindex hfit]
        · intro hfit
          have heq : refs + ((page :: rest).map fun page => (groupId, page) : List (ℕ × ℕ)) =
              (groupId, page) ::ₘ refs + (rest.map fun page => (groupId, page) : List (ℕ × ℕ)) := by
            rw [map_cons, ← Multiset.cons_coe, Multiset.add_cons, Multiset.cons_add]
          rw [heq]
          exact hrefs' hfit
      · intro fault r' hfault
        exact ⟨hfault.1, hscratch₁.trans hfault.2 le_rfl (by omega)⟩
    · intro fault r₁ hfault
      exact ⟨hfault.1, hwrite.trans (Scratch.of_tables e c hfault.2) le_rfl le_rfl⟩

/-- The group entries of a new node. -/
def newGroups (rawStart rawEnd : ℕ) (slices : List (ℕ × List ℕ)) : List GroupEntrySnapshot :=
  slices.map fun slice => ⟨slice.1, rawStart, rawEnd, 0, 0, slice.2⟩

theorem newGroups_length (rawStart rawEnd : ℕ) (slices : List (ℕ × List ℕ)) :
    (newGroups rawStart rawEnd slices).length = slices.length := length_map ..

theorem totalPages_newGroups (rawStart rawEnd : ℕ) (slices : List (ℕ × List ℕ)) :
    totalPages (newGroups rawStart rawEnd slices) = sliceHandles slices := by
  simp only [totalPages, newGroups, sliceHandles, map_map]
  rfl

/-- The page references of a list of slices. -/
def sliceRefs (slices : List (ℕ × List ℕ)) : List (ℕ × ℕ) :=
  slices.flatMap fun slice => slice.2.map fun page => (slice.1, page)

/-- **The entries of a new node.** -/
theorem writeEntries_ends (rawStart rawEnd : ℕ) (slices : List (ℕ × List ℕ)) (e c : ℕ)
    (he : e + slices.length ≤ cfg.maxGroupEntries) (hc : c + sliceHandles slices ≤ cfg.maxPageHandles)
    (hrefs : RefsHeld cfg refs r) (hcard : refs.card ≤ c) :
    Ends (writeEntries cfg rawStart rawEnd slices e c) r
      (fun next r' => next = (e + slices.length, c + sliceHandles slices) ∧ Scratch e c r r' ∧
        Laid r'.groupEntries r'.pageHandles e c (newGroups rawStart rawEnd slices) ∧
        (TablesFit cfg → r'.nodeIndexSlots = r.nodeIndexSlots) ∧
        RefsHeld cfg (refs + (sliceRefs slices : List (ℕ × ℕ))) r')
      (fun fault r' => TableBroken cfg fault ∧ Scratch e c r r') := by
  induction slices generalizing r e c refs with
  | nil =>
    refine ⟨rfl, Scratch.refl e c r, trivial, fun _ => rfl, ?_⟩
    simpa [sliceRefs] using hrefs
  | cons slice rest ih =>
    have hhandles : sliceHandles (slice :: rest) = slice.2.length + sliceHandles rest := rfl
    rw [length_cons] at he
    rw [hhandles] at hc
    rw [length_cons, hhandles, writeEntries, if_neg (by omega), ends_bind, ends_modify, ends_bind]
    let entry : SharedGroupEntry :=
      { state := .resident
        groupId := slice.1
        rawStartToken := rawStart
        rawEndToken := rawEnd
        firstPageHandle := c
        pageHandleCount := slice.2.length }
    have hwrite : Scratch e c r { r with groupEntries := update r.groupEntries e entry } :=
      ⟨rfl, rfl, rfl, rfl, fun k hk => update_of_ne (by omega) _ _, fun _ _ => rfl⟩
    have hrefs₀ : RefsHeld cfg refs { r with groupEntries := update r.groupEntries e entry } := hrefs
    refine (writeHandles_ends slice.1 slice.2 c (by omega) hrefs₀ hcard e).mono ?_ ?_
    · intro c₁ r₁ hr₁
      obtain ⟨rfl, hscratch₁, hentries₁, hpages₁, hindex₁, hrefs₁⟩ := hr₁
      have hcard₁ : (refs + (slice.2.map fun page => (slice.1, page) : List (ℕ × ℕ))).card ≤ c + slice.2.length := by
        rw [Multiset.card_add, Multiset.coe_card, length_map]
        omega
      have hstart := hwrite.trans hscratch₁ le_rfl le_rfl
      refine (ih (e + 1) (c + slice.2.length) (by omega) (by omega) hrefs₁ hcard₁).mono ?_ ?_
      · intro next r' hr'
        obtain ⟨rfl, hscratch, hlaid, hindex, hrefs'⟩ := hr'
        refine ⟨?_, hstart.trans hscratch (by omega) (by omega), ⟨?_, ?_, hlaid⟩, ?_, ?_⟩
        · rw [Nat.add_assoc, Nat.add_assoc, Nat.add_comm 1]
        · rw [hscratch.entries e (by omega), hentries₁]
          exact update_self ..
        · refine Eq.trans (map_congr_left fun pageIdx hpageIdx => ?_) hpages₁
          have hlt : pageIdx < slice.2.length := mem_range.mp hpageIdx
          exact hscratch.handles _ (by omega)
        · intro hfit
          rw [hindex hfit, hindex₁ hfit]
        · intro hfit
          have heq : refs + (sliceRefs (slice :: rest) : List (ℕ × ℕ)) =
              refs + (slice.2.map fun page => (slice.1, page) : List (ℕ × ℕ)) + (sliceRefs rest : List (ℕ × ℕ)) := by
            rw [add_assoc, Multiset.coe_add]
            rfl
          rw [heq]
          exact hrefs' hfit
      · intro fault r' hfault
        exact ⟨hfault.1, hstart.trans hfault.2 (by omega) (by omega)⟩
    · intro fault r₁ hfault
      exact ⟨hfault.1, hwrite.trans hfault.2 le_rfl le_rfl⟩

/-! ### One block -/

/-- The node a block becomes. -/
def newNode (cfg : HostPrefixCacheCoordinator) (namespaceDigest : PrefixDigest)
    (byGroup : ℕ → Option (List ℕ)) (rawStart rawEnd : ℕ) (digest : PrefixDigest) (epoch : ℕ) :
    NodeSnapshot where
  namespaceDigest := namespaceDigest
  digest := digest
  rawStartToken := rawStart
  rawEndToken := rawEnd
  lastAccessEpoch := epoch
  groups := newGroups rawStart rawEnd (groupSlices cfg byGroup rawStart rawEnd)

theorem newNode_pageRefs (namespaceDigest : PrefixDigest) (byGroup : ℕ → Option (List ℕ))
    (rawStart rawEnd : ℕ) (digest : PrefixDigest) (epoch : ℕ) :
    (newNode cfg namespaceDigest byGroup rawStart rawEnd digest epoch).pageRefs =
      sliceRefs (groupSlices cfg byGroup rawStart rawEnd) := by
  simp only [NodeSnapshot.pageRefs, newNode, newGroups, sliceRefs, flatMap_map]

/-- The free slots of the node table. -/
def View.freeSlots (n : ℕ) (v : View) : ℕ := (List.range n).countP fun i => (v i).isNone

theorem View.freeSlots_pos {v : View} : 0 < v.freeSlots n ↔ ∃ i, i < n ∧ v i = none := by
  unfold View.freeSlots
  rw [countP_pos_iff]
  simp only [mem_range, Option.isNone_iff_eq_none]

theorem View.freeSlots_insert {v : View} (node : NodeSnapshot) (hlt : index < n) (hnone : v index = none) :
    View.freeSlots n (update v index (some node)) + 1 = v.freeSlots n := by
  have hcard : ∀ w : View, w.freeSlots n = ((Finset.range n).filter fun i => w i = none).card := by
    intro w
    rw [View.freeSlots, countP_eq_length_filter, ← toFinset_card_of_nodup
      (nodup_range.filter _), toFinset_filter, toFinset_range]
    simp only [Option.isNone_iff_eq_none]
  have herase : ((Finset.range n).filter fun i => update v index (some node) i = none) =
      ((Finset.range n).filter fun i => v i = none).erase index := by
    ext i
    simp only [Finset.mem_filter, Finset.mem_erase]
    by_cases hi : i = index
    · subst hi
      simp
    · simp [hi]
  rw [hcard, hcard, herase, Finset.card_erase_add_one]
  exact Finset.mem_filter.mpr ⟨Finset.mem_range.mpr hlt, hnone⟩

/-- **A node has been published.** -/
structure Inserted (cfg : HostPrefixCacheCoordinator) (r r' : Region) (index : ℕ)
    (node : NodeSnapshot) : Prop where
  ok : RegionOk cfg r'
  lt : index < cfg.maxNodes
  free : r.view cfg index = none
  view : r'.view cfg = update (r.view cfg) index (some node)

theorem Inserted.freeSlots (h : Inserted cfg r r' index node) :
    (r'.view cfg).freeSlots cfg.maxNodes + 1 = (r.view cfg).freeSlots cfg.maxNodes := by
  rw [h.view]
  exact View.freeSlots_insert node h.lt h.free

/-- A region in which the entries of a node have been written and the node has not. -/
structure Staged (cfg : HostPrefixCacheCoordinator) (r r' : Region) (node : NodeSnapshot) : Prop where
  scratch : Scratch r.nextGroupEntry r.nextPageHandle r r'
  laid : Laid r'.groupEntries r'.pageHandles r.nextGroupEntry r.nextPageHandle node.groups
  nextGroupEntry_le : r.nextGroupEntry + node.groups.length ≤ cfg.maxGroupEntries
  nextPageHandle_le : r.nextPageHandle + totalPages node.groups ≤ cfg.maxPageHandles
  index : TablesFit cfg → r'.nodeIndexSlots = r.nodeIndexSlots
  refs : RefsHeld cfg ((r.view cfg).pageRefs cfg.maxNodes + (node.pageRefs : List (ℕ × ℕ))) r'

/-- The region after the node record and the two ends have been written. -/
def Region.publish (r : Region) (index : ℕ) (node : NodeSnapshot) : Region :=
  { r with
    nodes := update r.nodes index (node.node r.nextGroupEntry)
    globalEpoch := u64 (r.globalEpoch + 1)
    nextGroupEntry := r.nextGroupEntry + node.groups.length
    nextPageHandle := r.nextPageHandle + totalPages node.groups }

theorem Staged.publish (h : RegionOk cfg r) (hstaged : Staged cfg r r₁ node) (hlt : index < cfg.maxNodes)
    (hfree : r.view cfg index = none) :
    ArenaOk cfg (r₁.publish index node) ∧ (r₁.publish index node).view cfg = update (r.view cfg) index (some node) := by
  have hscratch := hstaged.scratch
  have happ : Appends r (r₁.publish index node) index node := by
    refine ⟨?_, hscratch.entries, hscratch.handles, hstaged.laid, ?_, ?_⟩
    · show update r₁.nodes index (node.node r₁.nextGroupEntry) = _
      rw [hscratch.nodes, hscratch.nextGroupEntry]
    · show r₁.nextGroupEntry + _ = _
      rw [hscratch.nextGroupEntry]
    · show r₁.nextPageHandle + _ = _
      rw [hscratch.nextPageHandle]
  apply h.arena.append hlt (view_eq_none_iff.mp hfree) happ
  · rw [happ.nextGroupEntry]
    exact hstaged.nextGroupEntry_le
  · rw [happ.nextPageHandle]
    exact hstaged.nextPageHandle_le

/-- **Allocation, publication and indexing of a node.** -/
theorem publishNode_ends (h : RegionOk cfg r) (hstaged : Staged cfg r r₁ node)
    (hepoch : node.lastAccessEpoch = u64 (r.globalEpoch + 1))
    (hfresh : TablesFit cfg → ∀ i m, r.view cfg i = some m → m.digest ≠ node.digest)
    (hroom : TablesFit cfg → 0 < (r.view cfg).freeSlots cfg.maxNodes) :
    Ends (publishNode cfg node.namespaceDigest node.digest node.rawStartToken node.rawEndToken
        node.groups.length (r.nextGroupEntry + node.groups.length) (r.nextPageHandle + totalPages node.groups)) r₁
      (fun index r' => Inserted cfg r r' index node)
      (fun e r' => e = .thrown .nodeTableFull ∧ RegionOk cfg r' ∧ r'.view cfg = r.view cfg ∨
        TableBroken cfg e ∧ ∃ index, Inserted cfg r r' index node) := by
  have hscratch := hstaged.scratch
  have hisFree : ∀ i, (r₁.nodes i).isFree = true ↔ (r.nodes i).state ≠ .resident := by
    intro i
    rw [isFree_iff, hscratch.nodes]
  rw [publishNode, ends_bind, allocateNodeLocked, ends_bind, ends_get]
  cases hfind : (List.range cfg.maxNodes).find? fun index => (r₁.nodes index).isFree with
  | none =>
    have hnone : (r.view cfg).freeSlots cfg.maxNodes = 0 := by
      apply Nat.eq_zero_of_not_pos
      rw [View.freeSlots_pos]
      intro ⟨i, hi, hvi⟩
      have hnot := find?_eq_none.mp hfind i (mem_range.mpr hi)
      rw [hisFree] at hnot
      exact view_eq_none_iff.mp hvi ⟨hi, not_not.mp hnot⟩
    have hunfit : ¬ TablesFit cfg := fun hfit => by
      have := hroom hfit
      omega
    obtain ⟨harena, hview⟩ := hscratch.arena h.arena
    exact Or.inl ⟨rfl, ⟨harena, fun hfit => absurd hfit hunfit, fun hfit => absurd hfit hunfit⟩, hview⟩
  | some index =>
    have hlt : index < cfg.maxNodes := mem_range.mp (mem_of_find?_eq_some hfind)
    have hfound : (r₁.nodes index).isFree = true := by
      have := find?_some hfind
      exact this
    have hstate := (hisFree index).mp hfound
    have hfree : r.view cfg index = none := view_eq_none_iff.mpr fun hres => hstate hres.2
    obtain ⟨harena, hview⟩ := hstaged.publish h hlt hfree
    simp only [ends_bind, ends_set, ends_pure, ends_modify]
    -- the two writes of the node slot are one
    have hwritten : ({ r₁ with
        nodes := update (update r₁.nodes index {}) index
          { state := .resident
            namespaceDigest := node.namespaceDigest
            digest := node.digest
            rawStartToken := node.rawStartToken
            rawEndToken := node.rawEndToken
            firstGroupEntry := r₁.nextGroupEntry
            groupEntryCount := node.groups.length
            lastAccessEpoch := u64 (r₁.globalEpoch + 1) }
        globalEpoch := u64 (r₁.globalEpoch + 1)
        nextGroupEntry := r.nextGroupEntry + node.groups.length
        nextPageHandle := r.nextPageHandle + totalPages node.groups } : Region) =
        r₁.publish index node := by
      rw [Region.publish, update_idem, hscratch.nextGroupEntry, hscratch.nextPageHandle, hscratch.globalEpoch, ← hepoch]
      rfl
    rw [hwritten]
    have hinserted : ∀ r', TablesOnly (r₁.publish index node) r' → (TablesFit cfg → IndexOk cfg r'.nodeIndexSlots
          (update (r.view cfg) index (some node))) →
        (TablesFit cfg → r'.pageRefSlots = r₁.pageRefSlots) → Inserted cfg r r' index node := by
      intro r' htables hindex hrefs
      have hview' := htables.view.trans hview
      refine ⟨⟨htables.arenaOk harena, fun hfit => ?_, fun hfit => ?_⟩, hlt, hfree, hview'⟩
      · rw [hview']
        exact hindex hfit
      · rw [hview', View.pageRefs_insert node hlt hfree, hrefs hfit, add_comm]
        exact hstaged.refs hfit
    by_cases hfit : TablesFit cfg
    · have hold : IndexOk cfg (r₁.publish index node).nodeIndexSlots (r.view cfg) := by
        show IndexOk cfg r₁.nodeIndexSlots _
        rw [hstaged.index hfit]
        exact h.index hfit
      obtain ⟨slots, hrun, hok⟩ := hold.insert hfit (view_bound cfg r) index node hfree (hfresh hfit)
      unfold Ends
      rw [hrun]
      exact hinserted _ ((TablesOnly.refl _).index slots) (fun _ => hok) fun _ => rfl
    · refine (insertNodeIndexLocked_keeps node.digest index _ (TablesOnly.refl _)).mono ?_ ?_
      · intro _ r' htables
        exact hinserted r' htables (fun hfit' => absurd hfit' hfit) fun hfit' => absurd hfit' hfit
      · intro e r' he
        exact Or.inr ⟨⟨he.1, hfit⟩, index, hinserted r' he.2 (fun hfit' => absurd hfit' hfit)
          fun hfit' => absurd hfit' hfit⟩

/-- **Only new nodes come**, with groups and with counters at zero. -/
def Inserts (v v' : View) : Prop :=
  ∀ i, v' i = v i ∨ v i = none ∧ ∃ node, v' i = some node ∧ node.groups ≠ [] ∧
    ∀ group ∈ node.groups, group.activeRefCount = 0 ∧ group.pendingLoadCount = 0

theorem Inserts.refl (v : View) : Inserts v v := fun _ => Or.inl rfl

theorem Inserts.trans {v'' : View} (h : Inserts v v') (h' : Inserts v' v'') : Inserts v v'' := by
  intro i
  rcases h i with heq | ⟨hnone, node, hnode, hnew⟩
  · rcases h' i with heq' | ⟨hnone', hnew'⟩
    · exact Or.inl (heq'.trans heq)
    · exact Or.inr ⟨heq ▸ hnone', hnew'⟩
  · rcases h' i with heq' | ⟨hnone', _⟩
    · exact Or.inr ⟨hnone, node, heq'.trans hnode, hnew⟩
    · rw [hnode] at hnone'
      simp at hnone'

theorem Inserts.eq_of_some (h : Inserts v v') {i : ℕ} (hi : v i = some node) : v' i = some node := by
  rcases h i with heq | ⟨hnone, _⟩
  · exact heq.trans hi
  · rw [hi] at hnone
    simp at hnone

/-- What `checkSlices` has checked of a required group. -/
theorem checkSlices_ok (h : checkSlices byGroup rawStart rawEnd specs = .ok ()) {spec : HostKVGroupSpec}
    (hspec : spec ∈ specs) (hrequired : spec.requiredForReuse = true) {pages : List ℕ}
    (hpages : byGroup spec.groupId = some pages) : ∃ slice, groupSlice byGroup rawStart rawEnd spec = some slice := by
  induction specs with
  | nil => simp at hspec
  | cons head rest ih =>
    rw [checkSlices] at h
    rcases mem_cons.mp hspec with rfl | hspec
    · rw [hpages] at h
      dsimp only at h
      rw [groupSlice, hpages]
      dsimp only
      split at h
      · simp at h
      · next haligned =>
        split at h
        · simp at h
        · next hlong =>
          rw [if_neg haligned, if_neg hlong]
          exact ⟨_, rfl⟩
    · apply ih _ hspec
      revert h
      cases byGroup head.groupId with
      | none => exact id
      | some pages =>
        dsimp only
        split
        · split
          · intro h; simp at h
          · exact id
        · split
          · split
            · intro h; simp at h
            · exact id
          · exact id

/-- A commit brings pages of some required group. -/
def RequiredSupplied (cfg : HostPrefixCacheCoordinator) (byGroup : ℕ → Option (List ℕ)) : Prop :=
  ∃ spec ∈ cfg.groupSpecs, spec.requiredForReuse = true ∧ (byGroup spec.groupId).isSome = true

theorem groupSlices_ne_nil (hsupplied : RequiredSupplied cfg byGroup)
    (h : checkSlices byGroup rawStart rawEnd cfg.groupSpecs = .ok ()) :
    groupSlices cfg byGroup rawStart rawEnd ≠ [] := by
  obtain ⟨spec, hspec, hrequired, hsome⟩ := hsupplied
  obtain ⟨pages, hpages⟩ := Option.isSome_iff_exists.mp hsome
  obtain ⟨slice, hslice⟩ := checkSlices_ok h hspec hrequired hpages
  apply ne_nil_of_mem (a := slice)
  exact mem_filterMap.mpr ⟨spec, hspec, hslice⟩

theorem Inserted.inserts {digest : PrefixDigest}
    (h : Inserted cfg r r' index (newNode cfg namespaceDigest byGroup rawStart rawEnd digest epoch))
    (hne : groupSlices cfg byGroup rawStart rawEnd ≠ []) : Inserts (r.view cfg) (r'.view cfg) := by
  intro i
  rw [h.view]
  by_cases hi : i = index
  · subst hi
    refine Or.inr ⟨h.free, _, update_self .., ?_, ?_⟩
    · intro hnil
      exact hne (map_eq_nil_iff.mp hnil)
    · intro group hgroup
      obtain ⟨slice, _, rfl⟩ := mem_map.mp hgroup
      exact ⟨rfl, rfl⟩
  · exact Or.inl (update_of_ne hi ..)

theorem checkSlices_error {error : PrefixCacheError} (h : checkSlices byGroup rawStart rawEnd specs = .error error) :
    error.isLost = false := by
  induction specs with
  | nil => simp [checkSlices] at h
  | cons spec rest ih =>
    rw [checkSlices] at h
    split at h
    · exact ih h
    split at h
    · split at h
      · obtain rfl := Except.error.inj h
        rfl
      · exact ih h
    · split at h
      · split at h
        · obtain rfl := Except.error.inj h
          rfl
        · exact ih h
      · exact ih h

/-- **One block becomes one node.** -/
theorem insertBlock_ends (h : RegionOk cfg r) (namespaceDigest : PrefixDigest)
    (hsupplied : RequiredSupplied cfg byGroup) (hpages : PagesFit cfg byGroup) (rawStart rawEnd : ℕ)
    (digest : PrefixDigest) (hfresh : TablesFit cfg → ∀ i m, r.view cfg i = some m → m.digest ≠ digest)
    (hroom : TablesFit cfg → 0 < (r.view cfg).freeSlots cfg.maxNodes) :
    Ends (insertBlock cfg namespaceDigest byGroup rawStart rawEnd digest) r
      (fun index r' => (∃ node, Inserted cfg r r' index node) ∧ Inserts (r.view cfg) (r'.view cfg))
      (fun fault r' => fault.Ordinary ∧ RegionOk cfg r' ∧ Inserts (r.view cfg) (r'.view cfg)) := by
  cases hcheck : checkSlices byGroup rawStart rawEnd cfg.groupSpecs with
  | error error =>
    rw [insertBlock, hcheck]
    exact ⟨checkSlices_error hcheck, h, .refl _⟩
  | ok _ =>
    have hne := groupSlices_ne_nil hsupplied hcheck
    obtain ⟨hfitE, hfitH⟩ := hpages.slices rawStart rawEnd
    have hnextE := h.arena.nextGroupEntry_le
    have hnextH := h.arena.nextPageHandle_le
    rw [insertBlock, hcheck]
    simp only [ends_bind, ends_get]
    generalize hslices : groupSlices cfg byGroup rawStart rawEnd = slices at hfitE hfitH ⊢
    -- the 32-bit sums are exact, so what passes the checks stays inside the arenas
    have hcountE : u32 slices.length = slices.length := u32_of_lt (by omega)
    have hcountH : u32 (sliceHandles slices) = sliceHandles slices := u32_of_lt (by omega)
    rw [hcountE, hcountH, u32_of_lt (n := r.nextGroupEntry + slices.length) (by omega),
      u32_of_lt (n := r.nextPageHandle + sliceHandles slices) (by omega)]
    split
    · exact ⟨rfl, h, .refl _⟩
    split
    · exact ⟨rfl, h, .refl _⟩
    next hE hH =>
    rw [not_lt] at hE hH
    rw [ends_bind]
    refine (writeEntries_ends rawStart rawEnd slices r.nextGroupEntry r.nextPageHandle hE hH h.refs
      h.card_refs_le).mono ?_ ?_
    · intro next r₁ hr₁
      obtain ⟨rfl, hscratch, hlaid, hindex, hrefs⟩ := hr₁
      let node := newNode cfg namespaceDigest byGroup rawStart rawEnd digest (u64 (r.globalEpoch + 1))
      have hgroups : node.groups = newGroups rawStart rawEnd slices := by rw [← hslices]; rfl
      have hlength : node.groups.length = slices.length := by rw [hgroups, newGroups_length]
      have htotal : totalPages node.groups = sliceHandles slices := by
        rw [hgroups, totalPages_newGroups]
      have hstaged : Staged cfg r r₁ node := by
        refine ⟨hscratch, ?_, ?_, ?_, hindex, ?_⟩
        · rw [hgroups]
          exact hlaid
        · rw [hlength]
          exact hE
        · rw [htotal]
          exact hH
        · rw [newNode_pageRefs, hslices]
          exact hrefs
      have hpublish := publishNode_ends h hstaged rfl hfresh hroom
      rw [hlength, htotal] at hpublish
      refine hpublish.mono (fun index r' hinserted => ⟨⟨_, hinserted⟩, hinserted.inserts hne⟩) ?_
      intro fault r' hfault
      rcases hfault with ⟨rfl, hok, hview⟩ | ⟨hbroken, index, hinserted⟩
      · exact ⟨rfl, hok, hview ▸ .refl _⟩
      · exact ⟨hbroken.1.ordinary, hinserted.ok, hinserted.inserts hne⟩
    · intro fault r₁ hfault
      obtain ⟨harena, hview⟩ := hfault.2.arena h.arena
      have hunfit := hfault.1.2
      exact ⟨hfault.1.1.ordinary, ⟨harena, fun hfit => absurd hfit hunfit, fun hfit => absurd hfit hunfit⟩,
        hview ▸ .refl _⟩

/-! ### The second pass -/

/-- The blocks the search does not find. -/
def missingBlocks (cfg : HostPrefixCacheCoordinator) (r : Region) (blocks : List (ℕ × PrefixDigest)) : ℕ :=
  blocks.countP fun block => (findNodeLocked cfg r block.2).isNone

theorem missingBlocks_cons (rawEnd : ℕ) (digest : PrefixDigest) :
    missingBlocks cfg r ((rawEnd, digest) :: blocks) =
      missingBlocks cfg r blocks + if (findNodeLocked cfg r digest).isNone then 1 else 0 := countP_cons ..

/-- Exact searches miss what is not in the view. -/
theorem missingBlocks_le (hfit : TablesFit cfg) (h : RegionOk cfg r) (h' : RegionOk cfg r')
    (hview : ∀ i node, r.view cfg i = some node → r'.view cfg i = some node) :
    missingBlocks cfg r' blocks ≤ missingBlocks cfg r blocks := by
  refine countP_mono_left fun block _ hmissing => ?_
  rw [Option.isNone_iff_eq_none, (h'.index hfit).findNode_eq_none_iff] at hmissing
  rw [Option.isNone_iff_eq_none, (h.index hfit).findNode_eq_none_iff]
  exact fun i node hnode => hmissing i node (hview i node hnode)

/-- Each block that is to become a node finds a free slot. -/
def SlotsLeft (cfg : HostPrefixCacheCoordinator) (r : Region) (blocks : List (ℕ × PrefixDigest)) : Prop :=
  TablesFit cfg → missingBlocks cfg r blocks ≤ (r.view cfg).freeSlots cfg.maxNodes

/-- **The second pass.** -/
theorem insertBlocks_ends (namespaceDigest : PrefixDigest) (hsupplied : RequiredSupplied cfg byGroup)
    (hpages : PagesFit cfg byGroup) (rawStart : ℕ) (blocks : List (ℕ × PrefixDigest)) (acc : List ℕ) (existing : ℕ)
    (h : RegionOk cfg r) (hroom : SlotsLeft cfg r blocks) :
    Ends (insertBlocks cfg namespaceDigest byGroup rawStart blocks acc existing) r
      (fun out r' => RegionOk cfg r' ∧ Inserts (r.view cfg) (r'.view cfg) ∧ ∃ inserted, out.1 = acc ++ inserted ∧
        ∀ i ∈ inserted, ∃ node, r'.view cfg i = some node)
      (fun fault r' => fault.Ordinary ∧ RegionOk cfg r' ∧ Inserts (r.view cfg) (r'.view cfg)) := by
  induction blocks generalizing r rawStart acc existing with
  | nil => exact ⟨h, .refl _, [], by simp, by simp⟩
  | cons block rest ih =>
    obtain ⟨rawEnd, digest⟩ := block
    rw [insertBlocks, ends_bind, ends_get]
    cases hfind : findNodeLocked cfg r digest with
    | some index =>
      rw [Option.isSome_some, if_pos rfl]
      refine ih rawEnd acc (u32 (existing + 1)) h fun hfit => ?_
      have := hroom hfit
      rw [missingBlocks_cons] at this
      omega
    | none =>
      rw [if_neg (by simp), ends_bind]
      have hfresh : TablesFit cfg → ∀ i m, r.view cfg i = some m → m.digest ≠ digest :=
        fun hfit => (h.index hfit).findNode_eq_none_iff.mp hfind
      have hspace : TablesFit cfg → missingBlocks cfg r rest + 1 ≤ (r.view cfg).freeSlots cfg.maxNodes := by
        intro hfit
        have := hroom hfit
        rwa [missingBlocks_cons, if_pos (by rw [hfind]; rfl)] at this
      refine (insertBlock_ends h namespaceDigest hsupplied hpages rawStart rawEnd digest hfresh
        (fun hfit => by have := hspace hfit; omega)).mono ?_ fun _ _ hfault => hfault
      intro index r₁ hr₁
      obtain ⟨⟨node, hinserted⟩, hinserts⟩ := hr₁
      have hroom' : SlotsLeft cfg r₁ rest := by
        intro hfit
        have hmono : missingBlocks cfg r₁ rest ≤ missingBlocks cfg r rest :=
          missingBlocks_le hfit h hinserted.ok fun i node => hinserts.eq_of_some
        have hfree := hinserted.freeSlots
        have := hspace hfit
        omega
      refine (ih rawEnd (acc ++ [index]) existing hinserted.ok hroom').mono ?_ fun _ _ hfault =>
        ⟨hfault.1, hfault.2.1, hinserts.trans hfault.2.2⟩
      intro out r' hr'
      obtain ⟨hok, hrest, inserted, hout, hthere⟩ := hr'
      refine ⟨hok, hinserts.trans hrest, index :: inserted, by rw [hout, append_assoc]; rfl, fun i hi => ?_⟩
      rcases mem_cons.mp hi with rfl | hi
      · refine ⟨node, hrest.eq_of_some ?_⟩
        rw [hinserted.view, update_self]
      · exact hthere i hi

/-! ### The first pass -/

/-- A count that stays below `2 ^ 32` is exact. -/
theorem countNeed_newNodes (cfg : HostPrefixCacheCoordinator) (r : Region) (byGroup : ℕ → Option (List ℕ))
    (rawStart : ℕ) (blocks : List (ℕ × PrefixDigest)) (need : CommitNeed)
    (hlt : need.newNodes + blocks.length < 2 ^ 32) :
    (countNeed cfg r byGroup rawStart blocks need).newNodes = need.newNodes + missingBlocks cfg r blocks := by
  induction blocks generalizing rawStart need with
  | nil => rfl
  | cons block rest ih =>
    obtain ⟨rawEnd, digest⟩ := block
    rw [length_cons] at hlt
    rw [countNeed, missingBlocks_cons]
    cases findNodeLocked cfg r digest with
    | some index => exact ih rawEnd need (by omega)
    | none =>
      have hadd : (need.addNode (groupSlices cfg byGroup rawStart rawEnd)).newNodes =
          need.newNodes + 1 := u32_of_lt (by omega)
      have hrest := ih rawEnd (need.addNode (groupSlices cfg byGroup rawStart rawEnd)) (by omega)
      rw [hadd, Nat.add_right_comm] at hrest
      exact hrest

/-! ### Both passes -/

/-- **`CommitPrefixPages` under the lock**, up to the protecting attachment.  Whatever stops it, new nodes have come
and nothing else has changed. -/
theorem commitBlocksLocked_ends (namespaceDigest : PrefixDigest) (hsupplied : RequiredSupplied cfg byGroup)
    (hpages : PagesFit cfg byGroup) (commitTokens : ℕ) (hblocks : blocks.length < 2 ^ 32) (h : RegionOk cfg r) :
    Ends (commitBlocksLocked cfg namespaceDigest byGroup commitTokens blocks) r
      (fun out r' => RegionOk cfg r' ∧ Inserts (r.view cfg) (r'.view cfg) ∧ out.1.activeAttachmentHandle = 0 ∧
        ∀ i ∈ out.2, ∃ node, r'.view cfg i = some node)
      (fun fault r' => fault.Ordinary ∧ RegionOk cfg r' ∧ Inserts (r.view cfg) (r'.view cfg)) := by
  have hfreeEq : countFreeNodeSlotsLocked cfg r = (r.view cfg).freeSlots cfg.maxNodes :=
    countFreeNodeSlotsLocked_eq cfg r
  have hexact := countNeed_newNodes cfg r byGroup 0 blocks {} (by
    show 0 + blocks.length < 2 ^ 32
    omega)
  rw [commitBlocksLocked, ends_bind, ends_get]
  dsimp only
  generalize countNeed cfg r byGroup 0 blocks {} = need at hexact ⊢
  split
  · exact ⟨rfl, h, .refl _⟩
  · next hnodes =>
    rw [ends_bind]
    refine (compactArenasForCapacityLocked_ends h _ _).mono ?_ fun e r₁ he =>
      ⟨he.1.1.ordinary, he.2.ok, he.2.view ▸ .refl _⟩
    intro _ r₁ hr₁
    have hsame := hr₁.1.toSameNodes
    rw [ends_bind, ends_get]
    split
    · exact ⟨rfl, hsame.ok, hsame.view ▸ .refl _⟩
    split
    · exact ⟨rfl, hsame.ok, hsame.view ▸ .refl _⟩
    -- with exact searches the blocks found do not depend on the layout
    have hroom : SlotsLeft cfg r₁ blocks := by
      intro hfit
      have hmono : missingBlocks cfg r₁ blocks ≤ missingBlocks cfg r blocks :=
        missingBlocks_le hfit h hsame.ok fun i node hnode => by rw [hsame.view, hnode]
      rw [hsame.view]
      change need.newNodes = 0 + _ at hexact
      omega
    rw [ends_bind]
    rw [← hsame.view]
    refine (insertBlocks_ends namespaceDigest hsupplied hpages 0 blocks [] 0 hsame.ok hroom).mono ?_ fun _ _ he => he
    intro out r' hr'
    obtain ⟨hok, hinserts, inserted, hout, hthere⟩ := hr'
    rw [nil_append] at hout
    exact ⟨hok, hinserts, rfl, by rw [hout]; exact hthere⟩

end Batchgen.PrefixCache
