import Batchgen.PrefixCache.Sections
import Batchgen.Library.Ranges

/-!
# Where nodes lie in the arenas

A node names a range of group entries, a group entry a range of page handles.  `Layout live r` says
that the ranges of the `live` nodes are pairwise apart, end below the arenas' next cells, and consist
of resident entries.  Two things follow for every user of a node:

* a write outside a node's ranges does not change what it holds (`snapshotNode_congr`,
  `Layout.snapshot_frame`);
* a node appended at the end of both arenas joins the layout and changes no other node
  (`Layout.append`).

`live` is a parameter because compaction builds the layout up node by node (`relayArenas_spec`); between
sections it is the set of resident nodes, and then the space in use is bounded by the arenas' next
cells (`ArenaOk.residentArenaUsage`).
-/

namespace Batchgen.PrefixCache

open Ranges Function List

variable {r r' : Region} {i k : ℕ}

/-- Group entry `entry` lies in the range of node `index`. -/
def Region.Owns (r : Region) (index entry : ℕ) : Prop :=
  (r.nodes index).firstGroupEntry ≤ entry ∧
    entry < (r.nodes index).firstGroupEntry + (r.nodes index).groupEntryCount

/-- **The ranges of the `live` nodes are in order.** -/
structure Layout (live : ℕ → Prop) (r : Region) : Prop where
  entries_below : ∀ i, live i →
    (r.nodes i).firstGroupEntry + (r.nodes i).groupEntryCount ≤ r.nextGroupEntry
  entries_apart : ∀ i j, live i → live j → i ≠ j →
    Apart (r.nodes i).firstGroupEntry (r.nodes i).groupEntryCount
      (r.nodes j).firstGroupEntry (r.nodes j).groupEntryCount
  entry_resident : ∀ i k, live i → r.Owns i k → (r.groupEntries k).state = .resident
  handles_below : ∀ i k, live i → r.Owns i k →
    (r.groupEntries k).firstPageHandle + (r.groupEntries k).pageHandleCount ≤ r.nextPageHandle
  handles_apart : ∀ i j k l, live i → live j → r.Owns i k → r.Owns j l → k ≠ l →
    Apart (r.groupEntries k).firstPageHandle (r.groupEntries k).pageHandleCount
      (r.groupEntries l).firstPageHandle (r.groupEntries l).pageHandleCount

variable {live : ℕ → Prop}

section

variable (h : Layout live r)
include h

theorem Layout.owns_lt (hi : live i) (hk : r.Owns i k) : k < r.nextGroupEntry := by
  have := h.entries_below i hi
  have := hk.2
  omega

/-- An entry belongs to one node only. -/
theorem Layout.owner_unique {j : ℕ} (hi : live i) (hj : live j) (hik : r.Owns i k) (hjk : r.Owns j k) : i = j := by
  by_contra hne
  obtain ⟨hi1, hi2⟩ := hik
  obtain ⟨hj1, hj2⟩ := hjk
  rcases h.entries_apart i j hi hj hne with hap | hap <;> omega

theorem Layout.mono {live' : ℕ → Prop} (hsub : ∀ i, live' i → live i) : Layout live' r where
  entries_below i hi := h.entries_below i (hsub i hi)
  entries_apart i j hi hj := h.entries_apart i j (hsub i hi) (hsub j hj)
  entry_resident i k hi := h.entry_resident i k (hsub i hi)
  handles_below i k hi := h.handles_below i k (hsub i hi)
  handles_apart i j k l hi hj := h.handles_apart i j k l (hsub i hi) (hsub j hj)

/-- Only the nodes' ranges, the entries in use and the next cells matter. -/
theorem Layout.congr (hnode : ∀ i, live i → (r'.nodes i).firstGroupEntry = (r.nodes i).firstGroupEntry ∧
      (r'.nodes i).groupEntryCount = (r.nodes i).groupEntryCount)
    (hentry : ∀ k, k < r.nextGroupEntry → (r'.groupEntries k).state = (r.groupEntries k).state ∧
      (r'.groupEntries k).firstPageHandle = (r.groupEntries k).firstPageHandle ∧
      (r'.groupEntries k).pageHandleCount = (r.groupEntries k).pageHandleCount)
    (hnextE : r.nextGroupEntry ≤ r'.nextGroupEntry) (hnextH : r.nextPageHandle ≤ r'.nextPageHandle) :
    Layout live r' := by
  have howns : ∀ i k, live i → r'.Owns i k → r.Owns i k := by
    intro i k hi hk
    unfold Region.Owns at hk ⊢
    rwa [(hnode i hi).1, (hnode i hi).2] at hk
  have hsame := fun i k hi hk => hentry k (h.owns_lt hi (howns i k hi hk))
  refine ⟨?_, ?_, ?_, ?_, ?_⟩
  · intro i hi
    rw [(hnode i hi).1, (hnode i hi).2]
    exact le_trans (h.entries_below i hi) hnextE
  · intro i j hi hj hne
    rw [(hnode i hi).1, (hnode i hi).2, (hnode j hj).1, (hnode j hj).2]
    exact h.entries_apart i j hi hj hne
  · intro i k hi hk
    rw [(hsame i k hi hk).1]
    exact h.entry_resident i k hi (howns i k hi hk)
  · intro i k hi hk
    rw [(hsame i k hi hk).2.1, (hsame i k hi hk).2.2]
    exact le_trans (h.handles_below i k hi (howns i k hi hk)) hnextH
  · intro i j k l hi hj hk hl hne
    rw [(hsame i k hi hk).2.1, (hsame i k hi hk).2.2, (hsame j l hj hl).2.1, (hsame j l hj hl).2.2]
    exact h.handles_apart i j k l hi hj (howns i k hi hk) (howns j l hj hl) hne

omit h in
theorem Layout.of_none (hnone : ∀ i, ¬ live i) : Layout live r where
  entries_below i hi := absurd hi (hnone i)
  entries_apart i _ hi := absurd hi (hnone i)
  entry_resident i _ hi := absurd hi (hnone i)
  handles_below i _ hi := absurd hi (hnone i)
  handles_apart i _ _ _ hi := absurd hi (hnone i)

end

/-! ### What a node holds -/

theorem pages_congr {entry : SharedGroupEntry} (h : ∀ cell, entry.firstPageHandle ≤ cell →
      cell < entry.firstPageHandle + entry.pageHandleCount → r'.pageHandles cell = r.pageHandles cell) :
    r'.pages entry = r.pages entry := by
  unfold Region.pages
  apply map_congr_left
  intro offset hoffset
  rw [mem_range] at hoffset
  exact h _ (by omega) (by omega)

theorem entries_congr {node : SharedPrefixNode}
    (h : ∀ k, node.firstGroupEntry ≤ k → k < node.firstGroupEntry + node.groupEntryCount →
      r'.groupEntries k = r.groupEntries k) : r'.entries node = r.entries node := by
  unfold Region.entries
  apply map_congr_left
  intro offset hoffset
  rw [mem_range] at hoffset
  exact h _ (by omega) (by omega)

theorem mem_entries {node : SharedPrefixNode} {entry : SharedGroupEntry} : entry ∈ r.entries node ↔
      ∃ k, node.firstGroupEntry ≤ k ∧ k < node.firstGroupEntry + node.groupEntryCount ∧ r.groupEntries k = entry := by
  simp only [Region.entries, mem_map, mem_range]
  constructor
  · rintro ⟨offset, hoffset, rfl⟩
    exact ⟨node.firstGroupEntry + offset, by omega, by omega, rfl⟩
  · rintro ⟨k, hle, hlt, rfl⟩
    refine ⟨k - node.firstGroupEntry, by omega, ?_⟩
    rw [Nat.add_sub_cancel' hle]

theorem snapshotGroup_congr {entry : SharedGroupEntry} (h : ∀ cell, entry.firstPageHandle ≤ cell →
      cell < entry.firstPageHandle + entry.pageHandleCount → r'.pageHandles cell = r.pageHandles cell) :
    r'.snapshotGroup entry = r.snapshotGroup entry := by
  unfold Region.snapshotGroup
  rw [pages_congr h]

/-- What a node holds is decided by its own entries and their handles. -/
theorem snapshotNode_congr {node : SharedPrefixNode}
    (hentries : ∀ k, node.firstGroupEntry ≤ k → k < node.firstGroupEntry + node.groupEntryCount →
      r'.groupEntries k = r.groupEntries k)
    (hhandles : ∀ k, node.firstGroupEntry ≤ k → k < node.firstGroupEntry + node.groupEntryCount →
      ∀ cell, (r.groupEntries k).firstPageHandle ≤ cell →
        cell < (r.groupEntries k).firstPageHandle + (r.groupEntries k).pageHandleCount →
        r'.pageHandles cell = r.pageHandles cell) : r'.snapshotNode node = r.snapshotNode node := by
  have hgroups : (r'.residentEntries node).map r'.snapshotGroup = (r.residentEntries node).map r.snapshotGroup := by
    unfold Region.residentEntries
    rw [entries_congr hentries]
    apply map_congr_left
    intro entry hentry
    obtain ⟨k, hle, hlt, rfl⟩ := mem_entries.mp (mem_of_mem_filter hentry)
    exact snapshotGroup_congr (hhandles k hle hlt)
  unfold Region.snapshotNode
  rw [hgroups]

/-- **Frame rule.**  Writes at or beyond the arenas' next cells change no live node. -/
theorem Layout.snapshot_frame (h : Layout live r) (hi : live i) (hnode : r'.nodes i = r.nodes i)
    (hentries : ∀ k, k < r.nextGroupEntry → r'.groupEntries k = r.groupEntries k)
    (hhandles : ∀ cell, cell < r.nextPageHandle → r'.pageHandles cell = r.pageHandles cell) :
    r'.snapshotNode (r'.nodes i) = r.snapshotNode (r.nodes i) := by
  rw [hnode]
  apply snapshotNode_congr
  · intro k hle hlt
    exact hentries k (h.owns_lt hi ⟨hle, hlt⟩)
  · intro k hle hlt cell _ hcell
    have := h.handles_below i k hi ⟨hle, hlt⟩
    exact hhandles cell (by omega)

/-- The entries of a live node are all resident, so no loop skips one. -/
theorem Layout.residentEntries_eq (h : Layout live r) (hi : live i) :
    r.residentEntries (r.nodes i) = r.entries (r.nodes i) := by
  unfold Region.residentEntries
  rw [filter_eq_self]
  intro entry hentry
  obtain ⟨k, hle, hlt, rfl⟩ := mem_entries.mp hentry
  simp [h.entry_resident i k hi ⟨hle, hlt⟩]

/-! ### Groups laid out one behind the other -/

/-- The page handles of a list of groups. -/
def totalPages (groups : List GroupEntrySnapshot) : ℕ := (groups.map (·.pages.length)).sum

@[simp] theorem totalPages_cons (group : GroupEntrySnapshot) (rest : List GroupEntrySnapshot) :
    totalPages (group :: rest) = group.pages.length + totalPages rest := by
  simp [totalPages]

/-- The entry that stores a group whose pages start at `firstPageHandle`. -/
def GroupEntrySnapshot.entry (group : GroupEntrySnapshot) (firstPageHandle : ℕ) :
    SharedGroupEntry where
  state := .resident
  groupId := group.groupId
  rawStartToken := group.rawStartToken
  rawEndToken := group.rawEndToken
  firstPageHandle := firstPageHandle
  pageHandleCount := group.pages.length
  activeRefCount := group.activeRefCount
  pendingLoadCount := group.pendingLoadCount

/-- The groups lie one behind the other, entries from `e` on and handles from `c` on. -/
def Laid (entries : ℕ → SharedGroupEntry) (handles : ℕ → ℕ) :
    ℕ → ℕ → List GroupEntrySnapshot → Prop
  | _, _, [] => True
  | e, c, group :: rest =>
    entries e = group.entry c ∧
      ((List.range group.pages.length).map fun pageIdx => handles (c + pageIdx)) = group.pages ∧
      Laid entries handles (e + 1) (c + group.pages.length) rest

section

variable {entries : ℕ → SharedGroupEntry} {handles : ℕ → ℕ} {groups : List GroupEntrySnapshot} {e c : ℕ}

/-- Every entry of the groups is resident and its handles lie among theirs. -/
theorem Laid.entry (h : Laid entries handles e c groups) (hle : e ≤ k) (hlt : k < e + groups.length) :
    (entries k).state = .resident ∧ c ≤ (entries k).firstPageHandle ∧
      (entries k).firstPageHandle + (entries k).pageHandleCount ≤ c + totalPages groups := by
  induction groups generalizing e c with
  | nil => simp at hlt; omega
  | cons group rest ih =>
    obtain ⟨hentry, _, hrest⟩ := h
    simp only [length_cons] at hlt
    rw [totalPages_cons]
    by_cases heq : k = e
    · subst heq
      rw [hentry]
      exact ⟨rfl, le_refl _, by simp only [GroupEntrySnapshot.entry]; omega⟩
    · obtain ⟨h1, h2, h3⟩ := ih hrest (by omega) (by omega)
      exact ⟨h1, by omega, by omega⟩

/-- Later entries have later handles. -/
theorem Laid.entry_lt (h : Laid entries handles e c groups) {l : ℕ} (hle : e ≤ k) (hkl : k < l)
    (hlt : l < e + groups.length) :
    (entries k).firstPageHandle + (entries k).pageHandleCount ≤ (entries l).firstPageHandle := by
  induction groups generalizing e c with
  | nil => simp at hlt; omega
  | cons group rest ih =>
    obtain ⟨hentry, _, hrest⟩ := h
    simp only [length_cons] at hlt
    by_cases heq : k = e
    · subst heq
      have hl := hrest.entry (k := l) (by omega) (by omega)
      rw [hentry]
      exact hl.2.1
    · exact ih hrest (by omega) (by omega)

end

theorem Laid.snapshot {groups : List GroupEntrySnapshot} {e c : ℕ} (h : Laid r.groupEntries r.pageHandles e c groups) :
    ((range groups.length).map fun offset => r.snapshotGroup (r.groupEntries (e + offset))) =
      groups := by
  induction groups generalizing e c with
  | nil => rfl
  | cons group rest ih =>
    obtain ⟨hentry, hpages, hrest⟩ := h
    rw [length_cons, range_succ_eq_map, map_cons, map_map]
    congr 1
    · rw [Nat.add_zero, hentry]
      show GroupEntrySnapshot.mk _ _ _ _ _ ((List.range group.pages.length).map _) = group
      simp only [GroupEntrySnapshot.entry]
      rw [hpages]
    · refine Eq.trans (map_congr_left fun offset _ => ?_) (ih hrest)
      show r.snapshotGroup (r.groupEntries (e + (offset + 1))) = _
      rw [show e + (offset + 1) = e + 1 + offset by omega]

/-! ### Appending a node -/

/-- The node record that stores a snapshot whose entries start at `firstGroupEntry`. -/
def NodeSnapshot.node (node : NodeSnapshot) (firstGroupEntry : ℕ) : SharedPrefixNode where
  state := .resident
  namespaceDigest := node.namespaceDigest
  digest := node.digest
  rawStartToken := node.rawStartToken
  rawEndToken := node.rawEndToken
  firstGroupEntry := firstGroupEntry
  groupEntryCount := node.groups.length
  lastAccessEpoch := node.lastAccessEpoch

/-- `r'` is `r` with a node appended at the end of both arenas. -/
structure Appends (r r' : Region) (index : ℕ) (node : NodeSnapshot) : Prop where
  nodes : r'.nodes = update r.nodes index (node.node r.nextGroupEntry)
  entries_old : ∀ k, k < r.nextGroupEntry → r'.groupEntries k = r.groupEntries k
  handles_old : ∀ cell, cell < r.nextPageHandle → r'.pageHandles cell = r.pageHandles cell
  laid : Laid r'.groupEntries r'.pageHandles r.nextGroupEntry r.nextPageHandle node.groups
  nextGroupEntry : r'.nextGroupEntry = r.nextGroupEntry + node.groups.length
  nextPageHandle : r'.nextPageHandle = r.nextPageHandle + totalPages node.groups

variable {index : ℕ} {node : NodeSnapshot}

section

variable (h : Appends r r' index node)
include h

theorem Appends.node_self : r'.nodes index = node.node r.nextGroupEntry := by
  rw [h.nodes, update_self]

theorem Appends.node_other (hne : i ≠ index) : r'.nodes i = r.nodes i := by
  rw [h.nodes, update_of_ne hne]

theorem Appends.owns_self : r'.Owns index k ↔ r.nextGroupEntry ≤ k ∧ k < r.nextGroupEntry + node.groups.length := by
  unfold Region.Owns
  rw [h.node_self]
  exact Iff.rfl

/-- The new node holds its snapshot. -/
theorem Appends.snapshot_self : r'.snapshotNode (r'.nodes index) = node := by
  have hentries : r'.residentEntries (r'.nodes index) = r'.entries (r'.nodes index) := by
    unfold Region.residentEntries
    rw [filter_eq_self]
    intro entry hentry
    obtain ⟨k, hle, hlt, rfl⟩ := mem_entries.mp hentry
    have howns := h.owns_self.mp ⟨hle, hlt⟩
    simp [(h.laid.entry howns.1 howns.2).1]
  have hgroups : (r'.residentEntries (r'.nodes index)).map r'.snapshotGroup = node.groups := by
    rw [hentries, Region.entries, map_map, h.node_self]
    exact h.laid.snapshot
  unfold Region.snapshotNode
  rw [hgroups, h.node_self]
  rfl

end

section

variable (h : Layout live r) (hnew : ¬ live index) (happ : Appends r r' index node)
include h hnew happ

/-- **A node appended behind the others joins the layout.** -/
theorem Layout.append : Layout (fun i => live i ∨ i = index) r' := by
  have hne : ∀ i, live i → i ≠ index := fun i hi heq => hnew (heq ▸ hi)
  have hold : Layout live r' := by
    apply h.congr
    · intro i hi; simp [happ.node_other (hne i hi)]
    · intro k hk; simp [happ.entries_old k hk]
    · rw [happ.nextGroupEntry]; omega
    · rw [happ.nextPageHandle]; omega
  -- an old entry lies below the old end of both arenas
  have hbelow : ∀ i k, live i → r'.Owns i k → k < r.nextGroupEntry ∧
      (r'.groupEntries k).firstPageHandle + (r'.groupEntries k).pageHandleCount ≤
        r.nextPageHandle := by
    intro i k hi hk
    have hk' : r.Owns i k := by
      unfold Region.Owns at hk ⊢
      rwa [happ.node_other (hne i hi)] at hk
    have hlt := h.owns_lt hi hk'
    exact ⟨hlt, by rw [happ.entries_old k hlt]; exact h.handles_below i k hi hk'⟩
  have hself : ∀ k, r'.Owns index k → r.nextGroupEntry ≤ k ∧ (r'.groupEntries k).state = .resident ∧
      r.nextPageHandle ≤ (r'.groupEntries k).firstPageHandle ∧
      (r'.groupEntries k).firstPageHandle + (r'.groupEntries k).pageHandleCount ≤
        r'.nextPageHandle := by
    intro k hk
    have hrange := happ.owns_self.mp hk
    obtain ⟨h1, h2, h3⟩ := happ.laid.entry hrange.1 hrange.2
    exact ⟨hrange.1, h1, h2, by rw [happ.nextPageHandle]; exact h3⟩
  refine ⟨?_, ?_, ?_, ?_, ?_⟩
  · rintro i (hi | rfl)
    · exact hold.entries_below i hi
    · rw [happ.node_self, happ.nextGroupEntry]
      exact le_refl _
  · rintro i j (hi | rfl) (hj | rfl) hij
    · exact hold.entries_apart i j hi hj hij
    · rw [happ.node_self, happ.node_other (hne i hi)]
      exact Or.inl (h.entries_below i hi)
    · rw [happ.node_self, happ.node_other (hne j hj)]
      exact Or.inr (h.entries_below j hj)
    · exact absurd rfl hij
  · rintro i k (hi | rfl) hk
    · exact hold.entry_resident i k hi hk
    · exact (hself k hk).2.1
  · rintro i k (hi | rfl) hk
    · exact hold.handles_below i k hi hk
    · exact (hself k hk).2.2.2
  · rintro i j k l (hi | rfl) (hj | rfl) hk hl hkl
    · exact hold.handles_apart i j k l hi hj hk hl hkl
    · exact Or.inl (le_trans (hbelow i k hi hk).2 (hself l hl).2.2.1)
    · exact Or.inr (le_trans (hbelow j l hj hl).2 (hself k hk).2.2.1)
    · have hk' := happ.owns_self.mp hk
      have hl' := happ.owns_self.mp hl
      rcases Nat.lt_or_gt_of_ne hkl with hlt | hlt
      · exact Or.inl (happ.laid.entry_lt hk'.1 hlt hl'.2)
      · exact Or.inr (happ.laid.entry_lt hl'.1 hlt hk'.2)

theorem Layout.append_snapshot (hi : live i) : r'.snapshotNode (r'.nodes i) = r.snapshotNode (r.nodes i) :=
  h.snapshot_frame hi (happ.node_other fun heq => hnew (heq ▸ hi)) happ.entries_old happ.handles_old

end

/-! ### Compaction -/

theorem foldl_placePage (pages : List ℕ) (r : Region) : ∃ handles, pages.foldl placePage r =
        { r with pageHandles := handles, nextPageHandle := r.nextPageHandle + pages.length } ∧
      (∀ cell, cell < r.nextPageHandle → handles cell = r.pageHandles cell) ∧
      ((range pages.length).map fun pageIdx => handles (r.nextPageHandle + pageIdx)) = pages := by
  induction pages generalizing r with
  | nil => exact ⟨r.pageHandles, rfl, fun _ _ => rfl, rfl⟩
  | cons page rest ih =>
    obtain ⟨handles, heq, hold, hnew⟩ := ih (placePage r page)
    refine ⟨handles, ?_, ?_, ?_⟩
    · rw [foldl_cons, heq]
      simp only [placePage, length_cons, Region.mk.injEq, true_and, and_true]
      omega
    · intro cell hcell
      rw [hold cell (by simp only [placePage]; omega)]
      show update r.pageHandles r.nextPageHandle page cell = _
      rw [update_of_ne (by omega)]
    · rw [length_cons, range_succ_eq_map, map_cons, map_map]
      congr 1
      · rw [Nat.add_zero, hold _ (by simp only [placePage]; omega)]
        show update r.pageHandles r.nextPageHandle page r.nextPageHandle = page
        rw [update_self]
      · refine Eq.trans (map_congr_left fun pageIdx _ => ?_) hnew
        show handles (r.nextPageHandle + (pageIdx + 1)) = handles (r.nextPageHandle + 1 + pageIdx)
        rw [show r.nextPageHandle + (pageIdx + 1) = r.nextPageHandle + 1 + pageIdx by omega]

theorem foldl_placeGroup (groups : List GroupEntrySnapshot) (r : Region) :
    ∃ entries handles, groups.foldl placeGroup r = { r with
          groupEntries := entries
          pageHandles := handles
          nextGroupEntry := r.nextGroupEntry + groups.length
          nextPageHandle := r.nextPageHandle + totalPages groups } ∧
      (∀ k, k < r.nextGroupEntry → entries k = r.groupEntries k) ∧
      (∀ cell, cell < r.nextPageHandle → handles cell = r.pageHandles cell) ∧
      Laid entries handles r.nextGroupEntry r.nextPageHandle groups := by
  induction groups generalizing r with
  | nil => exact ⟨r.groupEntries, r.pageHandles, rfl, fun _ _ => rfl, fun _ _ => rfl, trivial⟩
  | cons group rest ih =>
    obtain ⟨placed, hplaced, hpold, hpnew⟩ := foldl_placePage group.pages { r with
        groupEntries := update r.groupEntries r.nextGroupEntry (group.entry r.nextPageHandle)
        nextGroupEntry := r.nextGroupEntry + 1 }
    have hgroup : placeGroup r group = { r with
          groupEntries := update r.groupEntries r.nextGroupEntry (group.entry r.nextPageHandle)
          pageHandles := placed
          nextGroupEntry := r.nextGroupEntry + 1
          nextPageHandle := r.nextPageHandle + group.pages.length } := hplaced
    obtain ⟨entries, handles, heq, heold, hhold, hlaid⟩ := ih (placeGroup r group)
    rw [hgroup] at heq heold hhold hlaid
    refine ⟨entries, handles, ?_, ?_, ?_, ?_, ?_, ?_⟩
    · rw [foldl_cons, hgroup, heq]
      simp only [length_cons, totalPages_cons, Region.mk.injEq, true_and, and_true]
      omega
    · intro k hk
      rw [heold k (by show k < r.nextGroupEntry + 1; omega)]
      show update r.groupEntries r.nextGroupEntry _ k = _
      rw [update_of_ne (by omega)]
    · intro cell hcell
      rw [hhold cell (by show cell < r.nextPageHandle + _; omega)]
      exact hpold cell hcell
    · show entries r.nextGroupEntry = _
      rw [heold _ (by show r.nextGroupEntry < r.nextGroupEntry + 1; omega)]
      show update r.groupEntries r.nextGroupEntry _ r.nextGroupEntry = _
      rw [update_self]
    · refine Eq.trans (map_congr_left fun pageIdx hpageIdx => ?_) hpnew
      rw [mem_range] at hpageIdx
      exact hhold _ (by show r.nextPageHandle + pageIdx < r.nextPageHandle + _; omega)
    · exact hlaid

theorem placeNode_appends (r : Region) (index : ℕ) (node : NodeSnapshot) :
    Appends r (placeNode r (index, node)) index node := by
  obtain ⟨entries, handles, heq, heold, hhold, hlaid⟩ := foldl_placeGroup node.groups
    { r with nodes := update r.nodes index (node.node r.nextGroupEntry) }
  have hplace : placeNode r (index, node) = _ := heq
  rw [hplace]
  exact ⟨rfl, heold, hhold, hlaid, rfl, rfl⟩

end Batchgen.PrefixCache
