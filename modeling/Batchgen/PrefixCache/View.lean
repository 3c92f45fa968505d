import Batchgen.PrefixCache.ArenaLayout

/-!
# The cache as a map from node indices to what they hold

`Region.view` forgets the arenas: it maps a node index to the snapshot of the resident node there.  In
a region whose ranges are in order (`ArenaOk`) every read of a node is a function of the view, and
every write is an update of it:

* `nodeIsProtectedLocked_eq`, `pageRefs_eq`, `ArenaOk.residentArenaUsage`,
  `countFreeNodeSlotsLocked_eq` — the reads;
* `ArenaOk.tombstone`, `ArenaOk.touch`, `ArenaOk.rewrite`, `ArenaOk.append` — eviction, the access
  epoch, the reference counters, and a new node, each with the view it leaves;
* `relayArenas_spec` — compaction changes no view, and leaves both arenas without a gap.
-/

namespace Batchgen.PrefixCache

open Ranges MachineInt Function List

variable {index i : ℕ} {node : NodeSnapshot}

/-- What the node table holds: nothing, or the snapshot of a resident node. -/
abbrev View := ℕ → Option NodeSnapshot

variable {cfg : HostPrefixCacheCoordinator} {r r' : Region}

def Region.Resident (cfg : HostPrefixCacheCoordinator) (r : Region) (index : ℕ) : Prop :=
  index < cfg.maxNodes ∧ (r.nodes index).state = .resident

instance (cfg : HostPrefixCacheCoordinator) (r : Region) (index : ℕ) :
    Decidable (r.Resident cfg index) :=
  inferInstanceAs (Decidable (_ ∧ _))

def Region.view (cfg : HostPrefixCacheCoordinator) (r : Region) : View := fun index =>
  if r.Resident cfg index then some (r.snapshotNode (r.nodes index)) else none

theorem view_eq_some_iff :
    r.view cfg index = some node ↔ r.Resident cfg index ∧ r.snapshotNode (r.nodes index) = node := by
  unfold Region.view
  split
  · next h => simp [h]
  · next h => simp [h]

theorem view_of_resident (h : r.Resident cfg index) :
    r.view cfg index = some (r.snapshotNode (r.nodes index)) := if_pos h

theorem view_eq_none_iff : r.view cfg index = none ↔ ¬ r.Resident cfg index := by
  unfold Region.view
  split
  · next h => simp [h]
  · next h => simp [h]

theorem view_congr (hres : r'.Resident cfg index ↔ r.Resident cfg index) (hsnapshot : r.Resident cfg index →
      r'.snapshotNode (r'.nodes index) = r.snapshotNode (r.nodes index)) : r'.view cfg index = r.view cfg index := by
  by_cases h : r.Resident cfg index
  · rw [view_of_resident h, view_of_resident (hres.mpr h), hsnapshot h]
  · rw [view_eq_none_iff.mpr h, view_eq_none_iff.mpr fun h' => h (hres.mp h')]

theorem mem_residentIndices : index ∈ residentIndices cfg r ↔ r.Resident cfg index := by
  simp [residentIndices, Region.Resident]

theorem residentIndices_nodup (cfg : HostPrefixCacheCoordinator) (r : Region) : (residentIndices cfg r).Nodup :=
  nodup_range.filter _

/-- **The arenas of a region between two steps are in order.** -/
structure ArenaOk (cfg : HostPrefixCacheCoordinator) (r : Region) : Prop where
  layout : Layout (r.Resident cfg) r
  nextGroupEntry_le : r.nextGroupEntry ≤ cfg.maxGroupEntries
  nextPageHandle_le : r.nextPageHandle ≤ cfg.maxPageHandles

variable (cfg)

theorem constructSharedState_arenaOk : ArenaOk cfg constructSharedState := by
  have hnone : ∀ i, ¬ constructSharedState.Resident cfg i := by
    intro i hi
    exact absurd hi.2 (by simp [constructSharedState])
  exact ⟨.of_none hnone, Nat.zero_le _, Nat.zero_le _⟩

theorem constructSharedState_view (i : ℕ) : constructSharedState.view cfg i = none := by
  rw [view_eq_none_iff]
  intro hi
  exact absurd hi.2 (by simp [constructSharedState])

variable {cfg}

/-! ### Reads -/

def NodeSnapshot.isProtected (node : NodeSnapshot) : Bool :=
  node.groups.any fun group => group.activeRefCount ≠ 0 || group.pendingLoadCount ≠ 0

/-- The pages a node refers to, with their groups. -/
def NodeSnapshot.pageRefs (node : NodeSnapshot) : List (ℕ × ℕ) :=
  node.groups.flatMap fun group => group.pages.map fun page => (group.groupId, page)

variable (r)

theorem nodeIsProtectedLocked_eq (node : SharedPrefixNode) :
    nodeIsProtectedLocked r node = (r.snapshotNode node).isProtected := by
  simp only [nodeIsProtectedLocked, NodeSnapshot.isProtected, Region.snapshotNode, any_map]
  rfl

theorem pageRefs_eq (node : SharedPrefixNode) : r.pageRefs node = (r.snapshotNode node).pageRefs := by
  simp only [Region.pageRefs, NodeSnapshot.pageRefs, Region.snapshotNode, flatMap_map]
  rfl

theorem pages_length (entry : SharedGroupEntry) : (r.pages entry).length = entry.pageHandleCount := by
  simp [Region.pages]

theorem totalPages_snapshotNode (node : SharedPrefixNode) :
    totalPages (r.snapshotNode node).groups = ((r.residentEntries node).map (·.pageHandleCount)).sum := by
  simp only [totalPages, Region.snapshotNode, map_map]
  congr 1
  apply map_congr_left
  intro entry _
  exact pages_length r entry

variable {r}

theorem NodeSnapshot.pageRefs_length (node : NodeSnapshot) : node.pageRefs.length = totalPages node.groups := by
  simp only [NodeSnapshot.pageRefs, totalPages, length_flatMap, length_map]

theorem ArenaOk.groups_length (h : ArenaOk cfg r) (hi : r.Resident cfg i) :
    (r.snapshotNode (r.nodes i)).groups.length = (r.nodes i).groupEntryCount := by
  simp [Region.snapshotNode, h.layout.residentEntries_eq hi, Region.entries]

/-- The group entries and the page handles of all nodes below `n`. -/
def View.entryCount (n : ℕ) (v : View) : ℕ :=
  ∑ i ∈ Finset.range n, (v i).elim 0 fun node => node.groups.length

def View.handleCount (n : ℕ) (v : View) : ℕ :=
  ∑ i ∈ Finset.range n, (v i).elim 0 fun node => totalPages node.groups

variable (cfg)

variable (r)

/-- A sum over the resident nodes is a sum over the view. -/
theorem sum_residentIndices (f : NodeSnapshot → ℕ) :
    ((residentIndices cfg r).map fun i => f (r.snapshotNode (r.nodes i))).sum =
      ∑ i ∈ Finset.range cfg.maxNodes, (r.view cfg i).elim 0 f := by
  rw [← sum_toFinset _ (residentIndices_nodup cfg r), residentIndices, toFinset_filter,
    toFinset_range, Finset.sum_filter]
  apply Finset.sum_congr rfl
  intro i hi
  have hlt := Finset.mem_range.mp hi
  by_cases hstate : (r.nodes i).state = .resident
  · rw [view_of_resident ⟨hlt, hstate⟩]
    simp [hstate]
  · rw [view_eq_none_iff.mpr fun hres => hstate hres.2]
    simp [hstate]

theorem sum_over_resident (f : ℕ → ℕ) :
    ((residentIndices cfg r).map f).sum = ∑ i ∈ (Finset.range cfg.maxNodes).filter (r.Resident cfg), f i := by
  rw [← sum_toFinset _ (residentIndices_nodup cfg r)]
  apply Finset.sum_congr _ fun _ _ => rfl
  ext i
  simp only [mem_toFinset, mem_residentIndices, Finset.mem_filter, Finset.mem_range]
  exact ⟨fun h => ⟨h.1, h⟩, fun h => h.2⟩

variable {r}

variable {cfg}

theorem ArenaOk.entryCount_eq (h : ArenaOk cfg r) :
    ((residentIndices cfg r).map fun i => (r.nodes i).groupEntryCount).sum = (r.view cfg).entryCount cfg.maxNodes := by
  unfold View.entryCount
  rw [← sum_residentIndices]
  congr 1
  apply map_congr_left
  intro i hi
  exact (h.groups_length (mem_residentIndices.mp hi)).symm

theorem handleCount_eq (cfg : HostPrefixCacheCoordinator) (r : Region) :
    ((residentIndices cfg r).map fun i => ((r.residentEntries (r.nodes i)).map (·.pageHandleCount)).sum).sum =
      (r.view cfg).handleCount cfg.maxNodes := by
  unfold View.handleCount
  rw [← sum_residentIndices]
  congr 1
  apply map_congr_left
  intro i _
  exact (totalPages_snapshotNode r _).symm

section

variable (h : ArenaOk cfg r)
include h

/-- **The entries in use fit below the next free one.** -/
theorem ArenaOk.entryCount_le : (r.view cfg).entryCount cfg.maxNodes ≤ r.nextGroupEntry := by
  rw [← h.entryCount_eq, sum_over_resident]
  apply sum_length_le fun i => (r.nodes i).firstGroupEntry
  · intro i hi
    exact h.layout.entries_below i (Finset.mem_filter.mp hi).2
  · intro i hi j hj hne
    exact h.layout.entries_apart i j (Finset.mem_filter.mp hi).2 (Finset.mem_filter.mp hj).2 hne

theorem ArenaOk.nodeHandles_eq (hi : r.Resident cfg i) :
    ((r.residentEntries (r.nodes i)).map (·.pageHandleCount)).sum = ∑ o ∈ Finset.range (r.nodes i).groupEntryCount,
        (r.groupEntries ((r.nodes i).firstGroupEntry + o)).pageHandleCount := by
  rw [h.layout.residentEntries_eq hi, Region.entries, map_map, ← sum_toFinset _ nodup_range, toFinset_range]
  rfl

/-- **The handles in use fit below the next free one.** -/
theorem ArenaOk.handleCount_le : (r.view cfg).handleCount cfg.maxNodes ≤ r.nextPageHandle := by
  have hsigma : ((residentIndices cfg r).map fun i =>
        ((r.residentEntries (r.nodes i)).map (·.pageHandleCount)).sum).sum =
      ∑ p ∈ ((Finset.range cfg.maxNodes).filter (r.Resident cfg)).sigma
          fun i => Finset.range (r.nodes i).groupEntryCount,
        (r.groupEntries ((r.nodes p.1).firstGroupEntry + p.2)).pageHandleCount := by
    rw [sum_over_resident, Finset.sum_sigma]
    apply Finset.sum_congr rfl
    intro i hi
    exact h.nodeHandles_eq (Finset.mem_filter.mp hi).2
  have howns : ∀ p : Σ _ : ℕ, ℕ, p ∈ ((Finset.range cfg.maxNodes).filter (r.Resident cfg)).sigma
      (fun i => Finset.range (r.nodes i).groupEntryCount) →
      r.Resident cfg p.1 ∧ r.Owns p.1 ((r.nodes p.1).firstGroupEntry + p.2) := by
    intro p hp
    obtain ⟨h1, h2⟩ := Finset.mem_sigma.mp hp
    rw [Finset.mem_range] at h2
    exact ⟨(Finset.mem_filter.mp h1).2, by unfold Region.Owns; omega⟩
  rw [← handleCount_eq, hsigma]
  apply sum_length_le fun p : Σ _ : ℕ, ℕ =>
    (r.groupEntries ((r.nodes p.1).firstGroupEntry + p.2)).firstPageHandle
  · intro p hp
    exact h.layout.handles_below p.1 _ (howns p hp).1 (howns p hp).2
  · intro p hp q hq hne
    apply h.layout.handles_apart p.1 q.1 _ _ (howns p hp).1 (howns q hq).1 (howns p hp).2 (howns q hq).2
    intro heq
    have hfst : p.1 = q.1 := by
      apply h.layout.owner_unique (howns p hp).1 (howns q hq).1 (howns p hp).2
      rw [heq]
      exact (howns q hq).2
    apply hne
    obtain ⟨i, o⟩ := p
    obtain ⟨j, o'⟩ := q
    obtain rfl : i = j := hfst
    have hoff : o = o' := by simpa using heq
    rw [hoff]

/-- **The usage the capacity checks compute is the usage of the view.** -/
theorem ArenaOk.residentArenaUsage :
    residentArenaUsageLocked cfg r = ⟨(r.view cfg).entryCount cfg.maxNodes, (r.view cfg).handleCount cfg.maxNodes⟩ := by
  have hE := h.entryCount_le
  have hH := h.handleCount_le
  have hE' := h.nextGroupEntry_le
  have hH' := h.nextPageHandle_le
  have hmaxE := cfg.maxGroupEntries_lt
  have hmaxH := cfg.maxPageHandles_lt
  unfold residentArenaUsageLocked
  rw [h.entryCount_eq, handleCount_eq, u32_of_lt (by omega), u32_of_lt (by omega)]

end

theorem isFree_iff (node : SharedPrefixNode) : node.isFree = true ↔ node.state ≠ .resident := by
  cases h : node.state <;> simp [SharedPrefixNode.isFree, h]

theorem countFreeNodeSlotsLocked_eq (cfg : HostPrefixCacheCoordinator) (r : Region) :
    countFreeNodeSlotsLocked cfg r = (range cfg.maxNodes).countP fun i => (r.view cfg i).isNone := by
  unfold countFreeNodeSlotsLocked
  apply countP_congr
  intro i hi
  rw [isFree_iff, Option.isNone_iff_eq_none, view_eq_none_iff]
  exact ⟨fun hstate hres => hstate hres.2, fun hres hstate => hres ⟨mem_range.mp hi, hstate⟩⟩

/-! ### Writes -/

/-- **Frame.**  Writes to the tables, the counters and the free ends of the arenas. -/
theorem ArenaOk.frame (h : ArenaOk cfg r) (hnodes : r'.nodes = r.nodes)
    (hnextE : r'.nextGroupEntry = r.nextGroupEntry) (hnextH : r'.nextPageHandle = r.nextPageHandle)
    (hentries : ∀ k, k < r.nextGroupEntry → r'.groupEntries k = r.groupEntries k)
    (hhandles : ∀ cell, cell < r.nextPageHandle → r'.pageHandles cell = r.pageHandles cell) :
    ArenaOk cfg r' ∧ r'.view cfg = r.view cfg := by
  have hres : r'.Resident cfg = r.Resident cfg := by
    funext i
    unfold Region.Resident
    rw [hnodes]
  refine ⟨⟨?_, by rw [hnextE]; exact h.nextGroupEntry_le, by rw [hnextH]; exact h.nextPageHandle_le⟩, ?_⟩
  · rw [hres]
    apply h.layout.congr
    · intro i _; simp [hnodes]
    · intro k hk; simp [hentries k hk]
    · exact le_of_eq hnextE.symm
    · exact le_of_eq hnextH.symm
  · funext i
    apply view_congr (by rw [hres])
    intro hi
    exact h.layout.snapshot_frame hi (by rw [hnodes]) hentries hhandles

/-- **Eviction.**  A node slot becomes a tombstone. -/
theorem ArenaOk.tombstone (h : ArenaOk cfg r) (index : ℕ) :
    ArenaOk cfg { r with nodes := update r.nodes index { state := .tombstone } } ∧
      ({ r with nodes := update r.nodes index { state := .tombstone } } : Region).view cfg =
        update (r.view cfg) index none := by
  have hres : ∀ i, ({ r with
      nodes := update r.nodes index { state := .tombstone } } : Region).Resident cfg i →
      i ≠ index ∧ r.Resident cfg i := by
    intro i hi
    have hne : i ≠ index := by
      rintro rfl
      have hstate := hi.2
      simp at hstate
    refine ⟨hne, hi.1, ?_⟩
    have hstate := hi.2
    simpa [update_of_ne hne] using hstate
  constructor
  · refine ⟨?_, h.nextGroupEntry_le, h.nextPageHandle_le⟩
    apply Layout.congr (h.layout.mono fun i hi => (hres i hi).2)
    · intro i hi; simp [update_of_ne (hres i hi).1]
    · exact fun _ _ => ⟨rfl, rfl, rfl⟩
    · exact le_refl _
    · exact le_refl _
  · refine eq_update_iff.mpr ⟨?_, fun i hi => ?_⟩
    · rw [view_eq_none_iff]
      intro hi
      exact (hres index hi).1 rfl
    · unfold Region.view Region.Resident
      simp only [update_of_ne hi]
      rfl

/-- The node with another access epoch. -/
def NodeSnapshot.touch (epoch : ℕ) (node : NodeSnapshot) : NodeSnapshot :=
  { node with lastAccessEpoch := epoch }

/-- The region with another access epoch in a node. -/
def Region.touch (r : Region) (index epoch : ℕ) : Region :=
  { r with nodes := update r.nodes index { r.nodes index with lastAccessEpoch := epoch } }

theorem Region.touch_field {β : Type} (f : SharedPrefixNode → β) {epoch : ℕ}
    (hf : ∀ node : SharedPrefixNode, f { node with lastAccessEpoch := epoch } = f node)
    (index i : ℕ) : f ((r.touch index epoch).nodes i) = f (r.nodes i) := by
  unfold Region.touch
  by_cases hi : i = index
  · rw [hi]
    simp only [update_self]
    rw [hf]
  · simp only [update_of_ne hi]

/-- **Access.**  A node gets a new access epoch. -/
theorem ArenaOk.touch (h : ArenaOk cfg r) (index epoch : ℕ) :
    ArenaOk cfg (r.touch index epoch) ∧ (r.touch index epoch).view cfg =
        update (r.view cfg) index ((r.view cfg index).map (NodeSnapshot.touch epoch)) := by
  have hres : (r.touch index epoch).Resident cfg = r.Resident cfg := by
    funext i
    unfold Region.Resident
    rw [Region.touch_field (·.state) (fun _ => rfl) index i]
  constructor
  · refine ⟨?_, h.nextGroupEntry_le, h.nextPageHandle_le⟩
    rw [hres]
    apply h.layout.congr
    · exact fun i _ => ⟨Region.touch_field (·.firstGroupEntry) (fun _ => rfl) index i,
        Region.touch_field (·.groupEntryCount) (fun _ => rfl) index i⟩
    · exact fun _ _ => ⟨rfl, rfl, rfl⟩
    · exact le_refl _
    · exact le_refl _
  · refine eq_update_iff.mpr ⟨?_, fun i hi => ?_⟩
    · by_cases hi : r.Resident cfg index
      · rw [view_of_resident hi, view_of_resident (hres ▸ hi), Region.touch]
        simp only [update_self]
        rfl
      · rw [view_eq_none_iff.mpr hi, view_eq_none_iff.mpr (hres ▸ hi)]
        rfl
    · apply view_congr (by rw [hres])
      intro _
      rw [Region.touch]
      simp only [update_of_ne hi]
      rfl

/-- Apply `g` to every group entry of a node. -/
def rewriteEntries (node : SharedPrefixNode) (g : SharedGroupEntry → SharedGroupEntry)
    (r : Region) : Region :=
  { r with
    groupEntries := fun k =>
      if node.firstGroupEntry ≤ k ∧ k < node.firstGroupEntry + node.groupEntryCount then
        g (r.groupEntries k)
      else r.groupEntries k }

/-- A change of a group entry that leaves its place and its pages alone. -/
structure CounterChange (g : SharedGroupEntry → SharedGroupEntry)
    (g' : GroupEntrySnapshot → GroupEntrySnapshot) : Prop where
  state : ∀ entry, (g entry).state = entry.state
  firstPageHandle : ∀ entry, (g entry).firstPageHandle = entry.firstPageHandle
  pageHandleCount : ∀ entry, (g entry).pageHandleCount = entry.pageHandleCount
  snapshot : ∀ (r : Region) entry, r.snapshotGroup (g entry) = g' (r.snapshotGroup entry)

/-- **Reference counters.**  A change of every entry of one node changes the groups of that node. -/
theorem ArenaOk.rewrite (h : ArenaOk cfg r) (hindex : r.Resident cfg index) {g : SharedGroupEntry → SharedGroupEntry}
    {g' : GroupEntrySnapshot → GroupEntrySnapshot} (hg : CounterChange g g') :
    ArenaOk cfg (rewriteEntries (r.nodes index) g r) ∧ (rewriteEntries (r.nodes index) g r).view cfg =
        update (r.view cfg) index ((r.view cfg index).map fun node => { node with groups := node.groups.map g' }) := by
  have hres : (rewriteEntries (r.nodes index) g r).Resident cfg = r.Resident cfg := rfl
  have hentry : ∀ k, ((rewriteEntries (r.nodes index) g r).groupEntries k).state = (r.groupEntries k).state ∧
      ((rewriteEntries (r.nodes index) g r).groupEntries k).firstPageHandle = (r.groupEntries k).firstPageHandle ∧
      ((rewriteEntries (r.nodes index) g r).groupEntries k).pageHandleCount = (r.groupEntries k).pageHandleCount := by
    intro k
    simp only [rewriteEntries]
    split
    · exact ⟨hg.state _, hg.firstPageHandle _, hg.pageHandleCount _⟩
    · exact ⟨rfl, rfl, rfl⟩
  have hok : ArenaOk cfg (rewriteEntries (r.nodes index) g r) := by
    refine ⟨?_, h.nextGroupEntry_le, h.nextPageHandle_le⟩
    rw [hres]
    apply h.layout.congr
    · exact fun _ _ => ⟨rfl, rfl⟩
    · exact fun k _ => hentry k
    · exact le_refl _
    · exact le_refl _
  refine ⟨hok, eq_update_iff.mpr ⟨?_, fun i hi => ?_⟩⟩
  · rw [view_of_resident (hres ▸ hindex), view_of_resident hindex]
    have hgroups : ((rewriteEntries (r.nodes index) g r).residentEntries (r.nodes index)).map
          (rewriteEntries (r.nodes index) g r).snapshotGroup =
        ((r.residentEntries (r.nodes index)).map r.snapshotGroup).map g' := by
      have hown : (rewriteEntries (r.nodes index) g r).residentEntries (r.nodes index) =
          (rewriteEntries (r.nodes index) g r).entries (r.nodes index) := hok.layout.residentEntries_eq hindex
      rw [hown, h.layout.residentEntries_eq hindex, Region.entries, Region.entries, map_map, map_map, map_map]
      apply map_congr_left
      intro offset hoffset
      rw [mem_range] at hoffset
      show r.snapshotGroup ((rewriteEntries (r.nodes index) g r).groupEntries
        ((r.nodes index).firstGroupEntry + offset)) = g' (r.snapshotGroup _)
      rw [rewriteEntries]
      simp only
      rw [if_pos (by omega), hg.snapshot]
    show some { (r.snapshotNode (r.nodes index)) with
        groups := ((rewriteEntries (r.nodes index) g r).residentEntries (r.nodes index)).map
          (rewriteEntries (r.nodes index) g r).snapshotGroup } = _
    rw [hgroups]
    rfl
  · apply view_congr (by rw [hres])
    intro hires
    apply snapshotNode_congr
    · intro k hle hlt
      simp only [rewriteEntries]
      rw [if_neg]
      intro hin
      exact hi (h.layout.owner_unique hires hindex ⟨hle, hlt⟩ hin)
    · intro k _ _ cell _ _
      rfl

/-- **Insertion.**  A node appended to the arenas in a free slot of the node table. -/
theorem ArenaOk.append (h : ArenaOk cfg r) (hlt : index < cfg.maxNodes) (hfree : ¬ r.Resident cfg index)
    (happ : Appends r r' index node) (hE : r'.nextGroupEntry ≤ cfg.maxGroupEntries)
    (hH : r'.nextPageHandle ≤ cfg.maxPageHandles) :
    ArenaOk cfg r' ∧ r'.view cfg = update (r.view cfg) index (some node) := by
  have hres : ∀ i, r'.Resident cfg i ↔ r.Resident cfg i ∨ i = index := by
    intro i
    by_cases hi : i = index
    · subst hi
      unfold Region.Resident
      rw [happ.node_self]
      simp [hlt, NodeSnapshot.node]
    · unfold Region.Resident
      rw [happ.node_other hi]
      simp [hi]
  have hlayout : Layout (r'.Resident cfg) r' := (h.layout.append hfree happ).mono fun i hi => (hres i).mp hi
  refine ⟨⟨hlayout, hE, hH⟩, eq_update_iff.mpr ⟨?_, fun i hi => ?_⟩⟩
  · rw [view_of_resident ((hres index).mpr (Or.inr rfl)), happ.snapshot_self]
  by_cases hold : r.Resident cfg i
  · rw [view_of_resident ((hres i).mpr (Or.inl hold)), view_of_resident hold, h.layout.append_snapshot hfree happ hold]
  · rw [view_eq_none_iff.mpr hold, view_eq_none_iff.mpr fun hnew =>
      ((hres i).mp hnew).elim hold hi]

/-! ### Compaction -/

/-- `r'` is `r` with a list of nodes laid out again, one behind the other. -/
structure Relaid (live : ℕ → Prop) (r r' : Region) (placed : List (ℕ × NodeSnapshot)) : Prop where
  layout : Layout (fun i => live i ∨ i ∈ placed.map Prod.fst) r'
  stored : ∀ p ∈ placed, (r'.nodes p.1).state = .resident ∧ r'.snapshotNode (r'.nodes p.1) = p.2
  kept : ∀ i, live i → r'.snapshotNode (r'.nodes i) = r.snapshotNode (r.nodes i)
  others : ∀ i, i ∉ placed.map Prod.fst → r'.nodes i = r.nodes i
  nextGroupEntry : r'.nextGroupEntry = r.nextGroupEntry + (placed.map (·.2.groups.length)).sum
  nextPageHandle : r'.nextPageHandle = r.nextPageHandle + (placed.map (totalPages ·.2.groups)).sum
  pageRefSlots : r'.pageRefSlots = r.pageRefSlots
  globalEpoch : r'.globalEpoch = r.globalEpoch

theorem placeNode_frame (r : Region) (indexed : ℕ × NodeSnapshot) :
    (placeNode r indexed).pageRefSlots = r.pageRefSlots ∧ (placeNode r indexed).globalEpoch = r.globalEpoch := by
  obtain ⟨entries, handles, heq, _⟩ := foldl_placeGroup indexed.2.groups
    { r with nodes := update r.nodes indexed.1 (indexed.2.node r.nextGroupEntry) }
  have hplace : placeNode r indexed = _ := heq
  rw [hplace]
  exact ⟨rfl, rfl⟩

theorem foldl_placeNode (placed : List (ℕ × NodeSnapshot)) {live : ℕ → Prop} {r : Region}
    (h : Layout live r) (hnodup : (placed.map Prod.fst).Nodup) (hnew : ∀ p ∈ placed, ¬ live p.1) :
    Relaid live r (placed.foldl placeNode r) placed := by
  induction placed generalizing live r with
  | nil =>
    refine ⟨h.mono (by simp), by simp, fun _ _ => rfl, fun _ _ => rfl, by simp, by simp, rfl, rfl⟩
  | cons p rest ih =>
    obtain ⟨index, node⟩ := p
    rw [map_cons, nodup_cons] at hnodup
    have hfresh : ¬ live index := hnew (index, node) mem_cons_self
    have happ := placeNode_appends r index node
    have hrest : ∀ q ∈ rest, ¬ (live q.1 ∨ q.1 = index) := by
      rintro q hq (hlive | heq)
      · exact hnew q (mem_cons_of_mem _ hq) hlive
      · exact hnodup.1 (mem_map.mpr ⟨q, hq, heq⟩)
    obtain ⟨hlayout, hplaced, hkept, hothers, hE, hH, hrefs, hepoch⟩ := ih (h.append hfresh happ) hnodup.2 hrest
    obtain ⟨hrefs', hepoch'⟩ := placeNode_frame r (index, node)
    rw [foldl_cons]
    refine ⟨hlayout.mono ?_, ?_, ?_, ?_, ?_, ?_, hrefs.trans hrefs', hepoch.trans hepoch'⟩
    · intro i hi
      simp only [map_cons, mem_cons] at hi
      tauto
    · intro q hq
      rcases mem_cons.mp hq with rfl | hq
      · constructor
        · rw [hothers _ hnodup.1, happ.node_self]
          rfl
        · rw [hkept _ (Or.inr rfl), happ.snapshot_self]
      · exact hplaced q hq
    · intro i hi
      rw [hkept i (Or.inl hi), h.append_snapshot hfresh happ hi]
    · intro i hi
      rw [map_cons, mem_cons, not_or] at hi
      rw [hothers i hi.2, happ.node_other hi.1]
    · rw [hE, happ.nextGroupEntry, map_cons, sum_cons, Nat.add_assoc]
    · rw [hH, happ.nextPageHandle, map_cons, sum_cons, Nat.add_assoc]

/-- What compaction leaves behind. -/
structure Compacted (cfg : HostPrefixCacheCoordinator) (r r' : Region) : Prop where
  layout : Layout (r'.Resident cfg) r'
  view : r'.view cfg = r.view cfg
  state : ∀ i, (r'.nodes i).state = (r.nodes i).state
  nextGroupEntry : r'.nextGroupEntry = (r.view cfg).entryCount cfg.maxNodes
  nextPageHandle : r'.nextPageHandle = (r.view cfg).handleCount cfg.maxNodes
  pageRefSlots : r'.pageRefSlots = r.pageRefSlots
  globalEpoch : r'.globalEpoch = r.globalEpoch

/-- **Compaction lays the resident nodes out without a gap and changes none of them.** -/
theorem relayArenas_spec (cfg : HostPrefixCacheCoordinator) (r : Region) : Compacted cfg r (relayArenas cfg r) := by
  have hfst : (nodeSnapshots cfg r).map Prod.fst = residentIndices cfg r := by
    simp [nodeSnapshots, map_map, comp_def]
  have hempty : Layout (fun _ => False) { r with
      groupEntries := fun _ => {}
      pageHandles := fun _ => 0
      nextGroupEntry := 0
      nextPageHandle := 0 } := .of_none fun _ => id
  obtain ⟨hlayout, hplaced, _, hothers, hE, hH, hrefs, hepoch⟩ :=
    foldl_placeNode (nodeSnapshots cfg r) hempty (hfst ▸ residentIndices_nodup cfg r) (fun _ _ hi => hi)
  rw [hfst] at hlayout hothers
  have hmem : ∀ i, r.Resident cfg i → (i, r.snapshotNode (r.nodes i)) ∈ nodeSnapshots cfg r := fun i hi =>
    mem_map.mpr ⟨i, mem_residentIndices.mpr hi, rfl⟩
  have hstate : ∀ i, ((relayArenas cfg r).nodes i).state = (r.nodes i).state := by
    intro i
    by_cases hi : r.Resident cfg i
    · rw [hi.2]
      exact (hplaced _ (hmem i hi)).1
    · show (((nodeSnapshots cfg r).foldl placeNode _).nodes i).state = _
      rw [hothers i fun hi' => hi (mem_residentIndices.mp hi')]
  have hres : (relayArenas cfg r).Resident cfg = r.Resident cfg := by
    funext i
    unfold Region.Resident
    rw [hstate]
  refine ⟨?_, ?_, hstate, ?_, ?_, hrefs, hepoch⟩
  · rw [hres]
    exact hlayout.mono fun i hi => Or.inr (mem_residentIndices.mpr hi)
  · funext i
    apply view_congr (by rw [hres])
    intro hi
    exact (hplaced _ (hmem i hi)).2
  · show ((nodeSnapshots cfg r).foldl placeNode _).nextGroupEntry = _
    rw [hE, nodeSnapshots, map_map, View.entryCount, ← sum_residentIndices, Nat.zero_add]
    rfl
  · show ((nodeSnapshots cfg r).foldl placeNode _).nextPageHandle = _
    rw [hH, nodeSnapshots, map_map, View.handleCount, ← sum_residentIndices, Nat.zero_add]
    rfl

theorem ArenaOk.compact (h : ArenaOk cfg r) : ArenaOk cfg (relayArenas cfg r) := by
  have hspec := relayArenas_spec cfg r
  refine ⟨hspec.layout, ?_, ?_⟩
  · rw [hspec.nextGroupEntry]
    exact le_trans h.entryCount_le h.nextGroupEntry_le
  · rw [hspec.nextPageHandle]
    exact le_trans h.handleCount_le h.nextPageHandle_le

end Batchgen.PrefixCache
