import Batchgen.PrefixCache.Tables

/-!
# Regions whose arenas and tables agree

`RegionOk` is what holds of the region between two sections: the arenas are in order, and, when the
capacities are such that the tables have their intended size, the index holds exactly the resident
nodes and the page reference table exactly the pages they refer to.

Compaction and the lazy rebuilds change no node.  When they throw, the tables are too small for the
configuration (`TableBroken`), and the region is still in order.  What they achieve is one equivalence,
`Repacked.tail_iff`: afterwards a request fits behind the used part of the arenas exactly when it fits
beside the resident nodes.
-/

namespace Batchgen.PrefixCache

open Outcome Function Option Finset

variable {cfg : HostPrefixCacheCoordinator} {r r' : Region} {node : NodeSnapshot}
  {minGroupEntries minPageHandles n index : ℕ} {v : View}

/-! ### The pages a view refers to -/

/-- The pages the nodes below `n` refer to, as often as they do. -/
def View.pageRefs (n : ℕ) (v : View) : Multiset (ℕ × ℕ) :=
  ∑ i ∈ Finset.range n, (v i).elim 0 fun node => (node.pageRefs : Multiset (ℕ × ℕ))

theorem View.pageRefs_split (v : View) (hlt : index < n) :
    v.pageRefs n = (v index).elim 0 (fun node => (node.pageRefs : Multiset (ℕ × ℕ))) +
      View.pageRefs n (update v index none) := by
  unfold View.pageRefs
  have hmem := mem_range.mpr hlt
  rw [← add_sum_erase _ _ hmem, ← add_sum_erase _ (fun i =>
    (update v index none i).elim 0 _) hmem, update_self]
  rw [elim_none, zero_add]
  congr 1
  apply sum_congr rfl
  intro i hi
  rw [update_of_ne (ne_of_mem_erase hi)]

/-- A node leaves. -/
theorem View.pageRefs_remove (hlt : index < n) (hnode : v index = some node) :
    View.pageRefs n (update v index none) = v.pageRefs n - node.pageRefs := by
  rw [v.pageRefs_split hlt, hnode, elim_some, add_tsub_cancel_left]

theorem View.pageRefs_le (hlt : index < n)
    (hnode : v index = some node) : (node.pageRefs : Multiset (ℕ × ℕ)) ≤ v.pageRefs n := by
  rw [v.pageRefs_split hlt, hnode, elim_some]
  exact Multiset.le_add_right _ _

/-- A node comes. -/
theorem View.pageRefs_insert (node : NodeSnapshot) (hlt : index < n) (hnone : v index = none) :
    View.pageRefs n (update v index (some node)) = node.pageRefs + v.pageRefs n := by
  rw [View.pageRefs_split (update v index (some node)) hlt, update_self,
    elim_some, update_idem, ← hnone, update_eq_self]

theorem View.card_pageRefs (n : ℕ) (v : View) : (v.pageRefs n).card = v.handleCount n := by
  unfold View.pageRefs View.handleCount
  rw [Multiset.card_sum]
  apply sum_congr rfl
  intro i _
  cases v i with
  | none => rfl
  | some node => exact (Multiset.coe_card _).trans node.pageRefs_length

/-! ### The invariant -/

/-- **Arenas and tables agree with the resident nodes.**  The tables do so when they have their
intended size. -/
structure RegionOk (cfg : HostPrefixCacheCoordinator) (r : Region) : Prop where
  arena : ArenaOk cfg r
  index : TablesFit cfg → IndexOk cfg r.nodeIndexSlots (r.view cfg)
  refs : TablesFit cfg → PageRefsOk cfg r.pageRefSlots ((r.view cfg).pageRefs cfg.maxNodes)

variable (cfg)

/-- The exceptions of tables that are too small for their contents. -/
def TableBroken (e : Fault) : Prop :=
  TableFault e ∧ ¬ TablesFit cfg

theorem constructSharedState_regionOk : RegionOk cfg constructSharedState := by
  have hview : constructSharedState.view cfg = fun _ => none := funext (constructSharedState_view cfg)
  refine ⟨constructSharedState_arenaOk cfg, fun hfit => ?_, fun hfit => ?_⟩
  · rw [hview]
    exact ⟨OpenAddressing.valid_empty hfit.nodeIndex.1,
      by simp [constructSharedState, SharedNodeIndexSlot.kind], by simp⟩
  · have hrefs : View.pageRefs cfg.maxNodes (fun _ => none) = 0 := by
      simp [View.pageRefs]
    rw [hview, hrefs]
    exact ⟨OpenAddressing.valid_empty hfit.pageRef.1, by simp [constructSharedState, SharedPageRefSlot.kind], by simp⟩

theorem view_bound (r : Region) (i : ℕ) (node : NodeSnapshot)
    (h : r.view cfg i = some node) : i < cfg.maxNodes := (view_eq_some_iff.mp h).1.1

variable {cfg}

section

variable (h : RegionOk cfg r)
include h

/-- With tables of the intended size no two resident nodes have one digest. -/
theorem RegionOk.digest_unique (hfit : TablesFit cfg) {i j : ℕ} {m n : NodeSnapshot} (hi : r.view cfg i = some m)
    (hj : r.view cfg j = some n) (heq : m.digest = n.digest) : i = j := (h.index hfit).digest_unique hi hj heq

theorem RegionOk.card_refs_le : ((r.view cfg).pageRefs cfg.maxNodes).card ≤ r.nextPageHandle := by
  rw [View.card_pageRefs]
  exact h.arena.handleCount_le

/-- The header counters play no part. -/
theorem RegionOk.header (epoch hits misses evicted skips : ℕ) : RegionOk cfg { r with
      globalEpoch := epoch
      lookupHits := hits
      lookupMisses := misses
      evictedNodes := evicted
      evictionProtectedSkips := skips } :=
  ⟨(h.arena.frame (by rfl) (by rfl) (by rfl) (by intros; rfl) (by intros; rfl)).1, h.index, h.refs⟩

/-- A table fault in a region whose nodes are untouched. -/
theorem RegionOk.of_broken (htables : TablesOnly r r') (hbroken : ¬ TablesFit cfg) : RegionOk cfg r' :=
  ⟨htables.arenaOk h.arena, fun hfit => absurd hfit hbroken, fun hfit => absurd hfit hbroken⟩

end

/-! ### Rebuilds -/

/-- A region that differs in its tables and its arena layout, not in its nodes. -/
structure SameNodes (cfg : HostPrefixCacheCoordinator) (r r' : Region) : Prop where
  ok : RegionOk cfg r'
  view : r'.view cfg = r.view cfg
  globalEpoch : r'.globalEpoch = r.globalEpoch

theorem SameNodes.refl (h : RegionOk cfg r) : SameNodes cfg r r := ⟨h, rfl, rfl⟩

/-- A rebuild of the index, from any region whose nodes have distinct digests. -/
theorem rebuildNodeIndexLocked_ends (harena : ArenaOk cfg r)
    (hdistinct : TablesFit cfg → ∀ i j m n, r.view cfg i = some m → r.view cfg j = some n → m.digest = n.digest → i = j)
    (hrefs : TablesFit cfg → PageRefsOk cfg r.pageRefSlots ((r.view cfg).pageRefs cfg.maxNodes)) :
    Ends (rebuildNodeIndexLocked cfg) r (fun _ r' => TablesOnly r r' ∧ RegionOk cfg r')
      (fun e r' => TableBroken cfg e ∧ TablesOnly r r' ∧ RegionOk cfg r') := by
  by_cases hfit : TablesFit cfg
  · obtain ⟨slots, hrun, hok⟩ := IndexOk.rebuild hfit (hdistinct hfit)
    unfold Ends
    rw [hrun]
    have htables : TablesOnly r { r with nodeIndexSlots := slots } := (TablesOnly.refl r).index slots
    exact ⟨htables, htables.arenaOk harena, fun _ => hok, hrefs⟩
  · have hbroken : ∀ r', TablesOnly r r' → RegionOk cfg r' := fun r' htables =>
      ⟨htables.arenaOk harena, fun hfit' => absurd hfit' hfit, fun hfit' => absurd hfit' hfit⟩
    refine (rebuildNodeIndexLocked_keeps r (TablesOnly.refl r)).mono ?_ ?_
    · intro _ r' htables
      exact ⟨htables, hbroken r' htables⟩
    · intro e r' he
      exact ⟨⟨he.1, hfit⟩, he.2, hbroken r' he.2⟩

theorem rebuildNodeIndexIfNeededLocked_ends (h : RegionOk cfg r) :
    Ends (rebuildNodeIndexIfNeededLocked cfg) r (fun _ r' => TablesOnly r r' ∧ RegionOk cfg r')
      (fun e r' => TableBroken cfg e ∧ TablesOnly r r' ∧ RegionOk cfg r') := by
  rw [rebuildNodeIndexIfNeededLocked, ends_bind, ends_get]
  split
  · exact rebuildNodeIndexLocked_ends h.arena (fun hfit i j m n hi hj heq => h.digest_unique hfit hi hj heq) h.refs
  · exact ⟨TablesOnly.refl r, h⟩

theorem rebuildPageRefIndexIfNeededLocked_ends (h : RegionOk cfg r) :
    Ends (rebuildPageRefIndexIfNeededLocked cfg) r (fun _ r' => TablesOnly r r' ∧ RegionOk cfg r')
      (fun e r' => TableBroken cfg e ∧ TablesOnly r r' ∧ RegionOk cfg r') := by
  by_cases hfit : TablesFit cfg
  · rw [rebuildPageRefIndexIfNeededLocked, ends_bind, ends_get]
    split
    · obtain ⟨slots, hrun, hok⟩ := (h.refs hfit).rebuild hfit (h.card_refs_le.trans h.arena.nextPageHandle_le)
      unfold Ends
      rw [hrun]
      have htables : TablesOnly r { r with pageRefSlots := slots } := (TablesOnly.refl r).refs slots
      exact ⟨htables, htables.arenaOk h.arena, h.index, fun _ => hok⟩
    · exact ⟨TablesOnly.refl r, h⟩
  · refine (rebuildPageRefIndexIfNeededLocked_keeps r (TablesOnly.refl r)).mono ?_ ?_
    · intro _ r' htables
      exact ⟨htables, h.of_broken htables hfit⟩
    · intro e r' he
      exact ⟨⟨he.1, hfit⟩, he.2, h.of_broken he.2 hfit⟩

/-! ### Compaction -/

/-- What the capacity checks ask of the resident nodes alone. -/
def View.roomBeside (cfg : HostPrefixCacheCoordinator) (v : View)
    (minGroupEntries minPageHandles : ℕ) : Prop :=
  minGroupEntries ≤ cfg.maxGroupEntries - v.entryCount cfg.maxNodes ∧
    minPageHandles ≤ cfg.maxPageHandles - v.handleCount cfg.maxNodes

theorem compactedArenaCapacityEnoughLocked_iff (h : ArenaOk cfg r) (minGroupEntries minPageHandles : ℕ) :
    compactedArenaCapacityEnoughLocked cfg minGroupEntries minPageHandles r = true ↔
      (r.view cfg).roomBeside cfg minGroupEntries minPageHandles := by
  simp only [compactedArenaCapacityEnoughLocked, h.residentArenaUsage, Bool.and_eq_true,
    decide_eq_true_eq, View.roomBeside]

theorem tailArenaCapacityEnoughLocked_iff (minGroupEntries minPageHandles : ℕ) :
    tailArenaCapacityEnoughLocked cfg minGroupEntries minPageHandles r = true ↔
      minGroupEntries ≤ cfg.maxGroupEntries - r.nextGroupEntry ∧
        minPageHandles ≤ cfg.maxPageHandles - r.nextPageHandle := by
  simp only [tailArenaCapacityEnoughLocked, Bool.and_eq_true, decide_eq_true_eq]

/-- What fits behind the used part also fits beside the resident nodes. -/
theorem roomBeside_of_tail (h : ArenaOk cfg r)
    (htail : tailArenaCapacityEnoughLocked cfg minGroupEntries minPageHandles r = true) :
    (r.view cfg).roomBeside cfg minGroupEntries minPageHandles := by
  obtain ⟨hE, hH⟩ := (tailArenaCapacityEnoughLocked_iff _ _).mp htail
  have hE' := h.entryCount_le
  have hH' := h.handleCount_le
  exact ⟨by omega, by omega⟩

/-- The outcome of a compaction made for a request. -/
structure Repacked (cfg : HostPrefixCacheCoordinator) (minGroupEntries minPageHandles : ℕ)
    (r r' : Region) : Prop extends SameNodes cfg r r' where
  tail_iff : tailArenaCapacityEnoughLocked cfg minGroupEntries minPageHandles r' = true ↔
    (r.view cfg).roomBeside cfg minGroupEntries minPageHandles

section

variable (h : RegionOk cfg r)
include h

/-- **Compaction**: what is behind the used part afterwards is what is free beside the nodes. -/
theorem compactArenasLocked_ends (minGroupEntries minPageHandles : ℕ) :
    Ends (compactArenasLocked cfg) r (fun _ r' => Repacked cfg minGroupEntries minPageHandles r r')
      (fun e r' => TableBroken cfg e ∧ SameNodes cfg r r') := by
  have hspec := relayArenas_spec cfg r
  have harena := h.arena.compact
  have hsame : ∀ r', TablesOnly (relayArenas cfg r) r' → RegionOk cfg r' → SameNodes cfg r r' := by
    intro r' htables hok
    refine ⟨hok, htables.view.trans hspec.view, ?_⟩
    obtain ⟨_, _, rfl⟩ := htables
    exact hspec.globalEpoch
  have hrebuild : Ends (rebuildNodeIndexLocked cfg) (relayArenas cfg r)
      (fun _ r' => TablesOnly (relayArenas cfg r) r' ∧ RegionOk cfg r')
      (fun e r' => TableBroken cfg e ∧ TablesOnly (relayArenas cfg r) r' ∧ RegionOk cfg r') := by
    apply rebuildNodeIndexLocked_ends harena
    · rw [hspec.view]
      exact fun hfit i j m n hi hj heq => h.digest_unique hfit hi hj heq
    · rw [hspec.view, hspec.pageRefSlots]
      exact h.refs
  rw [compactArenasLocked, ends_bind, ends_modify]
  refine hrebuild.mono ?_ fun e r' he => ⟨he.1, hsame r' he.2.1 he.2.2⟩
  intro _ r' hr'
  refine ⟨hsame r' hr'.1 hr'.2, ?_⟩
  obtain ⟨_, _, rfl⟩ := hr'.1
  rw [tailArenaCapacityEnoughLocked_iff]
  show _ ≤ _ - (relayArenas cfg r).nextGroupEntry ∧ _ ≤ _ - (relayArenas cfg r).nextPageHandle ↔ _
  rw [hspec.nextGroupEntry, hspec.nextPageHandle]
  exact Iff.rfl

/-- Not compacting is right when the request fits already, and when it cannot be made to. -/
theorem Repacked.of_sameNodes (hsame : SameNodes cfg r r') (hnextE : r'.nextGroupEntry = r.nextGroupEntry)
    (hnextH : r'.nextPageHandle = r.nextPageHandle) (hnot : (r.view cfg).roomBeside cfg minGroupEntries minPageHandles →
      tailArenaCapacityEnoughLocked cfg minGroupEntries minPageHandles r = true) :
    Repacked cfg minGroupEntries minPageHandles r r' := by
  have htail : tailArenaCapacityEnoughLocked cfg minGroupEntries minPageHandles r' =
      tailArenaCapacityEnoughLocked cfg minGroupEntries minPageHandles r := by
    rw [tailArenaCapacityEnoughLocked, tailArenaCapacityEnoughLocked, hnextE, hnextH]
  refine ⟨hsame, ?_⟩
  rw [htail]
  exact ⟨roomBeside_of_tail h.arena, hnot⟩

/-- A request that fits already moves nothing. -/
theorem compactArenasForCapacityLocked_ends (minGroupEntries minPageHandles : ℕ) :
    Ends (compactArenasForCapacityLocked cfg minGroupEntries minPageHandles) r
      (fun _ r' => Repacked cfg minGroupEntries minPageHandles r r' ∧
        (tailArenaCapacityEnoughLocked cfg minGroupEntries minPageHandles r = true → r' = r))
      (fun e r' => TableBroken cfg e ∧ SameNodes cfg r r') := by
  rw [compactArenasForCapacityLocked, ends_bind, ends_get]
  split
  · next htail =>
    exact ⟨Repacked.of_sameNodes h (SameNodes.refl h) rfl rfl fun _ => htail, fun _ => rfl⟩
  · next htail =>
    split
    · exact (compactArenasLocked_ends h _ _).mono
        (fun _ r' hr' => ⟨hr', fun htail' => absurd htail' htail⟩) fun _ _ he => he
    · next hcompact =>
      refine ⟨Repacked.of_sameNodes h (SameNodes.refl h) rfl rfl fun hroom => ?_, fun _ => rfl⟩
      exact absurd ((compactedArenaCapacityEnoughLocked_iff h.arena _ _).mpr hroom) hcompact

theorem compactArenasAfterEvictionIfUsefulLocked_ends (minGroupEntries minPageHandles : ℕ) :
    Ends (compactArenasAfterEvictionIfUsefulLocked cfg minGroupEntries minPageHandles) r
      (fun _ r' => Repacked cfg minGroupEntries minPageHandles r r')
      (fun e r' => TableBroken cfg e ∧ SameNodes cfg r r') := by
  have hepoch : ∀ {r₁ r₂ : Region}, TablesOnly r₁ r₂ → r₂.globalEpoch = r₁.globalEpoch ∧
      r₂.nextGroupEntry = r₁.nextGroupEntry ∧ r₂.nextPageHandle = r₁.nextPageHandle := by
    intro r₁ r₂ htables
    obtain ⟨_, _, rfl⟩ := htables
    exact ⟨rfl, rfl, rfl⟩
  rw [compactArenasAfterEvictionIfUsefulLocked, ends_bind, ends_get]
  split
  · exact compactArenasLocked_ends h _ _
  · next hnot =>
    split
    · exact compactArenasLocked_ends h _ _
    rw [ends_bind]
    refine (rebuildNodeIndexIfNeededLocked_ends h).mono ?_ fun e r' he => ⟨he.1, he.2.2, he.2.1.view, (hepoch he.2.1).1⟩
    intro _ r₁ hr₁
    refine (rebuildPageRefIndexIfNeededLocked_ends hr₁.2).mono ?_ ?_
    · intro _ r₂ hr₂
      have htables := hr₁.1.trans hr₂.1
      obtain ⟨hglobal, hnextE, hnextH⟩ := hepoch htables
      refine Repacked.of_sameNodes h ⟨hr₂.2, htables.view, hglobal⟩ hnextE hnextH fun hroom => ?_
      have hcompact := (compactedArenaCapacityEnoughLocked_iff h.arena _ _).mpr hroom
      simpa [hcompact] using hnot
    · intro e r₂ he
      have htables := hr₁.1.trans he.2.1
      exact ⟨he.1, he.2.2, htables.view, (hepoch htables).1⟩

end

end Batchgen.PrefixCache
