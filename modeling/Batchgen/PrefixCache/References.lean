import Batchgen.PrefixCache.Eviction
import Mathlib.Data.Nat.SuccPred

/-!
# Reference counters

Attaching, loading and releasing rewrite the counters of the group entries of a list of nodes.
`Balanced counts v` says that every entry of node `i` stores the two counts `counts i` in its 32-bit
counters, and that a slot without a node has both counts zero.

* `updateEntriesLocked_ok` — the loop over the entries of one node, when no entry is rejected;
* `CounterOp.run` — the loop over a list of nodes: a node named `k` times is counted `k` times;
* `attachNodesLocked_ok`, `decrementActiveRefsLocked_ok`, `addLoadRefsLocked_ok`,
  `dropLoadRefsLocked_ok` — the four uses.

None of them changes the core of a node: its digest, its tokens and its pages.
-/

namespace Batchgen.PrefixCache

open MachineInt Outcome Function List

variable {cfg : HostPrefixCacheCoordinator} {r r' : Region} {v v' v'' : View} {index i : ℕ}

/-! ### Cores -/

/-- A node without its counters and its access epoch. -/
def NodeSnapshot.core (node : NodeSnapshot) : NodeSnapshot :=
  { node with
    lastAccessEpoch := 0
    groups := node.groups.map fun group => { group with activeRefCount := 0, pendingLoadCount := 0 } }

/-- **The nodes are the same up to counters and access epochs.** -/
def SameCores (v v' : View) : Prop := ∀ i, (v' i).map NodeSnapshot.core = (v i).map NodeSnapshot.core

theorem SameCores.refl (v : View) : SameCores v v := fun _ => rfl

theorem SameCores.trans (h : SameCores v v') (h' : SameCores v' v'') : SameCores v v'' := fun i => (h' i).trans (h i)

theorem SameCores.isSome (h : SameCores v v') {node : NodeSnapshot} (hi : v i = some node) :
    ∃ node', v' i = some node' ∧ node'.core = node.core := by
  have hcore := h i
  rw [hi, Option.map_some, Option.map_eq_some_iff] at hcore
  exact hcore

theorem NodeSnapshot.core_pageRefs (node : NodeSnapshot) : node.core.pageRefs = node.pageRefs := by
  simp only [NodeSnapshot.pageRefs, NodeSnapshot.core, flatMap_map]

/-- A fact that only reads cores. -/
theorem SameCores.map_eq {β : Type} (h : SameCores v v') {f : NodeSnapshot → β}
    (hf : ∀ node, f node.core = f node) (i : ℕ) : (v' i).map f = (v i).map f := by
  have hcomp : f ∘ NodeSnapshot.core = f := funext hf
  have hcore := congrArg (Option.map f) (h i)
  rwa [Option.map_map, Option.map_map, hcomp] at hcore

theorem SameCores.pageRefs (h : SameCores v v') (n : ℕ) : v'.pageRefs n = v.pageRefs n := by
  unfold View.pageRefs
  apply Finset.sum_congr rfl
  intro i _
  have hrefs := congrArg (fun o => o.elim 0 fun node => (node.pageRefs : Multiset (ℕ × ℕ))) (h i)
  simpa only [Option.elim_map, comp_def, NodeSnapshot.core_pageRefs] using hrefs

theorem SameCores.of_update {node node' : NodeSnapshot} (hold : v index = some node) (hcore : node'.core = node.core) :
    SameCores v (update v index (some node')) := by
  intro i
  by_cases hi : i = index
  · rw [hi, update_self, hold, Option.map_some, hcore, Option.map_some]
  · rw [update_of_ne hi]

/-- Tables that agree with the nodes still do when only counters and epochs have changed. -/
theorem RegionOk.of_sameCores (h : RegionOk cfg r) (harena : ArenaOk cfg r')
    (hcores : SameCores (r.view cfg) (r'.view cfg)) (hindex : r'.nodeIndexSlots = r.nodeIndexSlots)
    (hrefs : r'.pageRefSlots = r.pageRefSlots) : RegionOk cfg r' := by
  refine ⟨harena, fun hfit => ?_, fun hfit => ?_⟩
  · rw [hindex]
    exact (h.index hfit).congr (hcores.map_eq fun _ => rfl)
  · rw [hrefs, hcores.pageRefs]
    exact h.refs hfit

/-! ### Counters -/

/-- **The counters store the counts.** -/
def Balanced (counts : ℕ → ℕ × ℕ) (v : View) : Prop :=
  ∀ i, match v i with
    | none => counts i = (0, 0)
    | some node => node.groups ≠ [] ∧ ∀ group ∈ node.groups,
        group.activeRefCount = u32 (counts i).1 ∧ group.pendingLoadCount = u32 (counts i).2

theorem constructSharedState_balanced (cfg : HostPrefixCacheCoordinator) :
    Balanced (fun _ => (0, 0)) (constructSharedState.view cfg) := by
  intro i
  rw [constructSharedState_view]

section

variable {counts : ℕ → ℕ × ℕ}

theorem Balanced.of_none (h : Balanced counts v) (hi : v i = none) : counts i = (0, 0) := by
  have hb := h i
  rwa [hi] at hb

theorem Balanced.of_some (h : Balanced counts v) {node : NodeSnapshot}
    (hi : v i = some node) : node.groups ≠ [] ∧ ∀ group ∈ node.groups,
      group.activeRefCount = u32 (counts i).1 ∧ group.pendingLoadCount = u32 (counts i).2 := by
  have hb := h i
  rwa [hi] at hb

theorem Balanced.of_update (h : Balanced counts v) {node : NodeSnapshot} {c : ℕ × ℕ} (hne : node.groups ≠ [])
    (hgroups : ∀ group ∈ node.groups, group.activeRefCount = u32 c.1 ∧ group.pendingLoadCount = u32 c.2) :
    Balanced (update counts index c) (update v index (some node)) := by
  intro i
  by_cases hi : i = index
  · rw [hi, update_self, update_self]
    exact ⟨hne, hgroups⟩
  · rw [update_of_ne hi, update_of_ne hi]
    exact h i

/-- A node is protected exactly when one of its counts is not zero. -/
theorem Balanced.isProtected_iff (h : Balanced counts v) {node : NodeSnapshot} (hi : v i = some node) :
    node.isProtected = true ↔ u32 (counts i).1 ≠ 0 ∨ u32 (counts i).2 ≠ 0 := by
  obtain ⟨hne, hgroups⟩ := h.of_some hi
  simp only [NodeSnapshot.isProtected, any_eq_true, Bool.or_eq_true, decide_eq_true_eq]
  constructor
  · rintro ⟨group, hmem, hcount⟩
    rw [(hgroups group hmem).1, (hgroups group hmem).2] at hcount
    exact hcount
  · intro hcount
    obtain ⟨group, hmem⟩ := exists_mem_of_ne_nil _ hne
    refine ⟨group, hmem, ?_⟩
    rw [(hgroups group hmem).1, (hgroups group hmem).2]
    exact hcount

end

def SharedGroupEntry.setCounters (counters : ℕ × ℕ) (entry : SharedGroupEntry) : SharedGroupEntry :=
  { entry with activeRefCount := u32 counters.1, pendingLoadCount := u32 counters.2 }

def GroupEntrySnapshot.setCounters (counters : ℕ × ℕ) (group : GroupEntrySnapshot) :
    GroupEntrySnapshot :=
  { group with activeRefCount := u32 counters.1, pendingLoadCount := u32 counters.2 }

theorem setCounters_counterChange (counters : ℕ × ℕ) :
    CounterChange (SharedGroupEntry.setCounters counters) (GroupEntrySnapshot.setCounters counters) where
  state _ := rfl
  firstPageHandle _ := rfl
  pageHandleCount _ := rfl
  snapshot _ _ := rfl

/-- **The loop over the entries of one node**, when `f` accepts every entry. -/
theorem updateEntriesLocked_ok {node : SharedPrefixNode}
    {f : SharedGroupEntry → Except PrefixCacheError SharedGroupEntry}
    {g : SharedGroupEntry → SharedGroupEntry} (hf : ∀ entry ∈ r.entries node, f entry = .ok (g entry)) :
    updateEntriesLocked node f r = .ok () (rewriteEntries node g r) := by
  -- after `n` turns the first `n` entries are rewritten
  let done : ℕ → Region := fun n =>
    { r with
      groupEntries := fun k =>
        if node.firstGroupEntry ≤ k ∧ k < node.firstGroupEntry + n then g (r.groupEntries k)
        else r.groupEntries k }
  have hzero : done 0 = r := by
    show ({ r with groupEntries := _ } : Region) = r
    have hfun : (fun k => if node.firstGroupEntry ≤ k ∧ k < node.firstGroupEntry + 0 then
        g (r.groupEntries k) else r.groupEntries k) = r.groupEntries := by
      funext k
      rw [if_neg (by omega)]
    rw [hfun]
  have hloop : ∃ s', updateEntriesLocked node f r = .ok () s' ∧ s' = done node.groupEntryCount :=
    forM_range_ok (fun n s => s = done n) hzero.symm (by
      rintro i _ hi rfl
      have hread : (done i).groupEntries (node.firstGroupEntry + i) =
          r.groupEntries (node.firstGroupEntry + i) := if_neg (by omega)
      have haccept : f ((done i).groupEntries (node.firstGroupEntry + i)) =
          .ok (g (r.groupEntries (node.firstGroupEntry + i))) := by
        rw [hread]
        exact hf _ (mem_entries.mpr ⟨_, by omega, by omega, rfl⟩)
      refine ⟨done (i + 1), ?_, rfl⟩
      rw [get_bind, haccept]
      have hstep : update (done i).groupEntries (node.firstGroupEntry + i)
          (g (r.groupEntries (node.firstGroupEntry + i))) = (done (i + 1)).groupEntries := by
        funext k
        by_cases hk : k = node.firstGroupEntry + i
        · subst hk
          rw [update_self]
          exact (if_pos (by omega)).symm
        · rw [update_of_ne hk]
          show (if _ then _ else _) = if _ then _ else _
          congr 1
          exact propext (by omega)
      show EStateM.Result.ok () ({ done i with groupEntries := _ } : Region) = _
      rw [hstep])
  obtain ⟨_, hrun, rfl⟩ := hloop
  exact hrun

/-- **What one turn does to the counters of an entry**: under `pre` the entry is accepted, and its two
counts go from `c` to `next c`. -/
structure CounterOp (f : SharedGroupEntry → Except PrefixCacheError SharedGroupEntry)
    (pre : ℕ × ℕ → Prop) (next : ℕ × ℕ → ℕ × ℕ) : Prop where
  accepts : ∀ entry c, entry.activeRefCount = u32 c.1 → entry.pendingLoadCount = u32 c.2 → pre c →
    f entry = .ok (entry.setCounters (next c))

/-- What the counter loops leave alone. -/
structure Recounted (cfg : HostPrefixCacheCoordinator) (counts : ℕ → ℕ × ℕ) (r r' : Region) :
    Prop where
  ok : RegionOk cfg r'
  balanced : Balanced counts (r'.view cfg)
  cores : SameCores (r.view cfg) (r'.view cfg)

section

variable {f : SharedGroupEntry → Except PrefixCacheError SharedGroupEntry} {pre : ℕ × ℕ → Prop}
  {next : ℕ × ℕ → ℕ × ℕ} {counts : ℕ → ℕ × ℕ}

/-- One node. -/
theorem CounterOp.node (hop : CounterOp f pre next) (h : RegionOk cfg r) (hb : Balanced counts (r.view cfg))
    (hres : r.Resident cfg index) (hpre : pre (counts index)) :
    ∃ r', updateEntriesLocked (r.nodes index) f r = .ok () r' ∧
      Recounted cfg (update counts index (next (counts index))) r r' := by
  have hview := view_of_resident hres
  obtain ⟨hne, hgroups⟩ := hb.of_some hview
  have haccept : ∀ entry ∈ r.entries (r.nodes index), f entry = .ok (entry.setCounters (next (counts index))) := by
    intro entry hentry
    rw [← h.arena.layout.residentEntries_eq hres] at hentry
    have hsnap : r.snapshotGroup entry ∈ (r.snapshotNode (r.nodes index)).groups := mem_map_of_mem hentry
    exact hop.accepts entry _ (hgroups _ hsnap).1 (hgroups _ hsnap).2 hpre
  obtain ⟨harena, hview'⟩ := h.arena.rewrite hres (setCounters_counterChange (next (counts index)))
  rw [hview, Option.map_some] at hview'
  have hcores : SameCores (r.view cfg)
      ((rewriteEntries (r.nodes index) (SharedGroupEntry.setCounters (next (counts index))) r).view cfg) := by
    rw [hview']
    refine .of_update hview ?_
    simp only [NodeSnapshot.core, map_map]
    rfl
  refine ⟨_, updateEntriesLocked_ok haccept, h.of_sameCores harena hcores rfl rfl, ?_, hcores⟩
  rw [hview']
  refine hb.of_update (by simpa using hne) fun group hgroup => ?_
  obtain ⟨old, _, rfl⟩ := mem_map.mp hgroup
  exact ⟨rfl, rfl⟩

theorem Recounted.resident (h : Recounted cfg counts r r') (hi : r.Resident cfg i) : r'.Resident cfg i := by
  obtain ⟨node, hnode, _⟩ := h.cores.isSome (view_of_resident hi)
  exact (view_eq_some_iff.mp hnode).1

/-- **The loop over a list of nodes.**  `turn` is one turn of it, and a node that is named `k` times is
counted `k` times. -/
theorem CounterOp.run (hop : CounterOp f pre next) (turn : ℕ → CacheM Unit)
    (hturn : ∀ (r : Region) i, (r.nodes i).state = .resident → turn i r = updateEntriesLocked (r.nodes i) f r)
    (nodes : List ℕ) (h : RegionOk cfg r) (hb : Balanced counts (r.view cfg)) (hres : ∀ i ∈ nodes, r.Resident cfg i)
    (hpre : ∀ i k, k < nodes.count i → pre (next^[k] (counts i))) :
    ∃ r', nodes.forM turn r = .ok () r' ∧ Recounted cfg (fun i => next^[nodes.count i] (counts i)) r r' := by
  induction nodes generalizing r counts with
  | nil => exact ⟨r, rfl, h, hb, SameCores.refl _⟩
  | cons index rest ih =>
    have hindex := hres index mem_cons_self
    have hfirst : pre (counts index) := hpre index 0 (by simp)
    obtain ⟨r₁, hrun₁, h₁⟩ := hop.node h hb hindex hfirst
    have hcount : ∀ i k, next^[k] (update counts index (next (counts index)) i) =
        next^[k + if index == i then 1 else 0] (counts i) := by
      intro i k
      by_cases hi : i = index
      · rw [hi, update_self, beq_self_eq_true, if_pos rfl]
        rfl
      · rw [update_of_ne hi, beq_false_of_ne (Ne.symm hi)]
        rfl
    have hpre₁ : ∀ i k, k < rest.count i → pre (next^[k] (update counts index (next (counts index)) i)) := by
      intro i k hk
      rw [hcount]
      apply hpre i
      rw [count_cons]
      exact Nat.add_lt_add_right hk _
    obtain ⟨r', hrun, hok', hb', hcores'⟩ := ih h₁.ok h₁.balanced (fun i hi => h₁.resident (hres i
      (mem_cons_of_mem index hi))) hpre₁
    refine ⟨r', ?_, hok', ?_, h₁.cores.trans hcores'⟩
    · have hone : turn index r = .ok () r₁ := (hturn r index hindex.2).trans hrun₁
      exact (bind_ok hone).trans hrun
    · simp only [hcount, ← count_cons] at hb'
      exact hb'

end

/-! ### The four loops -/

theorem addActiveRef_op : CounterOp addActiveRef (fun _ => True) (Prod.map Nat.succ id) where
  accepts entry c hactive hpending _ := by
    simp only [addActiveRef, SharedGroupEntry.setCounters, hactive, u32_u32_add, Prod.map, id, ← hpending]

theorem addLoadRef_op : CounterOp addLoadRef (fun _ => True) (Prod.map id Nat.succ) where
  accepts entry c hactive hpending _ := by
    simp only [addLoadRef, SharedGroupEntry.setCounters, hpending, u32_u32_add, Prod.map, id, ← hactive]

theorem dropActiveRef_op : CounterOp dropActiveRef (fun c => 0 < c.1 ∧ c.1 < 2 ^ 32) (Prod.map Nat.pred id) where
  accepts entry c hactive hpending hpre := by
    rw [u32_of_lt hpre.2] at hactive
    have hnext : u32 c.1.pred = c.1.pred := u32_of_lt ((Nat.pred_le _).trans_lt hpre.2)
    simp only [dropActiveRef, hactive, if_neg hpre.1.ne', SharedGroupEntry.setCounters, Prod.map, hnext, id, ← hpending]
    rfl

theorem dropLoadRef_op : CounterOp dropLoadRef (fun c => 0 < c.2 ∧ c.2 < 2 ^ 32) (Prod.map id Nat.pred) where
  accepts entry c hactive hpending hpre := by
    rw [u32_of_lt hpre.2] at hpending
    have hnext : u32 c.2.pred = c.2.pred := u32_of_lt ((Nat.pred_le _).trans_lt hpre.2)
    simp only [dropLoadRef, hpending, if_neg hpre.1.ne', SharedGroupEntry.setCounters, Prod.map, hnext, id, ← hactive]
    rfl

section

variable {counts : ℕ → ℕ × ℕ}

/-- A node with a count that is not zero is resident. -/
theorem Balanced.resident (hb : Balanced counts (r.view cfg)) (hi : counts i ≠ (0, 0)) : r.Resident cfg i := by
  by_contra hres
  exact hi (hb.of_none (view_eq_none_iff.mpr hres))

theorem updateResidentNodeLocked_eq
    (f : SharedGroupEntry → Except PrefixCacheError SharedGroupEntry) (r : Region) (i : ℕ)
    (h : (r.nodes i).state = .resident) : updateResidentNodeLocked f i r = updateEntriesLocked (r.nodes i) f r := by
  rw [updateResidentNodeLocked, get_bind, if_neg (not_not.mpr h)]

section

variable (nodes : List ℕ) (h : RegionOk cfg r) (hb : Balanced counts (r.view cfg))
  (hres : ∀ i ∈ nodes, r.Resident cfg i)
include nodes h hb

include hres in
theorem incrementActiveRefsLocked_ok : ∃ r', incrementActiveRefsLocked nodes r = .ok () r' ∧
      Recounted cfg (fun i => ((counts i).1 + nodes.count i, (counts i).2)) r r' := by
  have hrun := addActiveRef_op.run _ (updateResidentNodeLocked_eq _) nodes h hb hres fun _ _ _ => trivial
  simp only [Prod.map_iterate, Prod.map, Nat.succ_iterate, iterate_id, id] at hrun
  exact hrun

include hres in
/-- **A load begins.** -/
theorem addLoadRefsLocked_ok : ∃ r', addLoadRefsLocked nodes r = .ok () r' ∧
      Recounted cfg (fun i => ((counts i).1, (counts i).2 + nodes.count i)) r r' := by
  have hrun := addLoadRef_op.run _ (updateResidentNodeLocked_eq _) nodes h hb hres fun _ _ _ => trivial
  simp only [Prod.map_iterate, Prod.map, Nat.succ_iterate, iterate_id, id] at hrun
  exact hrun

/-- **A load ends.**  Its nodes have their references. -/
theorem dropLoadRefsLocked_ok (hcount : ∀ i, nodes.count i ≤ (counts i).2 ∧ (counts i).2 < 2 ^ 32) :
    ∃ r', dropLoadRefsLocked nodes r = .ok () r' ∧
      Recounted cfg (fun i => ((counts i).1, (counts i).2 - nodes.count i)) r r' := by
  have hrun := dropLoadRef_op.run _ (updateResidentNodeLocked_eq _) nodes h hb (fun i hi => hb.resident fun hzero => by
      have hpos := count_pos_iff.mpr hi
      have hle := (hcount i).1
      rw [hzero] at hle
      omega)
    (fun i k hk => by
      have hle := hcount i
      rw [Prod.map_iterate, Prod.map, Nat.pred_iterate]
      omega)
  simp only [Prod.map_iterate, Prod.map, Nat.pred_iterate, iterate_id, id] at hrun
  exact hrun

/-- **A release.**  Its nodes have their references. -/
theorem decrementActiveRefsLocked_ok (hcount : ∀ i, nodes.count i ≤ (counts i).1 ∧ (counts i).1 < 2 ^ 32) :
    ∃ r', decrementActiveRefsLocked nodes r = .ok () r' ∧
      Recounted cfg (fun i => ((counts i).1 - nodes.count i, (counts i).2)) r r' := by
  have hrun := dropActiveRef_op.run (fun nodeIndex => do
      let r ← get
      if (r.nodes nodeIndex).state ≠ .resident then pure ()
      else updateEntriesLocked (r.nodes nodeIndex) dropActiveRef)
    (fun r i hstate => by rw [get_bind, if_neg (not_not.mpr hstate)]) nodes h hb
    (fun i hi => hb.resident fun hzero => by
      have hpos := count_pos_iff.mpr hi
      have hle := (hcount i).1
      rw [hzero] at hle
      omega)
    (fun i k hk => by
      have hle := hcount i
      rw [Prod.map_iterate, Prod.map, Nat.pred_iterate]
      omega)
  simp only [Prod.map_iterate, Prod.map, Nat.pred_iterate, iterate_id, id] at hrun
  exact hrun

omit nodes in
/-- One turn of the loop that renews access epochs. -/
theorem touchNodeLocked_ok (epoch : ℕ) (hres : r.Resident cfg index) :
    touchNodeLocked cfg epoch index r = .ok () (r.touch index epoch) ∧
      Recounted cfg counts r (r.touch index epoch) := by
  obtain ⟨harena, hview⟩ := h.arena.touch index epoch
  have hold := view_of_resident hres
  rw [hold, Option.map_some] at hview
  have hcores : SameCores (r.view cfg) ((r.touch index epoch).view cfg) := by
    rw [hview]
    exact .of_update hold rfl
  refine ⟨?_, h.of_sameCores harena hcores rfl rfl, ?_, hcores⟩
  · rw [touchNodeLocked, get_bind, if_neg (not_le.mpr hres.1), if_neg (not_not.mpr hres.2)]
    rfl
  · obtain ⟨hne, hgroups⟩ := hb.of_some hold
    rw [hview, ← update_eq_self index counts]
    exact hb.of_update hne hgroups

include hres in
theorem touchNodesLocked_ok (epoch : ℕ) :
    ∃ r', nodes.forM (touchNodeLocked cfg epoch) r = .ok () r' ∧ Recounted cfg counts r r' := by
  induction nodes generalizing r with
  | nil => exact ⟨r, rfl, h, hb, SameCores.refl _⟩
  | cons index rest ih =>
    obtain ⟨hrun₁, h₁⟩ := touchNodeLocked_ok h hb epoch (hres index mem_cons_self)
    obtain ⟨r', hrun, h'⟩ := ih h₁.ok h₁.balanced fun i hi =>
      h₁.resident (hres i (mem_cons_of_mem index hi))
    exact ⟨r', (bind_ok hrun₁).trans hrun, h'.ok, h'.balanced, h₁.cores.trans h'.cores⟩

include hres in
/-- **An attachment.**  Resident nodes are all there is to check. -/
theorem attachNodesLocked_ok (hne : nodes ≠ []) : ∃ r', attachNodesLocked cfg nodes r = .ok () r' ∧
      Recounted cfg (fun i => ((counts i).1 + nodes.count i, (counts i).2)) r r' := by
  have hok₀ := h.header (u64 (r.globalEpoch + 1)) r.lookupHits r.lookupMisses r.evictedNodes r.evictionProtectedSkips
  obtain ⟨r₁, hrun₁, h₁⟩ := touchNodesLocked_ok nodes hok₀ hb hres (u64 (r.globalEpoch + 1))
  obtain ⟨r₂, hrun₂, h₂⟩ := incrementActiveRefsLocked_ok nodes h₁.ok h₁.balanced fun i hi =>
    h₁.resident (hres i hi)
  refine ⟨r₂, ?_, h₂.ok, h₂.balanced, h₁.cores.trans h₂.cores⟩
  rw [attachNodesLocked, if_neg hne, get_bind, set_bind, bind_ok hrun₁, hrun₂]

end

end

end Batchgen.PrefixCache
