import Batchgen.PrefixCache.Attachments

/-!
# What a lookup finds

A lookup walks the blocks of a token list and stops at the first one without a usable node.  With
exact searches it depends on the cores of the nodes only: the same nodes under other counters, access
epochs and arena positions give the same hits and the same spans.

* `Hits` — the walk on the view, with `hitNodeIndices_hits`;
* `Hits.unique`, `Hits.congr` — the walk is determined by the cores of the nodes;
* `lookups_repeat` — a lookup that is repeated finds what it found.
-/

namespace Batchgen.PrefixCache

open MachineInt OrderedMap Outcome Option

variable {cfg : HostPrefixCacheCoordinator} {r r' : Region} {v v' : View} {blocks : List (ℕ × PrefixDigest)}
  {indices : List ℕ}

/-! ### Hits -/

variable (cfg)

/-- Every required group has an entry over the whole range of the node. -/
def NodeSnapshot.hasRequiredGroups (node : NodeSnapshot) : Bool :=
  (requiredSpecs cfg.groupSpecs).all fun spec =>
    node.groups.any fun group =>
      group.groupId = spec.groupId && group.rawStartToken ≤ node.rawStartToken &&
        node.rawEndToken ≤ group.rawEndToken

theorem nodeHasRequiredGroupsLocked_eq (r : Region) (node : SharedPrefixNode) :
    nodeHasRequiredGroupsLocked cfg r node = (r.snapshotNode node).hasRequiredGroups cfg := by
  simp only [nodeHasRequiredGroupsLocked, NodeSnapshot.hasRequiredGroups, Region.snapshotNode, List.any_map]
  rfl

variable {cfg}

theorem NodeSnapshot.core_hasRequiredGroups (node : NodeSnapshot) :
    node.core.hasRequiredGroups cfg = node.hasRequiredGroups cfg := by
  simp only [NodeSnapshot.hasRequiredGroups, NodeSnapshot.core, List.any_map]
  rfl

/-- **A walk over blocks**: `indices` are nodes with the digests of the leading blocks, and the next
block, if there is one, has no node that can be used. -/
inductive Hits (cfg : HostPrefixCacheCoordinator) (v : View) :
    List (ℕ × PrefixDigest) → List ℕ → Prop where
  | nil : Hits cfg v [] []
  | stop {block : ℕ × PrefixDigest} {rest : List (ℕ × PrefixDigest)}
      (hmiss : ∀ i node, v i = some node → node.digest = block.2 →
        node.hasRequiredGroups cfg = false) :
      Hits cfg v (block :: rest) []
  | hit {block : ℕ × PrefixDigest} {rest : List (ℕ × PrefixDigest)} {index : ℕ} {indices : List ℕ}
      {node : NodeSnapshot} (hnode : v index = some node) (hdigest : node.digest = block.2)
      (hgroups : node.hasRequiredGroups cfg = true) (hrest : Hits cfg v rest indices) :
      Hits cfg v (block :: rest) (index :: indices)

/-- **The walk of the code**, when searches are exact. -/
theorem hitNodeIndices_hits (h : IndexOk cfg r.nodeIndexSlots (r.view cfg)) (blocks : List (ℕ × PrefixDigest)) :
    Hits cfg (r.view cfg) blocks (hitNodeIndices cfg r blocks) := by
  induction blocks with
  | nil => exact .nil
  | cons block rest ih =>
    rw [hitNodeIndices]
    cases hfind : findNodeLocked cfg r block.2 with
    | none =>
      apply Hits.stop
      intro i node hnode hdigest
      exact absurd hdigest (h.findNode_eq_none_iff.mp hfind i node hnode)
    | some index =>
      obtain ⟨node, hnode, hdigest⟩ := h.findNode_iff.mp hfind
      have hsnap := (view_eq_some_iff.mp hnode).2
      dsimp only
      rw [nodeHasRequiredGroupsLocked_eq, hsnap]
      split
      · next hgroups => exact .hit hnode hdigest hgroups ih
      · next hgroups =>
        apply Hits.stop
        intro i other hother hdigest'
        obtain rfl := h.digest_unique hnode hother (hdigest.trans hdigest'.symm)
        rw [hnode] at hother
        obtain rfl := Option.some.inj hother
        exact Bool.eq_false_iff.mpr hgroups

/-- No two walks differ. -/
theorem Hits.unique (hunique : ∀ i j m n, v i = some m → v j = some n → m.digest = n.digest → i = j) {indices' : List ℕ}
    (h : Hits cfg v blocks indices) (h' : Hits cfg v blocks indices') : indices = indices' := by
  induction h generalizing indices' with
  | nil =>
    cases h'
    rfl
  | stop hmiss =>
    cases h' with
    | stop _ => rfl
    | hit hnode hdigest hgroups _ =>
      rw [hmiss _ _ hnode hdigest] at hgroups
      simp at hgroups
  | hit hnode hdigest hgroups _ ih =>
    cases h' with
    | stop hmiss =>
      rw [hmiss _ _ hnode hdigest] at hgroups
      simp at hgroups
    | hit hnode' hdigest' _ hrest' =>
      rw [hunique _ _ _ _ hnode hnode' (hdigest.trans hdigest'.symm), ih hrest']

/-- Only cores matter to a walk. -/
theorem Hits.congr (hcores : SameCores v v') (h : Hits cfg v blocks indices) : Hits cfg v' blocks indices := by
  induction h with
  | nil => exact .nil
  | stop hmiss =>
    apply Hits.stop
    intro i node' hnode' hdigest
    have hcore := hcores i
    rw [hnode', map_some, eq_comm, map_eq_some_iff] at hcore
    obtain ⟨node, hnode, heq⟩ := hcore
    have hmissed := hmiss i node hnode ((congrArg NodeSnapshot.digest heq).trans hdigest)
    rw [← node.core_hasRequiredGroups, heq, node'.core_hasRequiredGroups] at hmissed
    exact hmissed
  | hit hnode hdigest hgroups _ ih =>
    obtain ⟨node', hnode', heq⟩ := hcores.isSome hnode
    refine .hit hnode' ((congrArg NodeSnapshot.digest heq).trans hdigest) ?_ ih
    rw [← node'.core_hasRequiredGroups, heq, NodeSnapshot.core_hasRequiredGroups]
    exact hgroups

/-- **Other counters, other epochs, other positions: the same hits.** -/
theorem lookupHits_congr (hfit : TablesFit cfg) (h : RegionOk cfg r) (h' : RegionOk cfg r')
    (hcores : SameCores (r.view cfg) (r'.view cfg)) (namespaceDigest : PrefixDigest) (tokenIds : List Int64) :
    lookupHits cfg r' namespaceDigest tokenIds = lookupHits cfg r namespaceDigest tokenIds := by
  apply Hits.unique (v := r'.view cfg) _ (hitNodeIndices_hits (h'.index hfit) _)
    ((hitNodeIndices_hits (h.index hfit) _).congr hcores)
  intro i j m n hi hj
  exact h'.digest_unique hfit hi hj

/-! ### Repeated lookups -/

/-- Lookups of one token list, one after the other. -/
def Lookups (cfg : HostPrefixCacheCoordinator) (namespaceDigest : PrefixDigest)
    (tokenIds : List Int64) : Process → Process → Prop :=
  Relation.ReflTransGen fun process process' =>
    ∃ result, lookupAndAttach cfg namespaceDigest tokenIds process = .ok result process'

/-- **A lookup can be repeated any number of times**, and each time attaches the same nodes: the true
count of a node goes up without bound, and its 32-bit counter with it. -/
theorem lookups_repeat (hfit : TablesFit cfg) {process : Process} {counts : ℕ → ℕ × ℕ}
    {opened begun : ℕ → ℕ} (h : RegionOk cfg process.region)
    (hb : Balanced counts (process.region.view cfg)) (hlocal : LocalOk process.locals opened begun)
    {namespaceDigest : PrefixDigest} {tokenIds : List Int64} {hits : List ℕ} (hne : hits ≠ [])
    (hhits : lookupHits cfg process.region namespaceDigest tokenIds = hits) (n : ℕ)
    (hnext : process.locals.nextHandle + n < 2 ^ 64) :
    ∃ process', Lookups cfg namespaceDigest tokenIds process process' ∧
      RegionOk cfg process'.region ∧ LocalOk process'.locals opened begun ∧
      Balanced (fun i => ((counts i).1 + n * hits.count i, (counts i).2)) (process'.region.view cfg) ∧
      SameCores (process.region.view cfg) (process'.region.view cfg) ∧
      (∀ i, process'.locals.named i = process.locals.named i + n * hits.count i) ∧
      process'.locals.nextHandle = process.locals.nextHandle + n ∧
      ∀ handle, process.locals.nextHandle ≤ handle → handle < process.locals.nextHandle + n →
        lookup handle process'.locals.attachments = some { nodeIndices := hits } := by
  induction n with
  | zero =>
    refine ⟨process, .refl, h, hlocal, ?_, SameCores.refl _, ?_, rfl, fun _ _ _ => by omega⟩
    · simp only [Nat.zero_mul, Nat.add_zero]
      exact hb
    · intro i
      rw [Nat.zero_mul, Nat.add_zero]
  | succ n ih =>
    obtain ⟨p, hrun, hok, hlocals, hbalanced, hcores, hnamed, hhandle, hlookups⟩ := ih (by omega)
    have hhits' : lookupHits cfg p.region namespaceDigest tokenIds = hits :=
      (lookupHits_congr hfit h hok hcores _ _).trans hhits
    obtain ⟨result, p', hrun', hdone, hcores', _⟩ := lookupAndAttach_ok hok hbalanced namespaceDigest tokenIds
    rw [hhits'] at hdone
    have hregister : p'.locals = (p.locals.register hits).2 := by
      rw [hdone.locals, if_neg hne]
    have hstep : p.locals.nextHandle + 1 < 2 ^ 64 := by omega
    refine ⟨p', hrun.tail ⟨result, hrun'⟩, hdone.ok, ?_, ?_, hcores.trans hcores', ?_, ?_, ?_⟩
    · rw [hregister]
      exact hlocals.register hstep hits
    · have hcount : ∀ i, (counts i).1 + (n + 1) * hits.count i = (counts i).1 + n * hits.count i + hits.count i := by
        intro i
        rw [Nat.add_mul, Nat.one_mul, Nat.add_assoc]
      simp only [hcount]
      exact hdone.balanced
    · intro i
      rw [hregister, hlocals.register_named, hnamed, Nat.add_mul, Nat.one_mul, Nat.add_assoc]
    · rw [hregister]
      show u64 (p.locals.nextHandle + 1) = _
      rw [u64_of_lt hstep, hhandle, Nat.add_assoc]
    · intro handle hle hlt
      rw [hregister]
      by_cases hnew : handle = p.locals.nextHandle
      · rw [hnew]
        have hself : lookup p.locals.nextHandle (p.locals.register hits).2.attachments = some _ :=
          lookup_alter_self hlocals.ordered
        rw [hlocals.lookup_nextHandle] at hself
        exact hself
      · exact (lookup_alter_of_ne hnew).trans (hlookups handle hle (by omega))

/-- A cache with room for two blocks of one token. -/
def twoBlockCache : HostPrefixCacheCoordinator where
  shmName := "prefix"
  groupSpecs := [{ groupId := 0, rawPageTokens := 1 }]
  maxNodes := 2
  maxGroupEntries := 2
  maxPageHandles := 2
  hashBlockTokens := 1
  commitBoundaryTokens := 1
  accepted := by decide
  maxNodes_lt := by decide
  maxGroupEntries_lt := by decide
  maxPageHandles_lt := by decide

/-- The commit of two tokens with their pages. -/
def twoBlockCommit : HeaderCall := .commitPrefixPages {} [5, 6] 2 [⟨0, [7, 8]⟩] false

theorem twoBlockCache_fits : TablesFit twoBlockCache := ⟨by decide, by decide⟩

theorem twoBlockCommit_pagesFit : twoBlockCommit.PagesFit twoBlockCache := ⟨by decide, by decide⟩

theorem twoBlockCommit_hits : Ends (twoBlockCommit.run twoBlockCache StdSort.merge) ⟨constructSharedState, {}⟩
      (fun _ process => lookupHits twoBlockCache process.region {} [5, 6] = [0, 1] ∧ process.locals = {})
      (fun _ _ => False) := by
  decide +kernel

/-- The small cache after its commit: nothing is attached. -/
theorem twoBlockCommit_ok :
    ∃ result p, twoBlockCommit.run twoBlockCache StdSort.merge ⟨constructSharedState, {}⟩ = .ok result p ∧
      RegionOk twoBlockCache p.region ∧ p.locals = {} ∧ Balanced (fun _ => (0, 0)) (p.region.view twoBlockCache) ∧
      lookupHits twoBlockCache p.region {} [5, 6] = [0, 1] := by
  obtain ⟨result, p, hrun, hhits, hlocals⟩ := twoBlockCommit_hits.exists_ok
  have hfit : CountsFit fun _ => (0, 0) := fun _ => ⟨by norm_num, by norm_num⟩
  obtain ⟨nodes, hdone, _⟩ := Ends.of_ok (twoBlockCommit.run_ends twoBlockCommit_pagesFit
    (constructSharedState_regionOk twoBlockCache) (constructSharedState_balanced twoBlockCache) hfit) hrun
  have hnil : nodes = [] := by
    by_contra hne
    have hnext := congrArg LocalState.nextHandle (hdone.locals.symm.trans hlocals)
    rw [if_neg hne] at hnext
    change u64 (1 + 1) = 1 at hnext
    exact absurd hnext (by decide)
  refine ⟨result, p, hrun, hdone.ok, hlocals, ?_, hhits⟩
  have hbalanced := hdone.balanced
  simp only [hnil, List.count_nil, Nat.add_zero] at hbalanced
  exact hbalanced

/-- The blocks of the small cache, attached `n` times. -/
theorem twoBlockCache_lookups {p : Process} (hok : RegionOk twoBlockCache p.region)
    (hlocals : p.locals = {}) (hb : Balanced (fun _ => (0, 0)) (p.region.view twoBlockCache))
    (hhits : lookupHits twoBlockCache p.region {} [5, 6] = [0, 1]) (n : ℕ) (hn : n + 1 < 2 ^ 64) :
    ∃ p', Lookups twoBlockCache {} [5, 6] p p' ∧ RegionOk twoBlockCache p'.region ∧
      Balanced (fun i => (n * [0, 1].count i, 0)) (p'.region.view twoBlockCache) ∧
      (∀ i, p'.locals.named i = n * [0, 1].count i) ∧
      ∀ handle, 1 ≤ handle → handle < 1 + n → lookup handle p'.locals.attachments = some { nodeIndices := [0, 1] } := by
  have hlocal : LocalOk p.locals (fun _ => 0) fun _ => 0 := hlocals ▸ .empty
  have hnext : p.locals.nextHandle + n < 2 ^ 64 := by
    rw [hlocals]
    show 1 + n < 2 ^ 64
    omega
  obtain ⟨p', hlookups, hok', _, hbalanced, _, hnamed, _, hattached⟩ :=
    lookups_repeat twoBlockCache_fits hok hb hlocal (List.cons_ne_nil 0 [1]) hhits n hnext
  simp only [Nat.zero_add] at hbalanced
  rw [hlocals] at hattached
  refine ⟨p', hlookups, hok', hbalanced, ?_, hattached⟩
  intro i
  rw [hnamed, hlocals]
  exact Nat.zero_add _

end Batchgen.PrefixCache
