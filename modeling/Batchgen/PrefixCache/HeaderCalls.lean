import Batchgen.PrefixCache.Commit
import Batchgen.PrefixCache.Interleaving

/-!
# The calls that take the header mutex once

A commit, a lookup or an eviction call does two things to the region, in this order: unprotected nodes
leave or new nodes come, and at most one list of nodes is attached (`HeaderDone`).  Between calls the
counters store `counts`, the numbers of attachments and of loads that name each node; a node with a
count that is not zero is protected, and keeps its core (`Kept`) through every call.
-/

namespace Batchgen.PrefixCache

open MachineInt Outcome List

variable {cfg : HostPrefixCacheCoordinator} {sort : StdSort} {r r' : Region} {v v' v'' : View} {counts : ℕ → ℕ × ℕ}
  {α : Type} {section' : CacheM α} {specs : List HostKVGroupSpec} {error : PrefixCacheError}
  {byGroup : ℕ → Option (List ℕ)} {commitTokens : ℕ} (namespaceDigest : PrefixDigest)

/-! ### Counted nodes -/

/-- The 32-bit counters can store the counts. -/
def CountsFit (counts : ℕ → ℕ × ℕ) : Prop := ∀ i, (counts i).1 < 2 ^ 32 ∧ (counts i).2 < 2 ^ 32

/-- **Counted nodes keep their cores.** -/
def Kept (counts : ℕ → ℕ × ℕ) (v v' : View) : Prop :=
  ∀ i, counts i ≠ (0, 0) → (v' i).map NodeSnapshot.core = (v i).map NodeSnapshot.core

theorem Kept.trans (h : Kept counts v v') (h' : Kept counts v' v'') : Kept counts v v'' :=
  fun i hi => (h' i hi).trans (h i hi)

theorem SameCores.kept (h : SameCores v v') : Kept counts v v' := fun i _ => h i

/-- A node that leaves is not counted. -/
theorem Balanced.count_of_evicted (h : Balanced counts v) (hfit : CountsFit counts) {i : ℕ}
    {node : NodeSnapshot} (hnode : v i = some node) (hfree : node.isProtected = false) : counts i = (0, 0) := by
  have hzero := (h.isProtected_iff hnode).not.mp (by rw [hfree]; simp)
  rw [u32_of_lt (hfit i).1, u32_of_lt (hfit i).2] at hzero
  ext
  · show (counts i).1 = 0
    omega
  · show (counts i).2 = 0
    omega

theorem Balanced.evicts (h : Balanced counts v) (hfit : CountsFit counts) (hevicts : Evicts v v') :
    Balanced counts v' := by
  intro i
  rcases hevicts i with heq | ⟨hnone, node, hnode, hfree⟩
  · rw [heq]
    exact h i
  · rw [hnone]
    exact h.count_of_evicted hfit hnode hfree

theorem Evicts.kept (hevicts : Evicts v v') (h : Balanced counts v) (hfit : CountsFit counts) : Kept counts v v' := by
  intro i hi
  rcases hevicts i with heq | ⟨_, node, hnode, hfree⟩
  · rw [heq]
  · exact absurd (h.count_of_evicted hfit hnode hfree) hi

theorem Balanced.inserts (h : Balanced counts v) (hinserts : Inserts v v') : Balanced counts v' := by
  intro i
  rcases hinserts i with heq | ⟨hnone, node, hnode, hne, hzero⟩
  · rw [heq]
    exact h i
  · rw [hnode, h.of_none hnone]
    exact ⟨hne, fun group hgroup => hzero group hgroup⟩

theorem Inserts.kept (hinserts : Inserts v v') (h : Balanced counts v) : Kept counts v v' := by
  intro i hi
  rcases hinserts i with heq | ⟨hnone, _⟩
  · rw [heq]
  · exact absurd (h.of_none hnone) hi

/-! ### What a search returns -/

theorem findNodeLocked_resident {digest : PrefixDigest} {index : ℕ}
    (h : findNodeLocked cfg r digest = some index) : r.Resident cfg index := by
  unfold findNodeLocked at h
  split at h
  · simp at h
  dsimp only at h
  split at h
  · simp at h
  · next hlt =>
    split at h
    · simp at h
    · next hstate =>
      obtain rfl := Option.some.inj h
      exact ⟨not_le.mp hlt, not_not.mp fun hne => hstate (Or.inl hne)⟩

theorem hitNodeIndices_resident (blocks : List (ℕ × PrefixDigest)) :
    ∀ i ∈ hitNodeIndices cfg r blocks, r.Resident cfg i := by
  induction blocks with
  | nil => intro i hi; simp [hitNodeIndices] at hi
  | cons block rest ih =>
    intro i hi
    rw [hitNodeIndices] at hi
    cases hfind : findNodeLocked cfg r block.2 with
    | none =>
      rw [hfind] at hi
      simp at hi
    | some index =>
      rw [hfind] at hi
      dsimp only at hi
      split at hi
      · rcases mem_cons.mp hi with rfl | hi
        · exact findNodeLocked_resident hfind
        · exact ih i hi
      · simp at hi

section

variable (nodes : List ℕ) (hres : ∀ i ∈ nodes, r.Resident cfg i)
include nodes hres

theorem spansByGroup_ok (spans : List (ℕ × GroupMaterializationSpan)) :
    ∃ spans', spansByGroup cfg r nodes spans = .ok spans' := by
  induction nodes generalizing spans with
  | nil => exact ⟨spans, rfl⟩
  | cons index rest ih =>
    have hindex := hres index mem_cons_self
    rw [spansByGroup, if_neg (not_le.mpr hindex.1), if_neg (not_not.mpr hindex.2)]
    exact ih (fun i hi => hres i (mem_cons_of_mem index hi)) _

theorem buildMaterializationSpansLocked_ok : ∃ spans, buildMaterializationSpansLocked cfg r nodes = .ok spans := by
  obtain ⟨spans, hspans⟩ := spansByGroup_ok nodes hres []
  exact ⟨orderSpans cfg.groupSpecs spans, by rw [buildMaterializationSpansLocked, hspans]⟩

end

/-! ### Calls -/

/-- **What a call has done to its process**: `nodes` is what it attached, if anything. -/
structure HeaderDone (cfg : HostPrefixCacheCoordinator) (counts : ℕ → ℕ × ℕ) (process : Process)
    (nodes : List ℕ) (process' : Process) : Prop where
  ok : RegionOk cfg process'.region
  balanced : Balanced (fun i => ((counts i).1 + nodes.count i, (counts i).2))
    (process'.region.view cfg)
  kept : Kept counts (process.region.view cfg) (process'.region.view cfg)
  locals : process'.locals =
    if nodes = [] then process.locals else (process.locals.register nodes).2

/-- The attachment handle of a result; zero stands for none. -/
def CallResult.handle : CallResult → ℕ
  | .committed result => result.activeAttachmentHandle
  | .lookedUp result => result.attachmentHandle
  | .evicted _ => 0

/-- How a call ends: in both cases the process is in order, and it ends in no fault but an exception that does not
say that a node is gone.  A call that returns returns the handle of what it attached. -/
def HeaderEnds (cfg : HostPrefixCacheCoordinator) (counts : ℕ → ℕ × ℕ) (call : CallM CallResult)
    (process : Process) : Prop :=
  Ends call process
    (fun result process' => ∃ nodes, HeaderDone cfg counts process nodes process' ∧
      result.handle = if nodes = [] then 0 else process.locals.nextHandle)
    (fun fault process' => fault.Ordinary ∧ ∃ nodes, HeaderDone cfg counts process nodes process')

@[simp] theorem ends_onRegion {process : Process} {ret : α → Process → Prop} {exc : Fault → Process → Prop} :
    Ends (onRegion section') process ret exc ↔
      Ends section' process.region (fun a region => ret a { process with region := region })
        (fun e region => exc e { process with region := region }) := by
  unfold Ends onRegion
  cases section' process.region <;> exact Iff.rfl

variable {process process' : Process}

theorem onRegion_ok {a : α} (h : section' process.region = .ok a r') :
    onRegion section' process = .ok a { process with region := r' } := by
  rw [onRegion, h]

/-- A call that has changed the region in one of the two ways and attached nothing. -/
theorem HeaderDone.of_region (hok : RegionOk cfg r') (hb : Balanced counts (r'.view cfg))
    (hkept : Kept counts (process.region.view cfg) (r'.view cfg)) :
    HeaderDone cfg counts process [] { process with region := r' } :=
  ⟨hok, hb, hkept, rfl⟩

section

variable (hb : Balanced counts (process.region.view cfg))
include hb

theorem HeaderDone.of_evicts (hfit : CountsFit counts) (hok : RegionOk cfg r')
    (hevicts : Evicts (process.region.view cfg) (r'.view cfg)) :
    HeaderDone cfg counts process [] { process with region := r' } :=
  .of_region hok (hb.evicts hfit hevicts) (hevicts.kept hb hfit)

theorem HeaderDone.of_inserts (hok : RegionOk cfg r') (hinserts : Inserts (process.region.view cfg) (r'.view cfg)) :
    HeaderDone cfg counts process [] { process with region := r' } :=
  .of_region hok (hb.inserts hinserts) (hinserts.kept hb)

/-- **An eviction call.** -/
theorem EvictionEnds.headerEnds {call : CacheM PrefixEvictionResult} (hfit : CountsFit counts)
    (h : EvictionEnds cfg call process.region) :
    HeaderEnds cfg counts (CallResult.evicted <$> onRegion call) process := by
  rw [HeaderEnds, ends_map, ends_onRegion]
  refine Ends.mono h ?_ ?_
  · intro _ r' hr'
    exact ⟨[], .of_evicts hb hfit hr'.1 hr'.2, rfl⟩
  · intro fault r' hfault
    exact ⟨hfault.1.1.ordinary, [], .of_evicts hb hfit hfault.2.1 hfault.2.2⟩

end

/-- **The attachment of resident nodes** after a step that attached nothing. -/
theorem attachNodes_ok {nodes : List ℕ} (hne : nodes ≠ []) (hdone : HeaderDone cfg counts process [] process')
    (hres : ∀ i ∈ nodes, process'.region.Resident cfg i) :
    ∃ region, attachNodes cfg nodes process' = .ok process.locals.nextHandle
        ⟨region, (process.locals.register nodes).2⟩ ∧
      HeaderDone cfg counts process nodes ⟨region, (process.locals.register nodes).2⟩ ∧
      SameCores (process'.region.view cfg) (region.view cfg) := by
  have hb : Balanced counts (process'.region.view cfg) := hdone.balanced
  have hlocals : process'.locals = process.locals := hdone.locals
  obtain ⟨region, hrun, hrecounted⟩ := attachNodesLocked_ok nodes hdone.ok hb hres hne
  have hon : onRegion (attachNodesLocked cfg nodes) process' =
      .ok () { process' with region := region } := onRegion_ok hrun
  refine ⟨region, ?_, ⟨hrecounted.ok, hrecounted.balanced, ?_, ?_⟩, hrecounted.cores⟩
  · rw [attachNodes, bind_ok hon, get_bind, set_bind]
    show EStateM.Result.ok (process'.locals.register nodes).1
      (⟨region, (process'.locals.register nodes).2⟩ : Process) = _
    rw [hlocals]
    rfl
  · exact hdone.kept.trans hrecounted.cores.kept
  · rw [if_neg hne]

/-- The nodes a lookup finds. -/
def lookupHits (cfg : HostPrefixCacheCoordinator) (r : Region) (namespaceDigest : PrefixDigest)
    (tokenIds : List Int64) : List ℕ :=
  hitNodeIndices cfg r
    (lookupBlocks cfg (buildPrefixHashChain namespaceDigest tokenIds cfg.hashBlockTokens))

/-- **A lookup returns.**  It attaches what it finds. -/
theorem lookupAndAttach_ok (h : RegionOk cfg process.region)
    (hb : Balanced counts (process.region.view cfg)) (namespaceDigest : PrefixDigest) (tokenIds : List Int64) :
    ∃ result process', lookupAndAttach cfg namespaceDigest tokenIds process = .ok result process' ∧
      HeaderDone cfg counts process (lookupHits cfg process.region namespaceDigest tokenIds) process' ∧
      SameCores (process.region.view cfg) (process'.region.view cfg) ∧ result.attachmentHandle =
        (if lookupHits cfg process.region namespaceDigest tokenIds = [] then 0 else process.locals.nextHandle) := by
  have hres : ∀ i ∈ lookupHits cfg process.region namespaceDigest tokenIds,
      process.region.Resident cfg i := hitNodeIndices_resident _
  have hstart : HeaderDone cfg counts process [] process := .of_region h hb (SameCores.refl _).kept
  have hrun : lookupAndAttach cfg namespaceDigest tokenIds process =
      (if lookupHits cfg process.region namespaceDigest tokenIds = [] then _
        else attachNodes cfg (lookupHits cfg process.region namespaceDigest tokenIds) >>= _ :
        CallM PrefixLookupResult) process := rfl
  have hhits : hitNodeIndices cfg process.region
      (lookupBlocks cfg (buildPrefixHashChain namespaceDigest tokenIds cfg.hashBlockTokens)) =
      lookupHits cfg process.region namespaceDigest tokenIds := rfl
  rw [hhits] at hrun
  rw [hrun]
  generalize lookupHits cfg process.region namespaceDigest tokenIds = hits at hres ⊢
  by_cases hnil : hits = []
  · subst hnil
    refine ⟨_, _, rfl, ?_, SameCores.refl _, rfl⟩
    exact .of_region (h.header process.region.globalEpoch process.region.lookupHits
      (u64 (process.region.lookupMisses + 1)) process.region.evictedNodes
      process.region.evictionProtectedSkips) hb (SameCores.refl _).kept
  · rw [if_neg hnil, if_neg hnil]
    obtain ⟨region, hattach, hdone, hcores⟩ := attachNodes_ok hnil hstart hres
    have hres' : ∀ i ∈ hits, region.Resident cfg i := by
      intro i hi
      obtain ⟨node, hnode, _⟩ := hcores.isSome (view_of_resident (hres i hi))
      exact (view_eq_some_iff.mp hnode).1
    obtain ⟨spans, hspans⟩ := buildMaterializationSpansLocked_ok hits hres'
    rw [bind_ok hattach, get_bind]
    dsimp only
    rw [hspans]
    exact ⟨_, _, rfl, ⟨hdone.ok.header region.globalEpoch (u64 (region.lookupHits + 1))
      region.lookupMisses region.evictedNodes region.evictionProtectedSkips, hdone.balanced,
      hdone.kept, hdone.locals⟩, hcores, rfl⟩

theorem hashChainFrom_length (tokenIds : List Int64) (blockTokens blocks start : ℕ) (parent : PrefixDigest) :
    (hashChainFrom namespaceDigest tokenIds blockTokens blocks start parent).length = blocks := by
  induction blocks generalizing start parent with
  | zero => rfl
  | succ blocks ih => simp [hashChainFrom, ih]

theorem commitBlocks_length (tokenIds : List Int64) (commitTokens : ℕ) :
    (commitBlocks cfg (buildPrefixHashChain namespaceDigest tokenIds cfg.hashBlockTokens)
      commitTokens).length < 2 ^ 32 := by
  apply lt_of_le_of_lt (length_filter_le _ _)
  rw [buildPrefixHashChain, hashChainFrom_length]
  exact lt_of_le_of_lt (Nat.div_le_self _ _) (u32_lt _)

/-- A commit that passes the first check brings pages of every required group. -/
theorem checkRequiredPages_ok (h : checkRequiredPages byGroup commitTokens specs = .ok ()) {spec : HostKVGroupSpec}
    (hspec : spec ∈ specs) : ∃ pages, byGroup spec.groupId = some pages := by
  induction specs with
  | nil => simp at hspec
  | cons head rest ih =>
    rw [checkRequiredPages] at h
    split at h
    · simp at h
    · next pages hpages =>
      split at h
      · simp at h
      · rcases mem_cons.mp hspec with rfl | hspec
        · exact ⟨pages, hpages⟩
        · exact ih h hspec

theorem requiredSupplied_of_check
    (h : checkRequiredPages byGroup commitTokens (requiredSpecs cfg.groupSpecs) = .ok ()) :
    RequiredSupplied cfg byGroup := by
  obtain ⟨spec, hspec⟩ := exists_mem_of_ne_nil _ cfg.valid.required_ne_nil
  obtain ⟨pages, hpages⟩ := checkRequiredPages_ok h hspec
  obtain ⟨hmem, hrequired⟩ := mem_filter.mp hspec
  exact ⟨spec, hmem, hrequired, by rw [hpages]; rfl⟩

theorem checkRequiredPages_error
    (h : checkRequiredPages byGroup commitTokens specs = .error error) : error.isLost = false := by
  induction specs with
  | nil => simp [checkRequiredPages] at h
  | cons spec rest ih =>
    rw [checkRequiredPages] at h
    split at h
    · obtain rfl := Except.error.inj h
      rfl
    · split at h
      · obtain rfl := Except.error.inj h
        rfl
      · exact ih h

/-- **A commit.** -/
theorem commitPrefixPages_ends (h : RegionOk cfg process.region)
    (hb : Balanced counts (process.region.view cfg)) (namespaceDigest : PrefixDigest)
    (tokenIds : List Int64) (commitTokens : ℕ) (groupPages : List GroupCommitPages) (protectActive : Bool)
    (hpages : PagesFit cfg (pagesByGroup groupPages)) : HeaderEnds cfg counts (CallResult.committed <$>
      commitPrefixPages cfg namespaceDigest tokenIds commitTokens groupPages protectActive) process := by
  have hstart : HeaderDone cfg counts process [] process := .of_region h hb (SameCores.refl _).kept
  rw [HeaderEnds, ends_map]
  unfold commitPrefixPages
  dsimp only
  split
  · exact ⟨[], hstart, rfl⟩
  split
  · next error herror => exact ⟨checkRequiredPages_error herror, [], hstart⟩
  · next hcheck =>
    rw [ends_bind, ends_onRegion]
    have hsupplied := requiredSupplied_of_check hcheck
    refine (commitBlocksLocked_ends namespaceDigest hsupplied hpages
      (commitLength cfg tokenIds commitTokens) (commitBlocks_length namespaceDigest tokenIds
        (commitLength cfg tokenIds commitTokens)) h).mono ?_ ?_
    · intro out r' hr'
      obtain ⟨hok, hinserts, hhandle, hthere⟩ := hr'
      have hdone : HeaderDone cfg counts process [] { process with region := r' } := .of_inserts hb hok hinserts
      split
      · next hprotect =>
        have hres : ∀ i ∈ out.2, r'.Resident cfg i := by
          intro i hi
          obtain ⟨node, hnode⟩ := hthere i hi
          exact (view_eq_some_iff.mp hnode).1
        obtain ⟨region, hrun, hattached, _⟩ := attachNodes_ok hprotect.2 hdone hres
        unfold Ends
        rw [bind_ok hrun]
        exact ⟨out.2, hattached, (if_neg hprotect.2).symm⟩
      · exact ⟨[], hdone, hhandle⟩
    · intro fault r' hfault
      exact ⟨hfault.1, [], .of_inserts hb hfault.2.1 hfault.2.2⟩

/-- What a commit brings fits the 32-bit counters; the other calls bring no pages. -/
def HeaderCall.PagesFit (cfg : HostPrefixCacheCoordinator) : HeaderCall → Prop
  | .commitPrefixPages _ _ _ groupPages _ => PrefixCache.PagesFit cfg (pagesByGroup groupPages)
  | _ => True

/-- **Every call that takes the header mutex once.** -/
theorem HeaderCall.run_ends (call : HeaderCall) (hpages : call.PagesFit cfg) (h : RegionOk cfg process.region)
    (hb : Balanced counts (process.region.view cfg)) (hfit : CountsFit counts) :
    HeaderEnds cfg counts (call.run cfg sort) process := by
  cases call with
  | commitPrefixPages namespaceDigest tokenIds commitTokens groupPages protectActive =>
    exact commitPrefixPages_ends h hb _ _ _ _ _ hpages
  | lookupAndAttach namespaceDigest tokenIds =>
    obtain ⟨result, process', hrun, hdone, _, hhandle⟩ := lookupAndAttach_ok h hb namespaceDigest tokenIds
    rw [HeaderEnds, HeaderCall.run, ends_map, Ends, hrun]
    exact ⟨_, hdone, hhandle⟩
  | evictUntilFree minFreeNodes minFreeGroupEntries minFreePageHandles maxScanNodes =>
    apply EvictionEnds.headerEnds hb hfit
    exact (evictUntilFree_ends h _ _ _ _).mono (fun _ _ hr' => hr'.1) fun _ _ he => he
  | evictUntilReleasablePages requirements maxScanNodes =>
    exact (evictUntilReleasablePages_ends h _ _).headerEnds hb hfit
  | clearUnprotected => exact (clearUnprotected_scanEnds h).evictionEnds.headerEnds hb hfit
  | clearNamespace namespaceDigest =>
    exact (clearNamespace_scanEnds h namespaceDigest).evictionEnds.headerEnds hb hfit

end Batchgen.PrefixCache
