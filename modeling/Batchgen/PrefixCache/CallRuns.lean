import Batchgen.PrefixCache.AttachmentRuns
import Batchgen.PrefixCache.Lookup

/-!
# Runs of whole calls

A run in which calls are atomic is a run of sections in which nothing is in flight between two calls:
`AtomicState.toState` reads the loads that are open off the attachment tables, and one call is one
section, or a local section followed at once by its header section (`AtomicStep.settled`).  Between calls
the four tables of the region and the attachment tables agree (`Consistent`).
-/

namespace Batchgen.PrefixCache

open MachineInt OrderedMap Outcome Function Finset

variable {cfg : HostPrefixCacheCoordinator} {sort : StdSort} {Pid : Type} [DecidableEq Pid] [Fintype Pid]
  {st st' : AtomicState Pid} {process process' : Process}

/-! ### Counts -/

/-- How many loads that attachments of a process have pending name a node. -/
def LocalState.pending (locals : LocalState) (i : ℕ) : ℕ :=
  total (fun _ attachment => attachment.pendingLoadCount * attachment.nodeIndices.count i)
    locals.attachments

/-- How often attachments name a node, and how many of their pending loads do. -/
def AtomicState.counts (st : AtomicState Pid) (i : ℕ) : ℕ × ℕ :=
  (∑ pid, (st.locals pid).named i, ∑ pid, (st.locals pid).pending i)

/-- **No counter is about to wrap**, and no process is about to run out of handles. -/
structure AtomicState.Fits (st : AtomicState Pid) : Prop where
  counts : CountsFit st.counts
  nextHandle : ∀ pid, (st.locals pid).nextHandle + 1 < 2 ^ 64
  pendingLoadCount : ∀ pid, ∀ p ∈ (st.locals pid).attachments, p.2.pendingLoadCount + 1 < 2 ^ 32

/-- The state between two calls as a state between two sections: every pending load is open. -/
def AtomicState.toState (st : AtomicState Pid) : State Pid where
  region := st.region
  locals := st.locals
  inFlight := 0
  openLoads := fun pid handle =>
    ((lookup handle (st.locals pid).attachments).map (·.pendingLoadCount)).getD 0

/-- A settled state with nothing in flight is one between two calls. -/
theorem Settled.eq_toState {s : State Pid} (h : Settled cfg s) (hidle : s.inFlight = 0) :
    s = AtomicState.toState ⟨s.region, s.locals⟩ := by
  obtain ⟨region, locals, inFlight, openLoads⟩ := s
  obtain rfl : inFlight = 0 := hidle
  have hopen : openLoads = fun pid handle =>
      ((lookup handle (locals pid).attachments).map (·.pendingLoadCount)).getD 0 := by
    funext pid handle
    have hlocal : LocalOk (locals pid) (openLoads pid) (fun _ => 0) := h.locals pid
    cases hlookup : lookup handle (locals pid).attachments with
    | none => exact (hlocal.closed handle hlookup).1
    | some attachment => exact (hlocal.loads handle attachment hlookup).symm
  rw [hopen]
  rfl

theorem Settled.counts_toState (h : Settled cfg st.toState) : st.toState.counts = st.counts := by
  funext i
  have hloading : ∀ pid, (st.locals pid).loading (st.toState.openLoads pid) i = (st.locals pid).pending i := by
    intro pid
    apply total_congr
    intro p hp
    have hlookup : lookup p.1 (st.locals pid).attachments = some p.2 := (h.locals pid).ordered.lookup_eq_some_iff.mpr hp
    show ((lookup p.1 (st.locals pid).attachments).map (·.pendingLoadCount)).getD 0 * _ = _
    rw [hlookup]
    rfl
  ext
  · exact Nat.add_zero _
  · show ∑ pid, (st.locals pid).loading (st.toState.openLoads pid) i + 0 = ∑ pid, (st.locals pid).pending i
    rw [Nat.add_zero]
    exact sum_congr rfl fun pid _ => hloading pid

theorem Settled.fits_toState (h : Settled cfg st.toState) (hfit : st.Fits) : st.toState.Fits :=
  ⟨by rw [h.counts_toState]; exact hfit.counts, hfit.nextHandle, hfit.pendingLoadCount⟩

/-! ### Steps -/

/-- A call ends a load only when one is pending. -/
theorem LocalStep.matched {locals : LocalState} {call : AttachmentCall}
    {out : LocalState × Option InFlight} (hstep : LocalStep locals call out) (handle : ℕ) :
    call.closes handle ≤ ((lookup handle locals.attachments).map (·.pendingLoadCount)).getD 0 := by
  have hend : ∀ {handle' : ℕ} {attachment : LocalAttachment},
      lookup handle' locals.attachments = some attachment → attachment.pendingLoadCount ≠ 0 →
      AttachmentCall.closes (.endLoad handle') handle ≤
        ((lookup handle locals.attachments).map (·.pendingLoadCount)).getD 0 := by
    intro handle' attachment hlookup hpending
    rw [AttachmentCall.closes]
    split
    · next heq =>
      rw [heq, hlookup]
      show 1 ≤ attachment.pendingLoadCount
      omega
    · exact Nat.zero_le _
  cases hstep with
  | endLast hlookup hpending => exact hend hlookup (by omega)
  | endLoad hlookup hpending => exact hend hlookup hpending
  | releaseZero | requestRelease | release | beginLoad => exact Nat.zero_le _

/-- **A whole call on an attachment** throws in its local section and changes nothing, or returns. -/
theorem Settled.attachmentCall (h : Settled cfg st.toState) (hfit : st.Fits) (pid : Pid) (call : AttachmentCall) :
    (∃ error, call.run (st.process pid) = .error (.thrown error) (st.process pid)) ∨
      ∃ process, call.run (st.process pid) = .ok () process ∧ Settled cfg (st.commit pid process).toState := by
  unfold AttachmentCall.run
  cases hlocal : localSection call (st.process pid).locals with
  | error error => exact Or.inl ⟨error, rfl⟩
  | ok out =>
    have hstep := localSection_ok hlocal
    obtain ⟨hsettled, hcounts⟩ := h.start (h.fits_toState hfit) hstep.matched hstep
    obtain ⟨locals, pending⟩ := out
    cases pending with
    | none => exact Or.inr ⟨_, rfl, hsettled.eq_toState rfl ▸ hsettled⟩
    | some pending =>
      have hfits : CountsFit (st.toState.start pid call (locals, some pending)).counts := by
        rw [hcounts]
        exact (h.fits_toState hfit).counts
      have hflight : (st.toState.start pid call (locals, some pending)).inFlight = (pid, pending) ::ₘ 0 := rfl
      obtain ⟨region, hheader, _, hdone⟩ := hsettled.finish hfits hflight
      have hon : onRegion (headerSection pending) { st.process pid with locals := locals } =
          .ok () ⟨region, locals⟩ := onRegion_ok hheader
      dsimp only
      rw [hon]
      exact Or.inr ⟨_, rfl, hdone.eq_toState rfl ▸ hdone⟩

omit [Fintype Pid] in
theorem AtomicState.commit_process (st : AtomicState Pid) (pid : Pid) : st.commit pid (st.process pid) = st := by
  show (⟨st.region, update st.locals pid (st.locals pid)⟩ : AtomicState Pid) = st
  rw [update_eq_self]

/-- **One call.** -/
theorem AtomicStep.settled (hstep : AtomicStep cfg sort (HeaderCall.PagesFit cfg) st st')
    (h : Settled cfg st.toState) (hfit : st.Fits) : Settled cfg st'.toState := by
  have hfits := h.fits_toState hfit
  cases hstep with
  | header pid call hpages result process hrun =>
    obtain ⟨nodes, hdone, _⟩ := Ends.of_ok (h.header hfits pid hpages) hrun
    have hsettled := h.commit hfits hdone
    exact hsettled.eq_toState rfl ▸ hsettled
  | headerFault pid call hpages process st' hrun => exact absurd (Ends.of_error (h.header hfits pid hpages) hrun).1 id
  | headerThrow pid call hpages error process hrun =>
    obtain ⟨_, nodes, hdone⟩ := Ends.of_error (h.header hfits pid hpages) hrun
    have hsettled := h.commit hfits hdone
    exact hsettled.eq_toState rfl ▸ hsettled
  | attachment pid call process hrun =>
    rcases h.attachmentCall hfit pid call with ⟨error, hthrow⟩ | ⟨process', hok, hsettled⟩
    · rw [hthrow] at hrun
      simp at hrun
    · rw [hok] at hrun
      obtain ⟨_, rfl⟩ := EStateM.Result.ok.inj hrun
      exact hsettled
  | attachmentThrow pid call error process hrun =>
    rcases h.attachmentCall hfit pid call with ⟨error', hthrow⟩ | ⟨process', hok, _⟩
    · rw [hthrow] at hrun
      obtain ⟨_, rfl⟩ := EStateM.Result.error.inj hrun
      rw [st.commit_process]
      exact h
    · rw [hok] at hrun
      simp at hrun

/-- **A run of whole calls** in which the pages of every commit fit and no counter comes close to wrapping. -/
def AtomicRun (cfg : HostPrefixCacheCoordinator) (sort : StdSort) :
    AtomicState Pid → AtomicState Pid → Prop :=
  Relation.ReflTransGen fun st st' => AtomicStep cfg sort (HeaderCall.PagesFit cfg) st st' ∧ st'.Fits

omit [DecidableEq Pid] in
theorem initialAtomicState_fits : (initialAtomicState Pid).Fits := by
  refine ⟨fun i => ?_, fun pid => by simp [initialAtomicState], fun pid p hp => ?_⟩
  · simp [AtomicState.counts, initialAtomicState, LocalState.named, LocalState.pending]
  · simp [initialAtomicState] at hp

theorem AtomicRun.settled (hrun : AtomicRun cfg sort (initialAtomicState Pid) st) :
    Settled cfg st.toState ∧ st.Fits := by
  induction hrun with
  | refl => exact ⟨initialState_settled cfg, initialAtomicState_fits⟩
  | tail _ hstep ih => exact ⟨hstep.1.settled ih.1 ih.2, hstep.2⟩

/-! ### Consistency -/

/-- How many page handles of resident nodes name a page in the entries of a group. -/
def Region.handlesNaming (cfg : HostPrefixCacheCoordinator) (r : Region) (groupId pageId : ℕ) : ℕ :=
  ((residentIndices cfg r).map fun i =>
    ((r.residentEntries (r.nodes i)).map fun entry =>
      if entry.groupId = groupId then (r.pages entry).count pageId else 0).sum).sum

/-- **The tables of the region and the attachment tables agree.** -/
structure AtomicState.Consistent (cfg : HostPrefixCacheCoordinator) (st : AtomicState Pid) :
    Prop where
  /-- A search returns exactly the resident node with the digest. -/
  findNode : ∀ digest index, findNodeLocked cfg st.region digest = some index ↔
    st.region.Resident cfg index ∧ (st.region.nodes index).digest = digest
  /-- A slot of the page reference table stores the number of handles that name its page. -/
  refCount : ∀ groupId pageId slot, findPageRefSlotLocked cfg st.region groupId pageId = some slot →
    (st.region.pageRefSlots slot).refCount = st.region.handlesNaming cfg groupId pageId
  /-- A page has a slot when some handle names it. -/
  refSlot : ∀ groupId pageId, (findPageRefSlotLocked cfg st.region groupId pageId).isSome = true ↔
    st.region.handlesNaming cfg groupId pageId ≠ 0
  /-- No other slot is in use. -/
  noOtherSlot : ∀ slot, slot < maxPageRefSlots cfg → (st.region.pageRefSlots slot).state = .resident →
    findPageRefSlotLocked cfg st.region (st.region.pageRefSlots slot).groupId
      (st.region.pageRefSlots slot).pageId = some slot
  /-- The ranges of distinct nodes are apart and end below the next free cells. -/
  arena : ArenaOk cfg st.region
  /-- The counters of an entry are the numbers of attachments and of pending loads. -/
  counters : ∀ i, st.region.Resident cfg i → ∀ entry ∈ st.region.entries (st.region.nodes i),
    entry.activeRefCount = (st.counts i).1 ∧ entry.pendingLoadCount = (st.counts i).2

theorem NodeSnapshot.count_pageRefs (node : NodeSnapshot) (groupId pageId : ℕ) :
    (node.pageRefs : Multiset (ℕ × ℕ)).count (groupId, pageId) = (node.groups.map fun group =>
      if group.groupId = groupId then group.pages.count pageId else 0).sum := by
  unfold NodeSnapshot.pageRefs
  induction node.groups with
  | nil => rfl
  | cons group rest ih =>
    rw [List.flatMap_cons, ← Multiset.coe_add, Multiset.count_add, ih, List.map_cons, List.sum_cons, ← Multiset.map_coe]
    congr 1
    by_cases hgroup : group.groupId = groupId
    · have hinjective : Function.Injective fun page : ℕ => (group.groupId, page) := fun a b h => (Prod.mk.inj h).2
      rw [if_pos hgroup, ← hgroup, Multiset.count_map_eq_count' _ _ hinjective, Multiset.coe_count]
    · rw [if_neg hgroup, Multiset.count_eq_zero]
      intro hmem
      obtain ⟨page, _, heq⟩ := Multiset.mem_map.mp hmem
      exact hgroup (Prod.mk.inj heq).1

/-- The handles that name a page are its references in the view. -/
theorem handlesNaming_eq (cfg : HostPrefixCacheCoordinator) (r : Region) (groupId pageId : ℕ) :
    r.handlesNaming cfg groupId pageId = ((r.view cfg).pageRefs cfg.maxNodes).count (groupId, pageId) := by
  have hnode : ∀ i, ((r.residentEntries (r.nodes i)).map fun entry =>
      if entry.groupId = groupId then (r.pages entry).count pageId else 0).sum =
      ((r.snapshotNode (r.nodes i)).pageRefs : Multiset (ℕ × ℕ)).count (groupId, pageId) := by
    intro i
    rw [NodeSnapshot.count_pageRefs, Region.snapshotNode, List.map_map]
    rfl
  unfold Region.handlesNaming View.pageRefs
  rw [Multiset.count_sum', List.map_congr_left fun i _ => hnode i]
  rw [sum_residentIndices cfg r fun node =>
    (node.pageRefs : Multiset (ℕ × ℕ)).count (groupId, pageId)]
  apply sum_congr rfl
  intro i _
  cases r.view cfg i with
  | none => exact (Multiset.count_zero (groupId, pageId)).symm
  | some node => rfl

theorem Settled.consistent (hfit : TablesFit cfg) (h : Settled cfg st.toState) (hfits : st.Fits) :
    st.Consistent cfg := by
  have hok : RegionOk cfg st.region := h.ok
  have hrefs := hok.refs hfit
  have hfind : ∀ groupId pageId slot, findPageRefSlotLocked cfg st.region groupId pageId = some slot ↔
      slot < maxPageRefSlots cfg ∧ (st.region.pageRefSlots slot).kind = .live (groupId, pageId) :=
    fun groupId pageId slot => hrefs.valid.find_eq_some_iff
  refine ⟨?_, ?_, ?_, ?_, hok.arena, ?_⟩
  · intro digest index
    rw [(hok.index hfit).findNode_iff]
    constructor
    · intro ⟨node, hnode, hdigest⟩
      obtain ⟨hres, rfl⟩ := view_eq_some_iff.mp hnode
      exact ⟨hres, hdigest⟩
    · intro ⟨hres, hdigest⟩
      exact ⟨_, view_of_resident hres, hdigest⟩
  · intro groupId pageId slot hslot
    obtain ⟨hlt, hkind⟩ := (hfind groupId pageId slot).mp hslot
    rw [handlesNaming_eq]
    exact (hrefs.sound slot _ hlt hkind).2
  · intro groupId pageId
    rw [handlesNaming_eq, Multiset.count_ne_zero, Option.isSome_iff_exists]
    constructor
    · intro ⟨slot, hslot⟩
      obtain ⟨hlt, hkind⟩ := (hfind groupId pageId slot).mp hslot
      exact (hrefs.sound slot _ hlt hkind).1
    · intro hmem
      obtain ⟨slot, hlt, hkind⟩ := hrefs.complete _ hmem
      exact ⟨slot, (hfind groupId pageId slot).mpr ⟨hlt, hkind⟩⟩
  · intro slot hlt hstate
    apply (hfind _ _ slot).mpr ⟨hlt, _⟩
    rw [SharedPageRefSlot.kind, hstate]
  · intro i hres entry hentry
    rw [← hok.arena.layout.residentEntries_eq hres] at hentry
    have hgroup : st.region.snapshotGroup entry ∈
        (st.region.snapshotNode (st.region.nodes i)).groups := List.mem_map_of_mem hentry
    have hcounters := (h.balanced.of_some (view_of_resident hres)).2 _ hgroup
    rw [h.counts_toState, u32_of_lt (hfits.counts i).1, u32_of_lt (hfits.counts i).2] at hcounters
    exact hcounters

/-- **Consistency.**  In every run of whole calls of any number of processes, returning or throwing, whose commits
bring pages that fit, the tables agree after each call. -/
theorem atomicRun_consistent (hfit : TablesFit cfg)
    (hrun : AtomicRun cfg sort (initialAtomicState Pid) st) : st.Consistent cfg :=
  hrun.settled.1.consistent hfit hrun.settled.2

/-! ### One process -/

/-- The state of one process alone. -/
def AtomicState.solo (process : Process) : AtomicState Unit := ⟨process.region, fun _ => process.locals⟩

theorem AtomicStep.solo (call : HeaderCall) (hpages : call.PagesFit cfg) {result : CallResult}
    (hrun : call.run cfg sort process = .ok result process') :
    AtomicStep cfg sort (HeaderCall.PagesFit cfg) (AtomicState.solo process) (AtomicState.solo process') := by
  have hcommit : (AtomicState.solo process).commit () process' = AtomicState.solo process' := by
    show (⟨process'.region, update _ () process'.locals⟩ : AtomicState Unit) = _
    congr 1
  rw [← hcommit]
  exact .header () call hpages result process' hrun

/-- A process with one attachment or none, and no pending load, fits. -/
theorem AtomicState.solo_fits (hnamed : ∀ i, process.locals.named i ≤ 1) (hnext : process.locals.nextHandle ≤ 2)
    (hpending : ∀ p ∈ process.locals.attachments, p.2.pendingLoadCount = 0) : (AtomicState.solo process).Fits := by
  refine ⟨fun i => ?_, fun _ => ?_, fun _ p hp => ?_⟩
  · have hi := hnamed i
    have hzero : process.locals.pending i = 0 := by
      refine List.sum_eq_zero fun n hn => ?_
      obtain ⟨p, hp, rfl⟩ := List.mem_map.mp hn
      exact (congrArg (· * _) (hpending p hp)).trans (Nat.zero_mul _)
    simp only [AtomicState.counts, AtomicState.solo, univ_unique, sum_singleton, hzero]
    omega
  · show process.locals.nextHandle + 1 < 2 ^ 64
    omega
  · rw [hpending p hp]
    norm_num

/-- The small cache: its two blocks are committed, and a lookup attaches them. -/
theorem twoBlockLookup_consistent :
    ∃ st : AtomicState Unit, TablesFit twoBlockCache ∧
      AtomicRun twoBlockCache StdSort.merge (initialAtomicState Unit) st ∧
      (∀ i < 2, st.region.Resident twoBlockCache i ∧ (st.counts i).1 = 1) ∧ st.Consistent twoBlockCache := by
  obtain ⟨result, p, hrun, hok, hlocals, hb, hhits⟩ := twoBlockCommit_ok
  obtain ⟨found, p₁, hlookup, hdone, _⟩ := lookupAndAttach_ok hok hb {} [5, 6]
  rw [hhits] at hdone
  have hattached : p₁.locals = ⟨[(1, { nodeIndices := [0, 1] })], 2⟩ := by
    rw [hdone.locals, hlocals]
    decide
  have hnamed : ∀ i, p₁.locals.named i = [0, 1].count i := by
    intro i
    rw [hattached]
    exact Nat.add_zero _
  have hfits : (AtomicState.solo p).Fits := by
    refine AtomicState.solo_fits (fun i => ?_) ?_ ?_ <;> rw [hlocals]
    · exact Nat.zero_le _
    · exact Nat.le_succ 1
    · simp
  have hfits₁ : (AtomicState.solo p₁).Fits := by
    refine AtomicState.solo_fits (fun i => ?_) ?_ ?_
    · rw [hnamed]
      exact List.nodup_iff_count_le_one.mp (by decide) i
    · rw [hattached]
    · rw [hattached]
      simp
  have hreach : AtomicRun twoBlockCache StdSort.merge (initialAtomicState Unit) (AtomicState.solo p₁) :=
    (Relation.ReflTransGen.single ⟨AtomicStep.solo twoBlockCommit twoBlockCommit_pagesFit hrun, hfits⟩).tail
      ⟨AtomicStep.solo (.lookupAndAttach {} [5, 6]) trivial (map_ok hlookup), hfits₁⟩
  have hone : ∀ i < 2, [0, 1].count i = 1 := by decide
  refine ⟨_, twoBlockCache_fits, hreach, fun i hi => ⟨hdone.balanced.resident (by simp [hone i hi]), ?_⟩,
    atomicRun_consistent twoBlockCache_fits hreach⟩
  show ∑ _ : Unit, p₁.locals.named i = 1
  rw [univ_unique, sum_singleton, hnamed, hone i hi]

theorem Lookups.atomicSteps {namespaceDigest : PrefixDigest} {tokenIds : List Int64}
    (h : Lookups cfg namespaceDigest tokenIds process process') :
    Relation.ReflTransGen (AtomicStep cfg sort (HeaderCall.PagesFit cfg)) (AtomicState.solo process)
      (AtomicState.solo process') := by
  induction h with
  | refl => exact .refl
  | tail _ hstep ih =>
    obtain ⟨result, hrun⟩ := hstep
    exact ih.tail (.solo (.lookupAndAttach namespaceDigest tokenIds) trivial (map_ok hrun))

/-- **The counter of a node that is attached `2 ^ 32` times is zero.** -/
theorem activeRefCount_wraps :
    ∃ st : AtomicState Unit,
      Relation.ReflTransGen (AtomicStep twoBlockCache StdSort.merge (HeaderCall.PagesFit twoBlockCache))
        (initialAtomicState Unit) st ∧
      st.region.Resident twoBlockCache 0 ∧ (st.counts 0).1 = 2 ^ 32 ∧
      (∃ entry ∈ st.region.entries (st.region.nodes 0), entry.activeRefCount = 0) ∧ ¬ st.Consistent twoBlockCache := by
  obtain ⟨result, p, hrun, hok, hlocals, hb, hhits⟩ := twoBlockCommit_ok
  obtain ⟨p', hlookups, hok', hbalanced, hnamed, _⟩ :=
    twoBlockCache_lookups hok hlocals hb hhits (2 ^ 32) (by omega)
  have hcount : (2 ^ 32 * [0, 1].count 0 : ℕ) = 2 ^ 32 := by norm_num
  have hres : p'.region.Resident twoBlockCache 0 := by
    apply hbalanced.resident
    rw [hcount]
    simp
  have hnamed₀ : ((AtomicState.solo p').counts 0).1 = 2 ^ 32 := by
    show ∑ _ : Unit, p'.locals.named 0 = _
    rw [univ_unique, sum_singleton, hnamed, hcount]
  obtain ⟨hne, hgroups⟩ := hbalanced.of_some (view_of_resident hres)
  obtain ⟨group, hgroup⟩ := List.exists_mem_of_ne_nil _ hne
  have hzero := (hgroups group hgroup).1
  rw [hcount, u32, Nat.mod_self] at hzero
  obtain ⟨entry, hentry, rfl⟩ := List.mem_map.mp hgroup
  rw [hok'.arena.layout.residentEntries_eq hres] at hentry
  refine ⟨AtomicState.solo p', ?_, hres, hnamed₀, ⟨entry, hentry, hzero⟩, fun hconsistent => ?_⟩
  · exact Relation.ReflTransGen.head (AtomicStep.solo twoBlockCommit twoBlockCommit_pagesFit hrun) hlookups.atomicSteps
  · have hcounters := (hconsistent.counters 0 hres entry hentry).1
    rw [hnamed₀] at hcounters
    rw [show entry.activeRefCount = 0 from hzero] at hcounters
    norm_num at hcounters

end Batchgen.PrefixCache
