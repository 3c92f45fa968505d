import Batchgen.PrefixCache.Attachments

/-!
# Runs of the host prefix cache

`Settled` is the invariant of the system between two sections: the region is in order, its counters
store what the attachment tables and the calls in flight add up to (`State.counts`), and every table is
in order.  One section of one call keeps it (`Step.settled`), as long as no counter is about to wrap
(`State.Fits`), and so it holds along every run (`Run.settled`).
-/

namespace Batchgen.PrefixCache

open OrderedMap Outcome Function Option Finset

variable {cfg : HostPrefixCacheCoordinator} {sort : StdSort} {Pid : Type} [DecidableEq Pid] [Fintype Pid]
  {st st' : State Pid} {pid : Pid} {pending : InFlight}

/-! ### Counts of a state -/

/-- How many attachments and how many loads name a node, over all processes and calls in flight. -/
def State.counts (st : State Pid) (i : ℕ) : ℕ × ℕ :=
  (∑ pid, (st.locals pid).named i + (st.inFlight.map fun call => call.2.holds i).sum,
    ∑ pid, (st.locals pid).loading (st.openLoads pid) i +
      (st.inFlight.map fun call => call.2.loads i).sum)

/-- The loads of a handle that are about to open. -/
def State.begun (st : State Pid) (pid : Pid) (handle : ℕ) : ℕ :=
  (st.inFlight.map fun call => if call.1 = pid then call.2.opens handle else 0).sum

/-- Two sums over all processes that differ at one of them. -/
theorem sum_point {f g : Pid → ℕ} (pid : Pid) (h : ∀ other, other ≠ pid → g other = f other) :
    ∑ p, g p + f pid = ∑ p, f p + g pid := by
  have hg := add_sum_erase Finset.univ g (mem_univ pid)
  have hf := add_sum_erase Finset.univ f (mem_univ pid)
  have hrest : ∑ p ∈ Finset.univ.erase pid, g p = ∑ p ∈ Finset.univ.erase pid, f p :=
    sum_congr rfl fun p hp => h p (ne_of_mem_erase hp)
  omega

/-- Two states that differ in one process and in the calls in flight. -/
theorem State.counts_point (hlocals : ∀ other, other ≠ pid → st'.locals other = st.locals other)
    (hloads : ∀ other, other ≠ pid → st'.openLoads other = st.openLoads other) (i : ℕ) :
    (st'.counts i).1 + ((st.locals pid).named i + (st.inFlight.map fun call => call.2.holds i).sum) =
        (st.counts i).1 + ((st'.locals pid).named i + (st'.inFlight.map fun call => call.2.holds i).sum) ∧
      (st'.counts i).2 + ((st.locals pid).loading (st.openLoads pid) i +
          (st.inFlight.map fun call => call.2.loads i).sum) =
        (st.counts i).2 + ((st'.locals pid).loading (st'.openLoads pid) i +
          (st'.inFlight.map fun call => call.2.loads i).sum) := by
  have hnamed := sum_point (f := fun p => (st.locals p).named i) (g := fun p => (st'.locals p).named i) pid
    fun other hne => by rw [hlocals other hne]
  have hloading := sum_point (f := fun p => (st.locals p).loading (st.openLoads p) i)
    (g := fun p => (st'.locals p).loading (st'.openLoads p) i) pid
    fun other hne => by rw [hlocals other hne, hloads other hne]
  unfold State.counts
  dsimp only
  omega

omit [DecidableEq Pid] in
/-- What a call in flight holds is counted. -/
theorem State.inFlight_le (hmem : (pid, pending) ∈ st.inFlight) (i : ℕ) :
    pending.holds i ≤ (st.counts i).1 ∧ pending.loads i ≤ (st.counts i).2 := by
  obtain ⟨rest, hrest⟩ := Multiset.exists_cons_of_mem hmem
  simp only [State.counts, hrest, Multiset.map_cons, Multiset.sum_cons]
  omega

omit [Fintype Pid] in
theorem State.mem_start {call : AttachmentCall} {out : LocalState × Option InFlight} {entry : Pid × InFlight} :
    entry ∈ (st.start pid call out).inFlight ↔
      entry ∈ st.inFlight ∨ ∃ pending, out.2 = some pending ∧ entry = (pid, pending) := by
  unfold State.start
  cases out.2 with
  | none => simp
  | some pending => simp [or_comm]

/-- **No counter is about to wrap**, and no process is about to run out of handles. -/
structure State.Fits (st : State Pid) : Prop where
  counts : CountsFit st.counts
  nextHandle : ∀ pid, (st.locals pid).nextHandle + 1 < 2 ^ 64
  pendingLoadCount : ∀ pid, ∀ p ∈ (st.locals pid).attachments, p.2.pendingLoadCount + 1 < 2 ^ 32

/-- **The system between two sections.** -/
structure Settled (cfg : HostPrefixCacheCoordinator) (st : State Pid) : Prop where
  ok : RegionOk cfg st.region
  balanced : Balanced st.counts (st.region.view cfg)
  locals : ∀ pid, LocalOk (st.locals pid) (st.openLoads pid) (st.begun pid)
  begins : ∀ pid handle nodes, (pid, .beginning handle nodes) ∈ st.inFlight →
    ∃ attachment, lookup handle (st.locals pid).attachments = some attachment ∧
      attachment.nodeIndices = nodes
  undoes : ∀ pid handle error, (pid, .undoing handle error) ∉ st.inFlight

theorem initialState_settled (cfg : HostPrefixCacheCoordinator) : Settled cfg (initialState Pid) := by
  refine ⟨constructSharedState_regionOk cfg, ?_, ?_, ?_, ?_⟩
  · have hzero : (initialState Pid).counts = fun _ => (0, 0) := by
      funext i
      simp [State.counts, initialState, LocalState.named, LocalState.loading]
    rw [hzero]
    exact constructSharedState_balanced cfg
  · exact fun _ => LocalOk.empty
  · intro pid handle nodes hmem
    exact absurd hmem (Multiset.notMem_zero _)
  · intro pid handle error
    exact Multiset.notMem_zero _

/-! ### Sections -/

/-- A call that takes the header mutex once removes no attachment. -/
theorem Settled.lookup_commit (h : Settled cfg st) {other : Pid} {process : Process} {nodes : List ℕ} {handle : ℕ}
    {attachment : LocalAttachment} (hdone : HeaderDone cfg st.counts (st.process pid) nodes process)
    (hlookup : lookup handle (st.locals other).attachments = some attachment) :
    lookup handle ((st.commit pid process).locals other).attachments = some attachment := by
  by_cases hother : other = pid
  · subst hother
    rw [show (st.commit other process).locals other = process.locals from update_self .., hdone.locals]
    split
    · exact hlookup
    · have hne : handle ≠ (st.locals other).nextHandle := by
        intro heq
        rw [heq, (h.locals other).lookup_nextHandle] at hlookup
        simp at hlookup
      exact (lookup_alter_of_ne hne).trans hlookup
  · rwa [show (st.commit pid process).locals other = st.locals other from update_of_ne hother _ _]

/-- The state after a call that takes the header mutex once. -/
theorem Settled.commit (h : Settled cfg st) (hfit : st.Fits) {process : Process} {nodes : List ℕ}
    (hdone : HeaderDone cfg st.counts (st.process pid) nodes process) : Settled cfg (st.commit pid process) := by
  have hlocal := h.locals pid
  have hnew : process.locals = if nodes = [] then st.locals pid
    else ((st.locals pid).register nodes).2 := hdone.locals
  obtain ⟨hnamed, hloading, hok⟩ :
      (∀ i, process.locals.named i = (st.locals pid).named i + nodes.count i) ∧ (∀ i,
        process.locals.loading (st.openLoads pid) i = (st.locals pid).loading (st.openLoads pid) i) ∧
      LocalOk process.locals (st.openLoads pid) (st.begun pid) := by
    rw [hnew]
    split
    · next hnil => exact ⟨fun i => by rw [hnil, List.count_nil, Nat.add_zero], fun _ => rfl, hlocal⟩
    · exact ⟨hlocal.register_named nodes, hlocal.register_loading nodes, hlocal.register (hfit.nextHandle pid) nodes⟩
  have hother : ∀ other, other ≠ pid → (st.commit pid process).locals other = st.locals other :=
    fun other hne => update_of_ne hne _ _
  have hself : (st.commit pid process).locals pid = process.locals := update_self ..
  have hcounts : (st.commit pid process).counts = fun i => ((st.counts i).1 + nodes.count i, (st.counts i).2) := by
    funext i
    obtain ⟨h₁, h₂⟩ := State.counts_point hother (fun _ _ => rfl) i
    rw [hself, hnamed] at h₁
    rw [hself, show (st.commit pid process).openLoads = st.openLoads from rfl, hloading] at h₂
    rw [show (st.commit pid process).inFlight = st.inFlight from rfl] at h₁ h₂
    ext
    · dsimp only
      omega
    · dsimp only
      omega
  refine ⟨hdone.ok, ?_, ?_, ?_, h.undoes⟩
  · rw [hcounts]
    exact hdone.balanced
  · intro other
    by_cases hother' : other = pid
    · subst hother'
      rw [hself]
      exact hok
    · rw [hother other hother']
      exact h.locals other
  · intro other handle named hmem
    obtain ⟨attachment, hlookup, hnodes⟩ := h.begins other handle named hmem
    exact ⟨attachment, h.lookup_commit hdone hlookup, hnodes⟩

/-- The state after a local section: the counts are what they were. -/
theorem Settled.start (h : Settled cfg st) (hfit : st.Fits) {call : AttachmentCall} {out : LocalState × Option InFlight}
    (hmatched : ∀ handle, call.closes handle ≤ st.openLoads pid handle) (hstep : LocalStep (st.locals pid) call out) :
    Settled cfg (st.start pid call out) ∧ (st.start pid call out).counts = st.counts := by
  have hlocal := h.locals pid
  have hother : ∀ other, other ≠ pid → (st.start pid call out).locals other = st.locals other ∧
      (st.start pid call out).openLoads other = st.openLoads other := fun other hne =>
    ⟨update_of_ne hne _ _, update_of_ne hne _ _⟩
  have hself : (st.start pid call out).locals pid = out.1 := update_self ..
  have hopen : (st.start pid call out).openLoads pid =
      fun handle => st.openLoads pid handle - call.closes handle := update_self ..
  -- a sum over the calls in flight grows by the part of the new one
  have hflight : ∀ weight : Pid × InFlight → ℕ, ((st.start pid call out).inFlight.map weight).sum =
      (st.inFlight.map weight).sum + out.2.elim 0 fun pending => weight (pid, pending) := by
    intro weight
    unfold State.start
    cases out.2 with
    | none => rfl
    | some pending =>
      show (((pid, pending) ::ₘ st.inFlight).map weight).sum = _
      rw [Multiset.map_cons, Multiset.sum_cons, Nat.add_comm]
      rfl
  have hcounts : (st.start pid call out).counts = st.counts := by
    funext i
    obtain ⟨h₁, h₂⟩ := State.counts_point (fun other hne => (hother other hne).1)
      (fun other hne => (hother other hne).2) i
    have h₃ := hstep.named hlocal i
    have h₄ := hstep.loading hlocal hmatched i
    rw [hself, hflight] at h₁
    rw [hself, hopen, hflight] at h₂
    dsimp only at h₁ h₂
    ext <;> omega
  refine ⟨⟨h.ok, ?_, ?_, ?_, ?_⟩, hcounts⟩
  · rw [hcounts]
    exact h.balanced
  · intro other
    by_cases hother' : other = pid
    · subst hother'
      have hbegun : (st.start other call out).begun other = begunWith (st.begun other) out.2 := by
        funext handle
        unfold State.begun
        rw [hflight]
        simp only [if_true]
        rfl
      rw [hself, hopen, hbegun]
      exact hstep.ok hlocal hmatched (hfit.pendingLoadCount other)
    · have hbegun : (st.start pid call out).begun other = st.begun other := by
        funext handle
        unfold State.begun
        rw [hflight]
        cases out.2 with
        | none => rfl
        | some pending =>
          show _ + (if pid = other then _ else 0) = _
          rw [if_neg (Ne.symm hother'), Nat.add_zero]
      rw [(hother other hother').1, (hother other hother').2, hbegun]
      exact h.locals other
  · intro other handle nodes hentry
    rcases State.mem_start.mp hentry with hold | ⟨pending, hout, heq⟩
    · obtain ⟨attachment, hlookup, hnodes⟩ := h.begins other handle nodes hold
      by_cases hother' : other = pid
      · subst hother'
        rw [hself]
        rcases hstep.lookup_stays hlocal hmatched hlookup with
          ⟨attachment', hlookup', hnodes'⟩ | ⟨_, hzero⟩
        · exact ⟨attachment', hlookup', hnodes'.trans hnodes⟩
        -- a load that is about to open is counted
        have hle : InFlight.opens (.beginning handle nodes) handle ≤ st.begun other handle := by
          have := Multiset.single_le_sum (s := st.inFlight.map fun call =>
            if call.1 = other then call.2.opens handle else 0) (fun _ _ => Nat.zero_le _) _
            (Multiset.mem_map_of_mem _ hold)
          rwa [if_pos rfl] at this
        rw [InFlight.opens, if_pos rfl] at hle
        omega
      · rw [(hother other hother').1]
        exact ⟨attachment, hlookup, hnodes⟩
    · obtain ⟨rfl, rfl⟩ := Prod.mk.inj heq
      rw [hself]
      exact hstep.begins hlocal hout
  · intro other handle error hentry
    rcases State.mem_start.mp hentry with hold | ⟨pending, hout, heq⟩
    · exact h.undoes other handle error hold
    · obtain ⟨_, rfl⟩ := Prod.mk.inj heq
      cases hstep <;> simp at hout

/-- The load references a call in flight is about to take. -/
def InFlight.adds : InFlight → ℕ → ℕ
  | .beginning _ nodeIndices, i => nodeIndices.count i
  | _, _ => 0

/-- **The header section of a call in flight** succeeds when the counts hold what it drops. -/
theorem headerSection_ok {r : Region} {counts : ℕ → ℕ × ℕ} (h : RegionOk cfg r) (hb : Balanced counts (r.view cfg))
    (hfit : CountsFit counts) (hholds : ∀ i, pending.holds i ≤ (counts i).1)
    (hloads : ∀ i, pending.loads i ≤ (counts i).2) (hadds : ∀ i, pending.adds i ≠ 0 → r.Resident cfg i) :
    ∃ r', headerSection pending r = .ok () r' ∧ Recounted cfg (fun i => ((counts i).1 - pending.holds i,
        (counts i).2 - pending.loads i + pending.adds i)) r r' := by
  cases pending with
  | releasing _ nodes =>
    exact decrementActiveRefsLocked_ok nodes h hb fun i => ⟨hholds i, (hfit i).1⟩
  | beginning _ nodes =>
    exact addLoadRefsLocked_ok nodes h hb fun i hi => hadds i (List.count_pos_iff.mpr hi).ne'
  | ending _ nodes finalizeRelease =>
    obtain ⟨r₁, hrun₁, h₁⟩ := dropLoadRefsLocked_ok nodes h hb fun i => ⟨hloads i, (hfit i).2⟩
    cases finalizeRelease with
    | false => exact ⟨r₁, (bind_ok hrun₁).trans rfl, h₁⟩
    | true =>
      obtain ⟨r₂, hrun₂, h₂⟩ := decrementActiveRefsLocked_ok nodes h₁.ok h₁.balanced fun i => ⟨hholds i, (hfit i).1⟩
      exact ⟨r₂, (bind_ok hrun₁).trans hrun₂, h₂.ok, h₂.balanced, h₁.cores.trans h₂.cores⟩
  | undoing _ _ => exact ⟨r, rfl, h, hb, SameCores.refl _⟩

omit [DecidableEq Pid] [Fintype Pid] in
/-- A call in flight, with the rest of them. -/
theorem sum_inFlight {flights rest : Multiset (Pid × InFlight)} {entry : Pid × InFlight}
    (hflight : flights = entry ::ₘ rest) (weight : Pid × InFlight → ℕ) :
    (flights.map weight).sum = weight entry + (rest.map weight).sum := by
  rw [hflight, Multiset.map_cons, Multiset.sum_cons]

/-- An attachment is counted. -/
theorem Settled.count_le_counts (h : Settled cfg st) {handle : ℕ} {attachment : LocalAttachment}
    (hlookup : lookup handle (st.locals pid).attachments = some attachment) (i : ℕ) :
    attachment.nodeIndices.count i ≤ (st.counts i).1 := by
  have hnamed : attachment.nodeIndices.count i ≤ (st.locals pid).named i :=
    OrderedMap.le_total (g := fun _ (a : LocalAttachment) => a.nodeIndices.count i)
      ((h.locals pid).ordered.lookup_eq_some_iff.mp hlookup)
  have hsum := single_le_sum (f := fun pid => (st.locals pid).named i) (fun _ _ => Nat.zero_le _) (mem_univ pid)
  exact hnamed.trans (hsum.trans (Nat.le_add_right _ _))

/-- A load that opens takes a reference to each node of its attachment. -/
theorem loading_opened (h : Settled cfg st) (hmem : (pid, pending) ∈ st.inFlight) (i : ℕ) :
    (st.locals pid).loading (fun handle => st.openLoads pid handle + pending.opens handle) i =
      (st.locals pid).loading (st.openLoads pid) i + pending.adds i := by
  cases pending with
  | beginning handle nodes =>
    obtain ⟨attachment, hlookup, rfl⟩ := h.begins pid handle nodes hmem
    have hopens : ∀ other, InFlight.opens (.beginning handle attachment.nodeIndices) other =
      if other = handle then 1 else 0 := fun _ => rfl
    have hpoint : total (fun other (a : LocalAttachment) => (st.openLoads pid other +
        InFlight.opens (.beginning handle attachment.nodeIndices) other) * a.nodeIndices.count i)
        (st.locals pid).attachments + _ = total (fun other (a : LocalAttachment) =>
          st.openLoads pid other * a.nodeIndices.count i) (st.locals pid).attachments + _ :=
      total_point handle (h.locals pid).ordered (by
        intro k hk
        funext a
        rw [hopens, if_neg hk, Nat.add_zero])
    rw [hlookup, elim_some, elim_some, hopens, if_pos rfl, Nat.add_mul, Nat.one_mul] at hpoint
    unfold LocalState.loading
    dsimp only [InFlight.adds]
    omega
  | releasing | ending | undoing => rfl

/-- The state after the header section of a call in flight. -/
theorem Settled.finish (h : Settled cfg st) (hfit : CountsFit st.counts) {rest : Multiset (Pid × InFlight)}
    (hflight : st.inFlight = (pid, pending) ::ₘ rest) :
    ∃ region, headerSection pending st.region = .ok () region ∧ SameCores (st.region.view cfg) (region.view cfg) ∧
      Settled cfg (st.finish pid pending rest region) := by
  have hmem : (pid, pending) ∈ st.inFlight := hflight ▸ Multiset.mem_cons_self _ _
  have hrest : ∀ entry ∈ rest, entry ∈ st.inFlight := fun entry hentry =>
    hflight ▸ Multiset.mem_cons_of_mem hentry
  have hadds : ∀ i, pending.adds i ≠ 0 → st.region.Resident cfg i := by
    intro i hadd
    cases pending with
    | beginning handle nodes =>
      obtain ⟨attachment, hlookup, rfl⟩ := h.begins pid handle nodes hmem
      have hle := h.count_le_counts hlookup i
      refine h.balanced.resident fun hzero => hadd ?_
      rw [hzero] at hle
      exact Nat.le_zero.mp hle
    | releasing | ending | undoing => exact absurd rfl hadd
  obtain ⟨region, hrun, hrecounted⟩ := headerSection_ok h.ok h.balanced hfit
    (fun i => (State.inFlight_le hmem i).1) (fun i => (State.inFlight_le hmem i).2) hadds
  refine ⟨region, hrun, hrecounted.cores, hrecounted.ok, ?_, ?_, ?_, ?_⟩
  · have hcounts : (st.finish pid pending rest region).counts = fun i =>
        ((st.counts i).1 - pending.holds i, (st.counts i).2 - pending.loads i + pending.adds i) := by
      funext i
      have hopened : ((st.locals pid).loading (fun handle => st.openLoads pid handle + pending.opens handle) i) =
          (st.locals pid).loading (st.openLoads pid) i + pending.adds i :=
        loading_opened h hmem i
      have hlocals : (st.finish pid pending rest region).locals = st.locals := rfl
      obtain ⟨h₁, h₂⟩ := State.counts_point (fun other _ => congrFun hlocals other)
        (fun other hne => update_of_ne hne _ _) i
      rw [hlocals,
        show (st.finish pid pending rest region).inFlight = rest from rfl, sum_inFlight hflight] at h₁ h₂
      rw [show (st.finish pid pending rest region).openLoads pid = _ from update_self .., hopened] at h₂
      obtain ⟨h₃, h₄⟩ := State.inFlight_le hmem i
      dsimp only at h₁ h₂
      ext
      · dsimp only
        omega
      · dsimp only
        omega
    rw [hcounts]
    exact hrecounted.balanced
  · intro other
    have hsum : ∀ handle, st.begun other handle = (if pid = other then pending.opens handle else 0) +
          (st.finish pid pending rest region).begun other handle := fun handle =>
      sum_inFlight hflight fun call => if call.1 = other then call.2.opens handle else 0
    apply (h.locals other).shift
    intro handle
    rw [hsum]
    by_cases hother : other = pid
    · subst hother
      rw [if_pos rfl, show (st.finish other pending rest region).openLoads other = _ from
        update_self ..]
      dsimp only
      omega
    · rw [if_neg (Ne.symm hother), show (st.finish pid pending rest region).openLoads other = _ from
        update_of_ne hother _ _]
      omega
  · intro other handle nodes hentry
    exact h.begins other handle nodes (hrest _ hentry)
  · intro other handle error hentry
    exact h.undoes other handle error (hrest _ hentry)

/-! ### Steps -/

theorem Settled.header (h : Settled cfg st) (hfit : st.Fits) (pid : Pid) {call : HeaderCall}
    (hpages : call.PagesFit cfg) : HeaderEnds cfg st.counts (call.run cfg sort) (st.process pid) :=
  call.run_ends hpages h.ok h.balanced hfit.counts

/-- **One section of one call** keeps the system in order and the cores of counted nodes, and no
exception says that a node is gone. -/
theorem Step.settled {error : Option PrefixCacheError} 
    (hstep : Step cfg sort (HeaderCall.PagesFit cfg) st error st') (h : Settled cfg st) (hfit : st.Fits) :
    Settled cfg st' ∧ Kept st.counts (st.region.view cfg) (st'.region.view cfg) ∧
      ∀ e, error = some e → e.isLost = false := by
  cases hstep with
  | header pid call hpages result process hrun =>
    obtain ⟨nodes, hdone, _⟩ := Ends.of_ok (h.header hfit pid hpages) hrun
    exact ⟨h.commit hfit hdone, hdone.kept, by simp⟩
  | headerFault pid call hpages process st' hrun => exact absurd (Ends.of_error (h.header hfit pid hpages) hrun).1 id
  | headerThrow pid call hpages error process hrun =>
    obtain ⟨hlost, nodes, hdone⟩ := Ends.of_error (h.header hfit pid hpages) hrun
    refine ⟨h.commit hfit hdone, hdone.kept, ?_⟩
    intro e he
    obtain rfl := Option.some.inj he
    exact hlost
  | start pid call out hmatched hrun =>
    exact ⟨(h.start hfit hmatched (localSection_ok hrun)).1, (SameCores.refl _).kept, by simp⟩
  | startThrow pid call error hmatched hrun =>
    refine ⟨h, (SameCores.refl _).kept, ?_⟩
    intro e he
    obtain rfl := Option.some.inj he
    exact localSection_error (h.locals pid) hmatched hrun
  | finish pid pending rest region hflight _ hrun =>
    obtain ⟨region', hrun', hcores, hsettled⟩ := h.finish hfit.counts hflight
    rw [hrun'] at hrun
    obtain ⟨_, rfl⟩ := EStateM.Result.ok.inj hrun
    exact ⟨hsettled, hcores.kept, by simp⟩
  | finishThrow pid pending rest error region hflight _ hrun =>
    obtain ⟨region', hrun', _⟩ := h.finish hfit.counts hflight
    rw [hrun'] at hrun
    simp at hrun
  | beginThrow pid handle nodes rest error region hflight hrun =>
    obtain ⟨region', hrun', _⟩ := h.finish hfit.counts hflight
    rw [hrun'] at hrun
    simp at hrun
  | undo pid handle error rest hflight =>
    exact absurd (hflight ▸ Multiset.mem_cons_self _ _) (h.undoes pid handle error)

/-! ### Runs -/

/-- One step of a run in which the pages of every commit fit and no counter comes close to wrapping. -/
def FitStep (cfg : HostPrefixCacheCoordinator) (sort : StdSort) (st st' : State Pid) : Prop :=
  (∃ error, Step cfg sort (HeaderCall.PagesFit cfg) st error st') ∧ st'.Fits

/-- **A run**, section by section. -/
def Run (cfg : HostPrefixCacheCoordinator) (sort : StdSort) : State Pid → State Pid → Prop :=
  Relation.ReflTransGen (FitStep cfg sort)

omit [DecidableEq Pid] in
theorem initialState_fits : (initialState Pid).Fits := by
  refine ⟨fun i => ?_, fun pid => by simp [initialState], fun pid p hp => ?_⟩
  · simp [State.counts, initialState, LocalState.named, LocalState.loading]
  · simp [initialState] at hp

/-- **Runs keep the system in order.** -/
theorem Run.settled (hrun : Run cfg sort st st') (h : Settled cfg st) (hfit : st.Fits) :
    Settled cfg st' ∧ st'.Fits := by
  induction hrun with
  | refl => exact ⟨h, hfit⟩
  | tail _ hstep ih =>
    obtain ⟨⟨error, hstep⟩, hfit'⟩ := hstep
    exact ⟨(hstep.settled ih.1 ih.2).1, hfit'⟩

theorem Run.settled_of_initial (hrun : Run cfg sort (initialState Pid) st) : Settled cfg st ∧ st.Fits :=
  hrun.settled (initialState_settled cfg) initialState_fits

end Batchgen.PrefixCache
