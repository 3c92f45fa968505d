import Batchgen.Server.Interleaving

/-!
# The life of one batch

What the server's threads do, as one batch sees it.  A `View` keeps of a state the batch's status, tracker,
places in the queue and among the finalizers, and the pending operations of both threads that are about it.
`BatchExec` says what one operation about the batch can do, `ViewStep` what a step of the server can do, and

* `Op.exec_batch` — an operation about the batch is a `BatchExec`;
* `Op.exec_frame` — any other operation leaves the batch alone;
* `step_view` — every step of the server is a `ViewStep` or invisible to the batch.
-/

namespace Batchgen.Server

open Function List

variable {cfg : Config} {b b' : BatchId} {c : Completion} {r : RequestId} {op : Op} {sched : Scheduler} {rest : List Op}
  {label : Label}

/-- What the scheduler holds about one batch. -/
structure Batch where
  status : Option BatchStatus
  tracker : Option BatchTracker
  queued : ℕ
  finalizing : ℕ

/-- The batch in a state, with the pending operations about it. -/
structure View extends Batch where
  loop : List Op
  thread : List Op

/-- The operations that read or write what a `Batch` holds. -/
def Op.about (b : BatchId) : Op → Bool
  | .updateBatchStatus b' _ | .registerBatch b' _ | .submitBatch b' _ | .failCheck b' _
  | .setTrackerError b' _ | .poll b' _ | .forgetBatch b' | .cancelCheck b' => b' = b
  | .deliver _ c => c.batchId = some b
  | .setCapacity _ | .removeBatchEntries _ | .closeTurnGate _ | .callCloseTurnGate _ | .clearActiveSlots
  | .writeOutput _ | .selectFromIntake | .allocateSlots _ _ => false

def Scheduler.batch (b : BatchId) (s : Scheduler) : Batch :=
  ⟨s.status b, s.schedulingPool.batchTrackers.lookup b, s.queue.count b, s.finalizers.count b⟩

def State.view (b : BatchId) (s : State) : View :=
  ⟨s.sched.batch b, s.loop.filter (·.about b), s.thread.filter (·.about b)⟩

/-- The tracker after one more completion. -/
def BatchTracker.count (t : BatchTracker) : BatchTracker := { t with completedRequests := t.completedRequests + 1 }

/-- What an operation about batch `b` can do to it, with the operations about `b` that follow. -/
inductive BatchExec (b : BatchId) : Op → Batch → Batch → List Op → Prop
  | updateBatchStatus (v : Batch) (status old : BatchStatus) (h : v.status = some old) :
      BatchExec b (.updateBatchStatus b status) v { v with status := some status } []
  | updateUnknown (v : Batch) (status : BatchStatus) (h : v.status = none) :
      BatchExec b (.updateBatchStatus b status) v v []
  | registerBatch (v : Batch) (n : ℕ) :
      BatchExec b (.registerBatch b n) v { v with tracker := some ⟨n, 0, 0, none⟩ } []
  | submitRejected (v : Batch) (requests : List BatchRequest) :
      BatchExec b (.submitBatch b requests) v v [.updateBatchStatus b .failed]
  | submitAccepted (v : Batch) (requests : List BatchRequest) :
      BatchExec b (.submitBatch b requests) v { v with finalizing := v.finalizing + 1 } []
  | ignored (v : Batch) (g : ℕ) (c : Completion) : BatchExec b (.deliver g c) v v []
  | counted (v : Batch) (g : ℕ) (c : Completion) (t : BatchTracker) (h : v.tracker = some t) :
      BatchExec b (.deliver g c) v { v with tracker := some t.count } []
  | failSkipped (v : Batch) (error : String) : BatchExec b (.failCheck b error) v v []
  | failStarts (v : Batch) (error : String) (t : BatchTracker) (h : v.tracker = some t)
      (hcomplete : t.isComplete = false) :
      BatchExec b (.failCheck b error) v v [.setTrackerError b error, .updateBatchStatus b .failed]
  | setTrackerError (v : Batch) (error : String) (t : BatchTracker) (h : v.tracker = some t) :
      BatchExec b (.setTrackerError b error) v { v with tracker := some { t with error := some error } } []
  | setErrorUnknown (v : Batch) (error : String) (h : v.tracker = none) :
      BatchExec b (.setTrackerError b error) v v []
  | pollWaits (v : Batch) (timedOut : Bool) : BatchExec b (.poll b timedOut) v v []
  | pollCompletes (v : Batch) (timedOut : Bool) (t : BatchTracker) (h : v.tracker = some t)
      (hcomplete : t.isComplete) :
      BatchExec b (.poll b timedOut) v { v with finalizing := 0 }
        [.updateBatchStatus b .completed, .forgetBatch b]
  | pollFails (v : Batch) (timedOut : Bool) :
      BatchExec b (.poll b timedOut) v { v with finalizing := 0 } [.updateBatchStatus b .failed]
  | forgetBatch (v : Batch) : BatchExec b (.forgetBatch b) v { v with tracker := none } []
  | cancelRefused (v : Batch) : BatchExec b (.cancelCheck b) v v []
  | cancelStarts (v : Batch) (h : v.status = some .validating ∨ v.status = some .inProgress) :
      BatchExec b (.cancelCheck b) v v [.updateBatchStatus b .cancelled]

/-! ### Frames -/

theorem Scheduler.batch_eq {s s' : Scheduler} (hstatus : s'.status b = s.status b)
    (htracker : s'.schedulingPool.batchTrackers.lookup b = s.schedulingPool.batchTrackers.lookup b)
    (hqueue : s'.queue = s.queue) (hfinalizers : s'.finalizers.count b = s.finalizers.count b) :
    s'.batch b = s.batch b := by
  simp only [Scheduler.batch, hstatus, htracker, hqueue, hfinalizers]

/-- A completion touches the batch it names only, and there at most the count. -/
theorem Scheduler.deliver_batch (cfg : Config) (c : Completion) (s : Scheduler) :
    (s.deliver cfg c).batch b = s.batch b ∨
      c.batchId = some b ∧ ∃ t, (s.batch b).tracker = some t ∧
        (s.deliver cfg c).batch b = { s.batch b with tracker := some t.count } := by
  obtain ⟨freed, pool, _, _, _, _, hfreed, hpool, -, heq⟩ := s.deliver_frame cfg c
  have htrackers : freed.batchTrackers = s.schedulingPool.batchTrackers := by
    rcases hfreed with rfl | ⟨r, rfl⟩
    · rfl
    · exact SchedulingPool.freeSlot_batchTrackers
  have hbatch : (s.deliver cfg c).batch b = { s.batch b with tracker := pool.batchTrackers.lookup b } := by
    rw [heq]
    rfl
  rw [hbatch]
  rcases hpool with rfl | ⟨r, b', hb, rfl⟩
  · exact .inl (by rw [htrackers]; rfl)
  by_cases hbb : b = b'
  · subst hbb
    rcases SchedulingPool.lookup_markRequestCompleted_self (p := freed) (r := r) (b := b) with hsame | ⟨t, ht, hcounted⟩
    · exact .inl (by rw [hsame, htrackers]; rfl)
    · exact .inr ⟨hb, t, by rw [← ht, htrackers]; rfl, by rw [hcounted]; rfl⟩
  · exact .inl (by rw [SchedulingPool.lookup_markRequestCompleted_of_ne hbb, htrackers]; rfl)

/-! ### Operations -/

/-- `_fail_all_active_batches` looks at the batch once if it is tracked. -/
theorem failAllActiveBatches_about {closeTurns : String → Op} (hclose : ∀ e, (closeTurns e).about b = false)
    (error : String) (s : Scheduler) :
    (failAllActiveBatches closeTurns error s).filter (·.about b) =
      if (s.batch b).tracker.isSome then [.failCheck b error] else [] := by
  have hkeys : (s.schedulingPool.batchTrackers.keys.map (Op.failCheck · error)).filter (·.about b) =
      (s.schedulingPool.batchTrackers.keys.filter (· == b)).map (Op.failCheck · error) := by
    rw [filter_map]
    rfl
  have hmem : (s.batch b).tracker.isSome ↔ b ∈ s.schedulingPool.batchTrackers.keys :=
    AList.lookup_isSome.trans AList.mem_keys
  have hlast : [closeTurns error, .clearActiveSlots].filter (·.about b) = [] := by
    have hclear : Op.clearActiveSlots.about b = false := rfl
    simp [hclose, hclear]
  rw [failAllActiveBatches, filter_append, hkeys, filter_beq]
  split
  · rename_i htracked
    rw [count_eq_one_of_mem s.schedulingPool.batchTrackers.keys_nodup (hmem.1 htracked)]
    simp [hlast]
  · rename_i huntracked
    rw [count_eq_zero_of_not_mem fun h => huntracked (hmem.2 h)]
    simp [hlast]

/-- An operation that is not about the batch leaves it alone; only a failing drain can start something that
is about it. -/
theorem Op.exec_frame (cfg : Config) (s : Scheduler) (hop : op.about b = false) :
    (op.exec cfg s).1.batch b = s.batch b ∧ ((op.exec cfg s).2.filter (·.about b) = [] ∨
        op.Drains ∧ ∃ error, (op.exec cfg s).2.filter (·.about b) = [.failCheck b error] ∧
          (s.batch b).tracker.isSome) := by
  cases op with
  | updateBatchStatus b' status =>
    have hne : b ≠ b' := Ne.symm (of_decide_eq_false hop)
    simp only [Op.exec]
    split
    · exact ⟨Scheduler.batch_eq (by simp [update_of_ne hne]) rfl rfl rfl, .inl rfl⟩
    · exact ⟨rfl, .inl rfl⟩
  | registerBatch b' n =>
    have hne : b ≠ b' := Ne.symm (of_decide_eq_false hop)
    exact ⟨Scheduler.batch_eq rfl (AList.lookup_insert_ne hne) rfl rfl, .inl rfl⟩
  | submitBatch b' requests =>
    have hne : b ≠ b' := Ne.symm (of_decide_eq_false hop)
    simp only [Op.exec]
    split
    · exact ⟨rfl, .inl (by simp [Op.about, hne.symm])⟩
    · exact ⟨Scheduler.batch_eq rfl rfl rfl (by simp [hne.symm]), .inl rfl⟩
  | deliver g c =>
    have hne : c.batchId ≠ some b := by simpa [Op.about] using hop
    rcases Scheduler.deliver_batch (b := b) cfg c s with h | ⟨hb, -⟩
    · exact ⟨h, .inl rfl⟩
    · exact absurd hb hne
  | setCapacity total =>
    simp only [Op.exec]
    split
    · exact ⟨rfl, .inl rfl⟩
    · exact ⟨Scheduler.batch_eq rfl (by rw [(SchedulingPool.setCapacity_sameCounts total).1]) rfl rfl, .inl rfl⟩
  | failCheck b' error =>
    have hne : b ≠ b' := Ne.symm (of_decide_eq_false hop)
    simp only [Op.exec]
    split
    · exact ⟨rfl, .inl rfl⟩
    · split
      · exact ⟨rfl, .inl (by simp [Op.about, hne.symm])⟩
      · exact ⟨rfl, .inl rfl⟩
  | setTrackerError b' error =>
    have hne : b ≠ b' := Ne.symm (of_decide_eq_false hop)
    refine ⟨Scheduler.batch_eq rfl ?_ rfl rfl, .inl rfl⟩
    simp only [Op.exec, SchedulingPool.setError]
    split
    · rfl
    · exact AList.lookup_insert_ne hne
  | poll b' timedOut =>
    have hne : b ≠ b' := Ne.symm (of_decide_eq_false hop)
    have hcount : (s.finalizers.filter (· ≠ b')).count b = s.finalizers.count b := count_filter (by simpa using hne)
    simp only [Op.exec]
    split
    · split
      · exact ⟨Scheduler.batch_eq rfl rfl rfl hcount, .inl (by simp [Op.about, hne.symm])⟩
      · exact ⟨rfl, .inl rfl⟩
    · split
      · exact ⟨Scheduler.batch_eq rfl rfl rfl hcount, .inl (by simp [Op.about, hne.symm])⟩
      · split
        · exact ⟨Scheduler.batch_eq rfl rfl rfl hcount, .inl (by simp [Op.about, hne.symm])⟩
        · exact ⟨rfl, .inl rfl⟩
  | forgetBatch b' =>
    have hne : b ≠ b' := Ne.symm (of_decide_eq_false hop)
    exact ⟨Scheduler.batch_eq rfl (AList.lookup_erase_ne hne) rfl rfl, .inl rfl⟩
  | cancelCheck b' =>
    have hne : b ≠ b' := Ne.symm (of_decide_eq_false hop)
    simp only [Op.exec]
    split
    · exact ⟨rfl, .inl (by simp [Op.about, hne.symm])⟩
    · exact ⟨rfl, .inl rfl⟩
  | selectFromIntake =>
    refine ⟨rfl, .inl ?_⟩
    simp only [Op.exec]
    split <;> rfl
  | allocateSlots drained rest =>
    cases rest with
    | nil =>
      simp only [Op.exec]
      split
      · exact ⟨Scheduler.batch_eq rfl (by rw [(SchedulingPool.foldl_freeSlot_sameCounts drained).1]) rfl rfl, .inl rfl⟩
      · exact ⟨rfl, .inl rfl⟩
    | cons entry rest =>
      simp only [Op.exec]
      split
      · exact ⟨Scheduler.batch_eq rfl (by rw [(SchedulingPool.allocateSlot_sameCounts ‹_›).1]) rfl rfl, .inl rfl⟩
      · refine ⟨rfl, ?_⟩
        rw [failAllActiveBatches_about (fun _ => rfl)]
        split
        · exact .inr ⟨trivial, _, rfl, ‹_›⟩
        · exact .inl rfl
  | removeBatchEntries | closeTurnGate | callCloseTurnGate | clearActiveSlots | writeOutput =>
    exact ⟨rfl, .inl rfl⟩

/-- An operation about the batch does what `BatchExec` allows. -/
theorem Op.exec_batch (cfg : Config) (s : Scheduler) (hop : op.about b) :
    BatchExec b op (s.batch b) ((op.exec cfg s).1.batch b) ((op.exec cfg s).2.filter (·.about b)) := by
  cases op with
  | updateBatchStatus b' status =>
    obtain rfl : b' = b := of_decide_eq_true hop
    simp only [Op.exec]
    split
    · rename_i hsome
      obtain ⟨old, hold⟩ := Option.isSome_iff_exists.1 hsome
      have heq : ({ s with status := update s.status b' (some status) } : Scheduler).batch b' =
          { s.batch b' with status := some status } := by simp [Scheduler.batch]
      rw [heq]
      exact .updateBatchStatus _ status old hold
    · rename_i hnone
      exact .updateUnknown _ status (by simpa [Scheduler.batch] using hnone)
  | registerBatch b' n =>
    obtain rfl : b' = b := of_decide_eq_true hop
    have heq : ((Op.registerBatch b' n).exec cfg s).1.batch b' =
        { s.batch b' with tracker := some ⟨n, 0, 0, none⟩ } := by
      simp [Op.exec, Scheduler.batch, SchedulingPool.registerBatch]
    rw [heq]
    exact .registerBatch _ n
  | submitBatch b' requests =>
    obtain rfl : b' = b := of_decide_eq_true hop
    simp only [Op.exec]
    split
    · simpa [Op.about] using BatchExec.submitRejected (s.batch b') requests
    · simpa [Scheduler.batch] using BatchExec.submitAccepted (s.batch b') requests
  | deliver g c =>
    rcases Scheduler.deliver_batch (b := b) cfg c s with h | ⟨-, t, ht, h⟩
    · simpa [Op.exec, h] using BatchExec.ignored (s.batch b) g c
    · simpa [Op.exec, h] using BatchExec.counted (s.batch b) g c t ht
  | failCheck b' error =>
    obtain rfl : b' = b := of_decide_eq_true hop
    simp only [Op.exec]
    split
    · exact .failSkipped _ error
    · rename_i t ht
      split
      · rename_i hactive
        simpa [Op.about] using BatchExec.failStarts (s.batch b') error t ht (by simpa using hactive.1)
      · exact .failSkipped _ error
  | setTrackerError b' error =>
    obtain rfl : b' = b := of_decide_eq_true hop
    rcases ht : s.schedulingPool.batchTrackers.lookup b' with - | t
    · simpa [Op.exec, SchedulingPool.setError, ht] using BatchExec.setErrorUnknown (s.batch b') error ht
    · simpa [Op.exec, SchedulingPool.setError, ht, Scheduler.batch] using
        BatchExec.setTrackerError (s.batch b') error t ht
  | poll b' timedOut =>
    obtain rfl : b' = b := of_decide_eq_true hop
    have hended : ({ s with finalizers := s.finalizers.filter (· ≠ b') } : Scheduler).batch b' =
        { s.batch b' with finalizing := 0 } := by simp [Scheduler.batch, count_eq_zero]
    simp only [Op.exec]
    split
    · split
      · rw [hended]
        simpa [Op.about] using BatchExec.pollFails (s.batch b') timedOut
      · exact .pollWaits _ timedOut
    · rename_i t ht
      split
      · rename_i hcomplete
        rw [hended]
        simpa [Op.about] using BatchExec.pollCompletes (s.batch b') timedOut t ht hcomplete
      · split
        · rw [hended]
          simpa [Op.about] using BatchExec.pollFails (s.batch b') timedOut
        · exact .pollWaits _ timedOut
  | forgetBatch b' =>
    obtain rfl : b' = b := of_decide_eq_true hop
    simpa [Op.exec, SchedulingPool.removeBatchTracker, Scheduler.batch] using
      BatchExec.forgetBatch (b := b') (s.batch b')
  | cancelCheck b' =>
    obtain rfl : b' = b := of_decide_eq_true hop
    simp only [Op.exec]
    split
    · simpa [Op.about] using BatchExec.cancelStarts (b := b') (s.batch b') ‹_›
    · exact .cancelRefused _
  | setCapacity | removeBatchEntries | closeTurnGate | callCloseTurnGate | clearActiveSlots | writeOutput
  | selectFromIntake | allocateSlots => simp [Op.about] at hop

/-! ### Steps -/

/-- The statuses after which nothing more is to happen to a batch. -/
def BatchStatus.final : BatchStatus → Bool
  | .completed | .failed | .cancelled => true
  | .validating | .inProgress | .cancelling => false

def Op.setsTrackerError : Op → Bool
  | .setTrackerError .. => true
  | _ => false

/-- One more completion does not complete a batch that is being failed, whose tracker has an error or is about to get
one from the restart thread. -/
def View.Sound (v : View) : Prop :=
  ∀ t ∈ v.tracker, (t.isFailed = false ∧ ∀ op ∈ v.thread, op.setsTrackerError = false) ∨ t.count.isComplete = false

instance (v : View) : Decidable v.Sound := inferInstanceAs (Decidable (∀ _ ∈ _, _))

/-- The batch can be cancelled without being overwritten: it is not tracked, or the call is refused. -/
def View.Cancellable (v : View) : Prop := v.tracker = none ∨ v.status = some .failed ∨ v.status = some .completed

instance (v : View) : Decidable v.Cancellable := inferInstanceAs (Decidable (_ ∨ _ ∨ _))

/-- The batch that an operation routes a completion to. -/
def Op.routed : Op → Option BatchId
  | .deliver _ c => c.batchId
  | _ => none

/-- The steps with which a status that is final stays as it is. -/
def Guarded (s : State) : Label → Prop
  | .cancel b => (s.view b).Cancellable
  | .loopOp => ∀ op ∈ s.loop.head?, ∀ b ∈ op.routed, (s.view b).Sound
  | _ => True

instance (s : State) (label : Label) : Decidable (Guarded s label) := by
  unfold Guarded
  split <;> infer_instance

/-- What a step of the server can be for a batch; the guard is known when `guarded` holds. -/
inductive ViewStep (guarded : Prop) (b : BatchId) : View → View → Prop
  | loopOp (v : View) (op : Op) (rest : List Op) (batch : Batch) (next : List Op) (hloop : v.loop = op :: rest)
      (hguard : guarded → ∀ g c, op = .deliver g c → v.Sound) (h : BatchExec b op v.toBatch batch next) :
      ViewStep guarded b v { v with toBatch := batch, loop := next ++ rest }
  | threadOp (v : View) (op : Op) (rest : List Op) (batch : Batch) (next : List Op)
      (hthread : v.thread = op :: rest) (h : BatchExec b op v.toBatch batch next) :
      ViewStep guarded b v { v with toBatch := batch, thread := next ++ rest }
  | failAll (v : View) (error : String) (hloop : v.loop = []) (h : v.tracker.isSome) :
      ViewStep guarded b v { v with loop := [.failCheck b error] }
  | failInFlight (v : View) (error : String) (hthread : v.thread = []) (h : v.tracker.isSome) :
      ViewStep guarded b v { v with thread := [.failCheck b error] }
  | listen (v : View) (g : ℕ) (c : Completion) (hloop : v.loop = []) :
      ViewStep guarded b v { v with loop := [.deliver g c] }
  | create (v : View) (hloop : v.loop = []) (h : v.status = none) :
      ViewStep guarded b v { v with status := some .validating, queued := v.queued + 1 }
  | skip (v : View) (hloop : v.loop = []) (hqueued : v.queued ≠ 0) :
      ViewStep guarded b v { v with queued := v.queued - 1 }
  | process (v : View) (p : Processing) (status : BatchStatus) (hloop : v.loop = []) (hqueued : v.queued ≠ 0)
      (hstatus : v.status = some status) (hlive : status ≠ .cancelled) :
      ViewStep guarded b v { v with queued := v.queued - 1, loop := p.ops b }
  | poll (v : View) (timedOut : Bool) (hloop : v.loop = []) (h : v.finalizing ≠ 0) :
      ViewStep guarded b v { v with loop := [.poll b timedOut] }
  | cancel (v : View) (hloop : v.loop = []) (hguard : guarded → v.Cancellable) :
      ViewStep guarded b v { v with loop := [.cancelCheck b] }

/-- A drain runs alone on the loop. -/
def Solo (s : State) : Prop := ∀ op ∈ s.loop, op.Drains → s.loop = [op]

variable {s s' : State} {guarded : Prop}

theorem State.view_eq (hbatch : s'.sched.batch b = s.sched.batch b) (hloop : s'.loop = s.loop)
    (hthread : s'.thread = s.thread) : s'.view b = s.view b := by
  simp only [State.view, hbatch, hloop, hthread]

/-- The view after the loop started a task. -/
theorem view_begin {ops about : List Op} (hbatch : sched.batch b = s.sched.batch b)
    (hops : ops.filter (·.about b) = about) :
    ({ s with sched := sched, loop := ops } : State).view b = { s.view b with loop := about } := by
  subst hops
  simp only [State.view, hbatch]

theorem view_loop_nil (h : s.loop = []) : (s.view b).loop = [] := by simp [State.view, h]

theorem runCallback_batch (c : Callback) (sched : Scheduler) : (sched.runCallback c).batch b = sched.batch b := by
  cases c with
  | offerCompletion g item =>
    simp only [Scheduler.runCallback, Scheduler.offerCompletion]
    split <;> rfl
  | closeTurnGate | openTurnGate => rfl

/-- An operation of the loop, as the batch sees it. -/
theorem loopOp_view (hsolo : Solo s) (hguard : guarded → Guarded s .loopOp) (hloop : s.loop = op :: rest) :
    let s' := s.afterOp cfg op rest
    s'.view b = s.view b ∨ ViewStep guarded b (s.view b) (s'.view b) := by
  intro s'
  by_cases hop : op.about b
  · right
    have hview : (s.view b).loop = op :: rest.filter (·.about b) := by simp [State.view, hloop, hop]
    have hsound (h : guarded) (g : ℕ) (c : Completion) (hdeliver : op = .deliver g c) : (s.view b).Sound :=
      hguard h op (by simp [hloop]) b (by simpa [hdeliver, Op.about, Op.routed] using hop)
    have := ViewStep.loopOp (b := b) (s.view b) op _ _ _ hview hsound (Op.exec_batch cfg s.sched hop)
    simpa [State.view, s'] using this
  · obtain ⟨hbatch, hnext⟩ := Op.exec_frame cfg s.sched (by simpa using hop)
    have hview : (s.view b).loop = rest.filter (·.about b) := by simp [State.view, hloop, hop]
    rcases hnext with hnil | ⟨hdrains, error, hfail, htracked⟩
    · left
      have : s'.view b = { s.view b with loop := [] ++ rest.filter (·.about b) } := by
        simp only [State.view, s', hbatch, filter_append, hnil]
      rw [this, nil_append, ← hview]
    · right
      have hrest : rest = [] := by
        have := hsolo op (by simp [hloop]) hdrains
        simpa [hloop] using this
      subst hrest
      have : s'.view b = { s.view b with loop := [.failCheck b error] } := by
        simp only [State.view, s', hbatch, hfail, append_nil]
      rw [this]
      exact .failAll _ error (by simpa using hview) htracked

/-- An operation of the restart thread, as the batch sees it. -/
theorem threadOp_view (hdrains : ¬op.Drains) (hthread : s.thread = op :: rest) :
    let s' := { s with sched := (op.exec cfg s.sched).1, thread := (op.exec cfg s.sched).2 ++ rest }
    s'.view b = s.view b ∨ ViewStep guarded b (s.view b) (s'.view b) := by
  intro s'
  by_cases hop : op.about b
  · right
    have hview : (s.view b).thread = op :: rest.filter (·.about b) := by simp [State.view, hthread, hop]
    have hview' : ViewStep guarded b (s.view b) _ := .threadOp (s.view b) op _ _ _ hview (Op.exec_batch cfg s.sched hop)
    simpa [State.view, s'] using hview'
  · obtain ⟨hbatch, hnext⟩ := Op.exec_frame cfg s.sched (by simpa using hop)
    have hview : (s.view b).thread = rest.filter (·.about b) := by simp [State.view, hthread, hop]
    rcases hnext with hnil | ⟨hdrains', -⟩
    · left
      have : s'.view b = { s.view b with thread := [] ++ rest.filter (·.about b) } := by
        simp only [State.view, s', hbatch, filter_append, hnil]
      rw [this, nil_append, ← hview]
    · exact absurd hdrains' hdrains

/-- The operations of `fail_in_flight`. -/
def Op.OffLoop : Op → Prop
  | .failCheck _ _ | .setTrackerError _ _ | .removeBatchEntries _ | .updateBatchStatus _ .failed
  | .callCloseTurnGate _ | .clearActiveSlots => True
  | _ => False

theorem Op.OffLoop.not_drains (h : op.OffLoop) : ¬op.Drains := by
  cases op <;> simp_all [Op.OffLoop, Op.Drains]

/-- The restart thread does nothing but fail the batches in flight. -/
def ThreadOk (s : State) : Prop := ∀ op ∈ s.thread, op.OffLoop

theorem route_view (b : BatchId) (sched : Scheduler) (g : ℕ) (item : Item) :
    (route sched g item).filter (·.about b) = [] ∨
      (∃ c, c.batchId = some b ∧ (route sched g item).filter (·.about b) = [.deliver g c]) ∨
      ∃ error, (sched.batch b).tracker.isSome ∧ (route sched g item).filter (·.about b) = [.failCheck b error] := by
  obtain ⟨c, -, heq⟩ | ⟨-, heq | ⟨total, heq⟩ | ⟨error, heq⟩⟩ := route_cases sched g item <;> rw [heq]
  · by_cases hb : c.batchId = some b
    · exact .inr (.inl ⟨c, hb, by simp [Op.about, hb]⟩)
    · exact .inl (by simp [Op.about, hb])
  · exact .inl rfl
  · exact .inl rfl
  · rw [failAllActiveBatches_about fun _ => rfl]
    split
    · exact .inr (.inr ⟨error, ‹_›, rfl⟩)
    · exact .inl rfl

theorem Processing.ops_about (p : Processing) (b b' : BatchId) :
    (p.ops b').filter (·.about b) = if b' = b then p.ops b' else [] := by
  by_cases h : b' = b <;> cases p <;> simp [Processing.ops, Op.about, h]

/-- Every step of the server is a step of the batch's life, or invisible to it. -/
theorem step_view (hsolo : Solo s) (hthread : ThreadOk s) (hguard : guarded → Guarded s label)
    (hstep : step cfg label s = some s') : s'.view b = s.view b ∨ ViewStep guarded b (s.view b) (s'.view b) := by
  cases stepped_of_step hstep with
  | callback => exact .inl (State.view_eq (runCallback_batch _ _) rfl rfl)
  | listen g item rest hloop =>
    have hnil := view_loop_nil (b := b) hloop
    split
    · rcases route_view b { s.sched with completionInbox := rest } g item with h | ⟨c, hb, h⟩ | ⟨error, htracked, h⟩
      · exact .inl ((view_begin rfl h).trans (by rw [← hnil]))
      · exact .inr (view_begin rfl h ▸ .listen (s.view b) g c hnil)
      · exact .inr (view_begin rfl h ▸ .failAll (s.view b) error hnil htracked)
    · exact .inl (State.view_eq rfl hloop.symm rfl)
  | create b' hloop hstatus =>
    by_cases hb : b' = b
    · subst hb
      refine .inr ?_
      simpa [State.view, Scheduler.batch] using ViewStep.create (b := b') (s.view b') (view_loop_nil hloop) hstatus
    · refine .inl (State.view_eq ?_ rfl rfl)
      simp [Scheduler.batch, update_of_ne (Ne.symm hb), hb]
  | skip p b' rest hloop hqueue =>
    by_cases hb : b' = b
    · subst hb
      have hcount : (s.view b').queued = rest.count b' + 1 := by
        simp [State.view, Scheduler.batch, hqueue]
      have hskip : ({ s with sched := { s.sched with queue := rest } } : State).view b' =
          { s.view b' with queued := (s.view b').queued - 1 } := by
        rw [hcount]
        rfl
      exact .inr (hskip ▸ .skip _ (view_loop_nil hloop) (by omega))
    · exact .inl (State.view_eq (by simp [Scheduler.batch, hqueue, hb]) rfl rfl)
  | process p b' rest status hloop hqueue hstatus hcancelled =>
    by_cases hb : b' = b
    · subst hb
      have hcount : (s.view b').queued = rest.count b' + 1 := by
        simp [State.view, Scheduler.batch, hqueue]
      have hbegin : ({ s with sched := { s.sched with queue := rest }, loop := p.ops b' } : State).view b' =
          { s.view b' with queued := (s.view b').queued - 1, loop := p.ops b' } := by
        rw [hcount]
        simp [State.view, Processing.ops_about, Scheduler.batch]
      exact .inr (hbegin ▸ .process _ p status (view_loop_nil hloop) (by omega) hstatus hcancelled)
    · left
      have hbatch : ({ s.sched with queue := rest } : Scheduler).batch b = s.sched.batch b := by
        simp [Scheduler.batch, hqueue, hb]
      simp only [State.view, hbatch, Processing.ops_about, if_neg hb, hloop, filter_nil]
  | poll b' timedOut hloop hfinalizer =>
    by_cases hb : b' = b
    · subst hb
      have : (s.begin [.poll b' timedOut]).view b' = { s.view b' with loop := [.poll b' timedOut] } :=
        view_begin rfl (by simp [Op.about])
      refine .inr (this ▸ .poll _ timedOut (view_loop_nil hloop) ?_)
      exact Nat.pos_iff_ne_zero.1 (count_pos_iff.2 hfinalizer)
    · left
      simp [State.view, State.begin, Op.about, hb, hloop]
  | cancel b' hloop =>
    by_cases hb : b' = b
    · subst hb
      have : (s.begin [.cancelCheck b']).view b' = { s.view b' with loop := [.cancelCheck b'] } :=
        view_begin rfl (by simp [Op.about])
      exact .inr (this ▸ .cancel _ (view_loop_nil hloop) hguard)
    · left
      simp [State.view, State.begin, Op.about, hb, hloop]
  | drain hloop =>
    left
    simp [State.view, State.begin, Op.about, hloop]
  | submitTurn r sched hsched => exact .inl (State.view_eq (by rw [Scheduler.submitTurn_frame hsched]; rfl) rfl rfl)
  | cancelTurn r sched hsched => exact .inl (State.view_eq (by rw [Scheduler.cancelTurn_frame hsched]; rfl) rfl rfl)
  | loopOp op rest hloop => exact loopOp_view hsolo hguard hloop
  | threadOp op rest hops => exact threadOp_view (hthread op (by simp [hops])).not_drains hops
  | failInFlight error h =>
    have hnil : (s.view b).thread = [] := by simp [State.view, h]
    have hview : ({ s with thread := failAllActiveBatches .callCloseTurnGate error s.sched } : State).view b =
        { s.view b with thread := if (s.view b).tracker.isSome then [.failCheck b error] else [] } := by
      have habout := failAllActiveBatches_about (b := b) (fun e => (by rfl : (Op.callCloseTurnGate e).about b = false))
        error s.sched
      simp only [State.view, habout]
      rfl
    rw [hview]
    split
    · exact .inr (.failInFlight _ error hnil ‹_›)
    · exact .inl (by rw [← hnil])
  | _ => exact .inl rfl

/-! ### The threads' programs -/

theorem Op.OffLoop.exec {op' : Op} (h : op.OffLoop) (hop' : op' ∈ (op.exec cfg sched).2) : op'.OffLoop := by
  cases op with
  | failCheck b error =>
    simp only [Op.exec] at hop'
    split at hop'
    · simp at hop'
    · split at hop'
      · simp only [mem_cons, not_mem_nil, or_false] at hop'
        rcases hop' with rfl | rfl | rfl <;> trivial
      · simp at hop'
  | updateBatchStatus => simp only [Op.exec] at hop'; split at hop' <;> simp at hop'
  | setTrackerError | removeBatchEntries | callCloseTurnGate | clearActiveSlots => simp [Op.exec] at hop'
  | _ => exact absurd h id

theorem ThreadOk.step (h : ThreadOk s) (hstep : step cfg label s = some s') : ThreadOk s' := by
  cases stepped_of_step hstep with
  | threadOp op rest hops =>
    intro op' hop'
    rcases mem_append.1 hop' with hnext | hrest
    · exact (h op (by simp [hops])).exec hnext
    · exact h op' (by simp [hops, hrest])
  | failInFlight =>
    intro op hop
    simp only [failAllActiveBatches, mem_append, mem_map, mem_cons, not_mem_nil, or_false] at hop
    rcases hop with ⟨b, -, rfl⟩ | rfl | rfl <;> trivial
  | _ => exact h

theorem Solo.of_no_drains (h : ∀ op ∈ s.loop, ¬op.Drains) : Solo s := fun op hop hdrains =>
  absurd hdrains (h op hop)

theorem Op.Follows.not_drains (h : op.Follows) : ¬op.Drains := by
  cases op <;> simp_all [Op.Follows, Op.Drains]

theorem Solo.loopOp (h : Solo s) (hloop : s.loop = op :: rest) (sched : Scheduler) :
    Solo { s with sched := sched, loop := (op.exec cfg s.sched).2 ++ rest } := by
  intro op' hop' hdrains'
  dsimp only at hop' ⊢
  by_cases hdrains : op.Drains
  · have hrest : rest = [] := by simpa [hloop] using h op (by simp [hloop]) hdrains
    subst hrest
    rw [append_nil] at hop' ⊢
    cases op with
    | selectFromIntake =>
      simp only [Op.exec] at hop' ⊢
      split at hop' <;> simp_all
    | allocateSlots drained left =>
      cases left with
      | nil => simp only [Op.exec] at hop'; split at hop' <;> simp at hop'
      | cons entry left =>
        simp only [Op.exec] at hop' ⊢
        split at hop'
        · simp_all
        · exact absurd hdrains' (failAllActiveBatches_follows hop').not_drains
    | _ => exact absurd hdrains id
  · rcases mem_append.1 hop' with hnext | hrest
    · rcases Op.exec_next hnext with ⟨hfollows, -⟩ | ⟨hd, -⟩
      · exact absurd hdrains' hfollows.not_drains
      · exact absurd hd hdrains
    · have := h op' (by simp [hloop, hrest]) hdrains'
      rw [hloop] at this
      obtain ⟨rfl, -⟩ := List.cons.inj this
      exact absurd hdrains' hdrains

theorem route_not_drains {g : ℕ} {item : Item} (h : op ∈ route sched g item) : ¬op.Drains := by
  obtain ⟨c, -, heq⟩ | ⟨-, heq | ⟨total, heq⟩ | ⟨error, heq⟩⟩ := route_cases sched g item <;> rw [heq] at h
  · exact mem_singleton.1 h ▸ id
  · cases h
  · exact mem_singleton.1 h ▸ id
  · exact (failAllActiveBatches_follows h).not_drains

theorem Processing.ops_not_drains {p : Processing} {b : BatchId} (h : op ∈ p.ops b) : ¬op.Drains := by
  cases p <;> simp only [Processing.ops, mem_cons, not_mem_nil, or_false] at h
  · subst h; exact id
  · rcases h with rfl | rfl <;> exact id
  · subst h; exact id
  · rcases h with rfl | rfl | rfl <;> exact id

theorem Solo.step (h : Solo s) (hstep : step cfg label s = some s') : Solo s' := by
  cases stepped_of_step hstep with
  | loopOp op rest hloop => exact h.loopOp hloop _
  | listen =>
    refine .of_no_drains fun op hop => ?_
    dsimp only at hop
    split at hop
    · exact route_not_drains hop
    · simp at hop
  | process => exact .of_no_drains fun _ hop => Processing.ops_not_drains hop
  | poll | cancel => exact .of_no_drains (by simp [State.begin, Op.Drains])
  | drain =>
    intro op hop _
    simpa [State.begin, eq_comm] using hop
  | _ => exact h

end Batchgen.Server
