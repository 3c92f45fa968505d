import Batchgen.Server.BatchLife

/-!
# Final statuses

A batch passes through three phases: it is not tracked (before it is processed and after it was finalized),
it is being processed, or it is in the scheduling pool.  `Phase` says for each of them which operations about
the batch can be pending; a guarded step keeps it and never changes a final status.

* `ViewStep.phase` — one step;
* `final_status_kept` — every guarded run;
* `cancelled_batch_completes` — without the guard a cancelled batch becomes a completed one.
-/

namespace Batchgen.Server

open Option

variable {cfg : Config} {b : BatchId} {v v' : View} {t t' : BatchTracker} {finalizing : ℕ} {label : Label} {op : Op}
  {rest next ops : List Op} {batch : Batch}

/-! ### The phases -/

/-- What the loop can be doing about a batch that is not tracked. -/
inductive UntrackedLoop (b : BatchId) (status : Option BatchStatus) : List Op → Prop
  | idle : UntrackedLoop b status []
  | deliver (g : ℕ) (c : Completion) : UntrackedLoop b status [.deliver g c]
  | cancelCheck : UntrackedLoop b status [.cancelCheck b]
  | cancel (h : status = some .validating ∨ status = some .inProgress) :
      UntrackedLoop b status [.updateBatchStatus b .cancelled]

/-- A batch that is not in the scheduling pool.  A restart that began while it was may still look for it. -/
structure Untracked (b : BatchId) (v : View) : Prop where
  tracker : v.tracker = none
  finalizing : v.finalizing = 0
  loop : UntrackedLoop b v.status v.loop
  thread : v.thread = [] ∨ ∃ error, v.thread = [.failCheck b error]
  queued : v.queued = 0 ∨
    v.queued = 1 ∧ v.thread = [] ∧ (v.status = some .validating ∨ v.status = some .cancelled)
  unknown : v.status = none → v.thread = []

/-- What the loop has left to do of `_process_batch`. -/
inductive ProcessingLoop (b : BatchId) : Option BatchStatus → List Op → Prop
  | start (p : Processing) {ops : List Op} (h : ops = p.ops b) : ProcessingLoop b (some .validating) ops
  | fail : ProcessingLoop b (some .inProgress) [.updateBatchStatus b .failed]
  | register (n : ℕ) (requests : List BatchRequest) :
      ProcessingLoop b (some .inProgress) [.registerBatch b n, .submitBatch b requests]

structure BeingProcessed (b : BatchId) (v : View) : Prop where
  tracker : v.tracker = none
  finalizing : v.finalizing = 0
  thread : v.thread = []
  queued : v.queued = 0
  loop : ProcessingLoop b v.status v.loop

/-- What the loop can be doing about a batch in the pool. -/
inductive PoolLoop (b : BatchId) (t : BatchTracker) (status : Option BatchStatus) (finalizing : ℕ) :
    List Op → Prop
  | idle : PoolLoop b t status finalizing []
  | deliver (g : ℕ) (c : Completion) : PoolLoop b t status finalizing [.deliver g c]
  | failCheck (error : String) : PoolLoop b t status finalizing [.failCheck b error]
  | setError (error : String) (h : t.isComplete = false) :
      PoolLoop b t status finalizing [.setTrackerError b error, .updateBatchStatus b .failed]
  | failing (h : t.isFailed) (hcomplete : t.isComplete = false) :
      PoolLoop b t status finalizing [.updateBatchStatus b .failed]
  | ending (h : finalizing = 0) (hstatus : status ≠ some .completed) :
      PoolLoop b t status finalizing [.updateBatchStatus b .failed]
  | submit (requests : List BatchRequest) (h : finalizing = 0) (hstatus : status ≠ some .completed) :
      PoolLoop b t status finalizing [.submitBatch b requests]
  | cancelCheck (hstatus : status = some .failed ∨ status = some .completed) :
      PoolLoop b t status finalizing [.cancelCheck b]
  | poll (timedOut : Bool) (h : finalizing ≠ 0) : PoolLoop b t status finalizing [.poll b timedOut]
  | completing (h : finalizing = 0) (hstatus : status = some .inProgress) (hcomplete : t.isComplete) :
      PoolLoop b t status finalizing [.updateBatchStatus b .completed, .forgetBatch b]
  | forgetting (hstatus : status = some .completed) : PoolLoop b t status finalizing [.forgetBatch b]

/-- What the restart thread can be doing about a batch in the pool. -/
inductive PoolThread (b : BatchId) (t : BatchTracker) : List Op → Prop
  | idle : PoolThread b t []
  | failCheck (error : String) : PoolThread b t [.failCheck b error]
  | setError (error : String) (h : t.isComplete = false) :
      PoolThread b t [.setTrackerError b error, .updateBatchStatus b .failed]
  | failing (h : t.isFailed) (hcomplete : t.isComplete = false) :
      PoolThread b t [.updateBatchStatus b .failed]

/-- Something will still decide on the batch's completion. -/
def View.Open (b : BatchId) (v : View) : Prop :=
  v.finalizing ≠ 0 ∨ ∃ requests, v.loop = [.submitBatch b requests]

structure InPool (b : BatchId) (t : BatchTracker) (v : View) : Prop where
  tracker : v.tracker = some t
  queued : v.queued = 0
  status : v.status = some .inProgress ∨ v.status = some .failed ∨ v.status = some .completed
  loop : PoolLoop b t v.status v.finalizing v.loop
  thread : PoolThread b t v.thread
  completed : v.status = some .completed → v.finalizing = 0 ∧ t.isComplete
  failed : v.status = some .failed → v.Open b → t.isFailed ∧ t.isComplete = false

inductive Phase (b : BatchId) (v : View) : Prop
  | untracked (h : Untracked b v)
  | processing (h : BeingProcessed b v)
  | inPool (t : BatchTracker) (h : InPool b t v)

/-- The step keeps a phase and a final status. -/
def Keeps (b : BatchId) (v v' : View) : Prop :=
  Phase b v' ∧ ∀ status, v.status = some status → status.final → v'.status = some status

/-! ### Steps from a batch that is not tracked -/

theorem Keeps.of_status (h : Phase b v') (hstatus : v'.status = v.status) : Keeps b v v' :=
  ⟨h, fun _ hs _ => hstatus.trans hs⟩

theorem Untracked.loopOp (h : Untracked b v) (hloop : v.loop = op :: rest)
    (hexec : BatchExec b op v.toBatch batch next) : Keeps b v { v with toBatch := batch, loop := next ++ rest } := by
  obtain ⟨htracker, hfinalizing, hop, hthread, hqueued, hunknown⟩ := h
  rw [hloop] at hop
  cases hop with
  | deliver g c =>
    cases hexec with
    | ignored => exact .of_status (.untracked ⟨htracker, hfinalizing, .idle, hthread, hqueued, hunknown⟩) rfl
    | counted _ _ _ t ht => simp [htracker] at ht
  | cancelCheck =>
    cases hexec with
    | cancelRefused =>
      exact .of_status (.untracked ⟨htracker, hfinalizing, .idle, hthread, hqueued, hunknown⟩) rfl
    | cancelStarts _ hstatus =>
      exact .of_status (.untracked ⟨htracker, hfinalizing, .cancel hstatus, hthread, hqueued, hunknown⟩) rfl
  | cancel hstatus =>
    cases hexec with
    | updateBatchStatus _ _ old hold =>
      refine ⟨.untracked ⟨htracker, hfinalizing, .idle, hthread, ?_, by simp⟩, fun status hs hfinal => ?_⟩
      · exact hqueued.imp id fun ⟨h1, h2, _⟩ => ⟨h1, h2, .inr rfl⟩
      · -- only a status that is not final is cancelled
        rcases hstatus with hv | hv <;> cases hv.symm.trans hs <;> simp [BatchStatus.final] at hfinal
    | updateUnknown _ _ hnone => simp [hnone] at hstatus

theorem Untracked.threadOp (h : Untracked b v) (hop : v.thread = op :: rest)
    (hexec : BatchExec b op v.toBatch batch next) : Keeps b v { v with toBatch := batch, thread := next ++ rest } := by
  obtain ⟨htracker, hfinalizing, hloop, hthread, hqueued, hunknown⟩ := h
  rcases hthread with hnil | ⟨error, hcheck⟩
  · simp [hnil] at hop
  cases hop.symm.trans hcheck
  cases hexec with
  | failSkipped =>
    exact .of_status (.untracked ⟨htracker, hfinalizing, hloop, .inl rfl,
      hqueued.imp id fun ⟨h1, h2, h3⟩ => ⟨h1, rfl, h3⟩, fun _ => rfl⟩) rfl
  | failStarts _ _ t ht => simp [htracker] at ht

/-! ### Steps of `_process_batch` -/

theorem BeingProcessed.loop_ne_nil (h : BeingProcessed b v) : v.loop ≠ [] := by
  have hloop := h.loop
  generalize v.status = status at hloop
  generalize v.loop = ops at hloop
  cases hloop with
  | start p hp => cases p <;> simp [hp, Processing.ops]
  | fail | register => simp

theorem BeingProcessed.loopOp (h : BeingProcessed b v) (hop : v.loop = op :: rest)
    (hexec : BatchExec b op v.toBatch batch next) : Keeps b v { v with toBatch := batch, loop := next ++ rest } := by
  obtain ⟨htracker, hfinalizing, hthread, hqueued, hloop⟩ := h
  have hdone (v : View) (htracker : v.tracker = none) (hfinalizing : v.finalizing = 0) (hthread : v.thread = [])
      (hqueued : v.queued = 0) (hloop : v.loop = []) : Untracked b v :=
    ⟨htracker, hfinalizing, hloop ▸ .idle, .inl hthread, .inl hqueued, fun _ => hthread⟩
  rw [hop] at hloop
  generalize hstatus : v.status = status at hloop
  generalize hops : op :: rest = ops at hloop
  have hopen (status' : BatchStatus) (hs : status = some status') : status'.final = false := by
    cases hloop <;> cases hs <;> rfl
  refine ⟨?_, fun status' hs hfinal => by simp [hopen status' (hstatus ▸ hs)] at hfinal⟩
  cases hloop with
  | start p hp =>
    subst hp
    cases p <;> simp only [Processing.ops, List.cons.injEq] at hops
    all_goals
      obtain ⟨rfl, rfl⟩ := hops
      cases hexec with
      | updateUnknown _ _ hnone => simp [hstatus] at hnone
      | updateBatchStatus => ?_
    · exact .untracked (hdone _ htracker hfinalizing hthread hqueued rfl)
    · exact .processing ⟨htracker, hfinalizing, hthread, hqueued, .fail⟩
    · exact .untracked (hdone _ htracker hfinalizing hthread hqueued rfl)
    · exact .processing ⟨htracker, hfinalizing, hthread, hqueued, .register _ _⟩
  | fail =>
    obtain ⟨rfl, rfl⟩ := List.cons.inj hops
    cases hexec with
    | updateUnknown _ _ hnone => simp [hstatus] at hnone
    | updateBatchStatus => exact .untracked (hdone _ htracker hfinalizing hthread hqueued rfl)
  | register n requests =>
    obtain ⟨rfl, rfl⟩ := List.cons.inj hops
    cases hexec with
    | registerBatch =>
      refine .inPool ⟨n, 0, 0, none⟩ ⟨rfl, hqueued, .inl hstatus, .submit requests hfinalizing ?_, ?_, ?_, ?_⟩
      · simp [hstatus]
      · show PoolThread b _ v.thread
        rw [hthread]
        exact .idle
      · simp [hstatus]
      · simp [hstatus]

/-! ### Steps from a batch in the pool -/

theorem PoolLoop.mono {status : Option BatchStatus} (h : PoolLoop b t status finalizing ops)
    (hcomplete : t'.isComplete = t.isComplete)
    (hfailed : t.isFailed → t'.isFailed) : PoolLoop b t' status finalizing ops := by
  cases h with
  | idle => exact .idle
  | deliver g c => exact .deliver g c
  | failCheck error => exact .failCheck error
  | setError error h => exact .setError error (hcomplete.trans h)
  | failing h hc => exact .failing (hfailed h) (hcomplete.trans hc)
  | ending h hs => exact .ending h hs
  | submit requests h hs => exact .submit requests h hs
  | cancelCheck hs => exact .cancelCheck hs
  | poll timedOut h => exact .poll timedOut h
  | completing h hs hc => exact .completing h hs (hcomplete.trans hc)
  | forgetting hs => exact .forgetting hs

/-- What the loop is doing about a batch that cannot complete stays possible when the batch is failed. -/
theorem PoolLoop.fail {status : Option BatchStatus} (h : PoolLoop b t status finalizing ops)
    (hcomplete : t.isComplete = false)
    (hstatus : status ≠ some .completed) : PoolLoop b t (some .failed) finalizing ops := by
  cases h with
  | idle => exact .idle
  | deliver g c => exact .deliver g c
  | failCheck error => exact .failCheck error
  | setError error h => exact .setError error h
  | failing h hc => exact .failing h hc
  | ending h => exact .ending h (by simp)
  | submit requests h => exact .submit requests h (by simp)
  | cancelCheck => exact .cancelCheck (.inl rfl)
  | poll timedOut h => exact .poll timedOut h
  | completing _ _ hc => simp [hcomplete] at hc
  | forgetting hs => exact absurd hs hstatus

theorem PoolThread.mono (h : PoolThread b t ops)
    (hopen : t.isComplete = false → (t.isFailed ∨ ∃ op ∈ ops, op.setsTrackerError) → t'.isComplete = false)
    (hfailed : t.isFailed → t'.isFailed) : PoolThread b t' ops := by
  cases h with
  | idle => exact .idle
  | failCheck error => exact .failCheck error
  | setError error h => exact .setError error (hopen h (.inr ⟨_, List.mem_cons_self, rfl⟩))
  | failing h hc => exact .failing (hfailed h) (hopen hc (.inl h))

namespace InPool

section

variable (h : InPool b t v)
include h

theorem withLoop (hloop : PoolLoop b t v.status v.finalizing ops)
    (hops : ∀ requests, ops ≠ [.submitBatch b requests]) : InPool b t { v with loop := ops } :=
  { h with
    loop := hloop
    failed := fun hs hopen => h.failed hs (hopen.imp id fun ⟨r, hr⟩ => absurd hr (hops r)) }

theorem withThread (hthread : PoolThread b t ops) : InPool b t { v with thread := ops } := { h with thread := hthread }

theorem idle : InPool b t { v with loop := [] } := h.withLoop .idle (by simp)

theorem not_completed (hcomplete : t.isComplete = false) :
    v.status ≠ some .completed := fun hs => by simp [(h.completed hs).2] at hcomplete

theorem status_ne_none : v.status ≠ none := by
  rcases h.status with hv | hv | hv <;> simp [hv]

/-- The status becomes `failed` when the batch cannot complete any more. -/
theorem fail (hstatus : v.status ≠ some .completed) (hopen : v.Open b → t.isFailed ∧ t.isComplete = false)
    (hloop : PoolLoop b t (some .failed) v.finalizing v.loop) : Keeps b v { v with status := some .failed } := by
  refine ⟨.inPool t ⟨h.tracker, h.queued, .inr (.inl rfl), hloop, h.thread, by simp, fun _ => hopen⟩,
    fun status hs hfinal => ?_⟩
  rcases h.status with hv | hv | hv
  · cases hv.symm.trans hs
    simp [BatchStatus.final] at hfinal
  · exact hv.symm.trans hs
  · exact absurd hv hstatus

omit h in
theorem complete_mono (hcomplete : t.isComplete) : t.count.isComplete := by
  rw [BatchTracker.isComplete, decide_eq_true_eq] at hcomplete ⊢
  dsimp only [BatchTracker.count]
  omega

/-- A completion is counted that is not the last one of a batch that is being failed. -/
theorem counted (hsound : v.Sound) (hloop : v.loop = []) : InPool b t.count { v with tracker := some t.count } := by
  have hincomplete : (t.isFailed ∨ ∃ op ∈ v.thread, op.setsTrackerError) → t.count.isComplete = false := by
    have := hsound t h.tracker
    grind
  refine ⟨rfl, h.queued, h.status, ?_, ?_, fun hs => ?_, fun hs hopen => ?_⟩
  · show PoolLoop b _ _ _ v.loop
    rw [hloop]
    exact .idle
  · exact h.thread.mono (fun _ => hincomplete) id
  · exact ⟨(h.completed hs).1, complete_mono (h.completed hs).2⟩
  · have hfailed := (h.failed hs hopen).1
    exact ⟨hfailed, hincomplete (.inl hfailed)⟩

/-- The error of a batch that cannot complete any more is set. -/
theorem setError {loop thread : List Op} (hcomplete : t.isComplete = false) (error : String)
    (hloop : PoolLoop b { t with error := some error } v.status v.finalizing loop)
    (hthread : PoolThread b { t with error := some error } thread) :
    InPool b { t with error := some error }
      { v with tracker := some { t with error := some error }, loop := loop, thread := thread } :=
  ⟨rfl, h.queued, h.status, hloop, hthread, fun hs => absurd hs (h.not_completed hcomplete),
    fun _ _ => ⟨rfl, hcomplete⟩⟩

theorem inProgress_of_poll (hfinalizing : v.finalizing ≠ 0) (hcomplete : t.isComplete) :
    v.status = some .inProgress := by
  rcases h.status with hv | hv | hv
  · exact hv
  · have := (h.failed hv (.inl hfinalizing)).2
    simp [hcomplete] at this
  · exact absurd (h.completed hv).1 hfinalizing

theorem loopOp (hop : v.loop = op :: rest) (hguard : ∀ g c, op = .deliver g c → v.Sound)
    (hexec : BatchExec b op v.toBatch batch next) : Keeps b v { v with toBatch := batch, loop := next ++ rest } := by
  have hloop := h.loop
  rw [hop] at hloop
  cases hloop with
  | deliver g c =>
    cases hexec with
    | ignored => exact .of_status (.inPool t h.idle) rfl
    | counted _ _ _ t' ht' =>
      cases h.tracker.symm.trans ht'
      exact .of_status (.inPool _ (h.idle.counted (hguard g c rfl) rfl)) rfl
  | failCheck error =>
    cases hexec with
    | failSkipped => exact .of_status (.inPool t h.idle) rfl
    | failStarts _ _ t' ht' hcomplete =>
      cases h.tracker.symm.trans ht'
      exact .of_status (.inPool t (h.withLoop (.setError error hcomplete) (by simp))) rfl
  | setError error hcomplete =>
    cases hexec with
    | setTrackerError _ _ t' ht' =>
      cases h.tracker.symm.trans ht'
      exact .of_status (.inPool _ (h.setError hcomplete error (.failing rfl hcomplete)
        (h.thread.mono (fun hc _ => hc) fun _ => rfl))) rfl
    | setErrorUnknown _ _ hnone => simp [h.tracker] at hnone
  | failing hfailed hcomplete =>
    cases hexec with
    | updateBatchStatus =>
      exact h.idle.fail (h.not_completed hcomplete) (fun _ => ⟨hfailed, hcomplete⟩) .idle
    | updateUnknown _ _ hnone => exact absurd hnone h.status_ne_none
  | ending hfinalizing hstatus =>
    cases hexec with
    | updateBatchStatus =>
      refine h.idle.fail hstatus (fun hopen => ?_) .idle
      rcases hopen with hne | ⟨_, hnil⟩
      · exact absurd hfinalizing hne
      · simp at hnil
    | updateUnknown _ _ hnone => exact absurd hnone h.status_ne_none
  | submit requests hfinalizing hstatus =>
    cases hexec with
    | submitRejected =>
      exact .of_status (.inPool t (h.withLoop (.ending hfinalizing hstatus) (by simp))) rfl
    | submitAccepted =>
      exact .of_status (.inPool t ⟨h.tracker, h.queued, h.status, .idle, h.thread,
        fun hs => absurd hs hstatus, fun hs _ => h.failed hs (.inr ⟨requests, hop⟩)⟩) rfl
  | cancelCheck hstatus =>
    cases hexec with
    | cancelRefused => exact .of_status (.inPool t h.idle) rfl
    | cancelStarts _ hopen => grind
  | poll timedOut hfinalizing =>
    cases hexec with
    | pollWaits => exact .of_status (.inPool t h.idle) rfl
    | pollCompletes _ _ t' ht' hcomplete =>
      cases h.tracker.symm.trans ht'
      have hstatus := h.inProgress_of_poll hfinalizing hcomplete
      exact .of_status (.inPool t ⟨h.tracker, h.queued, h.status, .completing rfl hstatus hcomplete,
        h.thread, fun hs => by simp [hstatus] at hs, fun hs => by simp [hstatus] at hs⟩) rfl
    | pollFails =>
      have hstatus : v.status ≠ some .completed := fun hs => hfinalizing (h.completed hs).1
      refine .of_status (.inPool t ⟨h.tracker, h.queued, h.status, .ending rfl hstatus, h.thread,
        fun hs => absurd hs hstatus, fun hs hopen => ?_⟩) rfl
      exact h.failed hs (.inl hfinalizing)
  | completing hfinalizing hstatus hcomplete =>
    cases hexec with
    | updateBatchStatus =>
      refine ⟨.inPool t ⟨h.tracker, h.queued, .inr (.inr rfl), .forgetting rfl, h.thread,
        fun _ => ⟨hfinalizing, hcomplete⟩, by simp⟩, fun status hs hfinal => ?_⟩
      cases hstatus.symm.trans hs
      simp [BatchStatus.final] at hfinal
    | updateUnknown _ _ hnone => exact absurd hnone h.status_ne_none
  | forgetting hstatus =>
    obtain ⟨hfinalizing, hcomplete⟩ := h.completed hstatus
    cases hexec with
    | forgetBatch =>
      refine .of_status (.untracked ⟨rfl, hfinalizing, .idle, ?_, .inl h.queued,
        fun hnone => absurd hnone h.status_ne_none⟩) rfl
      -- a restart cannot be failing a batch that is complete
      have hthread := h.thread
      show v.thread = [] ∨ _
      generalize v.thread = ops at hthread
      cases hthread with
      | idle => exact .inl rfl
      | failCheck error => exact .inr ⟨error, rfl⟩
      | setError _ hc => simp [hcomplete] at hc
      | failing _ hc => simp [hcomplete] at hc

theorem threadOp (hop : v.thread = op :: rest) (hexec : BatchExec b op v.toBatch batch next) :
    Keeps b v { v with toBatch := batch, thread := next ++ rest } := by
  have hthread := h.thread
  rw [hop] at hthread
  cases hthread with
  | failCheck error =>
    cases hexec with
    | failSkipped => exact .of_status (.inPool t (h.withThread .idle)) rfl
    | failStarts _ _ t' ht' hcomplete =>
      cases h.tracker.symm.trans ht'
      exact .of_status (.inPool t (h.withThread (.setError error hcomplete))) rfl
  | setError error hcomplete =>
    cases hexec with
    | setTrackerError _ _ t' ht' =>
      cases h.tracker.symm.trans ht'
      exact .of_status (.inPool _ (h.setError hcomplete error (h.loop.mono rfl fun _ => rfl)
        (.failing rfl hcomplete))) rfl
    | setErrorUnknown _ _ hnone => simp [h.tracker] at hnone
  | failing hfailed hcomplete =>
    have hstatus := h.not_completed hcomplete
    cases hexec with
    | updateBatchStatus =>
      exact (h.withThread .idle).fail hstatus (fun _ => ⟨hfailed, hcomplete⟩) (h.loop.fail hcomplete hstatus)
    | updateUnknown _ _ hnone => exact absurd hnone h.status_ne_none

end

end InPool

/-! ### Every step -/

/-- A guarded step keeps the phase of a batch and a final status. -/
theorem ViewStep.phase (hstep : ViewStep True b v v') (h : Phase b v) : Keeps b v v' := by
  cases hstep with
  | loopOp op rest batch next hloop hguard hexec =>
    cases h with
    | untracked h => exact h.loopOp hloop hexec
    | processing h => exact h.loopOp hloop hexec
    | inPool t h => exact h.loopOp hloop (hguard trivial) hexec
  | threadOp op rest batch next hthread hexec =>
    cases h with
    | untracked h => exact h.threadOp hthread hexec
    | processing h => simp [h.thread] at hthread
    | inPool t h => exact h.threadOp hthread hexec
  | failAll error hloop htracked =>
    cases h with
    | untracked h | processing h => simp [h.tracker] at htracked
    | inPool t h => exact .of_status (.inPool t (h.withLoop (.failCheck error) (by simp))) rfl
  | failInFlight error hthread htracked =>
    cases h with
    | untracked h | processing h => simp [h.tracker] at htracked
    | inPool t h => exact .of_status (.inPool t (h.withThread (.failCheck error))) rfl
  | listen g c hloop =>
    cases h with
    | untracked h => exact .of_status (.untracked { h with loop := .deliver g c }) rfl
    | processing h => exact absurd hloop h.loop_ne_nil
    | inPool t h => exact .of_status (.inPool t (h.withLoop (.deliver g c) (by simp))) rfl
  | create hloop hnone =>
    cases h with
    | untracked h =>
      have hthread := h.unknown hnone
      have hqueued : v.queued = 0 := h.queued.resolve_right fun hq => by simp [hnone] at hq
      refine ⟨.untracked ⟨h.tracker, h.finalizing, ?_, .inl hthread,
        .inr ⟨by simp [hqueued], hthread, .inl rfl⟩, by simp⟩, by simp [hnone]⟩
      show UntrackedLoop b _ v.loop
      rw [hloop]
      exact .idle
    | processing h => exact absurd hloop h.loop_ne_nil
    | inPool t h => exact absurd hnone h.status_ne_none
  | skip hloop hqueued =>
    cases h with
    | untracked h =>
      obtain ⟨hone, hthread, -⟩ := h.queued.resolve_left hqueued
      exact .of_status (.untracked { h with queued := .inl (by simp [hone]) }) rfl
    | processing h | inPool _ h => exact absurd h.queued hqueued
  | process p status hloop hqueued hstatus hlive =>
    cases h with
    | untracked h =>
      obtain ⟨hone, hthread, hv⟩ := h.queued.resolve_left hqueued
      have hvalidating : v.status = some .validating := hv.resolve_right fun hc => by simp_all
      refine .of_status (.processing ⟨h.tracker, h.finalizing, hthread, by simp [hone], ?_⟩) rfl
      show ProcessingLoop b v.status _
      rw [hvalidating]
      exact .start p rfl
    | processing h | inPool _ h => exact absurd h.queued hqueued
  | poll timedOut hloop hfinalizing =>
    cases h with
    | untracked h | processing h => exact absurd h.finalizing hfinalizing
    | inPool t h => exact .of_status (.inPool t (h.withLoop (.poll timedOut hfinalizing) (by simp))) rfl
  | cancel hloop hguard =>
    cases h with
    | untracked h => exact .of_status (.untracked { h with loop := .cancelCheck }) rfl
    | processing h => exact absurd hloop h.loop_ne_nil
    | inPool t h =>
      have hstatus := (hguard trivial).resolve_left (by simp [h.tracker])
      exact .of_status (.inPool t (h.withLoop (.cancelCheck hstatus) (by simp))) rfl

/-! ### Every run -/

variable {s s' s₀ : State}

/-- A run all of whose steps are guarded. -/
inductive GuardedRun (cfg : Config) (s₀ : State) : State → Prop
  | start : GuardedRun cfg s₀ s₀
  | next {s s' : State} (label : Label) (run : GuardedRun cfg s₀ s) (hguard : Guarded s label)
      (hstep : step cfg label s = some s') : GuardedRun cfg s₀ s'

/-- What holds in every state of a guarded run. -/
structure Orderly (s : State) : Prop where
  solo : Solo s
  thread : ThreadOk s
  phase : ∀ b, Phase b (s.view b)

theorem Orderly.step (h : Orderly s) (hguard : Guarded s label) (hstep : step cfg label s = some s') :
    Orderly s' ∧ ∀ b status, s.sched.status b = some status → status.final → s'.sched.status b = some status := by
  have hkeeps (b : BatchId) : Keeps b (s.view b) (s'.view b) := by
    rcases step_view (b := b) h.solo h.thread (fun _ : True => hguard) hstep with hsame | hview
    · exact .of_status (hsame ▸ h.phase b) (by rw [hsame])
    · exact hview.phase (h.phase b)
  exact ⟨⟨h.solo.step hstep, h.thread.step hstep, fun b => (hkeeps b).1⟩,
    fun b status hs hfinal => (hkeeps b).2 status hs hfinal⟩

theorem GuardedRun.orderly (run : GuardedRun cfg s₀ s) (h₀ : Orderly s₀) : Orderly s := by
  induction run with
  | start => exact h₀
  | next label _ hguard hstep ih => exact (ih.step hguard hstep).1

theorem initialState_orderly {maxIntakeCapacity : ℕ} {status : BatchId → Option BatchStatus} :
    Orderly (initialState maxIntakeCapacity status) :=
  ⟨.of_no_drains nofun, nofun, fun _ =>
    .untracked ⟨rfl, rfl, .idle, .inl rfl, .inl rfl, fun _ => rfl⟩⟩

/-- In every run in which no tracked batch is cancelled while it is in progress, and in which no completion that is
routed for a batch that is being failed completes it, a status that is final stays as it is. -/
theorem final_status_kept {maxIntakeCapacity : ℕ} {status : BatchId → Option BatchStatus}
    (run : GuardedRun cfg (initialState maxIntakeCapacity status) s) (later : GuardedRun cfg s s') {b : BatchId}
    {final : BatchStatus} (hs : s.sched.status b = some final) (hfinal : final.final) :
    s'.sched.status b = some final := by
  induction later with
  | start => exact hs
  | next label later hguard hstep ih =>
    have horderly := later.orderly (run.orderly initialState_orderly)
    exact (horderly.step hguard hstep).2 b final ih hfinal

/-! ### Two runs -/

/-- The guarded run that the labels name, if there is one. -/
def guardedLabels (cfg : Config) : List Label → State → Option State
  | [], s => some s
  | label :: labels, s => if Guarded s label then (step cfg label s).bind (guardedLabels cfg labels) else none

theorem guardedLabels_run {labels : List Label} (h₀ : GuardedRun cfg s₀ s)
    (h : guardedLabels cfg labels s = some s') : GuardedRun cfg s₀ s' := by
  induction labels generalizing s with
  | nil =>
    cases h
    exact h₀
  | cons label labels ih =>
    simp only [guardedLabels] at h
    split at h
    · obtain ⟨s₁, hstep, hrest⟩ := bind_eq_some_iff.1 h
      exact ih (h₀.next label ‹_› hstep) hrest
    · cases h

/-- A batch that was completed stays so while a restart fails the batches in flight and its client tries to
cancel it. -/
theorem completed_batch_stays :
    ∃ s s', GuardedRun plainConfig (initialState 10 fun _ => none) s ∧ GuardedRun plainConfig s s' ∧
      s.sched.status 7 = some .completed ∧ s'.thread = [] ∧ s'.sched.status 7 = some .completed := by
  obtain ⟨s, hs⟩ : ∃ s, guardedLabels plainConfig (admitAll [chatRequest 1] ++ complete 1 ++ finalizeOne)
      (initialState 10 fun _ => none) = some s := isSome_iff_exists.1 (by decide +kernel)
  obtain ⟨s', hs'⟩ : ∃ s', guardedLabels plainConfig
      [.failInFlight "restart", .threadOp, .cancel 7, .loopOp, .threadOp] s = some s' := by
    refine isSome_iff_exists.1 ?_
    cases hs
    decide +kernel
  have run := guardedLabels_run .start hs
  have later := guardedLabels_run .start hs'
  have hcompleted : s.sched.status 7 = some .completed := by
    cases hs
    decide +kernel
  refine ⟨s, s', run, later, hcompleted, ?_, final_status_kept run later hcompleted rfl⟩
  cases hs
  cases hs'
  rfl

/-- A batch that its client cancelled is finalized as completed when its last completion arrives. -/
theorem cancelled_batch_completes :
    ∃ trace trace' s s', Run plainConfig (initialState 10 fun _ => none) trace s ∧
      Run plainConfig s trace' s' ∧ s.sched.status 7 = some .cancelled ∧ s'.sched.status 7 = some .completed := by
  obtain ⟨⟨trace, s⟩, hs⟩ : ∃ p, runLabels plainConfig (admitAll [chatRequest 1] ++ [.cancel 7, .loopOp, .loopOp])
      (initialState 10 fun _ => none) = some p := isSome_iff_exists.1 (by decide +kernel)
  obtain ⟨⟨trace', s'⟩, hs'⟩ : ∃ p, runLabels plainConfig (complete 1 ++ finalizeOne) s = some p := by
    refine isSome_iff_exists.1 ?_
    cases hs
    decide +kernel
  refine ⟨trace, trace', s, s', runLabels_run hs, runLabels_run hs', ?_⟩
  cases hs
  cases hs'
  exact ⟨by decide +kernel, by decide +kernel⟩

end Batchgen.Server
