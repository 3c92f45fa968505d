import Batchgen.Server.BatchLife
import Batchgen.Server.Delivery

/-!
# The ledger of a batch

From what the output of a batch is made: its metadata, its incremental lines and the requests counted for it.

* `Stage.step` — a batch is handed to the pools at most once;
* `Op.exec_ledger` — which operations leave the ledger alone;
* `step_ledger` — every step is an operation, starts a task, or leaves loop and accounts alone.
-/

namespace Batchgen.Server

open Function List

variable {cfg : Config} {b b' : BatchId} {v v' : View} {s s' : State} {rest next : List Op} {error : String} {op : Op}
  {batch : Batch} {c : Completion} {sched sched' : Scheduler}

/-! ### How often a batch is handed to the pools -/

/-- The operations that hand a batch to the pools. -/
def Op.Starts : Op → Prop
  | .registerBatch _ _ => True
  | .submitBatch _ _ => True
  | _ => False

/-- The way of a batch to the pools. -/
inductive Stage (b : BatchId) (v : View) : Prop
  | waiting (htracker : v.tracker = none) (hfinalizing : v.finalizing = 0)
      (hqueued : v.status = none ∧ v.queued = 0 ∨ v.status ≠ none ∧ v.queued = 1)
      (hloop : ∀ op ∈ v.loop, ¬op.Starts)
  | starting (requests : List BatchRequest) (htracker : v.tracker = none) (hfinalizing : v.finalizing = 0)
      (hstatus : v.status ≠ none) (hqueued : v.queued = 0)
      (hloop : v.loop = (Processing.accepted requests).ops b ∨
        v.loop = [.registerBatch b requests.length, .submitBatch b requests])
  | submitting (requests : List BatchRequest) (t : BatchTracker) (htracker : v.tracker = some t)
      (htotal : t.totalRequests = requests.length) (hcompleted : t.completedRequests = 0)
      (hfailed : t.failedRequests = 0) (hfinalizing : v.finalizing = 0) (hstatus : v.status ≠ none)
      (hqueued : v.queued = 0) (hloop : v.loop = [.submitBatch b requests])
  | late (hstatus : v.status ≠ none) (hqueued : v.queued = 0) (hloop : ∀ op ∈ v.loop, ¬op.Starts)

/-- The batch was not handed to the pools yet. -/
def View.Early (v : View) : Prop :=
  v.status = none ∨ v.queued ≠ 0 ∨ ∃ op ∈ v.loop, op.Starts

/-- What an operation about the batch never does, apart from the ones that hand it over. -/
theorem BatchExec.of_not_starts {batch' : Batch} (h : BatchExec b op batch batch' next) (hop : ¬op.Starts) :
    (batch.tracker = none → batch'.tracker = none) ∧ (batch.finalizing = 0 → batch'.finalizing = 0) ∧
      (batch'.status = none ↔ batch.status = none) ∧ batch'.queued = batch.queued ∧ ∀ op ∈ next, ¬op.Starts := by
  cases h <;> simp_all [Op.Starts]

theorem Stage.loopOp (h : Stage b v) (hop : v.loop = op :: rest) (hexec : BatchExec b op v.toBatch batch next) :
    Stage b { v with toBatch := batch, loop := next ++ rest } := by
  have hnext {ops : List Op} (hn : ∀ op ∈ next, ¬op.Starts) (hl : ∀ op ∈ v.loop, ¬op.Starts)
      (hops : ops = next ++ rest) : ∀ op ∈ ops, ¬op.Starts := by
    subst hops
    intro op' hop'
    rcases mem_append.1 hop' with h' | h'
    · exact hn op' h'
    · exact hl op' (by simp [hop, h'])
  cases h with
  | waiting htracker hfinalizing hqueued hloop =>
    obtain ⟨h1, h2, h3, h4, h5⟩ := hexec.of_not_starts (hloop op (by simp [hop]))
    exact .waiting (h1 htracker) (h2 hfinalizing) (by simpa [h3, h4] using hqueued) (hnext h5 hloop rfl)
  | late hstatus hqueued hloop =>
    obtain ⟨h1, h2, h3, h4, h5⟩ := hexec.of_not_starts (hloop op (by simp [hop]))
    exact .late (by simpa [h3] using hstatus) (by simpa [h4] using hqueued) (hnext h5 hloop rfl)
  | starting requests htracker hfinalizing hstatus hqueued hloop =>
    rcases hloop with hloop | hloop <;> rw [hop] at hloop <;> obtain ⟨rfl, rfl⟩ := List.cons.inj hloop
    · cases hexec with
      | updateBatchStatus => exact .starting requests htracker hfinalizing (by simp) hqueued (.inr rfl)
      | updateUnknown _ _ hnone => exact absurd hnone hstatus
    · cases hexec with
      | registerBatch => exact .submitting requests _ rfl rfl rfl rfl hfinalizing hstatus hqueued rfl
  | submitting requests t htracker htotal hcompleted hfailed hfinalizing hstatus hqueued hloop =>
    rw [hop] at hloop
    obtain ⟨rfl, rfl⟩ := List.cons.inj hloop
    cases hexec with
    | submitRejected => exact .late hstatus hqueued (by simp [Op.Starts])
    | submitAccepted => exact .late hstatus hqueued (by simp)

theorem Stage.threadOp (h : Stage b v) (hoff : op.OffLoop) (hexec : BatchExec b op v.toBatch batch next) :
    Stage b { v with toBatch := batch, thread := next ++ rest } := by
  have hop : ¬op.Starts := by cases op <;> simp_all [Op.OffLoop, Op.Starts]
  obtain ⟨h1, h2, h3, h4, h5⟩ := hexec.of_not_starts hop
  cases h with
  | waiting htracker hfinalizing hqueued hloop =>
    exact .waiting (h1 htracker) (h2 hfinalizing) (by simpa [h3, h4] using hqueued) hloop
  | late hstatus hqueued hloop => exact .late (by simpa [h3] using hstatus) (by simpa [h4] using hqueued) hloop
  | starting requests htracker hfinalizing hstatus hqueued hloop =>
    exact .starting requests (h1 htracker) (h2 hfinalizing) (by simpa [h3] using hstatus)
      (by simpa [h4] using hqueued) hloop
  | submitting requests t htracker htotal hcompleted hfailed hfinalizing hstatus hqueued hloop =>
    have hcounts : ∃ t', batch.tracker = some t' ∧ t'.totalRequests = t.totalRequests ∧
        t'.completedRequests = t.completedRequests ∧ t'.failedRequests = t.failedRequests := by
      cases hexec <;> simp_all [Op.OffLoop]
    obtain ⟨t', ht', htotal', hcompleted', hfailed'⟩ := hcounts
    exact .submitting requests t' ht' (by omega) (by omega) (by omega) (h2 hfinalizing)
      (by simpa [h3] using hstatus) (by simpa [h4] using hqueued) hloop

theorem Stage.step (hstep : ViewStep False b v v') (hthread : ∀ op ∈ v.thread, op.OffLoop) (h : Stage b v) :
    Stage b v' := by
  have hidle {status : Option BatchStatus} {queued : ℕ} {loop : List Op} (hloop : v.loop = [])
      (hops : ∀ op ∈ loop, ¬op.Starts)
      (hlate : v.status ≠ none → v.queued = 0 → status ≠ none ∧ queued = 0)
      (hwaiting : (v.status = none ∧ v.queued = 0 ∨ v.status ≠ none ∧ v.queued = 1) →
        (status = none ∧ queued = 0 ∨ status ≠ none ∧ queued = 1) ∨ status ≠ none ∧ queued = 0) :
      Stage b { v with status := status, queued := queued, loop := loop } := by
    cases h with
    | waiting htracker hfinalizing hqueued =>
      rcases hwaiting hqueued with hq | ⟨hs, hq⟩
      · exact .waiting htracker hfinalizing hq hops
      · exact .late hs hq hops
    | late hstatus hqueued =>
      obtain ⟨hs, hq⟩ := hlate hstatus hqueued
      exact .late hs hq hops
    | starting _ _ _ _ _ hl => simp [hloop, Processing.ops] at hl
    | submitting _ _ _ _ _ _ _ _ _ hl => simp [hloop] at hl
  cases hstep with
  | loopOp op rest batch next hloop _ hexec => exact h.loopOp hloop hexec
  | threadOp op rest batch next hops hexec => exact h.threadOp (hthread op (by simp [hops])) hexec
  | failAll error hloop => exact hidle hloop (by simp [Op.Starts]) (fun h1 h2 => ⟨h1, h2⟩) .inl
  | failInFlight error hops =>
    cases h with
    | waiting h1 h2 h3 h4 => exact .waiting h1 h2 h3 h4
    | late h1 h2 h3 => exact .late h1 h2 h3
    | starting r h1 h2 h3 h4 h5 => exact .starting r h1 h2 h3 h4 h5
    | submitting r t h1 h2 h3 h4 h5 h6 h7 h8 => exact .submitting r t h1 h2 h3 h4 h5 h6 h7 h8
  | listen g c hloop => exact hidle hloop (by simp [Op.Starts]) (fun h1 h2 => ⟨h1, h2⟩) .inl
  | create hloop hnone =>
    exact hidle hloop (by simp [hloop]) (fun h1 _ => absurd hnone h1) fun hq =>
      .inl (.inr ⟨by simp, by rcases hq with hq | hq <;> simp_all⟩)
  | skip hloop hqueued =>
    exact hidle hloop (by simp [hloop]) (fun _ h2 => absurd h2 hqueued) fun hq =>
      .inr (by rcases hq with hq | hq <;> simp_all)
  | process p status hloop hqueued hstatus =>
    cases h with
    | waiting htracker hfinalizing hq =>
      have hone : v.queued = 1 := by rcases hq with hq | hq <;> simp_all
      cases p with
      | accepted requests =>
        exact .starting requests htracker hfinalizing (by simp [hstatus]) (by simp [hone]) (.inl rfl)
      | inputMissing | invalid | raises =>
        exact .late (by simp [hstatus]) (by simp [hone]) (by simp [Processing.ops, Op.Starts])
    | late _ hq | starting _ _ _ _ hq | submitting _ _ _ _ _ _ _ _ hq => exact absurd hq hqueued
  | poll timedOut hloop => exact hidle hloop (by simp [Op.Starts]) (fun h1 h2 => ⟨h1, h2⟩) .inl
  | cancel hloop => exact hidle hloop (by simp [Op.Starts]) (fun h1 h2 => ⟨h1, h2⟩) .inl

/-! ### The ledger of a batch -/

/-- The parts of the scheduler from which the output of a batch is made are unchanged. -/
structure SameLedger (b : BatchId) (s s' : Scheduler) : Prop where
  info : s'.poolRequestMeta b = s.poolRequestMeta b
  lines : s'.incremental b = s.incremental b
  output : s'.output b = s.output b
  counted : ∀ r, (b, r) ∈ s'.schedulingPool.completedRequests ↔
    (b, r) ∈ s.schedulingPool.completedRequests

theorem SameLedger.rfl {s : Scheduler} : SameLedger b s s := ⟨by rfl, by rfl, by rfl, fun _ => .rfl⟩

/-- The operations that write to the ledger of the batch. -/
def Op.books (b : BatchId) : Op → Bool
  | .submitBatch b' _ | .forgetBatch b' | .writeOutput b' => b' = b
  | .deliver _ c => c.batchId = some b
  | _ => false

namespace SchedulingPool

variable {p : SchedulingPool}

theorem setError_completedRequests (b : BatchId) (error : String) :
    (p.setError b error).completedRequests = p.completedRequests := by
  unfold setError
  split <;> rfl

theorem markRequestCompleted_of_mem {r : Option RequestId} {b : BatchId} (h : (b, r) ∈ p.completedRequests) :
    p.markRequestCompleted r b = p := by
  simp [markRequestCompleted, h]

theorem mem_markRequestCompleted {r : Option RequestId} {b : BatchId} {k : BatchId × Option RequestId} :
    k ∈ (p.markRequestCompleted r b).completedRequests ↔ k = (b, r) ∨ k ∈ p.completedRequests := by
  unfold markRequestCompleted
  split
  · exact ⟨.inr, fun h => h.elim (fun heq => heq ▸ ‹_›) id⟩
  · dsimp only
    split <;> simp

end SchedulingPool

theorem SameLedger.of_pool {s : Scheduler} {pool : SchedulingPool}
    (h : pool.completedRequests = s.schedulingPool.completedRequests) :
    SameLedger b s { s with schedulingPool := pool } :=
  ⟨by rfl, by rfl, by rfl, fun r => by rw [h]⟩

theorem SameLedger.deliver {s : Scheduler} (hb : c.batchId ≠ some b) : SameLedger b s (s.deliver cfg c) := by
  obtain ⟨freed, pool, _, _, _, lines, hfreed, hpool, hlines, heq⟩ := s.deliver_frame cfg c
  rw [heq]
  refine ⟨by rfl, hlines b (.inl hb), by rfl, fun r => ?_⟩
  have hcompleted : freed.completedRequests = s.schedulingPool.completedRequests := by
    rcases hfreed with rfl | ⟨r, rfl⟩
    · rfl
    · exact SchedulingPool.freeSlot_completedRequests
  rw [← hcompleted]
  rcases hpool with rfl | ⟨r', b', hb', rfl⟩
  · exact .rfl
  · have hne : b ≠ b' := fun h => hb (by rw [hb', h])
    simp [SchedulingPool.mem_markRequestCompleted, hne]

/-- Every other operation leaves the ledger alone. -/
theorem Op.exec_ledger (cfg : Config) (s : Scheduler) (hop : op.books b = false) :
    SameLedger b s (op.exec cfg s).1 := by
  cases op with
  | deliver g c => exact .deliver (by simpa [Op.books] using hop)
  | submitBatch b' requests =>
    have hne : b ≠ b' := fun h => by simp [Op.books, h] at hop
    simp only [Op.exec]
    split
    · exact .rfl
    · exact ⟨by simp [update_of_ne hne], by rfl, by rfl, fun _ => .rfl⟩
  | forgetBatch b' =>
    have hne : b ≠ b' := fun h => by simp [Op.books, h] at hop
    exact ⟨by simp [Op.exec, update_of_ne hne], by rfl, by rfl, fun _ => by
      simp [Op.exec, SchedulingPool.removeBatchTracker, hne]⟩
  | writeOutput b' =>
    have hne : b ≠ b' := fun h => by simp [Op.books, h] at hop
    exact ⟨by rfl, by rfl, by simp [Op.exec, Scheduler.writeOutput, update_of_ne hne], fun _ => .rfl⟩
  | setCapacity total =>
    simp only [Op.exec]
    split
    · exact .rfl
    · exact .of_pool (SchedulingPool.setCapacity_sameCounts total).2
  | setTrackerError b' error => exact .of_pool (SchedulingPool.setError_completedRequests b' error)
  | registerBatch | clearActiveSlots => exact .of_pool (by rfl)
  | allocateSlots drained rest =>
    cases rest with
    | nil =>
      simp only [Op.exec]
      split
      · exact ⟨by rfl, by rfl, by rfl, fun _ => by
          rw [(SchedulingPool.foldl_freeSlot_sameCounts drained).2]⟩
      · exact .rfl
    | cons entry rest =>
      simp only [Op.exec]
      split
      · exact .of_pool (SchedulingPool.allocateSlot_sameCounts ‹_›).2
      · exact .rfl
  | poll b' timedOut =>
    simp only [Op.exec]
    split <;> repeat' split
    all_goals exact ⟨by rfl, by rfl, by rfl, fun _ => .rfl⟩
  | failCheck b' error =>
    simp only [Op.exec]
    split
    · exact .rfl
    · split <;> exact .rfl
  | updateBatchStatus | cancelCheck =>
    simp only [Op.exec]
    split <;> exact ⟨by rfl, by rfl, by rfl, fun _ => .rfl⟩
  | removeBatchEntries | closeTurnGate | callCloseTurnGate | selectFromIntake =>
    exact ⟨by rfl, by rfl, by rfl, fun _ => .rfl⟩

/-! ### Steps, as the ledger sees them -/

/-- The parts of the scheduler that only operations change. -/
def Scheduler.accounts (s : Scheduler) :
    SchedulingPool × List BatchId × (BatchId → Option (List BatchRequest)) × (BatchId → List ResultItem) ×
      (BatchId → Option (List ResultItem)) :=
  (s.schedulingPool, s.finalizers, s.poolRequestMeta, s.incremental, s.output)

/-- The operations a task starts with: none of a finalization, and a poll only by itself. -/
def Opening (b : BatchId) (s : Scheduler) (ops : List Op) : Prop :=
  (∀ op ∈ ops, ¬op.Completes b) ∧
    ∀ timedOut, .poll b timedOut ∈ ops → ops = [.poll b timedOut] ∧ b ∈ s.finalizers

theorem Opening.not_completing {b : BatchId} {s : Scheduler} {ops : List Op} (h : Opening b s ops) :
    ¬∃ op ∈ ops, op.Completes b := by
  rintro ⟨op, hop, hcompletes⟩
  exact h.1 op hop hcompletes

/-- A step is an operation, or it starts a task, or it leaves the loop and the accounts alone. -/
inductive LedgerStep (cfg : Config) (b : BatchId) (s : State) : Label → State → Prop
  | loopOp (op : Op) (rest : List Op) (hloop : s.loop = op :: rest) :
      LedgerStep cfg b s .loopOp
        { s with sched := (op.exec cfg s.sched).1, loop := (op.exec cfg s.sched).2 ++ rest }
  | threadOp (op : Op) (rest : List Op) (hthread : s.thread = op :: rest) :
      LedgerStep cfg b s .threadOp
        { s with sched := (op.exec cfg s.sched).1, thread := (op.exec cfg s.sched).2 ++ rest }
  | opens (label : Label) (s' : State) (hlabel : label ≠ .loopOp)
      (haccounts : s'.sched.accounts = s.sched.accounts) (hops : Opening b s.sched s'.loop) :
      LedgerStep cfg b s label s'
  | quiet (label : Label) (s' : State) (hlabel : label ≠ .loopOp)
      (haccounts : s'.sched.accounts = s.sched.accounts) (hloop : s'.loop = s.loop) :
      LedgerStep cfg b s label s'

theorem Opening.nil : Opening b sched [] := ⟨by simp, by simp⟩

theorem Opening.of_failAll : Opening b sched' (failAllActiveBatches .closeTurnGate error sched) :=
  ⟨fun _ hop => failAllActiveBatches_not_completes hop, fun _ hop =>
    absurd (failAllActiveBatches_follows hop) id⟩

theorem Opening.of_route {g : ℕ} {item : Item} : Opening b sched' (route sched g item) := by
  obtain ⟨c, -, heq⟩ | ⟨-, heq | ⟨total, heq⟩ | ⟨error, heq⟩⟩ := route_cases sched g item <;> rw [heq]
  · exact ⟨by simp [Op.Completes], by simp⟩
  · exact .nil
  · exact ⟨by simp [Op.Completes], by simp⟩
  · exact .of_failAll

theorem Opening.of_processing (p : Processing) (b' : BatchId) : Opening b sched (p.ops b') := by
  cases p <;> exact ⟨by simp [Processing.ops, Op.Completes], by simp [Processing.ops]⟩

theorem runCallback_accounts (c : Callback) (sched : Scheduler) : (sched.runCallback c).accounts = sched.accounts := by
  cases c with
  | offerCompletion g item =>
    simp only [Scheduler.runCallback, Scheduler.offerCompletion]
    split <;> rfl
  | closeTurnGate | openTurnGate => rfl

theorem step_ledger (b : BatchId) {label : Label} (hstep : step cfg label s = some s') :
    LedgerStep cfg b s label s' := by
  cases stepped_of_step hstep with
  | loopOp op rest hloop => exact .loopOp _ _ hloop
  | threadOp op rest hthread => exact .threadOp _ _ hthread
  | listen =>
    refine .opens _ _ (by simp) rfl ?_
    dsimp only
    split
    · exact .of_route
    · exact .nil
  | process p => exact .opens _ _ (by simp) rfl (.of_processing p _)
  | poll b' timedOut hloop hfinalizer =>
    refine .opens _ _ (by simp) rfl ⟨by simp [State.begin, Op.Completes], fun t ht => ?_⟩
    simp only [State.begin, mem_singleton, Op.poll.injEq] at ht ⊢
    obtain ⟨rfl, rfl⟩ := ht
    exact ⟨rfl, hfinalizer⟩
  | cancel | drain =>
    exact .opens _ _ (by simp) rfl ⟨by simp [State.begin, Op.Completes], by simp [State.begin]⟩
  | submitTurn r sched hsched => exact .quiet _ _ (by simp) (by rw [Scheduler.submitTurn_frame hsched]; rfl) rfl
  | cancelTurn r sched hsched => exact .quiet _ _ (by simp) (by rw [Scheduler.cancelTurn_frame hsched]; rfl) rfl
  | callback => exact .quiet _ _ (by simp) (runCallback_accounts _ _) rfl
  | _ => exact .quiet _ _ (by simp) rfl rfl

end Batchgen.Server
