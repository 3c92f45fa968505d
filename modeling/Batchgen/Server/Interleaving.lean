import Batchgen.Server.Scheduler

/-!
# The server's threads

The parties around a `BatchScheduler`: the workers of each generation, which write to their response queue;
the pump thread of each generation, which reads that queue; the scheduler's event loop; and the thread of a
restart or of the worker monitor.  A `Label` says which of them moves, and `step` what it does, `none` when
it cannot move.

The event loop runs one task at a time: while `loop` holds operations of a task no other task starts.  The
restart thread runs beside it.
-/

namespace Batchgen.Server

open Function

variable {g : ℕ} {item : Item} {cfg : Config} (r : RequestId)

/-- The response queue of one worker generation with the pump that reads it. -/
structure Channel where
  /-- items written and not yet read -/
  queue : List Item
  started : Bool
  reading : Bool
  stop : Bool
  closed : Bool

structure State where
  sched : Scheduler
  loop : List Op
  thread : List Op
  channel : ℕ → Channel

variable {s : State}

/-- How `_process_batch` goes on after it loaded a batch that is not cancelled. -/
inductive Processing
  /-- the input file or its metadata is missing -/
  | inputMissing
  /-- the file does not parse, a prompt cannot be built, or a token limit is missing -/
  | invalid
  /-- an exception that only `_run` catches -/
  | raises
  | accepted (requests : List BatchRequest)

/-- The operations of `_process_batch` after the load. -/
def Processing.ops (b : BatchId) : Processing → List Op
  | .inputMissing => [.updateBatchStatus b .failed]
  | .invalid => [.updateBatchStatus b .inProgress, .updateBatchStatus b .failed]
  | .raises => [.updateBatchStatus b .inProgress]
  | .accepted requests =>
    [.updateBatchStatus b .inProgress, .registerBatch b requests.length, .submitBatch b requests]

inductive Label
  /-- a worker of the generation writes an item -/
  | put (generation : ℕ) (item : Item)
  | pumpRead (generation : ℕ)
  /-- the pump sees its stop event, or that the scheduler stopped -/
  | pumpExit (generation : ℕ)
  /-- the read of a closed queue raises -/
  | pumpFail (generation : ℕ) (error : String)
  /-- the event loop runs the next callback -/
  | callback
  /-- the completion listener takes the next item of the inbox -/
  | listen
  /-- the endpoint that creates a batch -/
  | create (b : BatchId)
  /-- `_run` takes the next batch -/
  | process (p : Processing)
  | poll (b : BatchId) (timedOut : Bool)
  /-- the endpoint that cancels a batch -/
  | cancel (b : BatchId)
  /-- one pass of `_drain_intake_loop` -/
  | drain
  | submitTurn (r : RequestId)
  | cancelTurn (r : RequestId)
  | loopOp
  | threadOp
  /-- `fail_in_flight`, off the loop -/
  | failInFlight (error : String)
  | quiesce
  | resume
  /-- `stop_completion_pump` -/
  | stopCompletionPump
  /-- `_abandon_worker_channels`, after the pump of the generation was stopped -/
  | abandonChannel (generation : ℕ)
  /-- `worker_generation_ready` -/
  | generationReady
  | stop

namespace Scheduler

/-- `_offer_completion` -/
def offerCompletion (generation : ℕ) (item : Item) (s : Scheduler) : Scheduler :=
  if generation ≠ s.pumpGeneration then s
  else { s with completionInbox := s.completionInbox ++ [(generation, item)] }

def runCallback (s : Scheduler) : Callback → Scheduler
  | .offerCompletion generation item => s.offerCompletion generation item
  | .closeTurnGate error => s.closeTurnGate error
  | .openTurnGate => { s with turnGateClosed := none }

/-- The part of `submit_turn` behind its validation; turn ids are fresh. -/
def submitTurn (s : Scheduler) : Option Scheduler :=
  if s.turnGateClosed.isSome ∨ s.isTurn r ∨ (s.turnOutcomes.lookup r).isSome then none
  else
    (s.intakePool.submitBatch [⟨r, r⟩]).map fun intake =>
      { s with intakePool := intake, turnWaiters := s.turnWaiters ++ [r] }

/-- `cancel_turn` -/
def cancelTurn (s : Scheduler) : Option Scheduler :=
  if r ∈ s.turnWaiters then
    let intake := s.intakePool.removeBatchEntries r
    let dequeued := intake.normal.length < s.intakePool.normal.length
    some { s with
      turnWaiters := s.turnWaiters.filter (· ≠ r)
      intakePool := intake
      detachedTurns := if dequeued then s.detachedTurns else s.detachedTurns ++ [r]
      turnOutcomes := if (s.turnOutcomes.lookup r).isSome then s.turnOutcomes
        else s.turnOutcomes.insert r .turnAborted }
  else none

variable {r} {s s' : Scheduler}

theorem submitTurn_frame (h : s.submitTurn r = some s') :
    s' = { s with intakePool := s'.intakePool, turnWaiters := s'.turnWaiters } := by
  unfold submitTurn at h
  split at h
  · cases h
  · obtain ⟨intake, -, rfl⟩ := Option.map_eq_some_iff.1 h
    rfl

theorem cancelTurn_frame (h : s.cancelTurn r = some s') :
    s' = { s with
      turnWaiters := s'.turnWaiters
      intakePool := s'.intakePool
      detachedTurns := s'.detachedTurns
      turnOutcomes := s'.turnOutcomes } := by
  unfold cancelTurn at h
  split at h <;> cases h
  rfl

end Scheduler

namespace State

variable (s)

def setChannel (g : ℕ) (c : Channel) : State :=
  { s with channel := update s.channel g c }

/-- `_forward_completion`, on the pump thread. -/
def forward (g : ℕ) (item : Item) : State :=
  { s with sched := { s.sched with callbacks := s.sched.callbacks ++ [.offerCompletion g item] } }

/-- Stop the pump of the current generation, if there is one. -/
def stopPump : State :=
  let g := s.sched.pumpGeneration
  s.setChannel g { s.channel g with stop := true }

def setGeneration (g : ℕ) : State := { s with sched := { s.sched with pumpGeneration := g } }

/-- `_start_completion_pump`: the new generation's queue may hold items already. -/
def startCompletionPump : State :=
  let s := s.stopPump
  let g := s.sched.pumpGeneration + 1
  (s.setGeneration g).setChannel g { s.channel g with started := true, reading := true, stop := false }

/-- The loop starts a task. -/
def begin (ops : List Op) : State := { s with loop := ops }

end State

/-- What the named party does next. -/
def step (cfg : Config) : Label → State → Option State
  | .put g item, s =>
    let c := s.channel g
    some (s.setChannel g { c with queue := c.queue ++ [item] })
  | .pumpRead g, s =>
    let c := s.channel g
    match c.reading, c.closed, c.queue with
    | true, false, item :: rest =>
      some ((s.setChannel g { c with queue := rest, reading := !item.terminal }).forward g item)
    | _, _, _ => none
  | .pumpExit g, s =>
    let c := s.channel g
    if c.reading ∧ (c.stop ∨ s.sched.stopped) then some (s.setChannel g { c with reading := false })
    else none
  | .pumpFail g error, s =>
    let c := s.channel g
    if c.reading ∧ c.closed then
      let s' := s.setChannel g { c with reading := false }
      some (if c.stop ∨ s.sched.stopped then s' else s'.forward g (.channelError error))
    else none
  | .callback, s =>
    match s.loop, s.sched.callbacks with
    | [], c :: rest => some { s with sched := { s.sched with callbacks := rest }.runCallback c }
    | _, _ => none
  | .listen, s =>
    match s.loop, s.sched.stopped, s.sched.completionInbox with
    | [], false, (g, item) :: rest =>
      let sched := { s.sched with completionInbox := rest }
      some { s with sched := sched, loop := if g = s.sched.pumpGeneration then route sched g item else [] }
    | _, _, _ => none
  | .create b, s =>
    if s.loop = [] ∧ s.sched.status b = none then
      some { s with
        sched := { s.sched with
          status := update s.sched.status b (some .validating)
          queue := s.sched.queue ++ [b] } }
    else none
  | .process p, s =>
    match s.loop, s.sched.stopped, s.sched.queue with
    | [], false, b :: rest =>
      let s := { s with sched := { s.sched with queue := rest } }
      match s.sched.status b with
      | none | some .cancelled | some .cancelling => some s
      | some _ => some (s.begin (p.ops b))
    | _, _, _ => none
  | .poll b timedOut, s =>
    if s.loop = [] ∧ b ∈ s.sched.finalizers then some (s.begin [.poll b timedOut]) else none
  | .cancel b, s => if s.loop = [] then some (s.begin [.cancelCheck b]) else none
  | .drain, s =>
    if s.loop = [] ∧ s.sched.quiesced = false ∧ s.sched.stopped = false then
      some (s.begin [.selectFromIntake])
    else none
  | .submitTurn r, s =>
    if s.loop = [] then (s.sched.submitTurn r).map fun sched => { s with sched := sched } else none
  | .cancelTurn r, s =>
    if s.loop = [] then (s.sched.cancelTurn r).map fun sched => { s with sched := sched } else none
  | .loopOp, s =>
    match s.loop with
    | [] => none
    | op :: rest =>
      let (sched, next) := op.exec cfg s.sched
      some { s with sched := sched, loop := next ++ rest }
  | .threadOp, s =>
    match s.thread with
    | [] => none
    | op :: rest =>
      let (sched, next) := op.exec cfg s.sched
      some { s with sched := sched, thread := next ++ rest }
  | .failInFlight error, s =>
    if s.thread = [] then
      some { s with thread := failAllActiveBatches .callCloseTurnGate error s.sched }
    else none
  | .quiesce, s => some { s with sched := { s.sched with quiesced := true } }
  | .resume, s =>
    some { s with
      sched := { s.sched with quiesced := false, callbacks := s.sched.callbacks ++ [.openTurnGate] } }
  | .stopCompletionPump, s => some (s.stopPump.setGeneration (s.sched.pumpGeneration + 1))
  | .abandonChannel g, s =>
    let c := s.channel g
    if c.stop then some (s.setChannel g { c with closed := true }) else none
  | .generationReady, s => some s.startCompletionPump
  | .stop, s =>
    let s := s.stopPump
    some { s with sched := { s.sched with stopped := true } }

/-- The state behind the first operation of the loop's task, with `rest` still to run. -/
abbrev State.afterOp (cfg : Config) (op : Op) (rest : List Op) (s : State) : State :=
  { s with sched := (op.exec cfg s.sched).1, loop := (op.exec cfg s.sched).2 ++ rest }

/-- What a move can do, with the guard under which it does it. -/
inductive Stepped (cfg : Config) (s : State) : Label → State → Prop
  | put (g : ℕ) (item : Item) : Stepped cfg s (.put g item)
      (s.setChannel g { s.channel g with queue := (s.channel g).queue ++ [item] })
  | pumpRead (g : ℕ) (item : Item) (rest) (hreading : (s.channel g).reading)
      (hqueue : (s.channel g).queue = item :: rest) : Stepped cfg s (.pumpRead g)
        ((s.setChannel g { s.channel g with queue := rest, reading := !item.terminal }).forward g item)
  | pumpExit (g : ℕ) (hreading : (s.channel g).reading) (hstop : (s.channel g).stop ∨ s.sched.stopped) :
      Stepped cfg s (.pumpExit g) (s.setChannel g { s.channel g with reading := false })
  | pumpFailStopped (g : ℕ) (error) (hreading : (s.channel g).reading) (hstop : (s.channel g).stop ∨ s.sched.stopped) :
      Stepped cfg s (.pumpFail g error) (s.setChannel g { s.channel g with reading := false })
  | pumpFail (g : ℕ) (error) (hreading : (s.channel g).reading) (hclosed : (s.channel g).closed) :
      Stepped cfg s (.pumpFail g error)
        ((s.setChannel g { s.channel g with reading := false }).forward g (.channelError error))
  | callback (c rest) (hloop : s.loop = []) (hcallbacks : s.sched.callbacks = c :: rest) :
      Stepped cfg s .callback { s with sched := { s.sched with callbacks := rest }.runCallback c }
  | listen (g : ℕ) (item : Item) (rest) (hloop : s.loop = []) (hinbox : s.sched.completionInbox = (g, item) :: rest) :
      Stepped cfg s .listen { s with
        sched := { s.sched with completionInbox := rest }
        loop := if g = s.sched.pumpGeneration then route { s.sched with completionInbox := rest } g item
          else [] }
  | create (b) (hloop : s.loop = []) (hstatus : s.sched.status b = none) :
      Stepped cfg s (.create b) { s with
        sched := { s.sched with
          status := update s.sched.status b (some .validating)
          queue := s.sched.queue ++ [b] } }
  | skip (p b rest) (hloop : s.loop = []) (hqueue : s.sched.queue = b :: rest) :
      Stepped cfg s (.process p) { s with sched := { s.sched with queue := rest } }
  | process (p b rest status) (hloop : s.loop = []) (hqueue : s.sched.queue = b :: rest)
      (hstatus : s.sched.status b = some status) (hcancelled : status ≠ .cancelled) :
      Stepped cfg s (.process p) { s with sched := { s.sched with queue := rest }, loop := p.ops b }
  | poll (b timedOut) (hloop : s.loop = []) (hfinalizer : b ∈ s.sched.finalizers) :
      Stepped cfg s (.poll b timedOut) (s.begin [.poll b timedOut])
  | cancel (b) (hloop : s.loop = []) : Stepped cfg s (.cancel b) (s.begin [.cancelCheck b])
  | drain (hloop : s.loop = []) : Stepped cfg s .drain (s.begin [.selectFromIntake])
  | submitTurn (r : RequestId) (sched) (h : s.sched.submitTurn r = some sched) :
      Stepped cfg s (.submitTurn r) { s with sched := sched }
  | cancelTurn (r : RequestId) (sched) (h : s.sched.cancelTurn r = some sched) :
      Stepped cfg s (.cancelTurn r) { s with sched := sched }
  | loopOp (op rest) (hloop : s.loop = op :: rest) : Stepped cfg s .loopOp (s.afterOp cfg op rest)
  | threadOp (op rest) (hthread : s.thread = op :: rest) :
      Stepped cfg s .threadOp
        { s with sched := (op.exec cfg s.sched).1, thread := (op.exec cfg s.sched).2 ++ rest }
  | failInFlight (error) (hthread : s.thread = []) :
      Stepped cfg s (.failInFlight error)
        { s with thread := failAllActiveBatches .callCloseTurnGate error s.sched }
  | quiesce : Stepped cfg s .quiesce { s with sched := { s.sched with quiesced := true } }
  | resume : Stepped cfg s .resume { s with
      sched := { s.sched with quiesced := false, callbacks := s.sched.callbacks ++ [.openTurnGate] } }
  | stopCompletionPump :
      Stepped cfg s .stopCompletionPump (s.stopPump.setGeneration (s.sched.pumpGeneration + 1))
  | abandonChannel (g : ℕ) (hstop : (s.channel g).stop) :
      Stepped cfg s (.abandonChannel g) (s.setChannel g { s.channel g with closed := true })
  | generationReady : Stepped cfg s .generationReady s.startCompletionPump
  | stop : Stepped cfg s .stop { s.stopPump with sched := { s.sched with stopped := true } }

section

theorem stepped_of_step {label : Label} {s' : State} (hstep : step cfg label s = some s') : Stepped cfg s label s' := by
  cases label <;> simp only [step, Option.some.injEq] at hstep
  case process =>
    split at hstep
    · rename_i b rest hloop _ hqueue
      split at hstep <;> cases hstep
      · exact .skip _ b rest hloop hqueue
      · exact .skip _ b rest hloop hqueue
      · exact .skip _ b rest hloop hqueue
      · exact .process _ b rest _ hloop hqueue ‹_› (by rintro rfl; contradiction)
    · cases hstep
  case pumpFail =>
    split at hstep <;> cases hstep
    split
    · exact .pumpFailStopped _ _ (And.left ‹_›) ‹_›
    · exact .pumpFail _ _ (And.left ‹_›) (And.right ‹_›)
  case submitTurn | cancelTurn =>
    obtain ⟨-, hturn⟩ := Option.ite_none_right_eq_some.1 hstep
    obtain ⟨sched, hsched, rfl⟩ := Option.map_eq_some_iff.1 hturn
    constructor
    exact hsched
  case put | quiesce | resume | stopCompletionPump | generationReady | stop => subst hstep; constructor
  all_goals
    split at hstep <;> cases hstep
    constructor <;> simp_all

theorem step_pumpRead {rest : List Item} (hreading : (s.channel g).reading) (hclosed : (s.channel g).closed = false)
    (hqueue : (s.channel g).queue = item :: rest) :
    step cfg (.pumpRead g) s = some ((s.setChannel g
      { s.channel g with queue := rest, reading := !item.terminal }).forward g item) := by
  simp [step, hreading, hclosed, hqueue]

theorem step_callback {c : Callback} {rest : List Callback} (hloop : s.loop = [])
    (hcallbacks : s.sched.callbacks = c :: rest) :
    step cfg .callback s = some { s with sched := { s.sched with callbacks := rest }.runCallback c } := by
  simp [step, hloop, hcallbacks]

theorem step_listen {rest : List (ℕ × Item)} (hloop : s.loop = []) (hstopped : s.sched.stopped = false)
    (hinbox : s.sched.completionInbox = (g, item) :: rest) :
    step cfg .listen s = some { s with
      sched := { s.sched with completionInbox := rest }
      loop := if g = s.sched.pumpGeneration then route { s.sched with completionInbox := rest } g item
        else [] } := by
  simp [step, hloop, hstopped, hinbox]

theorem step_loopOp {op : Op} {rest : List Op} (hloop : s.loop = op :: rest) :
    step cfg .loopOp s = some (s.afterOp cfg op rest) := by
  simp [step, hloop]

end

/-! ### Runs -/

/-- What a run shows: the items written, the completions routed (with the scheduler before and after), and
the batches handed to the pools and finalized. -/
inductive Event
  | put (generation : ℕ) (item : Item)
  | delivered (generation : ℕ) (c : Completion) (before after : Scheduler)
  | submitted (b : BatchId) (requests : List BatchRequest)
  | finalized (b : BatchId) (output : List ResultItem)

/-- The events of one move. -/
def events (cfg : Config) : Label → State → List Event
  | .put g item, _ => [.put g item]
  | .loopOp, s =>
    match s.loop with
    | .deliver g c :: _ => [.delivered g c s.sched (s.sched.deliver cfg c)]
    | .submitBatch b requests :: _ => [.submitted b requests]
    | .updateBatchStatus b .completed :: _ => [.finalized b ((s.sched.output b).getD [])]
    | _ => []
  | _, _ => []

/-- `start()` of a scheduler on the given storage: the first worker generation gets pump 1. -/
def initialState (maxIntakeCapacity : ℕ) (status : BatchId → Option BatchStatus) : State :=
  State.startCompletionPump
    { sched :=
        { schedulingPool := ⟨0, [], ∅, ∅, ∅⟩
          intakePool := ⟨maxIntakeCapacity, []⟩
          poolRequestMeta := fun _ => none
          turnWaiters := []
          detachedTurns := []
          turnOutcomes := ∅
          turnGateClosed := none
          quiesced := false
          queue := []
          finalizers := []
          status := status
          incremental := fun _ => []
          output := fun _ => none
          callbacks := []
          completionInbox := []
          pumpGeneration := 0
          stopped := false }
      loop := []
      thread := []
      channel := fun _ => ⟨[], false, false, false, false⟩ }

/-- A run from `s₀` with its events. -/
inductive Run (cfg : Config) (s₀ : State) : List Event → State → Prop
  | start : Run cfg s₀ [] s₀
  | next {trace s s'} (label : Label) (run : Run cfg s₀ trace s) (h : step cfg label s = some s') :
      Run cfg s₀ (trace ++ events cfg label s) s'

theorem Run.trans {s₀ s' : State} {trace trace' : List Event} (h : Run cfg s₀ trace s)
    (h' : Run cfg s trace' s') : Run cfg s₀ (trace ++ trace') s' := by
  induction h' with
  | start => rwa [List.append_nil]
  | next label _ hstep ih => exact List.append_assoc _ _ _ ▸ ih.next label hstep

/-- The run that the labels name, if each of them can be taken. -/
def runLabels (cfg : Config) : List Label → State → Option (List Event × State)
  | [], s => some ([], s)
  | label :: labels, s =>
    match step cfg label s with
    | none => none
    | some s' => (runLabels cfg labels s').map fun p => (events cfg label s ++ p.1, p.2)

theorem runLabels_run {labels : List Label} {p : List Event × State}
    (h : runLabels cfg labels s = some p) : Run cfg s p.1 p.2 := by
  induction labels generalizing s p with
  | nil =>
    cases h
    exact .start
  | cons label labels ih =>
    simp only [runLabels] at h
    split at h
    · cases h
    · rename_i s' hstep
      obtain ⟨q, hq, rfl⟩ := Option.map_eq_some_iff.1 h
      exact (Run.start.next label hstep).trans (ih hq)

/-! ### A small server -/

/-- A server whose tokenizer passes the text on. -/
def plainConfig : Config := ⟨true, false, fun _ text => some ⟨text, none, []⟩⟩

/-- A completion of a request of batch 7, with text. -/
def textCompletion : Completion := ⟨some r, some 7, none, "text", 3, 5, "stop"⟩

def chatRequest : BatchRequest := ⟨r, r - 1, .chatCompletions, "model"⟩

/-- Capacity for four sequences is published, batch 7 is created and processed, and its requests are admitted. -/
def admitAll (requests : List BatchRequest) : List Label :=
  [.put 1 (.capacity ⟨some 1, some 4⟩), .pumpRead 1, .callback, .listen, .loopOp,
    .create 7, .process (.accepted requests), .loopOp, .loopOp, .loopOp, .drain, .loopOp, .loopOp] ++
    requests.map fun _ => .loopOp

/-- The completion of the request is routed. -/
def complete : List Label := [.put 1 (.completion (textCompletion r)), .pumpRead 1, .callback, .listen, .loopOp]

/-- Batch 7 is polled and finalized. -/
def finalizeOne : List Label := [.poll 7 false, .loopOp, .loopOp, .loopOp, .loopOp]

end Batchgen.Server
