import Mathlib.Data.List.AList
import Mathlib.Data.Finset.Basic

/-!
# The batch scheduler

`BatchScheduler` of `batchgen/server/batch_scheduler.py` with the objects it owns: the `SchedulingPool` and
its batch trackers, the `IntakePool`, the turn waiters, the per-request metadata, the incremental output
files and the persisted batch statuses.

One pass of the scheduler's event loop (a task between two of its awaits) is a list of `Op`s, each of them
one access to state that other threads can reach, and `Op.exec` runs one of them.  An operation may decide
what follows: it then returns the operations to run next.  The restart thread's `fail_in_flight` is such a
list too, so every interleaving of the two threads is an interleaving of their operations.

Identifiers (`request_id`, `batch_id`, turn ids) are only ever compared, so they are numbers here.  Text
that is only passed on stays text.
-/

namespace Batchgen.Server

open List Function

abbrev RequestId := ℕ

abbrev BatchId := ℕ

variable {b : BatchId}

/-- A Python `dict`: its keys are distinct by construction. -/
abbrev Dict (κ β : Type) := AList fun _ : κ => β

/-! ### What a worker publishes -/

/-- The `error` of a completion: `code` and `message` are looked up with defaults. -/
structure WorkerError where
  code : Option String
  message : Option String

/-- A completion item.  `error` is the value under the key `error`, when the item has that key. -/
structure Completion where
  requestId : Option RequestId
  batchId : Option BatchId
  error : Option WorkerError
  text : String
  promptLength : ℕ
  decodedLength : ℕ
  finishReason : String

/-- A `trajectory_pool_capacity` item, with the two fields the listener reads. -/
structure CapacitySnapshot where
  capacitySemanticsVersion : Option ℕ
  totalCapacity : Option ℤ

/-- An item of a response queue.  `other` is a `dict` of any other `type`. -/
inductive Item
  | endOfStream
  | completion (c : Completion)
  | capacity (snapshot : CapacitySnapshot)
  | poolShutdown (error : Option String)
  | channelError (error : String)
  | other (error : Bool)

/-- `"error" in item`. -/
def Item.hasError : Item → Bool
  | .endOfStream => false
  | .completion c => c.error.isSome
  | .capacity _ => false
  | .poolShutdown error => error.isSome
  | .channelError _ => true
  | .other error => error

/-- The test by which `_completion_pump` decides that an item is the last of its generation. -/
def Item.terminal : Item → Bool
  | .endOfStream => true
  | .poolShutdown _ => true
  | item => item.hasError

/-! ### SchedulingPool -/

/-- A request waiting to enter the scheduling pool. -/
structure IntakeEntry where
  requestId : RequestId
  batchId : BatchId
  deriving DecidableEq

structure BatchTracker where
  totalRequests : ℕ
  completedRequests : ℕ
  failedRequests : ℕ
  error : Option String

variable (t : BatchTracker)

def BatchTracker.isComplete : Bool :=
  t.totalRequests ≤ t.completedRequests + t.failedRequests

def BatchTracker.isFailed : Bool := t.error.isSome

structure SchedulingPool where
  capacity : ℕ
  freeSlots : List ℕ
  activeSlots : Dict RequestId ℕ
  batchTrackers : Dict BatchId BatchTracker
  completedRequests : Finset (BatchId × Option RequestId)

namespace SchedulingPool

/-- `set_capacity`; `none` when it raises, for a negative capacity or with active slots. -/
def setCapacity (p : SchedulingPool) (capacity : ℤ) : Option SchedulingPool :=
  if capacity < 0 then none
  else if p.activeSlots.keys ≠ [] then none
  else some { p with capacity := capacity.toNat, freeSlots := List.range capacity.toNat }

/-- `allocate_slot`, with the type and text of what it raises. -/
def allocateSlot (p : SchedulingPool) (r : RequestId) : Except String SchedulingPool :=
  match p.activeSlots.lookup r with
  | some slot =>
    .error s!"ValueError: SchedulingPool: request_id '{r}' already allocated (slot {slot})"
  | none =>
    match p.freeSlots.getLast? with
    | none =>
      let active := p.activeSlots.keys.length
      let capacity := p.capacity
      .error s!"RuntimeError: SchedulingPool: no free slots (capacity={capacity}, active={active})"
    | some slot =>
      .ok { p with freeSlots := p.freeSlots.dropLast, activeSlots := p.activeSlots.insert r slot }

/-- `free_slot` as the listener calls it: its `KeyError` is ignored. -/
def freeSlot (p : SchedulingPool) (r : RequestId) : SchedulingPool :=
  match p.activeSlots.lookup r with
  | none => p
  | some slot => { p with freeSlots := p.freeSlots ++ [slot], activeSlots := p.activeSlots.erase r }

def registerBatch (p : SchedulingPool) (b : BatchId) (totalRequests : ℕ) : SchedulingPool :=
  { p with batchTrackers := p.batchTrackers.insert b ⟨totalRequests, 0, 0, none⟩ }

/-- `mark_request_completed`: a pair that was counted before is not counted again. -/
def markRequestCompleted (p : SchedulingPool) (r : Option RequestId) (b : BatchId) : SchedulingPool :=
  if (b, r) ∈ p.completedRequests then p
  else
    let p := { p with completedRequests := insert (b, r) p.completedRequests }
    match p.batchTrackers.lookup b with
    | none => p
    | some t =>
      { p with
        batchTrackers :=
          p.batchTrackers.insert b { t with completedRequests := t.completedRequests + 1 } }

def removeBatchTracker (p : SchedulingPool) (b : BatchId) : SchedulingPool :=
  { p with
    batchTrackers := p.batchTrackers.erase b
    completedRequests := p.completedRequests.filter fun k => k.1 ≠ b }

def clearActiveSlots (p : SchedulingPool) : SchedulingPool :=
  { p with freeSlots := p.freeSlots ++ p.activeSlots.entries.map Sigma.snd, activeSlots := ∅ }

/-- `tracker.error = error_msg`. -/
def setError (p : SchedulingPool) (b : BatchId) (error : String) : SchedulingPool :=
  match p.batchTrackers.lookup b with
  | none => p
  | some t => { p with batchTrackers := p.batchTrackers.insert b { t with error := some error } }

section

variable {p : SchedulingPool} {r : RequestId}

theorem lookup_freeSlot : (p.freeSlot r).activeSlots.lookup r = none := by
  unfold freeSlot
  split
  · assumption
  · exact AList.lookup_erase r p.activeSlots

theorem mem_freeSlot {slot : ℕ} (h : p.activeSlots.lookup r = some slot) : slot ∈ (p.freeSlot r).freeSlots := by
  simp [freeSlot, h]

theorem freeSlot_batchTrackers : (p.freeSlot r).batchTrackers = p.batchTrackers := by
  unfold freeSlot
  split <;> rfl

theorem freeSlot_completedRequests : (p.freeSlot r).completedRequests = p.completedRequests := by
  unfold freeSlot
  split <;> rfl

theorem markRequestCompleted_slots {r : Option RequestId} : (p.markRequestCompleted r b).activeSlots = p.activeSlots ∧
      (p.markRequestCompleted r b).freeSlots = p.freeSlots := by
  unfold markRequestCompleted
  split
  · exact ⟨rfl, rfl⟩
  · dsimp only
    split <;> exact ⟨rfl, rfl⟩

theorem lookup_markRequestCompleted {r : Option RequestId} {t : BatchTracker} (ht : p.batchTrackers.lookup b = some t)
    (hr : (b, r) ∉ p.completedRequests) :
    (p.markRequestCompleted r b).batchTrackers.lookup b =
      some { t with completedRequests := t.completedRequests + 1 } := by
  simp [markRequestCompleted, hr, ht]

/-- What the slots leave alone: the trackers, and the requests that were counted. -/
def SameCounts (p p' : SchedulingPool) : Prop :=
  p'.batchTrackers = p.batchTrackers ∧ p'.completedRequests = p.completedRequests

theorem foldl_freeSlot_sameCounts (entries : List IntakeEntry) :
    p.SameCounts (entries.foldl (fun pool entry => pool.freeSlot entry.requestId) p) := by
  induction entries generalizing p with
  | nil => exact ⟨rfl, rfl⟩
  | cons entry entries ih => exact ⟨ih.1.trans freeSlot_batchTrackers, ih.2.trans freeSlot_completedRequests⟩

theorem allocateSlot_sameCounts {p' : SchedulingPool} {r : RequestId} (h : p.allocateSlot r = .ok p') :
    p.SameCounts p' := by
  unfold allocateSlot at h
  split at h
  · cases h
  · split at h
    · cases h
    · cases h
      exact ⟨rfl, rfl⟩

theorem setCapacity_sameCounts (capacity : ℤ) : p.SameCounts ((p.setCapacity capacity).getD p) := by
  unfold setCapacity
  split
  · exact ⟨rfl, rfl⟩
  · split <;> exact ⟨rfl, rfl⟩

theorem lookup_markRequestCompleted_of_ne {r : Option RequestId} {b' : BatchId} (h : b ≠ b') :
    (p.markRequestCompleted r b').batchTrackers.lookup b = p.batchTrackers.lookup b := by
  unfold markRequestCompleted
  split
  · rfl
  · dsimp only
    split
    · rfl
    · exact AList.lookup_insert_ne h

theorem lookup_markRequestCompleted_self {r : Option RequestId} :
    (p.markRequestCompleted r b).batchTrackers.lookup b = p.batchTrackers.lookup b ∨
      ∃ t, p.batchTrackers.lookup b = some t ∧ (p.markRequestCompleted r b).batchTrackers.lookup b =
        some { t with completedRequests := t.completedRequests + 1 } := by
  unfold markRequestCompleted
  split
  · exact .inl rfl
  · dsimp only
    split
    · exact .inl rfl
    · exact .inr ⟨_, ‹_›, AList.lookup_insert _⟩

end

end SchedulingPool

/-! ### IntakePool -/

/-- Every entry is submitted with normal priority, so the pool is one queue. -/
structure IntakePool where
  maxCapacity : ℕ
  normal : List IntakeEntry

namespace IntakePool

/-- `submit_batch`; `none` when the batch is rejected. -/
def submitBatch (p : IntakePool) (entries : List IntakeEntry) : Option IntakePool :=
  if 0 < p.maxCapacity ∧ p.maxCapacity < p.normal.length + entries.length then none
  else some { p with normal := p.normal ++ entries }

def drain (p : IntakePool) (maxN : ℕ) : List IntakeEntry × IntakePool :=
  (p.normal.take maxN, { p with normal := p.normal.drop maxN })

def removeBatchEntries (p : IntakePool) (b : BatchId) : IntakePool :=
  { p with normal := p.normal.filter (·.batchId ≠ b) }

end IntakePool

/-! ### Output lines -/

inductive BatchEndpoint
  | chatCompletions
  | completions
  deriving DecidableEq

/-- The entry of `_pool_request_meta` for one request. -/
structure RequestMeta where
  customId : ℕ
  url : BatchEndpoint
  model : String

structure ToolCall where
  id : String
  name : String
  arguments : String

/-- What `_parse_output` returns. -/
structure ParsedOutput where
  content : String
  reasoningContent : Option String
  toolCalls : List ToolCall

inductive Choice
  | message (m : ParsedOutput)
  | text (t : String)

/-- The response body of one request; `total_tokens` is the sum of the two counts. -/
structure ResponseBody where
  model : String
  choice : Choice
  finishReason : String
  promptTokens : ℕ
  completionTokens : ℕ

/-- One line of an output file, without the random ids: the request's `custom_id` and either a response or
an error with its code and message. -/
structure ResultItem where
  customId : ℕ
  response : Option ResponseBody
  error : Option (String × String)

/-- The server arguments and the tokenizer the modelled functions read.  `parseOutput` is `_parse_output` for
a model and a text, `none` when it raises. -/
structure Config where
  incrementalOutputDir : Bool
  noIncrementalSave : Bool
  parseOutput : String → String → Option ParsedOutput

variable (cfg : Config)

/-- `bool(error)`: an empty `dict` counts as no error. -/
def WorkerError.truthy (e : WorkerError) : Bool := e.code.isSome || e.message.isSome

/-- The item `_write_pool_completion` builds; `none` when parsing the output raises. -/
def resultItem (m : RequestMeta) (c : Completion) : Option ResultItem :=
  match c.error.filter WorkerError.truthy with
  | some e => some ⟨m.customId, none, some (e.code.getD "worker_error", e.message.getD "")⟩
  | none =>
    let body (choice : Choice) : ResultItem :=
      ⟨m.customId, some ⟨m.model, choice, c.finishReason, c.promptLength, c.decodedLength⟩, none⟩
    match m.url with
    | .chatCompletions => (cfg.parseOutput m.model c.text).map fun out => body (.message out)
    | .completions => some (body (.text c.text))

/-! ### The scheduler's state -/

inductive BatchStatus
  | validating
  | inProgress
  | completed
  | failed
  | cancelling
  | cancelled
  deriving DecidableEq

/-- How a turn's future was resolved. -/
inductive TurnOutcome
  | result (c : Completion)
  | turnAborted
  | workerFatal (error : String)

/-- A request of a batch: its pool-wide id and its metadata. -/
structure BatchRequest where
  requestId : RequestId
  info : RequestMeta

/-- A function handed to the event loop by `call_soon_threadsafe`. -/
inductive Callback
  | offerCompletion (generation : ℕ) (item : Item)
  | closeTurnGate (error : String)
  | openTurnGate

structure Scheduler where
  schedulingPool : SchedulingPool
  intakePool : IntakePool
  /-- `_pool_request_meta` -/
  poolRequestMeta : BatchId → Option (List BatchRequest)
  turnWaiters : List RequestId
  detachedTurns : List RequestId
  turnOutcomes : Dict RequestId TurnOutcome
  turnGateClosed : Option String
  quiesced : Bool
  /-- the batches enqueued for `_run` -/
  queue : List BatchId
  /-- the batches with a running `_wait_and_finalize_batch` -/
  finalizers : List BatchId
  /-- the persisted status of each batch -/
  status : BatchId → Option BatchStatus
  /-- the incremental JSONL of each batch -/
  incremental : BatchId → List ResultItem
  /-- the output JSONL of each finalized batch -/
  output : BatchId → Option (List ResultItem)
  callbacks : List Callback
  completionInbox : List (ℕ × Item)
  pumpGeneration : ℕ
  stopped : Bool

variable {s : Scheduler}

namespace Scheduler

/-- `_append_pool_result_item` -/
def appendPoolResultItem (s : Scheduler) (b : BatchId) (item : ResultItem) : Scheduler :=
  { s with incremental := update s.incremental b (s.incremental b ++ [item]) }

def findMeta (s : Scheduler) (b : BatchId) (r : RequestId) : Option RequestMeta :=
  ((s.poolRequestMeta b).getD []).find? (·.requestId = r) |>.map BatchRequest.info

/-- `_write_pool_completion`; `none` when it raises. -/
def writePoolCompletion (b : BatchId) (r : RequestId) (c : Completion) (s : Scheduler) :
    Option Scheduler :=
  if cfg.incrementalOutputDir then
    match s.findMeta b r with
    | none => some s
    | some info => (resultItem cfg info c).map (s.appendPoolResultItem b)
  else some s

/-- `_resolve_turn` -/
def resolveTurn (r : RequestId) (c : Completion) (s : Scheduler) : Scheduler :=
  if r ∈ s.detachedTurns then { s with detachedTurns := s.detachedTurns.filter (· ≠ r) }
  else
    let s := { s with turnWaiters := s.turnWaiters.filter (· ≠ r) }
    match s.turnOutcomes.lookup r with
    | some _ => s
    | none => { s with turnOutcomes := s.turnOutcomes.insert r (.result c) }

/-- A turn the listener must resolve, pending or aborted after its admission. -/
def isTurn (s : Scheduler) (r : RequestId) : Bool := r ∈ s.turnWaiters ∨ r ∈ s.detachedTurns

/-- The completion branch of `_pool_completion_listener`.  An exception while the line is written is logged
and the item skipped, after its slot was freed and before it is counted. -/
def deliver (c : Completion) (s : Scheduler) : Scheduler :=
  match c.requestId, c.batchId with
  | none, none => s
  | none, some b => { s with schedulingPool := s.schedulingPool.markRequestCompleted none b }
  | some r, batchId =>
    let s := { s with schedulingPool := s.schedulingPool.freeSlot r }
    if s.isTurn r then s.resolveTurn r c
    else
      match batchId with
      | none => s
      | some b =>
        match s.writePoolCompletion cfg b r c with
        | none => s
        | some s => { s with schedulingPool := s.schedulingPool.markRequestCompleted (some r) b }

/-- `_close_turn_gate` -/
def closeTurnGate (error : String) (s : Scheduler) : Scheduler :=
  { s with
    turnGateClosed := some error
    turnWaiters := []
    detachedTurns := []
    intakePool := s.turnWaiters.foldl IntakePool.removeBatchEntries s.intakePool
    turnOutcomes := s.turnWaiters.foldl
      (fun outcomes r => if (outcomes.lookup r).isSome then outcomes
        else outcomes.insert r (.workerFatal error)) s.turnOutcomes }

/-- `_finalize_batch_output` before its status write: the incremental file becomes the output, or an empty
file when there is none. -/
def writeOutput (b : BatchId) (s : Scheduler) : Scheduler :=
  { s with
    output := update s.output b
      (some (if cfg.incrementalOutputDir ∧ ¬cfg.noIncrementalSave then s.incremental b else [])) }

/-- `_drop_stale_intake_entries` -/
def dropStaleIntakeEntries (s : Scheduler) (drained : List IntakeEntry) : List IntakeEntry :=
  drained.filter fun entry =>
    decide (entry.batchId ∈ s.turnWaiters) ||
      match s.schedulingPool.batchTrackers.lookup entry.batchId with
      | none => false
      | some t => !t.isComplete && !t.isFailed

end Scheduler

/-! ### Operations -/

/-- One access to shared state. -/
inductive Op
  /-- `storage.update_batch_status` -/
  | updateBatchStatus (b : BatchId) (status : BatchStatus)
  | registerBatch (b : BatchId) (totalRequests : ℕ)
  /-- the rest of `_process_batch_pool_mode` -/
  | submitBatch (b : BatchId) (requests : List BatchRequest)
  /-- the completion branch of the listener, for an item of the given generation -/
  | deliver (generation : ℕ) (c : Completion)
  /-- the capacity branch of the listener, for a compatible snapshot -/
  | setCapacity (total : ℤ)
  /-- the test of one pass of the loop in `_fail_all_active_batches` -/
  | failCheck (b : BatchId) (error : String)
  | setTrackerError (b : BatchId) (error : String)
  | removeBatchEntries (b : BatchId)
  /-- `_fail_pending_turns` on the loop -/
  | closeTurnGate (error : String)
  /-- `_fail_pending_turns` off the loop -/
  | callCloseTurnGate (error : String)
  | clearActiveSlots
  /-- one poll of `_wait_and_finalize_batch`, with the test of its deadline -/
  | poll (b : BatchId) (timedOut : Bool)
  | writeOutput (b : BatchId)
  | forgetBatch (b : BatchId)
  /-- the status test of the cancel endpoint -/
  | cancelCheck (b : BatchId)
  /-- `select_from_intake` and `_drop_stale_intake_entries` -/
  | selectFromIntake
  /-- `allocate_slot` for each of the drained entries, of which `rest` are left -/
  | allocateSlots (drained rest : List IntakeEntry)

variable {op : Op}

/-- `_fail_all_active_batches`, as far as its list of batches is fixed when it starts. -/
def failAllActiveBatches (closeTurns : String → Op) (error : String) (s : Scheduler) : List Op :=
  s.schedulingPool.batchTrackers.keys.map (Op.failCheck · error) ++ [closeTurns error, .clearActiveSlots]

/-- Run one operation; the list is what the thread does next. -/
def Op.exec : Op → Scheduler → Scheduler × List Op
  | .updateBatchStatus b status, s =>
    -- `update_batch_status` does nothing for a batch that was never saved.
    if (s.status b).isSome then ({ s with status := update s.status b (some status) }, [])
    else (s, [])
  | .registerBatch b totalRequests, s =>
    ({ s with schedulingPool := s.schedulingPool.registerBatch b totalRequests }, [])
  | .submitBatch b requests, s =>
    match s.intakePool.submitBatch (requests.map fun r => ⟨r.requestId, b⟩) with
    | none => (s, [.updateBatchStatus b .failed])
    | some intake =>
      ({ s with
          intakePool := intake
          poolRequestMeta := update s.poolRequestMeta b (some requests)
          finalizers := s.finalizers ++ [b] }, [])
  | .deliver _ c, s => (s.deliver cfg c, [])
  | .setCapacity total, s =>
    if total = s.schedulingPool.capacity then (s, [])
    else ({ s with schedulingPool := (s.schedulingPool.setCapacity total).getD s.schedulingPool }, [])
  | .failCheck b error, s =>
    -- A tracker leaves the pool only after it was complete, so a missing one is one that is complete.
    match s.schedulingPool.batchTrackers.lookup b with
    | none => (s, [])
    | some t =>
      if ¬t.isComplete ∧ ¬t.isFailed then
        (s, [.setTrackerError b error, .removeBatchEntries b, .updateBatchStatus b .failed])
      else (s, [])
  | .setTrackerError b error, s => ({ s with schedulingPool := s.schedulingPool.setError b error }, [])
  | .removeBatchEntries b, s => ({ s with intakePool := s.intakePool.removeBatchEntries b }, [])
  | .closeTurnGate error, s => (s.closeTurnGate error, [])
  | .callCloseTurnGate error, s => ({ s with callbacks := s.callbacks ++ [.closeTurnGate error] }, [])
  | .clearActiveSlots, s => ({ s with schedulingPool := s.schedulingPool.clearActiveSlots }, [])
  | .poll b timedOut, s =>
    let ended := { s with finalizers := s.finalizers.filter (· ≠ b) }
    match s.schedulingPool.batchTrackers.lookup b with
    | none => if timedOut then (ended, [.updateBatchStatus b .failed]) else (s, [])
    | some t =>
      -- completion is tested before failure
      if t.isComplete then (ended, [.writeOutput b, .updateBatchStatus b .completed, .forgetBatch b])
      else if t.isFailed ∨ timedOut then (ended, [.updateBatchStatus b .failed])
      else (s, [])
  | .writeOutput b, s => (s.writeOutput cfg b, [])
  | .forgetBatch b, s =>
    ({ s with
        schedulingPool := s.schedulingPool.removeBatchTracker b
        poolRequestMeta := update s.poolRequestMeta b none }, [])
  | .cancelCheck b, s =>
    if s.status b = some .validating ∨ s.status b = some .inProgress then
      (s, [.updateBatchStatus b .cancelled])
    else (s, [])
  | .selectFromIntake, s =>
    let (drained, intake) := s.intakePool.drain s.schedulingPool.freeSlots.length
    let live := s.dropStaleIntakeEntries drained
    ({ s with intakePool := intake }, if live = [] then [] else [.allocateSlots live live])
  | .allocateSlots drained [], s =>
    -- Entries selected before a quiesce go back; otherwise the admission message is sent.
    if s.quiesced then
      ({ s with
          intakePool := { s.intakePool with normal := drained ++ s.intakePool.normal }
          schedulingPool :=
            drained.foldl (fun pool entry => pool.freeSlot entry.requestId) s.schedulingPool }, [])
    else (s, [])
  | .allocateSlots drained (entry :: rest), s =>
    match s.schedulingPool.allocateSlot entry.requestId with
    | .ok pool => ({ s with schedulingPool := pool }, [.allocateSlots drained rest])
    | .error exc => (s, failAllActiveBatches .closeTurnGate ("Server intake drain failed: " ++ exc) s)

/-- Why a capacity snapshot of an unknown protocol is refused. -/
def incompatibleCapacity : String :=
  "Incompatible trajectory-pool capacity snapshot: worker must publish capacity_semantics_version=1 " ++
    "and total_capacity; refusing the legacy ambiguous capacity field"

/-- What `_pool_completion_listener` does with an item of the live generation. -/
def route (s : Scheduler) (generation : ℕ) : Item → List Op
  | .endOfStream => []
  | .completion c => [.deliver generation c]
  | .channelError error => failAllActiveBatches .closeTurnGate ("Worker error: " ++ error) s
  | .poolShutdown (some error) =>
    if error = "" then [] else failAllActiveBatches .closeTurnGate error s
  | .poolShutdown none => []
  | .capacity snapshot =>
    match snapshot.capacitySemanticsVersion, snapshot.totalCapacity with
    | some 1, some total => [.setCapacity total]
    | _, _ => failAllActiveBatches .closeTurnGate incompatibleCapacity s
  | .other _ => []

theorem route_cases (s : Scheduler) (generation : ℕ) (item : Item) :
    (∃ c, item = .completion c ∧ route s generation item = [.deliver generation c]) ∨
      (∀ c, item ≠ .completion c) ∧ (route s generation item = [] ∨
        (∃ total, route s generation item = [.setCapacity total]) ∨
        ∃ error, route s generation item = failAllActiveBatches .closeTurnGate error s) := by
  cases item with
  | completion c => exact .inl ⟨c, rfl, rfl⟩
  | channelError error => exact .inr ⟨nofun, .inr (.inr ⟨_, rfl⟩)⟩
  | poolShutdown error =>
    refine .inr ⟨nofun, ?_⟩
    rcases error with - | error
    · exact .inl rfl
    · simp only [route]
      split
      · exact .inl rfl
      · exact .inr (.inr ⟨_, rfl⟩)
  | capacity snapshot =>
    refine .inr ⟨nofun, .inr ?_⟩
    simp only [route]
    split
    · exact .inl ⟨_, rfl⟩
    · exact .inr ⟨_, rfl⟩
  | endOfStream | other => exact .inr ⟨nofun, .inl rfl⟩

/-! ### What a completion can change -/

theorem Scheduler.resolveTurn_frame (r : RequestId) (c : Completion) (s : Scheduler) :
    ∃ waiters detached outcomes, s.resolveTurn r c =
      { s with turnWaiters := waiters, detachedTurns := detached, turnOutcomes := outcomes } := by
  unfold Scheduler.resolveTurn
  split
  · exact ⟨_, _, _, rfl⟩
  · dsimp only
    split <;> exact ⟨_, _, _, rfl⟩

/-- A line goes to the file of the batch, and only if the request is in its metadata. -/
theorem Scheduler.writePoolCompletion_frame {cfg : Config} {b : BatchId} {r : RequestId} {c : Completion}
    {s' : Scheduler} (h : s.writePoolCompletion cfg b r c = some s') : ∃ lines, s' = { s with incremental := lines } ∧
      ∀ b', b' ≠ b ∨ s.poolRequestMeta b' = none → lines b' = s.incremental b' := by
  unfold Scheduler.writePoolCompletion at h
  split at h
  · split at h
    · cases h
      exact ⟨_, rfl, fun _ _ => rfl⟩
    · rename_i info hfind
      obtain ⟨item, -, rfl⟩ := Option.map_eq_some_iff.1 h
      refine ⟨_, rfl, fun b' hb' => update_of_ne (fun heq => ?_) _ _⟩
      subst heq
      rcases hb' with hne | hnone
      · exact hne rfl
      · simp [Scheduler.findMeta, hnone] at hfind
  · cases h
    exact ⟨_, rfl, fun _ _ => rfl⟩

/-- **What a completion can change**: the futures of turns; the pool, where a slot may be freed and its batch
may count it; and the file of its batch, if that has metadata. -/
theorem Scheduler.deliver_frame (cfg : Config) (c : Completion) (s : Scheduler) :
    ∃ freed pool waiters detached outcomes lines,
      (freed = s.schedulingPool ∨ ∃ r, freed = s.schedulingPool.freeSlot r) ∧
      (pool = freed ∨ ∃ r b, c.batchId = some b ∧ pool = freed.markRequestCompleted r b) ∧
      (∀ b, c.batchId ≠ some b ∨ s.poolRequestMeta b = none → lines b = s.incremental b) ∧
      s.deliver cfg c = { s with
        schedulingPool := pool, turnWaiters := waiters, detachedTurns := detached
        turnOutcomes := outcomes, incremental := lines } := by
  unfold Scheduler.deliver
  split
  · exact ⟨_, _, _, _, _, _, .inl rfl, .inl rfl, fun _ _ => rfl, rfl⟩
  · exact ⟨_, _, _, _, _, _, .inl rfl, .inr ⟨_, _, ‹_›, rfl⟩, fun _ _ => rfl, rfl⟩
  rename_i r _
  dsimp only
  split
  · obtain ⟨waiters, detached, outcomes, heq⟩ :=
      { s with schedulingPool := s.schedulingPool.freeSlot r }.resolveTurn_frame r c
    exact ⟨_, _, _, _, _, _, .inr ⟨r, rfl⟩, .inl rfl, fun _ _ => rfl, heq⟩
  split
  · exact ⟨_, _, _, _, _, _, .inr ⟨r, rfl⟩, .inl rfl, fun _ _ => rfl, rfl⟩
  rename_i b hb
  split
  · exact ⟨_, _, _, _, _, _, .inr ⟨r, rfl⟩, .inl rfl, fun _ _ => rfl, rfl⟩
  · rename_i hwrite
    obtain ⟨lines, rfl, hlines⟩ := Scheduler.writePoolCompletion_frame hwrite
    refine ⟨_, _, _, _, _, lines, .inr ⟨r, rfl⟩, .inr ⟨_, b, hb, rfl⟩, fun b' hb' => hlines b' ?_, rfl⟩
    exact hb'.imp_left fun hne heq => hne (heq ▸ hb)

/-! ### What can follow an operation -/

/-- The operations of the drain. -/
def Op.Drains : Op → Prop
  | .selectFromIntake => True
  | .allocateSlots _ _ => True
  | _ => False

/-- The operations that another one can start. -/
def Op.Follows : Op → Prop
  | .updateBatchStatus _ _ | .failCheck _ _ | .setTrackerError _ _ | .removeBatchEntries _ | .closeTurnGate _
  | .clearActiveSlots | .writeOutput _ | .forgetBatch _ => True
  | _ => False

theorem failAllActiveBatches_follows {error : String}
    (h : op ∈ failAllActiveBatches .closeTurnGate error s) : op.Follows := by
  simp only [failAllActiveBatches, mem_append, mem_map, mem_cons, not_mem_nil, or_false] at h
  rcases h with ⟨b, -, rfl⟩ | rfl | rfl <;> trivial

/-- The operations of a finalization that completes the batch. -/
def Op.Completes (b : BatchId) (op : Op) : Prop :=
  op = .writeOutput b ∨ op = .updateBatchStatus b .completed ∨ op = .forgetBatch b

theorem failAllActiveBatches_not_completes {b : BatchId} {error : String}
    (h : op ∈ failAllActiveBatches .closeTurnGate error s) : ¬op.Completes b := by
  simp only [failAllActiveBatches, mem_append, mem_map, mem_cons, not_mem_nil, or_false] at h
  rcases h with ⟨b, -, rfl⟩ | rfl | rfl <;> simp [Op.Completes]

/-- What an operation starts; only a poll starts a finalization that completes. -/
theorem Op.exec_next {cfg : Config} {op' : Op} (h : op' ∈ (op.exec cfg s).2) :
    op'.Follows ∧ (∀ b, op'.Completes b → ∃ timedOut, op = .poll b timedOut) ∨ op.Drains ∧ op'.Drains := by
  cases op with
  | allocateSlots drained rest =>
    cases rest with
    | nil => simp only [Op.exec] at h; split at h <;> simp at h
    | cons entry rest =>
      simp only [Op.exec] at h
      split at h
      · simp only [mem_singleton] at h
        subst h
        exact .inr ⟨trivial, trivial⟩
      · exact .inl ⟨failAllActiveBatches_follows h, fun b hb => absurd hb (failAllActiveBatches_not_completes h)⟩
  | selectFromIntake =>
    simp only [Op.exec] at h
    split at h
    · simp at h
    · simp only [mem_singleton] at h
      subst h
      exact .inr ⟨trivial, trivial⟩
  | poll b timedOut =>
    simp only [Op.exec] at h
    split at h <;> (repeat' split at h) <;> simp at h
    all_goals first
      | (subst h; exact .inl ⟨trivial, by simp [Op.Completes]⟩)
      | (rcases h with rfl | rfl | rfl <;> exact .inl ⟨trivial, by simp [Op.Completes]⟩)
  | failCheck b error =>
    simp only [Op.exec] at h
    split at h
    · simp at h
    · split at h
      · simp only [mem_cons, not_mem_nil, or_false] at h
        rcases h with rfl | rfl | rfl <;> exact .inl ⟨trivial, by simp [Op.Completes]⟩
      · simp at h
  | updateBatchStatus | setCapacity => simp only [Op.exec] at h; split at h <;> simp at h
  | submitBatch | cancelCheck =>
    simp only [Op.exec] at h
    split at h
    all_goals first
      | (simp at h; done)
      | (simp only [mem_singleton] at h; subst h; exact .inl ⟨trivial, by simp [Op.Completes]⟩)
  | registerBatch | deliver | setTrackerError | removeBatchEntries | closeTurnGate | callCloseTurnGate
  | clearActiveSlots | writeOutput | forgetBatch => simp [Op.exec] at h

end Batchgen.Server
