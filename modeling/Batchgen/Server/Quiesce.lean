import Batchgen.Library.Runs
import Mathlib.Data.List.Basic

/-!
# The quiesce handshake

A restart stops the drain task through two events: `quiesce` sets `_quiesced` and waits for `_quiesce_ack`, which the
drain task sets when it finds `_quiesced` set; `resume` clears both.  Neither side holds a lock.  Here every read and
write of a flag and every put on the request queue is one step, and the two threads interleave at will.

The acknowledgement is not tied to the cycle that asks for it.  A drain task that has read `_quiesced` and is delayed
until `resume` has cleared both events leaves an acknowledgement behind, and the next `quiesce` returns on it.  Where
no `resume` clears the acknowledgement in that gap, an acknowledged `quiesce` silences the drain task.
-/

namespace Batchgen.Server.Quiesce

open Runs

inductive Message
  | init | admitMessage
  deriving DecidableEq

/-- Where the drain task is in `_drain_intake_loop`: the flag it reads or writes next, or the message it puts next. -/
inductive DrainPc
  | readStopped | readQuiesced | setAck
  | readIntake | readInitialized | putInit | setInitialized
  | selectEntries | rereadQuiesced | requeue | putAdmit
  | ended
  deriving DecidableEq

/-- Where the restart thread is.  `returned acked`: the last `quiesce` returned, because of the acknowledgement or
not; `resuming`: `resume` has cleared `_quiesced`. -/
inductive RestartPc
  | serving | waiting | returned (acked : Bool) | resuming
  deriving DecidableEq

structure State where
  stopped : Bool := false
  quiesced : Bool := false
  quiesceAck : Bool := false
  poolInitialized : Bool := false
  drain : DrainPc := .readStopped
  restart : RestartPc := .serving
  requestQueue : List Message := []
  deriving DecidableEq

variable {s s' : State}

/-- One step of a thread.  `drain idle`: the drain task, which may find no work where it looks for some; `drainRaises`:
it ends by an exception, which is fatal.  `timeout`: `quiesce` returns without the acknowledgement, after five seconds
or because the loop is not running. -/
inductive Label
  | drain (idle : Bool)
  | drainRaises
  | beginQuiesce | acknowledged | timeout
  | beginResume | endResume
  | workerGenerationReady
  | stop
  deriving DecidableEq

variable {l : Label}

/-- One step of `_drain_intake_loop`. -/
def drainStep (idle : Bool) (s : State) : Option State :=
  match s.drain with
  | .readStopped => some { s with drain := if s.stopped then .ended else .readQuiesced }
  | .readQuiesced => some { s with drain := if s.quiesced then .setAck else .readIntake }
  -- the sleep that follows ends in the next turn of the loop
  | .setAck => some { s with quiesceAck := true, drain := .readStopped }
  | .readIntake => some { s with drain := if idle then .readStopped else .readInitialized }
  | .readInitialized => some { s with drain := if s.poolInitialized then .selectEntries else .putInit }
  | .putInit => some { s with requestQueue := s.requestQueue ++ [.init], drain := .setInitialized }
  | .setInitialized => some { s with poolInitialized := true, drain := .selectEntries }
  -- no free slot, no entry, or only stale ones
  | .selectEntries => some { s with drain := if idle then .readStopped else .rereadQuiesced }
  | .rereadQuiesced => some { s with drain := if s.quiesced then .requeue else .putAdmit }
  | .requeue => some { s with drain := .readStopped }
  | .putAdmit => some { s with requestQueue := s.requestQueue ++ [.admitMessage], drain := .readStopped }
  | .ended => none

def step (s : State) : Label → Option State
  | .drain idle => drainStep idle s
  | .drainRaises => some { s with drain := .ended }
  | .beginQuiesce => if s.restart = .serving then some { s with quiesced := true, restart := .waiting } else none
  | .acknowledged =>
    if s.restart = .waiting ∧ s.quiesceAck = true then some { s with restart := .returned true } else none
  | .timeout => if s.restart = .waiting then some { s with restart := .returned false } else none
  | .beginResume =>
    if s.restart = .returned true ∨ s.restart = .returned false then
      some { s with quiesced := false, restart := .resuming }
    else none
  | .endResume => if s.restart = .resuming then some { s with quiesceAck := false, restart := .serving } else none
  | .workerGenerationReady => some { s with poolInitialized := true }
  | .stop => some { s with stopped := true }

/-- The drain task has read `_quiesced` as set and has not yet set the acknowledgement. -/
def State.Acknowledging (s : State) : Prop := s.drain = .setAck

/-- `resume` does not clear the acknowledgement while the drain task is about to set it. -/
def Timely (s : State) (l : Label) : Prop := l = .endResume → ¬ s.Acknowledging

instance (s : State) (l : Label) : Decidable (Timely s l) := inferInstanceAs (Decidable (_ → ¬ _ = _))

/-- The drain task is in the part of the loop in which it looks at `_quiesced` before it puts anything. -/
def State.Parked (s : State) : Prop :=
  s.drain = .readStopped ∨ s.drain = .readQuiesced ∨ s.drain = .setAck ∨ s.drain = .ended

/-- What the two events say about the threads, as long as every `resume` is timely. -/
structure Inv (s : State) : Prop where
  quiesced : s.quiesced = true ↔ s.restart ≠ .serving ∧ s.restart ≠ .resuming
  returned : s.restart = .returned true → s.quiesceAck = true
  acknowledging : s.Acknowledging → s.restart ≠ .serving
  acked : s.quiesceAck = true → s.restart ≠ .serving
  parked : s.quiesceAck = true → s.quiesced = true → s.Parked

theorem Inv.fresh : Inv {} := by
  constructor <;> simp [State.Acknowledging]

theorem Inv.drainStep {idle : Bool} (h : Inv s) (hstep : drainStep idle s = some s') : Inv s' := by
  obtain ⟨hquiesced, hreturned, hacknowledging, hacked, hparked⟩ := h
  unfold Quiesce.drainStep at hstep
  -- one case for each place of the loop; only `setAck` writes an event
  constructor <;> grind -linarith [State.Acknowledging, State.Parked]

/-- A step keeps what the events say. -/
theorem Inv.step (h : Inv s) (hok : Timely s l) (hstep : step s l = some s') : Inv s' := by
  cases l with
  | drain idle => exact h.drainStep hstep
  | _ =>
    obtain ⟨hquiesced, hreturned, hacknowledging, hacked, hparked⟩ := h
    unfold Quiesce.step at hstep
    constructor <;> grind -linarith [State.Acknowledging, State.Parked, Timely]

/-- A parked drain task that finds `_quiesced` set puts nothing, and only `resume` lets it go. -/
theorem Inv.silent (h : Inv s) (hreturned : s.restart = .returned true) (hresume : l ≠ .beginResume)
    (hstep : Quiesce.step s l = some s') : s'.restart = .returned true ∧ s'.requestQueue = s.requestQueue := by
  have hack := h.returned hreturned
  have hquiesced : s.quiesced = true := h.quiesced.mpr (by simp [hreturned])
  have hparked := h.parked hack hquiesced
  unfold State.Parked at hparked
  cases l with
  | drain idle =>
    simp only [Quiesce.step, Quiesce.drainStep] at hstep
    grind -linarith
  | _ =>
    unfold Quiesce.step at hstep
    grind -linarith

/-- **After an acknowledged `quiesce` the drain task puts no message until the next `resume` begins**, in every run
in which `resume` is timely. -/
theorem acknowledged_quiesce_silences (s s' : State) (labels : List Label) (hreached : Reached step Timely {} s)
    (hreturned : s.restart = .returned true) (hrun : run (guarded step Timely) labels s = some s')
    (hresume : .beginResume ∉ labels) : s'.requestQueue = s.requestQueue := by
  have hinv : Inv s := hreached.invariant Inv Inv.fresh fun _ _ _ h hok hstep => h.step hok hstep
  have hkept : Inv s' ∧ s'.restart = .returned true ∧ s'.requestQueue = s.requestQueue := by
    refine run_induction (fun t => Inv t ∧ t.restart = .returned true ∧ t.requestQueue = s.requestQueue) hrun
      ⟨hinv, hreturned, rfl⟩ fun t l hl t' ht hstep => ?_
    obtain ⟨hok, hstep⟩ := guarded_eq_some.mp hstep
    have hne : l ≠ .beginResume := fun heq => hresume (heq ▸ hl)
    obtain ⟨hplace, hqueue⟩ := ht.1.silent ht.2.1 hne hstep
    exact ⟨ht.1.step hok hstep, hplace, hqueue.trans ht.2.2⟩
  exact hkept.2.2

/-- One cycle in which the drain task acknowledges in time. -/
def acknowledgedCycle : List Label := [.beginQuiesce, .drain false, .drain false, .drain false, .acknowledged]

/-- One turn of the loop that admits. -/
def admission : List Label := List.replicate 7 (.drain false)

/-- After two cycles, with an admission between them. -/
def acknowledgedState : State :=
  { quiesced := true, quiesceAck := true, poolInitialized := true, restart := .returned true
    requestQueue := [.admitMessage] }

theorem acknowledged_quiesce_silences_twice :
    Reached step Timely {} acknowledgedState ∧
      ∃ s', run (guarded step Timely) admission acknowledgedState = some s' ∧ s'.requestQueue = [.admitMessage] := by
  have hreached : Reached step Timely {} acknowledgedState := Reached.start.of_run
    (acknowledgedCycle ++ [.beginResume, .endResume, .workerGenerationReady] ++ admission ++ acknowledgedCycle)
    (by decide)
  have hrun : run (guarded step Timely) admission acknowledgedState =
      some { acknowledgedState with drain := .readQuiesced } := by decide
  exact ⟨hreached, _, hrun, acknowledged_quiesce_silences _ _ admission hreached rfl hrun (by decide)⟩

/-- The drain task reads `_quiesced` once more, `resume` clears both events, and the acknowledgement is set late.
Then the drain task passes its second check, and `quiesce` returns on the old acknowledgement. -/
def lateAcknowledgement : List Label :=
  acknowledgedCycle ++ [.drain false, .drain false, .beginResume, .endResume, .drain false, .workerGenerationReady] ++
    admission.tail ++ [.beginQuiesce, .acknowledged]

/-- An acknowledged `quiesce` of the second cycle does not stop an admission. -/
theorem late_acknowledgement_admits :
    (run step lateAcknowledgement {}).any (fun s => s.restart = .returned true ∧ s.requestQueue = []) ∧
      (run step (lateAcknowledgement ++ [.drain false]) {}).any fun s =>
        s.restart = .returned true ∧ s.requestQueue = [.admitMessage] := by
  decide

end Batchgen.Server.Quiesce
