import Batchgen.Library.Runs
import Mathlib.Data.Fintype.Card

/-!
# The coordinated restart

Every node of a multi-node server runs `restart_workers` for a restart epoch.  Node 0 claims the epoch in the control
store and the others join it.  The three phases end in a barrier each: a node writes its `ok` ack and then reads the
acks of its peers, one store call at a time, until it has seen all of them.  A node can fail at every point; it then
publishes its failure unless it has already acked the phase, and past the last barrier it announces its new cohort as
down instead.

Store calls are atomic and take place in any order; deadlines and clocks do not appear, so that a barrier may give up
at any time.  `done` and `finished` record what happened and are read by no step.
-/

namespace Batchgen.Server.Restart

inductive Phase
  | armed | tornDown | ready
  deriving DecidableEq

inductive Ack
  | ok | failed
  deriving DecidableEq

/-- Where a node is in `restart_workers`: in the local part of a phase, in its barrier, in the scheduler hooks after
the last barrier, or in the failure path. -/
inductive Pc
  | idle
  | work (phase : Phase)
  | barrier (phase : Phase)
  | hooks
  | failed (phase : Phase) (readyEverywhere : Bool)
  | announce
  | dead
  deriving DecidableEq

/-- The node is in a phase of the restart and may still ack it or a later one. -/
def Pc.entering : Pc → Bool
  | .work _ | .barrier _ => true
  | _ => false

variable (k : ℕ)

/-- One server of `k + 1`.  `acked` and `seen` belong to the epoch and the barrier the node is in. -/
structure Node where
  pc : Pc := .idle
  serving : Bool := true
  epoch : ℕ := 0
  generation : ℕ
  armedFailure : Bool := false
  acked : Finset Phase := ∅
  seen : Finset (Fin (k + 1)) := ∅

/-- The nodes, the control store and what happened so far: the local parts of phases that were done, by epoch, and
the epochs in which `restart_workers` returned normally. -/
structure State where
  node : Fin (k + 1) → Node k
  epoch : ℕ := 0
  ack : ℕ → Phase → Fin (k + 1) → Option Ack := fun _ _ _ => none
  down : ℕ → Fin (k + 1) → Bool := fun _ _ => false
  done : ℕ → Phase → Fin (k + 1) → Bool := fun _ _ _ => false
  finished : Fin (k + 1) → Finset ℕ := fun _ => ∅

/-- All nodes serve the same generation. -/
def initial (generation : ℕ) : State k where
  node := fun _ => { generation := generation }

/-- The steps.  `raises` marks a call whose exception is dropped. -/
inductive Label
  | beginRestart (raises : Bool)
  | join (n : Fin (k + 1)) (epoch : ℕ) (accepted : Bool)
  | arrive (n : Fin (k + 1))
  | readAck (n peer : Fin (k + 1))
  | passBarrier (n : Fin (k + 1))
  | fail (n : Fin (k + 1))
  | failPhase (n : Fin (k + 1)) (raises : Bool)
  | publishDown (n : Fin (k + 1)) (raises : Bool)
  | finish (n : Fin (k + 1))
  | workerFailure (n : Fin (k + 1)) (raises : Bool)
  | stopping (n : Fin (k + 1)) (epoch : ℕ) (phase : Phase)
  | kill (n : Fin (k + 1))
  deriving DecidableEq

variable {k}

namespace State

variable (s : State k) (n : Fin (k + 1))

@[simps ack done down epoch finished]
def setNode (node : Node k) : State k := { s with node := Function.update s.node n node }

def setPc (pc : Pc) : State k := s.setNode n { s.node n with pc := pc }

@[simps]
def setAck (epoch : ℕ) (phase : Phase) (value : Ack) : State k :=
  { s with ack := fun e p m => if e = epoch ∧ p = phase ∧ m = n then some value else s.ack e p m }

@[simps]
def setDown (generation : ℕ) : State k :=
  { s with down := fun g m => if g = generation ∧ m = n then true else s.down g m }

/-- The epoch is one of those in which `restart_workers` returned normally on the node. -/
@[simps node ack done down epoch]
def setFinished (epoch : ℕ) : State k :=
  { s with finished := Function.update s.finished n (insert epoch (s.finished n)) }

/-- The counter of the store that `begin_restart` adds to. -/
@[simps]
def claimEpoch : State k := { s with epoch := s.epoch + 1 }

/-- The first statements of `restart_workers`, with the epoch the node runs. -/
def enter (epoch : ℕ) : State k :=
  s.setNode n { s.node n with
    pc := .work .armed, serving := false, epoch := epoch, armedFailure := false, acked := ∅ }

/-- The local part of the phase is done. -/
@[simps]
def setDone (epoch : ℕ) (phase : Phase) : State k :=
  { s with done := fun e p m => if e = epoch ∧ p = phase ∧ m = n then true else s.done e p m }

/-- The local part of the phase is done; the barrier writes its ack first. -/
def arriveAt (phase : Phase) : State k :=
  ((s.setDone n (s.node n).epoch phase).setAck n (s.node n).epoch phase .ok).setNode n { s.node n with
    pc := .barrier phase, acked := insert phase (s.node n).acked, seen := {n} }

/-- The teardown of a node whose first barrier failed; it then raises that failure. -/
def tearDownAlone : State k := (s.setDone n (s.node n).epoch .tornDown).setPc n (.failed .tornDown false)

/-- The exception of the current statement: the first barrier's is kept until the cohort is torn down. -/
def fail : Option (State k) :=
  match (s.node n).pc with
  | .work phase => some (s.setPc n (.failed phase false))
  | .barrier .armed => some (s.setNode n { s.node n with pc := .work .tornDown, armedFailure := true })
  | .barrier phase => some (s.setPc n (.failed phase false))
  | .hooks => some (s.setPc n (.failed .ready true))
  | _ => none

/-- The statements behind a barrier. -/
def passBarrier (phase : Phase) : State k :=
  match phase with
  | .armed => s.setPc n (.work .tornDown)
  | .tornDown => s.setPc n (.work .ready)
  | .ready => s.setPc n .hooks

end State

/-- The peers' acks are read until one is a failure or all are seen. -/
def readAck (s : State k) (n peer : Fin (k + 1)) (phase : Phase) : Option (State k) :=
  match s.ack (s.node n).epoch phase peer with
  | none => some s
  | some .ok => some (s.setNode n { s.node n with seen := insert peer (s.node n).seen })
  | some .failed => s.fail n

def step (s : State k) : Label k → Option (State k)
  | .beginRestart raises =>
    if (s.node 0).pc = .idle then
      if raises then some (s.claimEpoch.setNode 0 { s.node 0 with serving := false })
      else some (s.claimEpoch.enter 0 (s.epoch + 1))
    else none
  -- the epoch was read earlier and may not be the newest any more
  | .join n epoch accepted =>
    if n ≠ 0 ∧ (s.node n).pc = .idle ∧ (s.node n).epoch < epoch ∧ epoch ≤ s.epoch then
      if accepted then some (s.enter n epoch)
      else some ((s.setNode n { s.node n with epoch := epoch }).setAck n epoch .armed .failed)
    else none
  | .arrive n =>
    match (s.node n).pc with
    | .work .tornDown => some (if (s.node n).armedFailure then s.tearDownAlone n else s.arriveAt n .tornDown)
    | .work phase => some (s.arriveAt n phase)
    | _ => none
  | .readAck n peer =>
    match (s.node n).pc with
    | .barrier phase => if peer ∈ (s.node n).seen then none else readAck s n peer phase
    | _ => none
  | .passBarrier n =>
    match (s.node n).pc with
    | .barrier phase => if ∀ m, m ∈ (s.node n).seen then some (s.passBarrier n phase) else none
    | _ => none
  | .fail n => s.fail n
  | .failPhase n raises =>
    match (s.node n).pc with
    | .failed phase everywhere =>
      let next := if everywhere then Pc.announce else .idle
      if phase ∈ (s.node n).acked ∨ raises then some (s.setPc n next)
      else some ((s.setAck n (s.node n).epoch phase .failed).setPc n next)
    | _ => none
  | .publishDown n raises =>
    if (s.node n).pc = .announce then
      if raises then some (s.setPc n .idle)
      else some ((s.setDown n ((s.node n).generation + 1)).setPc n .idle)
    else none
  | .finish n =>
    if (s.node n).pc = .hooks then
      some ((s.setFinished n (s.node n).epoch).setNode n { s.node n with
        pc := .idle, serving := true, generation := (s.node n).generation + 1 })
    else none
  | .workerFailure n raises =>
    if (s.node n).pc = .idle ∧ (s.node n).serving then
      let s := s.setNode n { s.node n with serving := false }
      some (if raises then s else s.setDown n (s.node n).generation)
    else none
  -- the stopping thread may publish a failure of any phase it found unacked
  | .stopping n epoch phase => if (s.node n).pc = .dead then none else some (s.setAck n epoch phase .failed)
  | .kill n => some (s.setNode n { s.node n with pc := .dead, serving := false })

/-- `_poll_peer_down` on the node: the first peer whose down key is there and was not reported yet.  `reported` are the
peers reported for the node's generation. -/
def State.pollPeerDown (s : State k) (n : Fin (k + 1)) (reported : Finset (Fin (k + 1))) : Option (Fin (k + 1)) :=
  (List.finRange (k + 1)).find? fun peer =>
    peer ≠ n ∧ peer ∉ reported ∧ s.down (s.node n).generation peer = true

/-- What that many polls in a row report. -/
def State.polls (s : State k) (n : Fin (k + 1)) : ℕ → Finset (Fin (k + 1)) → List (Fin (k + 1))
  | 0, _ => []
  | count + 1, reported =>
    match s.pollPeerDown n reported with
    | none => []
    | some peer => peer :: s.polls n count (insert peer reported)

end Batchgen.Server.Restart
