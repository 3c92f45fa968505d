import Batchgen.HostPagedKV.Sections

/-!
# Processes calling the host paged KV backend

Any number of processes share one region.  A process runs one call at a time, and a call is the
sequence of its mutex sections: `CallState` is what the call holds between two of them.  One step of
the system is one section of one process, so every interleaving of sections is a run:

* `beginCall` — the argument checks of a call and its first section;
* `resumeCall` — the next section of a call that is between two sections;
* `Step`, `Reachable` — one section of one process, and the states a fresh region can get to.

The callers promise that the sequence ids they pass are not the three reserved ones; only
`AcquirePages` checks it.
-/

namespace Batchgen.HostPagedKV

variable (cfg : HostPagedKVConfig) (r : Region)

inductive Call where
  | acquirePages (sequenceId : ℤ) (numPages : ℕ)
  | acquirePagesForSequences (sequenceIds : List ℤ) (numTokens : List ℕ)
  | releaseSequence (sequenceId : ℤ)
  | releasePrefixPages (sequenceId : ℤ) (numPages : ℕ)
  | retainPages (sequenceId : ℤ) (pageIds : List ℤ)
  | releaseResidentPages (pageIds : List ℤ)
  deriving Repr, DecidableEq

def Call.sequenceIds : Call → List ℤ
  | .acquirePages sequenceId _ => [sequenceId]
  | .acquirePagesForSequences sequenceIds _ => sequenceIds
  | .releaseSequence sequenceId => [sequenceId]
  | .releasePrefixPages sequenceId _ => [sequenceId]
  | .retainPages sequenceId _ => [sequenceId]
  | .releaseResidentPages _ => []

/-- What a finished call returned or threw. -/
inductive CallResult where
  | returned
  | pages (pages : List ℤ)
  | allocations (allocations : List (List ℤ))
  | thrown (error : BackendError)
  deriving Repr, DecidableEq

/-- The local state of a process: between calls, or between two sections of a call. -/
inductive CallState where
  | idle (last : Option CallResult)
  | acquired (sequenceId : ℤ) (pages : List ℤ)
  | releasing (pages : List ℤ) (result : CallResult)
  | undoing (pages : List ℤ) (error : BackendError)
  deriving Repr, DecidableEq

/-- The pages a call has in its hands. -/
def CallState.localPages : CallState → List ℤ
  | .idle _ => []
  | .acquired _ pages => pages
  | .releasing pages _ => pages
  | .undoing pages _ => pages

/-- The id for which a call has acquired pages is not a reserved one. -/
def CallState.IdFree (call : CallState) : Prop :=
  ∀ sequenceId pages, call = .acquired sequenceId pages → isReservedSequenceId sequenceId = false

/-- After the sequence section of a release path: only a nonempty list takes the second mutex. -/
def afterDetach (result : List ℤ → CallResult) :
    Except BackendError (List ℤ) × Region → CallState × Region
  | (.error e, r) => (.idle (some (.thrown e)), r)
  | (.ok [], r) => (.idle (some (result [])), r)
  | (.ok (page :: pages), r) => (.releasing (page :: pages) (result (page :: pages)), r)

theorem afterDetach_region (result : List ℤ → CallResult) (out : Except BackendError (List ℤ) × Region) :
    (afterDetach result out).2 = out.2 := by
  rcases out with ⟨e | (- | ⟨page, pages⟩), r⟩ <;> rfl

/-- The argument checks and the first section of a call. -/
def beginCall : Call → CallState × Region
  | .acquirePages sequenceId numPages =>
    if numPages = 0 then (.idle (some (.pages [])), r)
    else if isReservedSequenceId sequenceId then
      (.idle (some (.thrown .reservedSequenceId)), r)
    else
      match popPages sequenceId numPages r with
      | (.error e, r') => (.idle (some (.thrown e)), r')
      | (.ok pages, r') => (.acquired sequenceId pages, r')
  | .acquirePagesForSequences sequenceIds numTokens =>
    if sequenceIds.length ≠ numTokens.length then
      (.idle (some (.thrown .lengthMismatch)), r)
    else if sequenceIds = [] then (.idle (some (.allocations [])), r)
    else
      match requiredPages cfg [] 0 (sequenceIds.zip numTokens) with
      | .error e => (.idle (some (.thrown e)), r)
      | .ok counts =>
        match acquirePagesForSequences cfg sequenceIds counts r with
        | (.error e, r') => (.idle (some (.thrown e)), r')
        | (.ok allocations, r') => (.idle (some (.allocations allocations)), r')
  | .releaseSequence sequenceId =>
    afterDetach (fun _ => .returned) (releaseSequenceDetach cfg sequenceId r)
  | .releasePrefixPages sequenceId numPages =>
    if numPages = 0 then (.idle (some (.pages [])), r)
    else afterDetach .pages (releasePrefixPagesDetach cfg sequenceId numPages r)
  | .retainPages sequenceId pageIds =>
    if pageIds = [] then (.idle (some (.pages [])), r)
    else
      match retainPages cfg sequenceId pageIds r with
      | (.error e, r') => (.idle (some (.thrown e)), r')
      | (.ok pages, r') => (.idle (some (.pages pages)), r')
  | .releaseResidentPages pageIds =>
    if pageIds = [] then (.idle (some .returned), r)
    else afterDetach (fun _ => .returned) (releaseResidentPagesClear cfg pageIds r)

/-- The next section of a call that is between two sections. -/
def resumeCall : CallState → CallState × Region
  | .idle last => (.idle last, r)
  | .acquired sequenceId pages =>
    match acquirePagesAttach cfg sequenceId pages r with
    | (.ok (), r') => (.idle (some (.pages pages)), r')
    | (.error e, r') => (.undoing pages e, r')
  | .releasing pages result => (.idle (some result), pushPages r pages)
  | .undoing pages error => (.idle (some (.thrown error)), acquirePagesUndo pages r)

/-! ### Runs -/

variable {Pid : Type*} [DecidableEq Pid]

structure State (Pid : Type*) where
  region : Region
  calls : Pid → CallState

def initialState (Pid : Type*) (cfg : HostPagedKVConfig) : State Pid where
  region := constructSharedState cfg
  calls := fun _ => .idle none

/-- Store what a section of process `pid` leaves behind. -/
def State.commit (st : State Pid) (pid : Pid) (out : CallState × Region) : State Pid where
  region := out.2
  calls := Function.update st.calls pid out.1

/-- **One section of one process.** -/
inductive Step (cfg : HostPagedKVConfig) (st : State Pid) : State Pid → Prop where
  | beginCall (pid : Pid) (call : Call) (last : Option CallResult)
      (hidle : st.calls pid = .idle last)
      (hids : ∀ sequenceId ∈ call.sequenceIds, isReservedSequenceId sequenceId = false) :
      Step cfg st (st.commit pid (beginCall cfg st.region call))
  | resumeCall (pid : Pid) :
      Step cfg st (st.commit pid (resumeCall cfg st.region (st.calls pid)))

/-- The states that some interleaving of sections leads to. -/
def Reachable (cfg : HostPagedKVConfig) (st : State Pid) : Prop :=
  Relation.ReflTransGen (Step cfg) (initialState Pid cfg) st

end Batchgen.HostPagedKV
