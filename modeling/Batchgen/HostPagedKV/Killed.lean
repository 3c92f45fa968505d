import Batchgen.HostPagedKV.Writes
import Batchgen.HostPagedKV.ProbeTable

/-!
# Killed processes and the recovery call

A worker can be killed between any two statements that write the shared region; the mutex it held goes
to the next locker.  A step of the system is now one whole section, a section cut off after some of its
writes, or the recovery call `ReleaseAllSequences`.

`ReleaseAllSequences` is called by the server that created the region, once every worker has exited, so
it runs alone.  It is given here as the list of its writes, or `none` when `fuel` rounds are not enough
for the loop that follows a chain.  If it is killed itself, nobody maps the region any more and the
region is gone.
-/

namespace Batchgen.HostPagedKV

open MachineInt LinkedChain CrashWrites

variable (cfg : HostPagedKVConfig) (r : Region)

/-! ### ReleaseAllSequences -/

/-- The loop of `ReleaseSequence`: the pages it visits until it reads the invalid index. -/
def detachChain : ℕ → ℤ → Region → Option (List ℤ)
  | 0, page, _ => if page = kInvalidPageIndex then some [] else none
  | fuel + 1, page, r =>
    if page = kInvalidPageIndex then some []
    else (detachChain fuel (r.pageLinks page) (clearPage r page)).map (page :: ·)

/-- Both sections of `ReleaseSequence`. -/
def releaseSequence (fuel : ℕ) (sequenceId : ℤ) (r : Region) :
    Option (Except BackendError Unit × List Write) :=
  match findSequenceEntryLocked cfg r sequenceId with
  | none => some (.error (.sequenceNotFound .release sequenceId), [])
  | some slot =>
    (detachChain fuel (r.sequenceTable slot).headPage r).map fun pages =>
      (.ok (),
        (detachWrites pages ++
          (tombstoneWrites slot ++
            [.activeSequences (u32Pred r.activeSequences),
              .sequencesReleased (u64 (r.sequencesReleased + 1))])) ++
          if pages = [] then [] else pushWrites r.freeStackTop pages)

/-- The release loop of `ReleaseAllSequences`; the first exception leaves it. -/
def releaseSequences (cfg : HostPagedKVConfig) (fuel : ℕ) :
    List ℤ → Region → Option (Except BackendError Unit × List Write)
  | [], _ => some (.ok (), [])
  | sequenceId :: sequenceIds, r =>
    match releaseSequence cfg fuel sequenceId r with
    | none => none
    | some (.error e, writes) => some (.error e, writes)
    | some (.ok (), writes) =>
      (releaseSequences cfg fuel sequenceIds (applyAll store r writes)).map fun rest =>
        (rest.1, writes ++ rest.2)

/-- The table entries in slot order. -/
def tableEntries : List SequenceEntry :=
  (List.range cfg.sequenceCapacity).map r.sequenceTable

/-- The ids `ReleaseAllSequences` collects. -/
def liveSequenceIds : List ℤ :=
  ((tableEntries cfg r).filter fun entry => entry.live).map SequenceEntry.sequenceId

/-- The page loop of `RebuildFreeStateLocked`: its writes and where its counter ends. -/
def rebuildPages (pageOwners : ℤ → ℤ) : ℕ → List ℕ → List Write × ℕ
  | top, [] => ([], top)
  | top, page :: pages =>
    if pageOwners page = kPrefixResidentSequenceId then rebuildPages pageOwners top pages
    else
      let rest := rebuildPages pageOwners (u32 (top + 1)) pages
      (.pageOwner page kEmptySequenceId :: .pageLink page kInvalidPageIndex ::
        .freeStack top (i32 page) :: rest.1, rest.2)

/-- The page numbers in the order the rebuild and the construction of a region go through them. -/
def descendingPages : List ℕ :=
  (List.range cfg.numPages).map fun i => cfg.numPages - 1 - i

def rebuildFreeState :
    Except BackendError Unit × List Write :=
  match (tableEntries cfg r).find? fun entry => entry.live with
  | some entry => (.error (.liveSequenceDuringRebuild entry.sequenceId), [])
  | none =>
    let pages := rebuildPages r.pageOwners 0 (descendingPages cfg)
    (.ok (), pages.1 ++
      ((List.range cfg.sequenceCapacity).map (fun slot => .entry slot {}) ++
        [.freeStackTop pages.2, .activeSequences 0]))

def releaseAllSequences (fuel : ℕ) (r : Region) :
    Option (Except BackendError Unit × List Write) :=
  match releaseSequences cfg fuel (liveSequenceIds cfg r) r with
  | none => none
  | some (.error e, writes) => some (.error e, writes)
  | some (.ok (), writes) =>
    let rebuild := rebuildFreeState cfg (applyAll store r writes)
    some (rebuild.1, writes ++ rebuild.2)

/-! ### Runs with kills -/

variable {Pid : Type*} [DecidableEq Pid]

/-- A section a process can run: the first one of a call, or the next one of the call it is in. -/
inductive CallSection where
  | first (call : Call)
  | later (state : CallState)
  deriving Repr, DecidableEq

def runSection : CallSection → CallState × Region
  | .first call => beginCall cfg r call
  | .later state => resumeCall cfg r state

def sectionWrites : CallSection → List Write
  | .first call => beginWrites cfg r call
  | .later state => resumeWrites cfg r state

theorem runSection_writes (part : CallSection) :
    applyAll store r (sectionWrites cfg r part) = (runSection cfg r part).2 := by
  cases part with
  | first call => exact beginCall_writes cfg r call
  | later state => exact resumeCall_writes cfg r state

/-- Process `pid` can run the section now. -/
def CanRun (st : State Pid) (pid : Pid) : CallSection → Prop
  | .first call =>
    (∃ last, st.calls pid = .idle last) ∧
      ∀ sequenceId ∈ call.sequenceIds, isReservedSequenceId sequenceId = false
  | .later state => st.calls pid = state

inductive Event (Pid : Type*) where
  | run (pid : Pid) (part : CallSection)
  | kill (pid : Pid) (part : CallSection) (count : ℕ)
  | releaseAll (fuel : ℕ)

/-- No call is running. -/
def AllIdle (st : State Pid) : Prop := ∀ pid, ∃ last, st.calls pid = .idle last

/-- **One section of one process, whole or cut off after `count` writes, or the recovery call.**  The
id of a killed process may be used by a new one. -/
inductive KilledStep (cfg : HostPagedKVConfig) (st : State Pid) : Event Pid → State Pid → Prop where
  | run (pid : Pid) (part : CallSection) (hcan : CanRun st pid part) :
      KilledStep cfg st (.run pid part) (st.commit pid (runSection cfg st.region part))
  | kill (pid : Pid) (part : CallSection) (count : ℕ) (hcan : CanRun st pid part) :
      KilledStep cfg st (.kill pid part count)
        (st.commit pid (.idle none,
          applyAll store st.region ((sectionWrites cfg st.region part).take count)))
  | releaseAll (fuel : ℕ) {result : Except BackendError Unit} {writes : List Write}
      (hidle : AllIdle st) (hout : releaseAllSequences cfg fuel st.region = some (result, writes)) :
      KilledStep cfg st (.releaseAll fuel)
        { st with region := applyAll store st.region writes }

/-- The states a run leads to when every event of it meets `allowed` in the state it happens in. -/
inductive KilledRun (cfg : HostPagedKVConfig) (allowed : State Pid → Event Pid → Prop) :
    State Pid → Prop where
  | fresh : KilledRun cfg allowed (initialState Pid cfg)
  | step {st st' : State Pid} {event : Event Pid} (hrun : KilledRun cfg allowed st)
      (hallowed : allowed st event) (hstep : KilledStep cfg st event st') :
      KilledRun cfg allowed st'

/-- A step of whole sections is a section that some process can run. -/
theorem step_iff {st st' : State Pid} : Step cfg st st' ↔
    ∃ pid part, CanRun st pid part ∧ st' = st.commit pid (runSection cfg st.region part) := by
  constructor
  · rintro (⟨pid, call, last, hidle, hids⟩ | ⟨pid⟩)
    · exact ⟨pid, .first call, ⟨⟨last, hidle⟩, hids⟩, rfl⟩
    · exact ⟨pid, .later (st.calls pid), rfl, rfl⟩
  · rintro ⟨pid, call | state, hcan, rfl⟩
    · obtain ⟨⟨last, hidle⟩, hids⟩ := hcan
      exact .beginCall pid call last hidle hids
    · obtain rfl := hcan
      exact .resumeCall pid

/-- A run of whole sections is a run without kills, under any condition that the sections meet. -/
theorem Reachable.killedRun {st : State Pid} {allowed : State Pid → Event Pid → Prop}
    (hallowed : ∀ st pid part, Reachable cfg st → CanRun st pid part → allowed st (.run pid part))
    (h : Reachable cfg st) : KilledRun cfg allowed st := by
  induction h with
  | refl => exact .fresh
  | tail hrun hstep ih =>
    obtain ⟨pid, part, hcan, rfl⟩ := (step_iff cfg).mp hstep
    exact ih.step (hallowed _ pid part hrun hcan) (.run pid part hcan)

/-- The process dies between two sections. -/
def State.dies (st : State Pid) (pid : Pid) : State Pid := st.commit pid (.idle none, st.region)

/-- No process is killed between two stores of one section, and there is no recovery. -/
def BetweenSections (st : State Pid) : Event Pid → Prop
  | .run _ _ => True
  | .kill _ part count => count = 0 ∨ (sectionWrites cfg st.region part).length ≤ count
  | .releaseAll _ => False

/-- **The two levels agree.**  A section leaves the region that its stores leave one after the other.  So a process
killed before the first or behind the last store of a section dies between two sections, and the runs of stores with
no other kills are the runs of whole sections in which processes may die. -/
theorem sections_are_stores (cfg : HostPagedKVConfig) (st : State Pid) :
    (Relation.ReflTransGen (fun st st' => Step cfg st st' ∨ ∃ pid, st' = st.dies pid) (initialState Pid cfg) st ↔
        KilledRun cfg (BetweenSections cfg) st) ∧
      ∀ part count, (sectionWrites cfg st.region part).length ≤ count →
        applyAll store st.region ((sectionWrites cfg st.region part).take count) =
          (runSection cfg st.region part).2 := by
  have hwhole : ∀ (r : Region) part count, (sectionWrites cfg r part).length ≤ count →
      applyAll store r ((sectionWrites cfg r part).take count) = (runSection cfg r part).2 := by
    intro r part count hcount
    rw [List.take_of_length_le hcount, runSection_writes]
  refine ⟨⟨fun h => ?_, fun h => ?_⟩, hwhole st.region⟩
  · induction h with
    | refl => exact .fresh
    | tail _ hstep ih =>
      rcases hstep with hstep | ⟨pid, rfl⟩
      · obtain ⟨pid, part, hcan, rfl⟩ := (step_iff cfg).mp hstep
        exact ih.step (by trivial) (.run pid part hcan)
      · exact ih.step (by exact Or.inl rfl) (.kill pid (.later _) 0 rfl)
  · induction h with
    | fresh => exact .refl
    | step _ hallowed hstep ih =>
      cases hstep with
      | run pid part hcan => exact ih.tail (.inl ((step_iff cfg).mpr ⟨pid, part, hcan, rfl⟩))
      | kill pid part count hcan =>
        rcases hallowed with rfl | hcount
        · exact ih.tail (.inr ⟨pid, rfl⟩)
        · -- the whole section, and then the process dies
          refine (ih.tail (.inl ((step_iff cfg).mpr ⟨pid, part, hcan, rfl⟩))).tail (.inr ⟨pid, ?_⟩)
          rw [hwhole _ part count hcount, State.dies, State.commit, State.commit, State.commit, Function.update_idem]
      | releaseAll => exact hallowed.elim

/-! ### Careful runs -/

/-- The sequences a section attaches pages to. -/
def CallSection.extended : CallSection → List ℤ
  | .first (.acquirePagesForSequences sequenceIds _) => sequenceIds
  | .later (.acquired sequenceId _) => [sequenceId]
  | _ => []

/-- The entry's tail is the last page of the chain behind its head. -/
def TailInPlace (slot : ℕ) : Prop :=
  ∃ cells, IsChain kInvalidPageIndex r.pageLinks (r.sequenceTable slot).headPage cells ∧
    (r.sequenceTable slot).tailPage = lastCell kInvalidPageIndex cells

/-- The tails of all entries with these ids are in place. -/
def TailsInPlace (cfg : HostPagedKVConfig) (r : Region) (sequenceIds : List ℤ) : Prop :=
  ∀ slot < cfg.sequenceCapacity, (r.sequenceTable slot).sequenceId ∈ sequenceIds → TailInPlace r slot

/-- The write empties a slot that the scan for the id of some entry passes. -/
def HidesEntry (w : Write) : Prop :=
  ∃ slot, w = .entry slot {} ∧ ∃ other < cfg.sequenceCapacity, (r.sequenceTable other).live ∧
    ¬ OpenAddressing.Reached (slotKinds (store r w)) (probeOrder cfg (r.sequenceTable other).sequenceId) other

/-- **The condition on an event.**  No process is killed between the two stores that reuse a tombstone in front of an
entry, and no section attaches pages to an entry whose tail an earlier kill left behind. -/
def Careful (cfg : HostPagedKVConfig) (st : State Pid) : Event Pid → Prop
  | .run _ part => TailsInPlace cfg st.region part.extended
  | .kill _ part count =>
    TailsInPlace cfg st.region part.extended ∧
      Stoppable store (HidesEntry cfg) st.region (sectionWrites cfg st.region part) count
  | .releaseAll _ => True

end Batchgen.HostPagedKV
