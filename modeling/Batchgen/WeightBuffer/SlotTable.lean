import Batchgen.Library.Outcome
import Mathlib.Data.Finset.Card
import Mathlib.Data.List.AList

/-!
# The weight slot table

`WeightSlotTable` keeps the slots of the GPU weight ring: which module a slot holds and for which pass, the
index from a module and a pass to its slot, the skips the producer has still to retire, and one cursor for each
module type.  Each method is a program that keeps the writes it made before it throws.

A type without an entry in `slots_` behaves as one with no slots, so the slots are a function of the type beside
the list of the types that were declared.  The descriptions of the held slots, the open passes and the cursors
that end the messages are left out of the errors.
-/

namespace Batchgen.WeightBuffer

open Function

variable (moduleType : String)

inductive SlotState
  | free
  | filling
  | present
  | leased
  | pendingRelease
  deriving DecidableEq

structure Slot where
  state : SlotState := .free
  name : String := ""
  pass : ℕ := 0
  releaseOnLanding : Bool := false
  deriving DecidableEq

structure SlotRef where
  moduleType : String
  index : ℕ
  deriving DecidableEq

/-- The next position the producer handles for a type. -/
structure Cursor where
  pass : ℕ := 1
  position : ℕ := 0
  deriving DecidableEq

structure Installed where
  moduleType : String
  position : ℕ
  deriving DecidableEq

structure PassCounts where
  copied : ℕ := 0
  skipped : ℕ := 0
  releasedOnLanding : ℕ := 0

inductive Production
  | none
  | parked (pass position : ℕ) (moduleName : String)
  | copy (pass position : ℕ) (moduleName : String)
  | skip (pass position : ℕ) (moduleName : String)
  deriving DecidableEq

inductive SkipOutcome
  | freedPresent
  | releaseOnLanding
  | pending

inductive LeaseCheck
  | ready
  | wait
  deriving DecidableEq

structure SkipCounts where
  freedPresent : ℕ := 0
  releaseOnLanding : ℕ := 0
  pending : ℕ := 0

structure HeldSlot where
  ref : SlotRef
  slot : Slot

structure PassSummary where
  pass : ℕ := 0
  byType : String → Option PassCounts := fun _ => none
  carried : ℕ := 0

structure AbortCounts where
  passes : ℕ
  pendingSkips : ℕ
  freed : SlotState → ℕ

/-- Module type to module names in schedule order. -/
abbrev Tasks := AList fun _ : String => List String

inductive TableError
  | passOpen (action : String)
  | scheduleLost (action : String)
  | installedForBoth (moduleName first second : String)
  | installedTwice (moduleName moduleType : String)
  | slotsHeld
  | tooManyPasses (pass : ℕ)
  | notOpen (action : String) (pass : ℤ)
  | stillLeased (pass : ℕ) (moduleName : String)
  | notOldest (pass : ℤ)
  | cannotEnd (pass : ℕ)
  | wrongClaim (moduleName moduleType : String)
  | wrongRetire (moduleName moduleType : String)
  | transition (action moduleName : String) (state : Option SlotState)
  | invalidSlot (moduleType : String) (index : ℤ)
  | noPassOpen (action : String)
  | notInstalled (action moduleName : String)
  | consumed (action moduleName : String) (pass : ℕ)
  | skipped (action moduleName : String) (pass : ℕ)
  | missingLease (moduleName : String) (state : Option SlotState)
  | duplicateRelease (moduleName : String)
  | duplicateSkip (moduleName : String) (pass : ℕ)
  | lengthError

structure Table where
  types : List String := []
  slots : String → List Slot := fun _ => []
  index : String × ℕ → Option SlotRef := fun _ => none
  pendingSkips : Finset (ℕ × String) := ∅
  installed : AList fun _ : String => Installed := ∅
  lists : Tasks := ∅
  cursors : String → Cursor := fun _ => {}
  openPasses : List ℕ := []
  nextPass : ℕ := 1
  passCounts : ℕ → String → Option PassCounts := fun _ _ => none
  scheduleLost : Bool := false

abbrev Call := EStateM TableError Table

/-- Throw unless the condition holds. -/
def check (c : Prop) [Decidable c] (e : TableError) : Call PUnit := if c then pure ⟨⟩ else throw e

def maxOpenPasses : ℕ := 2

namespace Table

variable (t : Table)

def slot? (ref : SlotRef) : Option Slot := (t.slots ref.moduleType)[ref.index]?

def setSlot (ref : SlotRef) (slot : Slot) : Table :=
  { t with slots := update t.slots ref.moduleType ((t.slots ref.moduleType).set ref.index slot) }

def eraseIndex (key : String × ℕ) : Table := { t with index := update t.index key none }

/-- Every slot that is not free. -/
def held : List HeldSlot :=
  t.types.flatMap fun moduleType => (t.slots moduleType).zipIdx.filterMap fun row =>
    if row.1.state = .free then none else some ⟨⟨moduleType, row.2⟩, row.1⟩

/-- Whether the producer already moved past `position` of `pass`. -/
def produced (moduleType : String) (pass position : ℕ) : Prop :=
  pass < (t.cursors moduleType).pass ∨
    (t.cursors moduleType).pass = pass ∧ position < (t.cursors moduleType).position

instance (moduleType : String) (pass position : ℕ) : Decidable (t.produced moduleType pass position) :=
  instDecidableOr

def pendingSkipCount (pass : ℕ) : ℕ := (t.pendingSkips.filter fun skip => skip.1 = pass).card

/-- The producer moved past the end of the pass for every type. -/
def producerFinished (pass : ℕ) : Prop :=
  ∀ entry ∈ t.lists.entries, entry.2 ≠ [] → pass < (t.cursors entry.1).pass

instance (pass : ℕ) : Decidable (t.producerFinished pass) := List.decidableBAll _ _

def nextProduction (moduleType : String) : Production :=
  match t.lists.lookup moduleType with
  | none => .none
  | some names =>
    let cursor := t.cursors moduleType
    match names[cursor.position]? with
    | none => .none
    | some moduleName =>
      if cursor.pass ∉ t.openPasses then .parked cursor.pass cursor.position moduleName
      else if (cursor.pass, moduleName) ∈ t.pendingSkips then .skip cursor.pass cursor.position moduleName
      else .copy cursor.pass cursor.position moduleName

/-- `unindex`: drop the slot's key if it points at the slot. -/
def unindex (ref : SlotRef) : Table :=
  match t.slot? ref with
  | none => t
  | some slot =>
    if slot.name ≠ "" ∧ t.index (slot.name, slot.pass) = some ref then t.eraseIndex (slot.name, slot.pass)
    else t

def advance (moduleType : String) : Table :=
  let cursor := t.cursors moduleType
  let next : Cursor :=
    if ((t.lists.lookup moduleType).getD []).length ≤ cursor.position + 1 then ⟨cursor.pass + 1, 0⟩
    else ⟨cursor.pass, cursor.position + 1⟩
  { t with cursors := update t.cursors moduleType next }

/-- Change the counts of a type in a pass. -/
def count (pass : ℕ) (moduleType : String) (f : PassCounts → PassCounts) : Table :=
  let counts := f ((t.passCounts pass moduleType).getD {})
  let byType := update (t.passCounts pass) moduleType (some counts)
  { t with passCounts := update t.passCounts pass byType }

/-- The slots of every type. -/
def refs : List SlotRef :=
  t.types.flatMap fun moduleType => (List.range (t.slots moduleType).length).map fun index => ⟨moduleType, index⟩

/-- The positions of every installed list. -/
def positions : List (Installed × String) :=
  t.lists.entries.flatMap fun entry => entry.2.zipIdx.map fun row => (⟨entry.1, row.2⟩, row.1)

end Table

/-- `slot_at` -/
def slotAt (index : ℤ) : Call (SlotRef × Slot) := do
  let t ← get
  if 0 ≤ index then
    match t.slot? ⟨moduleType, index.toNat⟩ with
    | some slot => pure (⟨moduleType, index.toNat⟩, slot)
    | none => throw (.invalidSlot moduleType index)
  else throw (.invalidSlot moduleType index)

def requireNoOpenPass (action : String) : Call PUnit := do
  let t ← get
  check (t.openPasses = []) (.passOpen action)

def requireScheduleAligned (action : String) : Call PUnit := do
  let t ← get
  check (t.scheduleLost = false) (.scheduleLost action)

def requireCurrentPass (action : String) : Call ℕ := do
  let t ← get
  match t.openPasses.head? with
  | some pass => pure pass
  | none => throw (.noPassOpen action)

def requireInstalled (moduleName action : String) : Call Installed := do
  let t ← get
  match t.installed.lookup moduleName with
  | some installed => pure installed
  | none => throw (.notInstalled action moduleName)

/-! ### Layout -/

/-- Drop the keys of all slots of the type. -/
def Table.unindexType (t : Table) (moduleType : String) : Table :=
  (List.range (t.slots moduleType).length).foldl (fun t index => t.unindex ⟨moduleType, index⟩) t

/-- The type gets an entry in `slots_`. -/
def Table.declare (t : Table) (moduleType : String) : Table :=
  { t with types := if moduleType ∈ t.types then t.types else t.types ++ [moduleType] }

def resetType (count : ℤ) : Call PUnit := do
  requireNoOpenPass s!"reset the {moduleType} slots"
  modify fun t => (t.unindexType moduleType).declare moduleType
  -- `assign` of a negative count
  check (0 ≤ count) .lengthError
  modify fun t => { t with slots := update t.slots moduleType (List.replicate count.toNat {}) }

def growType (count : ℤ) : Call PUnit :=
  modify fun t => { t.declare moduleType with
    slots := update t.slots moduleType
      (t.slots moduleType ++ List.replicate (count.toNat - (t.slots moduleType).length) {}) }

/-- Enter one copy task. -/
def installModule (installed : AList fun _ : String => Installed) (row : String × ℕ) :
    Except TableError (AList fun _ : String => Installed) :=
  match installed.lookup row.1 with
  | none => .ok (installed.insert row.1 ⟨moduleType, row.2⟩)
  | some other =>
    if other.moduleType ≠ moduleType then .error (.installedForBoth row.1 other.moduleType moduleType)
    else .error (.installedTwice row.1 moduleType)

/-- The two loops of `install` over the copy tasks. -/
def installTasks (tasks : Tasks) : Except TableError (AList fun _ : String => Installed) :=
  tasks.entries.foldlM (fun installed entry => entry.2.zipIdx.foldlM (installModule entry.1) installed) ∅

def liftExcept {α : Type} : Except TableError α → Call α
  | .ok a => pure a
  | .error e => throw e

def install (tasks : Tasks) : Call PUnit := do
  requireScheduleAligned "install weight copy tasks"
  requireNoOpenPass "install weight copy tasks"
  let installed ← liftExcept (installTasks tasks)
  let t ← get
  check (t.held.isEmpty = true) .slotsHeld
  set { t with
    installed := installed
    lists := tasks
    cursors := fun _ => {}
    pendingSkips := ∅
    passCounts := fun _ _ => none
    nextPass := 1 }

/-! ### Passes -/

def beginPass : Call ℕ := do
  requireScheduleAligned "begin a weight pass"
  let t ← get
  if t.installed.entries = [] then pure 0
  else do
    check (t.openPasses.length < maxOpenPasses) (.tooManyPasses t.nextPass)
    set { t with openPasses := t.openPasses ++ [t.nextPass], nextPass := t.nextPass + 1 }
    pure t.nextPass

/-- Cancelling a pass: one slot. -/
def cancelSlot (pass : ℕ) (acc : Table × SkipCounts) (ref : SlotRef) : Table × SkipCounts :=
  let (t, counts) := acc
  match t.slot? ref with
  | none => acc
  | some slot =>
    if slot.name = "" ∨ slot.pass ≠ pass then acc
    else if slot.state = .present then
      ((t.eraseIndex (slot.name, pass)).setSlot ref {},
        { counts with freedPresent := counts.freedPresent + 1 })
    else if slot.state = .filling ∧ slot.releaseOnLanding = false then
      (t.setSlot ref { slot with releaseOnLanding := true },
        { counts with releaseOnLanding := counts.releaseOnLanding + 1 })
    else acc

/-- Cancelling a pass: one position of a list. -/
def cancelPosition (pass : ℕ) (acc : Table × SkipCounts) (row : Installed × String) : Table × SkipCounts :=
  let (t, counts) := acc
  if t.produced row.1.moduleType pass row.1.position then acc
  else if (pass, row.2) ∈ t.pendingSkips then acc
  else
    ({ t with pendingSkips := insert (pass, row.2) t.pendingSkips },
      { counts with pending := counts.pending + 1 })

def cancelPass (id : ℤ) : Call SkipCounts := do
  if id = 0 then pure {}
  else do
    let t ← get
    let pass := id.toNat
    check (0 ≤ id ∧ pass ∈ t.openPasses) (.notOpen "cancel" id)
    match t.held.find? fun h => h.slot.pass = pass ∧ h.slot.state = .leased with
    | some h => throw (.stillLeased pass h.slot.name)
    | none => do
        let freed := t.refs.foldl (cancelSlot pass) (t, {})
        let skipped := t.positions.foldl (cancelPosition pass) freed
        set skipped.1
        pure skipped.2

/-- What keeps a pass from ending. -/
def Table.Endable (t : Table) (pass : ℕ) : Prop :=
  t.producerFinished pass ∧ (∀ h ∈ t.held, ¬ (h.slot.pass = pass ∧ h.slot.name ≠ "")) ∧
    t.pendingSkipCount pass = 0

instance (t : Table) (pass : ℕ) : Decidable (t.Endable pass) := instDecidableAnd

def Table.summary (t : Table) (pass : ℕ) : PassSummary where
  pass := pass
  byType := fun moduleType =>
    match t.passCounts pass moduleType with
    | some counts => some counts
    | none =>
      match t.lists.lookup moduleType with
      | some (_ :: _) => some {}
      | _ => none
  carried := (t.held.filter fun h => h.slot.pass = pass + 1).length

def endPass (id : ℤ) : Call PassSummary := do
  if id = 0 then pure {}
  else do
    let t ← get
    let pass := id.toNat
    check (0 ≤ id ∧ t.openPasses.head? = some pass) (.notOldest id)
    check (t.Endable pass) (.cannotEnd pass)
    set { t with
      openPasses := t.openPasses.tail
      passCounts := update t.passCounts pass fun _ => none }
    pure (t.summary pass)

def Slot.abort (slot : Slot) : Slot := if slot.state = .free then slot else {}

def abort (loseSchedule : Bool) : Call AbortCounts := do
  let t ← get
  set { t with
    slots := fun moduleType => (t.slots moduleType).map Slot.abort
    index := fun _ => none
    pendingSkips := ∅
    passCounts := fun _ _ => none
    openPasses := []
    cursors := fun _ => ⟨t.nextPass, 0⟩
    scheduleLost := t.scheduleLost || loseSchedule }
  pure ⟨t.openPasses.length, t.pendingSkips.card, fun state =>
    if state = .free then 0 else (t.held.filter fun h => h.slot.state = state).length⟩

/-! ### The producer -/

def reserve : Call (Option ℕ) := do
  let t ← get
  match (t.slots moduleType).findIdx? fun slot => slot.state = .free with
  | none => pure none
  | some index => do
      set (t.setSlot ⟨moduleType, index⟩ { state := .filling })
      pure (some index)

def abandon (moduleType : String) (index : ℤ) : Call PUnit := do
  let (ref, slot) ← slotAt moduleType index
  check (slot.state = .filling) (.transition "abandon" slot.name (some slot.state))
  modify fun t => (t.unindex ref).setSlot ref {}

/-- The state of the slot that is indexed for a key. -/
def Table.stateOf (t : Table) (key : String × ℕ) : Option SlotState := do
  let ref ← t.index key
  let slot ← t.slot? ref
  pure slot.state

/-- Returns whether the module is to be copied; otherwise a skip is pending for it. -/
def claim (index : ℤ) (moduleName : String) : Call Bool := do
  let t ← get
  match t.nextProduction moduleType with
  | .skip _ _ name => do
      check (name = moduleName) (.wrongClaim moduleName moduleType)
      if 0 ≤ index then abandon moduleType index
      pure false
  | .copy pass _ name => do
      check (name = moduleName) (.wrongClaim moduleName moduleType)
      let (ref, slot) ← slotAt moduleType index
      check (slot.state = .filling ∧ slot.name = "") (.transition "assign" moduleName (some slot.state))
      check (t.index (moduleName, pass) = none)
        (.transition "assign" moduleName (t.stateOf (moduleName, pass)))
      set ((({ t with index := update t.index (moduleName, pass) (some ref) }).setSlot ref
        { slot with name := moduleName, pass := pass }).advance moduleType)
      pure true
  | _ => throw (.wrongClaim moduleName moduleType)

def retireSkip (moduleType moduleName : String) : Call PUnit := do
  let t ← get
  match t.nextProduction moduleType with
  | .skip pass _ name => do
      check (name = moduleName) (.wrongRetire moduleName moduleType)
      set ((({ t with pendingSkips := t.pendingSkips.erase (pass, moduleName) }).count pass moduleType fun c =>
        { c with skipped := c.skipped + 1 }).advance moduleType)
  | _ => throw (.wrongRetire moduleName moduleType)

/-- Returns whether the module is now present. -/
def landed (index : ℤ) : Call Bool := do
  let (ref, slot) ← slotAt moduleType index
  check (slot.state = .filling ∧ slot.name ≠ "") (.transition "land" slot.name (some slot.state))
  if slot.releaseOnLanding then do
    modify fun t => ((t.count slot.pass moduleType fun c => { c with
      copied := c.copied + 1, releasedOnLanding := c.releasedOnLanding + 1 }).eraseIndex
        (slot.name, slot.pass)).setSlot ref {}
    pure false
  else do
    modify fun t => (t.count slot.pass moduleType fun c => { c with copied := c.copied + 1 }).setSlot ref
      { slot with state := .present }
    pure true

/-! ### The consumer -/

def checkLease (moduleName : String) : Call LeaseCheck := do
  let pass ← requireCurrentPass s!"lease {moduleName}"
  let installed ← requireInstalled moduleName "lease"
  let t ← get
  match t.index (moduleName, pass) with
  | some ref => do
      let (_, slot) ← slotAt ref.moduleType ref.index
      match slot.state with
      | .present => pure .ready
      | .filling =>
        if slot.releaseOnLanding then throw (.skipped "lease" moduleName pass) else pure .wait
      | state => throw (.transition "lease" moduleName (some state))
  | none => do
      check ((pass, moduleName) ∉ t.pendingSkips) (.skipped "lease" moduleName pass)
      check (¬ t.produced installed.moduleType pass installed.position) (.consumed "lease" moduleName pass)
      pure .wait

def lease (moduleName : String) : Call SlotRef := do
  let found ← checkLease moduleName
  let pass ← requireCurrentPass s!"lease {moduleName}"
  let t ← get
  check (found = .ready) (.transition "lease" moduleName (t.stateOf (moduleName, pass)))
  match t.index (moduleName, pass) with
  | some ref => do
      let (ref, slot) ← slotAt ref.moduleType ref.index
      set (t.setSlot ref { slot with state := .leased })
      pure ref
  | none => throw (.transition "lease" moduleName none)

/-- The slot that is leased under the name in the current pass. -/
def leasedRef (moduleName : String) : Call (ℕ × SlotRef × Slot) := do
  let t ← get
  match t.openPasses.head? with
  | none => throw (.missingLease moduleName none)
  | some pass =>
    match t.index (moduleName, pass) with
    | none => throw (.missingLease moduleName none)
    | some ref => do
        let (ref, slot) ← slotAt ref.moduleType ref.index
        check (slot.state = .leased) (.missingLease moduleName (some slot.state))
        pure (pass, ref, slot)

def release (moduleName : String) : Call SlotRef := do
  let (pass, ref, _) ← leasedRef moduleName
  modify fun t => (t.eraseIndex (moduleName, pass)).setSlot ref {}
  pure ref

/-- The checks of `release_async`, one name after the other. -/
def leasedRefs : List String → List String → Call (List (String × ℕ × SlotRef))
  | [], _ => pure []
  | moduleName :: rest, before => do
      check (moduleName ∉ before) (.duplicateRelease moduleName)
      let (pass, ref, _) ← leasedRef moduleName
      let refs ← leasedRefs rest (before ++ [moduleName])
      pure ((moduleName, pass, ref) :: refs)

/-- One name of the second loop of `release_async`. -/
def Table.releaseLater (t : Table) (row : String × ℕ × SlotRef) : Table :=
  match t.slot? row.2.2 with
  | none => t
  | some slot => (t.eraseIndex (row.1, row.2.1)).setSlot row.2.2 { slot with state := .pendingRelease }

def releaseAsync (moduleNames : List String) : Call (List SlotRef) := do
  let rows ← leasedRefs moduleNames []
  modify fun t => rows.foldl Table.releaseLater t
  pure (rows.map fun row => row.2.2)

def reclaim (moduleType : String) (index : ℤ) : Call PUnit := do
  let (ref, slot) ← slotAt moduleType index
  check (slot.state = .pendingRelease) (.transition "reclaim" slot.name (some slot.state))
  modify fun t => t.setSlot ref {}

/-! ### Skips -/

def checkSkip (moduleName : String) : Call ℕ := do
  let pass ← requireCurrentPass s!"skip {moduleName}"
  let installed ← requireInstalled moduleName "skip"
  let t ← get
  match t.index (moduleName, pass) with
  | some ref => do
      let (_, slot) ← slotAt ref.moduleType ref.index
      check (¬ (slot.state = .leased ∨ slot.state = .filling ∧ slot.releaseOnLanding = true))
        (.transition "skip" moduleName (some slot.state))
      pure pass
  | none => do
      check ((pass, moduleName) ∉ t.pendingSkips) (.duplicateSkip moduleName pass)
      check (¬ t.produced installed.moduleType pass installed.position) (.consumed "skip" moduleName pass)
      pure pass

def skip (moduleName : String) : Call SkipOutcome := do
  let pass ← checkSkip moduleName
  let t ← get
  match t.index (moduleName, pass) with
  | some ref => do
      let (ref, slot) ← slotAt ref.moduleType ref.index
      if slot.state = .filling then do
        set (t.setSlot ref { slot with releaseOnLanding := true })
        pure .releaseOnLanding
      else do
        set ((t.eraseIndex (moduleName, pass)).setSlot ref {})
        pure .freedPresent
  | none => do
      set { t with pendingSkips := insert (pass, moduleName) t.pendingSkips }
      pure .pending

/-! ### Runs -/

/-- The calls that write. -/
inductive Command
  | resetType (moduleType : String) (count : ℤ)
  | growType (moduleType : String) (count : ℤ)
  | install (tasks : Tasks)
  | beginPass
  | cancelPass (pass : ℤ)
  | endPass (pass : ℤ)
  | abort (loseSchedule : Bool)
  | reserve (moduleType : String)
  | claim (moduleType : String) (index : ℤ) (moduleName : String)
  | retireSkip (moduleType moduleName : String)
  | landed (moduleType : String) (index : ℤ)
  | abandon (moduleType : String) (index : ℤ)
  | lease (moduleName : String)
  | release (moduleName : String)
  | releaseAsync (moduleNames : List String)
  | reclaim (moduleType : String) (index : ℤ)
  | skip (moduleName : String)

def Command.exec : Command → Call PUnit
  | .resetType moduleType count => WeightBuffer.resetType moduleType count
  | .growType moduleType count => WeightBuffer.growType moduleType count
  | .install tasks => WeightBuffer.install tasks
  | .beginPass => (fun _ => ⟨⟩) <$> WeightBuffer.beginPass
  | .cancelPass pass => (fun _ => ⟨⟩) <$> WeightBuffer.cancelPass pass
  | .endPass pass => (fun _ => ⟨⟩) <$> WeightBuffer.endPass pass
  | .abort loseSchedule => (fun _ => ⟨⟩) <$> WeightBuffer.abort loseSchedule
  | .reserve moduleType => (fun _ => ⟨⟩) <$> WeightBuffer.reserve moduleType
  | .claim moduleType index moduleName => (fun _ => ⟨⟩) <$> WeightBuffer.claim moduleType index moduleName
  | .retireSkip moduleType moduleName => WeightBuffer.retireSkip moduleType moduleName
  | .landed moduleType index => (fun _ => ⟨⟩) <$> WeightBuffer.landed moduleType index
  | .abandon moduleType index => WeightBuffer.abandon moduleType index
  | .lease moduleName => (fun _ => ⟨⟩) <$> WeightBuffer.lease moduleName
  | .release moduleName => (fun _ => ⟨⟩) <$> WeightBuffer.release moduleName
  | .releaseAsync moduleNames => (fun _ => ⟨⟩) <$> WeightBuffer.releaseAsync moduleNames
  | .reclaim moduleType index => WeightBuffer.reclaim moduleType index
  | .skip moduleName => (fun _ => ⟨⟩) <$> WeightBuffer.skip moduleName

/-- The table after a call, whether it returned or threw. -/
def Command.run (c : Command) (t : Table) : Table :=
  match c.exec t with
  | .ok _ t' => t'
  | .error _ t' => t'

/-- A new table after any calls. -/
def runAll (calls : List Command) : Table := calls.foldl (fun t c => c.run t) {}

end Batchgen.WeightBuffer
