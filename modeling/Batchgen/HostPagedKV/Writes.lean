import Batchgen.HostPagedKV.Interleaving
import Batchgen.HostPagedKV.SlotChain
import Batchgen.Library.CrashWrites

/-!
# The sections of the backend, write by write

A process that is killed inside a mutex section leaves behind the shared-memory writes it has made so
far.  `Write` is one such statement, and the lists of this file are the writes of every section of
`host_paged_kv_backend.cpp` in the order of the source.  `beginCall_writes` and `resumeCall_writes`
connect the two levels: all the writes of a section together do what the section does.
-/

namespace Batchgen.HostPagedKV

open MachineInt LinkedChain CrashWrites Function

variable {slot : ℕ} {cfg : HostPagedKVConfig} {r r' : Region} {sequenceId : ℤ} {isNew : Bool}

/-- One statement that writes the shared region. -/
inductive Write where
  | freeStack (index : ℕ) (page : ℤ)
  | freeStackTop (top : ℕ)
  | pageOwner (page owner : ℤ)
  | pageLink (page next : ℤ)
  | entry (slot : ℕ) (stored : SequenceEntry)
  | sequenceId (slot : ℕ) (sequenceId : ℤ)
  | numPages (slot : ℕ) (numPages : ℕ)
  | headPage (slot : ℕ) (page : ℤ)
  | tailPage (slot : ℕ) (page : ℤ)
  | activeSequences (count : ℕ)
  | sequencesInserted (count : ℕ)
  | sequencesReleased (count : ℕ)
  | acquireFailures (count : ℕ)
  deriving Repr, DecidableEq

variable (r)

def setEntry (slot : ℕ) (entry : SequenceEntry) : Region :=
  { r with sequenceTable := update r.sequenceTable slot entry }

@[simp] theorem setEntry_self (slot : ℕ) (entry : SequenceEntry) :
    (setEntry r slot entry).sequenceTable slot = entry := update_self ..

theorem setEntry_of_ne {s : ℕ} (entry : SequenceEntry) (hs : s ≠ slot) :
    (setEntry r slot entry).sequenceTable s = r.sequenceTable s := update_of_ne hs ..

/-- What the statement does. -/
def store : Write → Region
  | .freeStack index page => { r with freeStack := update r.freeStack index page }
  | .freeStackTop top => { r with freeStackTop := top }
  | .pageOwner page owner => { r with pageOwners := update r.pageOwners page owner }
  | .pageLink page next => { r with pageLinks := update r.pageLinks page next }
  | .entry slot stored => setEntry r slot stored
  | .sequenceId slot sequenceId =>
    setEntry r slot { r.sequenceTable slot with sequenceId := sequenceId }
  | .numPages slot numPages => setEntry r slot { r.sequenceTable slot with numPages := numPages }
  | .headPage slot page => setEntry r slot { r.sequenceTable slot with headPage := page }
  | .tailPage slot page => setEntry r slot { r.sequenceTable slot with tailPage := page }
  | .activeSequences count => { r with activeSequences := count }
  | .sequencesInserted count => { r with sequencesInserted := count }
  | .sequencesReleased count => { r with sequencesReleased := count }
  | .acquireFailures count => { r with acquireFailures := count }

variable {r}

/-! ### Allocation sections -/

def popWrites (numPages : ℕ) (r : Region) : List Write :=
  if r.freeStackTop < numPages then [.acquireFailures (u64 (r.acquireFailures + 1))]
  else [.freeStackTop (r.freeStackTop - u32 numPages)]

/-- The push loop counts in a local variable and stores it once, behind the loop. -/
def pushWrites : ℕ → List ℤ → List Write
  | top, [] => [.freeStackTop top]
  | top, page :: pages => .freeStack top page :: pushWrites (u32 (top + 1)) pages

def undoPopWrites (pages : List ℤ) (r : Region) : List Write :=
  pushWrites r.freeStackTop pages ++
    [.acquireFailures (u64 ((pushPages r pages).acquireFailures + 1))]

/-! ### Attaching -/

/-- `claim` resets the slot it takes before it stores the id. -/
def claimWrites (slot : ℕ) (sequenceId : ℤ) : List Write :=
  [.entry slot {}, .sequenceId slot sequenceId]

def attachPageWrites (sequenceId : ℤ) (slot : ℕ) (r : Region) (page : ℤ) : List Write :=
  let entry := r.sequenceTable slot
  [.pageOwner page sequenceId, .pageLink page kInvalidPageIndex,
    if entry.headPage = kInvalidPageIndex then .headPage slot page
    else .pageLink entry.tailPage page,
    .tailPage slot page, .numPages slot (u32 (entry.numPages + 1))]

def attachWrites (sequenceId : ℤ) (slot : ℕ) : List ℤ → Region → List Write
  | [], _ => []
  | page :: pages, r =>
    attachPageWrites sequenceId slot r page ++
      attachWrites sequenceId slot pages (attachPage sequenceId slot r page)

/-- The sequence section of `AcquirePages`. -/
def acquireAttachWrites (cfg : HostPagedKVConfig) (sequenceId : ℤ) (pages : List ℤ) (r : Region) :
    List Write :=
  match findOrInsertSequenceEntryLocked cfg r sequenceId with
  | .error _ => []
  | .ok (slot, false, r') => attachWrites sequenceId slot pages r'
  | .ok (slot, true, r') =>
    claimWrites slot sequenceId ++
      ([.activeSequences (u32 (r.activeSequences + 1)),
        .sequencesInserted (u64 (r.sequencesInserted + 1))] ++
      attachWrites sequenceId slot pages (countInserted r'))

/-! ### The release paths -/

/-- `ReleaseSequence` and `ReleasePrefixPages` cut a page's link before they clear its owner. -/
def detachWrites (pages : List ℤ) : List Write :=
  pages.flatMap fun page => [.pageLink page kInvalidPageIndex, .pageOwner page kEmptySequenceId]

/-- The other clearing loops write the owner first. -/
def clearWrites (pages : List ℤ) : List Write :=
  pages.flatMap fun page => [.pageOwner page kEmptySequenceId, .pageLink page kInvalidPageIndex]

/-- The field-by-field reset of a released entry. -/
def tombstoneWrites (slot : ℕ) : List Write :=
  [.sequenceId slot kTombstoneSequenceId, .numPages slot 0, .headPage slot kInvalidPageIndex,
    .tailPage slot kInvalidPageIndex]

variable (cfg)

def releaseSequenceWrites (sequenceId : ℤ) (r : Region) : List Write :=
  match findSequenceEntryLocked cfg r sequenceId with
  | none => []
  | some slot =>
    detachWrites (detachFront (cfg.numPages + 1) (r.sequenceTable slot).headPage r).1 ++
      (tombstoneWrites slot ++
        [.activeSequences (u32Pred r.activeSequences),
          .sequencesReleased (u64 (r.sequencesReleased + 1))])

def releasePrefixWrites (sequenceId : ℤ) (numPages : ℕ) (r : Region) :
    List Write :=
  match findSequenceEntryLocked cfg r sequenceId with
  | none => []
  | some slot =>
    let entry := r.sequenceTable slot
    if entry.numPages < numPages then []
    else
      let (pages, page, _) := detachFront numPages entry.headPage r
      if pages.length < numPages then detachWrites pages
      else
        let remaining := entry.numPages - u32 numPages
        detachWrites pages ++
          ([.headPage slot page, .numPages slot remaining] ++
            if remaining = 0 then [.tailPage slot kInvalidPageIndex] else [])

variable {cfg}

/-! ### Retained and resident pages -/

def unlinkPageWrites (slot : ℕ) (previousPage page : ℤ) (r : Region) : List Write :=
  let entry := r.sequenceTable slot
  let next := r.pageLinks page
  (if previousPage = kInvalidPageIndex then .headPage slot next else .pageLink previousPage next) ::
    ((if entry.tailPage = page then [.tailPage slot previousPage] else []) ++
      [.pageLink page kInvalidPageIndex, .pageOwner page kPrefixResidentSequenceId,
        .numPages slot (u32Pred entry.numPages)])

def unlinkWrites (requested : List ℤ) (slot : ℕ) : ℕ → ℤ → ℤ → Region → List Write
  | 0, _, _, _ => []
  | fuel + 1, previousPage, page, r =>
    if page = kInvalidPageIndex then []
    else if page ∈ requested then
      unlinkPageWrites slot previousPage page r ++
        unlinkWrites requested slot fuel previousPage (r.pageLinks page)
          (unlinkPage slot previousPage page r)
    else unlinkWrites requested slot fuel page (r.pageLinks page) r

def resetEmptyWrites (slot : ℕ) (entry : SequenceEntry) : List Write :=
  if entry.numPages = 0 then
    [.headPage slot kInvalidPageIndex, .tailPage slot kInvalidPageIndex]
  else []

variable (cfg)

def retainWrites (sequenceId : ℤ) (pageIds : List ℤ) (r : Region) :
    List Write :=
  match findSequenceEntryLocked cfg r sequenceId with
  | none => []
  | some slot =>
    match checkPageList cfg .retained sequenceId (.notSequenceOwned · sequenceId) r [] pageIds with
    | .error _ => []
    | .ok () =>
      let head := (r.sequenceTable slot).headPage
      let chain := walk kInvalidPageIndex r.pageLinks (cfg.numPages + 1) head
      if chain.countP (· ∈ pageIds) ≠ pageIds.length then []
      else
        unlinkWrites pageIds slot (cfg.numPages + 1) kInvalidPageIndex head r ++
          resetEmptyWrites slot
            ((unlinkRequested pageIds slot (cfg.numPages + 1) kInvalidPageIndex head
              r).sequenceTable slot)

def releaseResidentWrites (pageIds : List ℤ) (r : Region) : List Write :=
  match checkPageList cfg .resident kPrefixResidentSequenceId .notPrefixResident r [] pageIds with
  | .error _ => []
  | .ok () => clearWrites pageIds

variable {cfg}

/-! ### AcquirePagesForSequences -/

/-- Claiming a slot, attaching the pages of one sequence of the wave, and counting a new entry. -/
def attachSequenceWrites (sequenceId : ℤ) (slot : ℕ) (isNew : Bool) (pages : List ℤ) (r' : Region) :
    List Write :=
  if isNew then
    claimWrites slot sequenceId ++
      (attachWrites sequenceId slot pages r' ++
        [.activeSequences (u32 ((attachPages sequenceId slot r' pages).activeSequences + 1))])
  else attachWrites sequenceId slot pages r'

def waveWrites (cfg : HostPagedKVConfig) : List (ℤ × List ℤ) → Region → List Write
  | [], _ => []
  | (sequenceId, pages) :: wave, r =>
    match findOrInsertSequenceEntryLocked cfg r sequenceId with
    | .error _ => []
    | .ok (slot, isNew, r') =>
      attachSequenceWrites sequenceId slot isNew pages r' ++
        waveWrites cfg wave (attachSequence sequenceId slot isNew pages r')

/-- The rollback of one sequence: an old entry is stored back as a whole. -/
def undoWaveWrites (r : Region) (undo : WaveUndo) : List Write :=
  if undo.newlyInserted then
    tombstoneWrites undo.slot ++ [.activeSequences (u32Pred r.activeSequences)]
  else
    (if undo.previousEntry.tailPage = kInvalidPageIndex then []
      else [.pageLink undo.previousEntry.tailPage undo.previousTailLink]) ++
      [.entry undo.slot undo.previousEntry]

def undoWavesWrites : List WaveUndo → Region → List Write
  | [], _ => []
  | undo :: undos, r => undoWaveWrites r undo ++ undoWavesWrites undos (undoWave r undo)

variable (cfg)

def acquireForSequencesWrites (sequenceIds : List ℤ) (counts : List ℕ) (r : Region) : List Write :=
  let total := counts.sum
  if r.freeStackTop < total then [.acquireFailures (u64 (r.acquireFailures + 1))]
  else
    let newTop := r.freeStackTop - u32 total
    let allocations := splitAllocations counts (stackSlice r newTop total)
    let wave := sequenceIds.zip allocations
    let popped := store r (.freeStackTop newTop)
    .freeStackTop newTop :: (waveWrites cfg wave popped ++
      match attachWave cfg wave popped with
      | (undos, none, r') =>
        [.sequencesInserted (u64 (r'.sequencesInserted + undos.countP (·.newlyInserted)))]
      | (undos, some _, r') =>
        let r'' := clearPages (undos.foldl undoWave r') allocations.flatten
        undoWavesWrites undos r' ++ (clearWrites allocations.flatten ++
          [.freeStackTop r.freeStackTop, .acquireFailures (u64 (r''.acquireFailures + 1))]))

/-! ### The calls -/

variable (r)

/-- The writes of the first section of a call. -/
def beginWrites : Call → List Write
  | .acquirePages sequenceId numPages =>
    if numPages = 0 then []
    else if isReservedSequenceId sequenceId then []
    else popWrites numPages r
  | .acquirePagesForSequences sequenceIds numTokens =>
    if sequenceIds.length ≠ numTokens.length then []
    else if sequenceIds = [] then []
    else
      match requiredPages cfg [] 0 (sequenceIds.zip numTokens) with
      | .error _ => []
      | .ok counts => acquireForSequencesWrites cfg sequenceIds counts r
  | .releaseSequence sequenceId => releaseSequenceWrites cfg sequenceId r
  | .releasePrefixPages sequenceId numPages =>
    if numPages = 0 then [] else releasePrefixWrites cfg sequenceId numPages r
  | .retainPages sequenceId pageIds =>
    if pageIds = [] then [] else retainWrites cfg sequenceId pageIds r
  | .releaseResidentPages pageIds =>
    if pageIds = [] then [] else releaseResidentWrites cfg pageIds r

/-- The writes of the next section of a call. -/
def resumeWrites : CallState → List Write
  | .idle _ => []
  | .acquired sequenceId pages => acquireAttachWrites cfg sequenceId pages r
  | .releasing pages _ => pushWrites r.freeStackTop pages
  | .undoing pages _ => undoPopWrites pages r

variable {r}

/-! ### The writes of a section do what the section does -/

variable {cfg}

theorem pushWrites_spec (pages : List ℤ) (top : ℕ) (r : Region) :
    applyAll store r (pushWrites top pages) = pushPages { r with freeStackTop := top } pages := by
  induction pages generalizing top r with
  | nil => rfl
  | cons page pages ih => exact ih (u32 (top + 1)) _

theorem attachPageWrites_spec (sequenceId : ℤ) (slot : ℕ) (r : Region) (page : ℤ) :
    applyAll store r (attachPageWrites sequenceId slot r page) = attachPage sequenceId slot r page := by
  dsimp only [attachPageWrites, attachPage, applyAll_cons, applyAll_nil]
  split <;> simp [store, setEntry]

theorem attachWrites_spec (sequenceId : ℤ) (slot : ℕ) (pages : List ℤ) (r : Region) :
    applyAll store r (attachWrites sequenceId slot pages r) = attachPages sequenceId slot r pages := by
  induction pages generalizing r with
  | nil => rfl
  | cons page pages ih =>
    rw [attachWrites, applyAll_append, attachPageWrites_spec, ih]
    rfl

theorem claimWrites_spec (slot : ℕ) (sequenceId : ℤ) (r : Region) :
    applyAll store r (claimWrites slot sequenceId) = setEntry r slot { sequenceId := sequenceId } := by
  simp [claimWrites, store, setEntry]

theorem findOrInsert_claimed (h : SlotFound cfg r sequenceId slot isNew r') :
    (isNew = false ∧ r' = r) ∨ (isNew = true ∧ r' = applyAll store r (claimWrites slot sequenceId)) := by
  rw [claimWrites_spec]
  obtain ⟨-, ⟨hnew, hr, -⟩ | ⟨hnew, -, hr⟩⟩ := h.cases
  · exact Or.inl ⟨hnew, hr⟩
  · exact Or.inr ⟨hnew, hr⟩

theorem acquireAttachWrites_spec (cfg : HostPagedKVConfig) (sequenceId : ℤ) (pages : List ℤ) (r : Region) :
    applyAll store r (acquireAttachWrites cfg sequenceId pages r) = (acquirePagesAttach cfg sequenceId pages r).2 := by
  unfold acquireAttachWrites acquirePagesAttach
  cases hfind : findOrInsertSequenceEntryLocked cfg r sequenceId with
  | error e => rfl
  | ok out =>
    obtain ⟨slot, isNew, r'⟩ := out
    obtain ⟨rfl, rfl⟩ | ⟨rfl, rfl⟩ := findOrInsert_claimed hfind
    · exact attachWrites_spec sequenceId slot pages r'
    · dsimp only
      rw [applyAll_append, applyAll_append, if_pos rfl, claimWrites_spec]
      exact attachWrites_spec sequenceId slot pages _

theorem detachWrites_spec (pages : List ℤ) (r : Region) :
    applyAll store r (detachWrites pages) = clearPages r pages := by
  induction pages generalizing r with
  | nil => rfl
  | cons page pages ih => exact ih (clearPage r page)

theorem clearWrites_spec (pages : List ℤ) (r : Region) : applyAll store r (clearWrites pages) = clearPages r pages := by
  induction pages generalizing r with
  | nil => rfl
  | cons page pages ih => exact ih (clearPage r page)

/-- The detach loop clears the pages it returns and writes nothing else. -/
theorem detachFront_region (fuel : ℕ) (page : ℤ) (r : Region) :
    (detachFront fuel page r).2.2 = clearPages r (detachFront fuel page r).1 := by
  induction fuel generalizing page r with
  | zero => rfl
  | succ fuel ih =>
    rw [detachFront]
    split
    · rfl
    · exact ih _ _

theorem tombstoneWrites_spec (slot : ℕ) (r : Region) :
    applyAll store r (tombstoneWrites slot) = setEntry r slot tombstoneEntry := by
  simp [tombstoneWrites, store, setEntry, tombstoneEntry]

variable (cfg)

theorem releaseSequenceWrites_spec (sequenceId : ℤ) (r : Region) :
    applyAll store r (releaseSequenceWrites cfg sequenceId r) = (releaseSequenceDetach cfg sequenceId r).2 := by
  unfold releaseSequenceWrites releaseSequenceDetach
  cases findSequenceEntryLocked cfg r sequenceId with
  | none => rfl
  | some slot =>
    dsimp only
    rw [applyAll_append, applyAll_append, detachWrites_spec, tombstoneWrites_spec, detachFront_region, clearPages_rest]
    rfl

theorem releasePrefixWrites_spec (sequenceId : ℤ) (numPages : ℕ) (r : Region) :
    applyAll store r (releasePrefixWrites cfg sequenceId numPages r) =
      (releasePrefixPagesDetach cfg sequenceId numPages r).2 := by
  unfold releasePrefixWrites releasePrefixPagesDetach
  cases findSequenceEntryLocked cfg r sequenceId with
  | none => rfl
  | some slot =>
    dsimp only
    split
    · rfl
    · split
      · rw [detachWrites_spec, detachFront_region]
      · rw [applyAll_append, applyAll_append, detachWrites_spec, detachFront_region]
        split <;> simp [store, setEntry, *]

variable {cfg}

theorem unlinkPageWrites_spec (slot : ℕ) (previousPage page : ℤ) (r : Region) :
    applyAll store r (unlinkPageWrites slot previousPage page r) = unlinkPage slot previousPage page r := by
  dsimp only [unlinkPageWrites, unlinkPage, applyAll_cons]
  rw [applyAll_append]
  split <;> split <;> simp [store, setEntry, *]

theorem unlinkWrites_spec (requested : List ℤ) (slot fuel : ℕ) (previousPage page : ℤ) (r : Region) :
    applyAll store r (unlinkWrites requested slot fuel previousPage page r) =
      unlinkRequested requested slot fuel previousPage page r := by
  induction fuel generalizing previousPage page r with
  | zero => rfl
  | succ fuel ih =>
    rw [unlinkWrites, unlinkRequested]
    split
    · rfl
    · split
      · rw [applyAll_append, unlinkPageWrites_spec, ih]
      · exact ih _ _ _

variable (cfg)

theorem retainWrites_spec (sequenceId : ℤ) (pageIds : List ℤ) (r : Region) :
    applyAll store r (retainWrites cfg sequenceId pageIds r) = (retainPages cfg sequenceId pageIds r).2 := by
  unfold retainWrites retainPages
  cases findSequenceEntryLocked cfg r sequenceId with
  | none => rfl
  | some slot =>
    dsimp only
    cases checkPageList cfg .retained sequenceId (.notSequenceOwned · sequenceId) r [] pageIds with
    | error e => rfl
    | ok _ =>
      dsimp only
      split
      · rfl
      · rw [applyAll_append, unlinkWrites_spec]
        unfold resetEmptyWrites resetEmptyEntry
        split <;> simp [store, setEntry]

theorem releaseResidentWrites_spec (pageIds : List ℤ) (r : Region) :
    applyAll store r (releaseResidentWrites cfg pageIds r) = (releaseResidentPagesClear cfg pageIds r).2 := by
  unfold releaseResidentWrites releaseResidentPagesClear
  cases checkPageList cfg .resident kPrefixResidentSequenceId .notPrefixResident r [] pageIds with
  | error e => rfl
  | ok _ => exact clearWrites_spec pageIds r

variable {cfg}

theorem attachSequenceWrites_spec (pages : List ℤ)
    (h : SlotFound cfg r sequenceId slot isNew r') :
    applyAll store r (attachSequenceWrites sequenceId slot isNew pages r') =
      attachSequence sequenceId slot isNew pages r' := by
  unfold attachSequenceWrites attachSequence
  obtain ⟨rfl, rfl⟩ | ⟨rfl, rfl⟩ := findOrInsert_claimed h
  · exact attachWrites_spec sequenceId slot pages r'
  · rw [if_pos rfl, applyAll_append, applyAll_append, attachWrites_spec]
    rfl

theorem waveWrites_spec (cfg : HostPagedKVConfig) (wave : List (ℤ × List ℤ)) (r : Region) :
    applyAll store r (waveWrites cfg wave r) = (attachWave cfg wave r).2.2 := by
  induction wave generalizing r with
  | nil => rfl
  | cons head wave ih =>
    obtain ⟨sequenceId, pages⟩ := head
    rw [waveWrites, attachWave]
    cases hfind : findOrInsertSequenceEntryLocked cfg r sequenceId with
    | error e => rfl
    | ok out =>
      obtain ⟨slot, isNew, r'⟩ := out
      dsimp only
      rw [applyAll_append, attachSequenceWrites_spec pages hfind, ih]

theorem undoWaveWrites_spec (r : Region) (undo : WaveUndo) :
    applyAll store r (undoWaveWrites r undo) = undoWave r undo := by
  unfold undoWaveWrites undoWave
  split
  · rw [applyAll_append, tombstoneWrites_spec]
    rfl
  · split <;> simp [store, setEntry]

theorem undoWavesWrites_spec (undos : List WaveUndo) (r : Region) :
    applyAll store r (undoWavesWrites undos r) = undos.foldl undoWave r := by
  induction undos generalizing r with
  | nil => rfl
  | cons undo undos ih =>
    rw [undoWavesWrites, applyAll_append, undoWaveWrites_spec, ih]
    rfl

variable (cfg)

theorem acquireForSequencesWrites_spec (sequenceIds : List ℤ) (counts : List ℕ) (r : Region) :
    applyAll store r (acquireForSequencesWrites cfg sequenceIds counts r) =
      (acquirePagesForSequences cfg sequenceIds counts r).2 := by
  unfold acquireForSequencesWrites acquirePagesForSequences
  dsimp only
  split
  · rfl
  rw [applyAll_cons, applyAll_append]
  have hwave := waveWrites_spec cfg (sequenceIds.zip (splitAllocations counts
    (stackSlice r (r.freeStackTop - u32 counts.sum) counts.sum)))
    (store r (.freeStackTop (r.freeStackTop - u32 counts.sum)))
  rw [show { r with freeStackTop := r.freeStackTop - u32 counts.sum } =
    store r (.freeStackTop (r.freeStackTop - u32 counts.sum)) from rfl, hwave]
  generalize attachWave cfg _ _ = out
  obtain ⟨undos, error, r'⟩ := out
  cases error with
  | none => rfl
  | some e =>
    dsimp only
    rw [applyAll_append, applyAll_append, undoWavesWrites_spec, clearWrites_spec]
    rfl

variable (r)

/-- **All the writes of a first section do what the section does.** -/
theorem beginCall_writes (call : Call) : applyAll store r (beginWrites cfg r call) = (beginCall cfg r call).2 := by
  cases call with
  | acquirePages sequenceId numPages =>
    simp only [beginWrites, beginCall]
    split
    · rfl
    · split
      · rfl
      · unfold popWrites popPages
        split <;> rfl
  | acquirePagesForSequences sequenceIds numTokens =>
    simp only [beginWrites, beginCall]
    split
    · rfl
    split
    · rfl
    cases requiredPages cfg [] 0 (sequenceIds.zip numTokens) with
    | error e => rfl
    | ok counts =>
      dsimp only
      rw [acquireForSequencesWrites_spec]
      rcases acquirePagesForSequences cfg sequenceIds counts r with ⟨e | allocations, r'⟩ <;>
        rfl
  | releaseSequence sequenceId =>
    rw [beginWrites, beginCall, afterDetach_region]
    exact releaseSequenceWrites_spec cfg sequenceId r
  | releasePrefixPages sequenceId numPages =>
    simp only [beginWrites, beginCall]
    split
    · rfl
    · rw [afterDetach_region]
      exact releasePrefixWrites_spec cfg sequenceId numPages r
  | retainPages sequenceId pageIds =>
    simp only [beginWrites, beginCall]
    split
    · rfl
    · rw [retainWrites_spec]
      rcases retainPages cfg sequenceId pageIds r with ⟨e | pages, r'⟩ <;> rfl
  | releaseResidentPages pageIds =>
    simp only [beginWrites, beginCall]
    split
    · rfl
    · rw [afterDetach_region]
      exact releaseResidentWrites_spec cfg pageIds r

/-- **All the writes of a later section do what the section does.** -/
theorem resumeCall_writes (call : CallState) :
    applyAll store r (resumeWrites cfg r call) = (resumeCall cfg r call).2 := by
  cases call with
  | idle last => rfl
  | acquired sequenceId pages =>
    rw [resumeWrites, resumeCall, acquireAttachWrites_spec]
    rcases acquirePagesAttach cfg sequenceId pages r with ⟨e | _, r'⟩ <;> rfl
  | releasing pages result => exact pushWrites_spec pages r.freeStackTop r
  | undoing pages error =>
    rw [resumeWrites, undoPopWrites, applyAll_append, pushWrites_spec]
    rfl

end Batchgen.HostPagedKV
