import Batchgen.HostPagedKV.Region

/-!
# The critical sections of the host paged KV backend

Each public call of `host_paged_kv_backend.cpp` is one or two mutex sections.  This file gives every
section as one function of the region.

* allocation sections: `popPages` (the pop of `AcquirePages`) and `pushPages` (the push-back that the
  release paths and the exception handler of `AcquirePages` share);
* sequence sections: `acquirePagesAttach`, `releaseSequenceDetach`, `releasePrefixPagesDetach`,
  `retainPages`, `releaseResidentPagesClear`;
* `acquirePagesForSequences`, which holds both mutexes, with its rollback.

A section that throws returns the region as it is when the exception leaves the section.  The loops
that follow `page_links` until the invalid index are bounded by one step more than there are pages.
-/

namespace Batchgen.HostPagedKV

open MachineInt LinkedChain Function

variable (cfg : HostPagedKVConfig) (r : Region) (slot : ℕ)

/-! ### Loop bodies the sections share -/

/-- `page_links[page] = kInvalidPageIndex; page_owners[page] = kEmptySequenceId`. -/
def clearPage (page : ℤ) : Region :=
  { r with
    pageOwners := update r.pageOwners page kEmptySequenceId
    pageLinks := update r.pageLinks page kInvalidPageIndex }

def clearPages (pages : List ℤ) : Region := pages.foldl clearPage r

/-- One round of the attach loop: tag the page, end its link, and hang it behind the tail. -/
def attachPage (sequenceId : ℤ) (slot : ℕ) (r : Region) (page : ℤ) : Region :=
  let entry := r.sequenceTable slot
  let owners := update r.pageOwners page sequenceId
  let links := update r.pageLinks page kInvalidPageIndex
  if entry.headPage = kInvalidPageIndex then
    { r with
      pageOwners := owners
      pageLinks := links
      sequenceTable := update r.sequenceTable slot
        { entry with headPage := page, tailPage := page, numPages := u32 (entry.numPages + 1) } }
  else
    { r with
      pageOwners := owners
      pageLinks := update links entry.tailPage page
      sequenceTable := update r.sequenceTable slot
        { entry with tailPage := page, numPages := u32 (entry.numPages + 1) } }

def attachPages (sequenceId : ℤ) (slot : ℕ) (r : Region) (pages : List ℤ) : Region :=
  pages.foldl (attachPage sequenceId slot) r

/-- `free_stack[top++] = page`. -/
def pushPage (page : ℤ) : Region :=
  { r with
    freeStack := update r.freeStack r.freeStackTop page
    freeStackTop := u32 (r.freeStackTop + 1) }

def pushPages (pages : List ℤ) : Region := pages.foldl pushPage r

/-- The slice of the free stack that a pop of `count` pages hands out, lowest position first. -/
def stackSlice (start count : ℕ) : List ℤ :=
  (List.range count).map fun i => r.freeStack (start + i)

/-- The release loops: detach at most `fuel` pages from the front of the chain at `page`.  The result
is the detached pages, the page the loop stops at, and the region. -/
def detachFront : ℕ → ℤ → Region → List ℤ × ℤ × Region
  | 0, page, r => ([], page, r)
  | fuel + 1, page, r =>
    if page = kInvalidPageIndex then ([], page, r)
    else
      let rest := detachFront fuel (r.pageLinks page) (clearPage r page)
      (page :: rest.1, rest.2)

/-! ### AcquirePages -/

/-- The allocation section of `AcquirePages`. -/
def popPages (sequenceId : ℤ) (numPages : ℕ) (r : Region) :
    Except BackendError (List ℤ) × Region :=
  if r.freeStackTop < numPages then
    (.error (.insufficientFreePages sequenceId numPages r.freeStackTop),
      { r with acquireFailures := u64 (r.acquireFailures + 1) })
  else
    let newTop := r.freeStackTop - u32 numPages
    (.ok (stackSlice r newTop numPages), { r with freeStackTop := newTop })

/-- A new table entry is counted as active and as inserted. -/
def countInserted : Region :=
  { r with
    activeSequences := u32 (r.activeSequences + 1)
    sequencesInserted := u64 (r.sequencesInserted + 1) }

/-- The sequence section of `AcquirePages`.  It can only throw before a page is attached. -/
def acquirePagesAttach (sequenceId : ℤ) (pages : List ℤ) (r : Region) :
    Except BackendError Unit × Region :=
  match findOrInsertSequenceEntryLocked cfg r sequenceId with
  | .error e => (.error e, r)
  | .ok (slot, isNew, r') =>
    (.ok (), attachPages sequenceId slot (if isNew then countInserted r' else r') pages)

/-- The handler of `AcquirePages` pushes the popped pages back and counts the failure. -/
def acquirePagesUndo (pages : List ℤ) (r : Region) : Region :=
  let r' := pushPages r pages
  { r' with acquireFailures := u64 (r'.acquireFailures + 1) }

/-! ### The release paths -/

/-- The sequence section of `ReleaseSequence`: the pages to push back. -/
def releaseSequenceDetach (sequenceId : ℤ) (r : Region) :
    Except BackendError (List ℤ) × Region :=
  match findSequenceEntryLocked cfg r sequenceId with
  | none => (.error (.sequenceNotFound .release sequenceId), r)
  | some slot =>
    let (pages, _, r') := detachFront (cfg.numPages + 1) (r.sequenceTable slot).headPage r
    (.ok pages,
      { r' with
        sequenceTable := update r'.sequenceTable slot tombstoneEntry
        activeSequences := u32Pred r'.activeSequences
        sequencesReleased := u64 (r'.sequencesReleased + 1) })

/-- The sequence section of `ReleasePrefixPages`.  A chain that ends early throws after the pages it
had were detached and before the entry is updated. -/
def releasePrefixPagesDetach (sequenceId : ℤ) (numPages : ℕ) (r : Region) : Except BackendError (List ℤ) × Region :=
  match findSequenceEntryLocked cfg r sequenceId with
  | none => (.error (.sequenceNotFound .prefixRelease sequenceId), r)
  | some slot =>
    let entry := r.sequenceTable slot
    if entry.numPages < numPages then
      (.error (.prefixReleaseTooLong sequenceId numPages entry.numPages), r)
    else
      let (pages, page, r') := detachFront numPages entry.headPage r
      if pages.length < numPages then (.error (.corruptPageChain sequenceId), r')
      else
        let remaining := entry.numPages - u32 numPages
        (.ok pages,
          { r' with
            sequenceTable := update r'.sequenceTable slot
              { entry with
                headPage := page
                numPages := remaining
                tailPage := if remaining = 0 then kInvalidPageIndex else entry.tailPage } })

/-! ### Retained and resident pages -/

/-- The loop over caller-given page ids in `RetainPages` and `ReleaseResidentPages`: every id is in
range, new to the list, and owned as the call requires.  `seen` holds the ids already accepted. -/
def checkPageList (cfg : HostPagedKVConfig) (call : PageListCall) (owner : ℤ)
    (notOwned : ℤ → BackendError) (r : Region) : List ℤ → List ℤ → Except BackendError Unit
  | _, [] => .ok ()
  | seen, page :: pages =>
    if ¬ InRange cfg page then .error (.pageOutOfRange call page)
    else if page ∈ seen then .error (.duplicatePage call page)
    else if r.pageOwners page ≠ owner then .error (notOwned page)
    else checkPageList cfg call owner notOwned r (page :: seen) pages

/-- One page of the unlink loop of `RetainPages`: the predecessor, or the entry's head, takes over the
page's successor, and the page becomes prefix-resident. -/
def unlinkPage (previousPage page : ℤ) (r : Region) : Region :=
  let entry := r.sequenceTable slot
  let next := r.pageLinks page
  let links :=
    if previousPage = kInvalidPageIndex then r.pageLinks
    else update r.pageLinks previousPage next
  { r with
    pageOwners := update r.pageOwners page kPrefixResidentSequenceId
    pageLinks := update links page kInvalidPageIndex
    sequenceTable := update r.sequenceTable slot
      { entry with
        headPage := if previousPage = kInvalidPageIndex then next else entry.headPage
        tailPage := if entry.tailPage = page then previousPage else entry.tailPage
        numPages := u32Pred entry.numPages } }

/-- The unlink loop of `RetainPages` from `page`, with the last kept page behind it. -/
def unlinkRequested (requested : List ℤ) (slot : ℕ) : ℕ → ℤ → ℤ → Region → Region
  | 0, _, _, r => r
  | fuel + 1, previousPage, page, r =>
    if page = kInvalidPageIndex then r
    else if page ∈ requested then
      unlinkRequested requested slot fuel previousPage (r.pageLinks page)
        (unlinkPage slot previousPage page r)
    else unlinkRequested requested slot fuel page (r.pageLinks page) r

/-- An entry whose last page was retained forgets its head and tail. -/
def resetEmptyEntry (entry : SequenceEntry) : SequenceEntry :=
  if entry.numPages = 0 then
    { entry with headPage := kInvalidPageIndex, tailPage := kInvalidPageIndex }
  else entry

/-- The sequence section of `RetainPages`, which returns the page ids it was given. -/
def retainPages (sequenceId : ℤ) (pageIds : List ℤ) (r : Region) :
    Except BackendError (List ℤ) × Region :=
  match findSequenceEntryLocked cfg r sequenceId with
  | none => (.error (.sequenceNotFound .pageRetain sequenceId), r)
  | some slot =>
    match checkPageList cfg .retained sequenceId (.notSequenceOwned · sequenceId) r [] pageIds with
    | .error e => (.error e, r)
    | .ok () =>
      let head := (r.sequenceTable slot).headPage
      let chain := walk kInvalidPageIndex r.pageLinks (cfg.numPages + 1) head
      if chain.countP (· ∈ pageIds) ≠ pageIds.length then
        (.error (.retainedPagesNotInChain sequenceId), r)
      else
        let r' := unlinkRequested pageIds slot (cfg.numPages + 1) kInvalidPageIndex head r
        (.ok pageIds,
          { r' with
            sequenceTable := update r'.sequenceTable slot
              (resetEmptyEntry (r'.sequenceTable slot)) })

/-- The sequence section of `ReleaseResidentPages`. -/
def releaseResidentPagesClear (pageIds : List ℤ) (r : Region) :
    Except BackendError (List ℤ) × Region :=
  match checkPageList cfg .resident kPrefixResidentSequenceId .notPrefixResident r [] pageIds with
  | .error e => (.error e, r)
  | .ok () => (.ok pageIds, clearPages r pageIds)

/-! ### AcquirePagesForSequences -/

/-- The checks before the locks are taken: the pages each sequence needs.  `seen` are the earlier
sequence ids and `total` the pages they need; the page count is computed in `size_t`. -/
def requiredPages (cfg : HostPagedKVConfig) :
    List ℤ → ℕ → List (ℤ × ℕ) → Except BackendError (List ℕ)
  | _, total, [] => if 2 ^ 32 - 1 < total then .error .pageRequestExceedsSharedCounter else .ok []
  | seen, total, (sequenceId, numTokens) :: requests =>
    if sequenceId ∈ seen then .error (.duplicateSequenceId sequenceId)
    else if numTokens = 0 then .error (.zeroTokens sequenceId)
    else
      let pages := u64 (numTokens + cfg.pageSizeTokens - 1) / cfg.pageSizeTokens
      if 2 ^ 64 - 1 - pages < total then .error .pageRequestExceedsSizeT
      else (requiredPages cfg (sequenceId :: seen) (total + pages) requests).map (pages :: ·)

/-- Cut the popped slice into one list of pages per sequence. -/
def splitAllocations : List ℕ → List ℤ → List (List ℤ)
  | [], _ => []
  | count :: counts, pages => pages.take count :: splitAllocations counts (pages.drop count)

/-- What the wave remembers about a sequence in order to undo it. -/
structure WaveUndo where
  slot : ℕ
  previousEntry : SequenceEntry
  newlyInserted : Bool
  previousTailLink : ℤ
  deriving Repr, DecidableEq

/-- The record made right after the slot of a sequence was found or claimed. -/
def recordUndo (isNew : Bool) (r : Region) : WaveUndo where
  slot := slot
  previousEntry := r.sequenceTable slot
  newlyInserted := isNew
  previousTailLink :=
    if (r.sequenceTable slot).tailPage = kInvalidPageIndex then kInvalidPageIndex
    else r.pageLinks (r.sequenceTable slot).tailPage

/-- Attach the pages of one sequence of the wave; a new entry is counted as active at once, but as
inserted only when the whole wave has committed. -/
def attachSequence (sequenceId : ℤ) (slot : ℕ) (isNew : Bool) (pages : List ℤ) (r : Region) :
    Region :=
  let r' := attachPages sequenceId slot r pages
  if isNew then { r' with activeSequences := u32 (r'.activeSequences + 1) } else r'

/-- The wave's loop.  It stops at the first full table with the undo records in the order they were
made. -/
def attachWave (cfg : HostPagedKVConfig) :
    List (ℤ × List ℤ) → Region → List WaveUndo × Option BackendError × Region
  | [], r => ([], none, r)
  | (sequenceId, pages) :: wave, r =>
    match findOrInsertSequenceEntryLocked cfg r sequenceId with
    | .error e => ([], some e, r)
    | .ok (slot, isNew, r') =>
      let rest := attachWave cfg wave (attachSequence sequenceId slot isNew pages r')
      (recordUndo slot isNew r' :: rest.1, rest.2)

/-- Undo one sequence of the wave. -/
def undoWave (undo : WaveUndo) : Region :=
  if undo.newlyInserted then
    { r with
      sequenceTable := update r.sequenceTable undo.slot tombstoneEntry
      activeSequences := u32Pred r.activeSequences }
  else
    { r with
      pageLinks :=
        if undo.previousEntry.tailPage = kInvalidPageIndex then r.pageLinks
        else update r.pageLinks undo.previousEntry.tailPage undo.previousTailLink
      sequenceTable := update r.sequenceTable undo.slot undo.previousEntry }

/-- `AcquirePagesForSequences` under both mutexes, for the page counts its checks computed. -/
def acquirePagesForSequences (sequenceIds : List ℤ) (counts : List ℕ)
    (r : Region) : Except BackendError (List (List ℤ)) × Region :=
  let total := counts.sum
  if r.freeStackTop < total then
    (.error (.insufficientFreePagesForBatch total r.freeStackTop),
      { r with acquireFailures := u64 (r.acquireFailures + 1) })
  else
    let newTop := r.freeStackTop - u32 total
    let popped := stackSlice r newTop total
    let allocations := splitAllocations counts popped
    match attachWave cfg (sequenceIds.zip allocations) { r with freeStackTop := newTop } with
    | (undos, none, r') =>
      (.ok allocations,
        { r' with
          sequencesInserted :=
            u64 (r'.sequencesInserted + undos.countP (·.newlyInserted)) })
    | (undos, some e, r') =>
      let r'' := clearPages (undos.foldl undoWave r') allocations.flatten
      (.error e,
        { r'' with
          freeStackTop := r.freeStackTop
          acquireFailures := u64 (r''.acquireFailures + 1) })

end Batchgen.HostPagedKV
