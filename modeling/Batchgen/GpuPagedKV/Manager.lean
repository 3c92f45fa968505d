import Batchgen.Library.Outcome
import Batchgen.Library.DictValues
import Mathlib.Data.List.Sort
import Mathlib.Data.List.Dedup
import Mathlib.Algebra.Order.Ring.Int

/-!
# The GPU page allocator

The page bookkeeping of `GPUPagedKVManager`: the free stack, the page list of each sequence, the reference
counts of the pages, and the two maps between the keys of shared pages and their pages.  Each method is a
program that keeps the writes it made before it raises.  In source order:

* `TensorStack` — `_TensorStack`;
* `requiredPages`, `requiredPagesVector` — `GPUPagedKVGeometry.required_pages`;
* `allocatePages`, `allocatePagesForSequences`, `normalizeSharedPageKeys`,
  `countMappedLeadingSharedPages`, `allocatePagesForSequencesWithPageKeys`, `growPagesForSequences`;
* `resetAllocations`, `freePagesForSequences`, `releaseSequencePrefixPages`, `extendPagesForSequence`;
* `retainGpuPages`, `releaseGpuPages`.
-/

namespace Batchgen.GpuPagedKV

abbrev Page := ℕ
abbrev SequenceId := ℤ
abbrev PageKey := ℤ

/-- The exceptions the methods raise, with their messages. -/
inductive PyError
  | runtimeError (message : String)
  | valueError (message : String)
  | keyError (message : String)
  deriving DecidableEq

/-! ### `_TensorStack` -/

/-- The buffer up to `_size`, bottom first. -/
structure TensorStack where
  capacity : ℕ
  items : List Page

variable (s : TensorStack)

namespace TensorStack

def size : ℕ := s.items.length

def push (values : List Page) : Except PyError TensorStack :=
  if s.capacity < s.size + values.length then .error (.runtimeError "TensorStack overflow")
  else .ok { s with items := s.items ++ values }

/-- `pop`, with the popped values in buffer order. -/
def pop (count : ℕ) : Except PyError (List Page × TensorStack) :=
  if s.size < count then .error (.runtimeError "Insufficient elements in TensorStack")
  else .ok (s.items.drop (s.size - count), { s with items := s.items.take (s.size - count) })

/-- A new stack holds all pages, page 0 on top. -/
def full (capacity : ℕ) : TensorStack := ⟨capacity, (List.range capacity).reverse⟩

end TensorStack

/-! ### The manager -/

structure Config where
  numPages : ℕ
  pageSizeTokens : ℕ
  pageSizeTokens_pos : 0 < pageSizeTokens

variable (cfg : Config)

structure Manager where
  isInitialized : Bool
  freePages : TensorStack
  sequences : AList fun _ : SequenceId => List Page
  gpuPageRefcounts : AList fun _ : Page => ℕ
  sharedPageKeyToGpuPage : AList fun _ : PageKey => Page
  gpuPageToSharedKey : AList fun _ : Page => PageKey

variable (m : Manager)

/-- `_reset_runtime_state` and `initialize`: nothing is allocated. -/
def Manager.fresh : Manager := ⟨true, .full cfg.numPages, ∅, ∅, ∅, ∅⟩

abbrev Call := EStateM PyError Manager

/-- Raise unless the condition holds. -/
def check (c : Prop) [Decidable c] (e : PyError) : Call PUnit := if c then pure ⟨⟩ else throw e

def liftExcept {α : Type} : Except PyError α → Call α
  | .ok a => pure a
  | .error e => throw e

def ensureInitialized : Call PUnit := do
  let m ← get
  check m.isInitialized (.runtimeError "GPUPagedKVCacheManager.initialize must be called before use")

/-! ### Geometry -/

/-- `required_pages` of one token count. -/
def requiredPages (numTokens : ℤ) : Except PyError ℕ :=
  if numTokens ≤ 0 then
    .error (.valueError s!"required_pages: num_tokens must be > 0, got {numTokens}")
  else .ok ((numTokens + (cfg.pageSizeTokens - 1)) / cfg.pageSizeTokens).toNat

/-- A value of a 64-bit tensor. -/
def toInt64 (x : ℤ) : ℤ := x.bmod (2 ^ 64)

/-- `required_pages` of a vector; the sum is computed with 64 bits. -/
def requiredPagesVector (numTokens : List ℤ) : Except PyError (List ℤ) :=
  if numTokens.any fun t => toInt64 t ≠ t then
    .error (.runtimeError "value cannot be converted to type int64_t without overflow")
  else if numTokens = [] then
    .error (.valueError "required_pages: token count vector must be non-empty")
  else if numTokens.any (· ≤ 0) then
    .error (.valueError "required_pages: all token counts must be positive")
  else .ok (numTokens.map fun t => toInt64 (t + (cfg.pageSizeTokens - 1)) / cfg.pageSizeTokens)

/-! ### References -/

namespace Manager

def refcount (page : Page) : ℕ := (m.gpuPageRefcounts.lookup page).getD 0

/-- `_retain_gpu_pages` -/
def retainGpuPages (pages : List Page) : Manager :=
  pages.foldl (fun m page =>
    { m with gpuPageRefcounts := m.gpuPageRefcounts.insert page (m.refcount page + 1) }) m

def setSequence (sequenceId : SequenceId) (pages : List Page) : Manager :=
  { m with sequences := m.sequences.insert sequenceId pages }

def setRefcount (page : Page) (count : ℕ) : Manager :=
  { m with gpuPageRefcounts := m.gpuPageRefcounts.insert page count }

def dropRefcount (page : Page) : Manager :=
  { m with gpuPageRefcounts := m.gpuPageRefcounts.erase page }

/-- Enter a key and its page into both maps. -/
def mapKey (key : PageKey) (page : Page) : Manager :=
  { m with
    sharedPageKeyToGpuPage := m.sharedPageKeyToGpuPage.insert key page
    gpuPageToSharedKey := m.gpuPageToSharedKey.insert page key }

def mapKeys (pairs : List (PageKey × Page)) : Manager :=
  pairs.foldl (fun m (key, page) => m.mapKey key page) m

/-- Take a key and a page out of the maps. -/
def unmapKey (key : PageKey) (page : Page) : Manager :=
  { m with
    sharedPageKeyToGpuPage := m.sharedPageKeyToGpuPage.erase key
    gpuPageToSharedKey := m.gpuPageToSharedKey.erase page }

def setFreePages (stack : TensorStack) : Manager := { m with freePages := stack }

end Manager

/-- `_free_pages.pop` -/
def popFreePages (count : ℕ) : Call (List Page) := do
  let m ← get
  let (pages, stack) ← liftExcept (m.freePages.pop count)
  set (m.setFreePages stack)
  pure pages

/-- `_free_pages.push` -/
def pushFreePages (pages : List Page) : Call PUnit := do
  let m ← get
  let stack ← liftExcept (m.freePages.push pages)
  set (m.setFreePages stack)

/-- The end of the life of a page: its count goes, and its key with it. -/
def reclaimPage (page : Page) : Call PUnit := do
  modify (·.dropRefcount page)
  let m ← get
  match m.gpuPageToSharedKey.lookup page with
  | none => pure ⟨⟩
  | some sharedKey =>
    set (m.unmapKey sharedKey page)
    check (m.sharedPageKeyToGpuPage.lookup sharedKey = some page)
      (.runtimeError "GPU shared-page registry is inconsistent")

/-- One turn of the loop of `_release_gpu_pages`: `reclaimed` are the pages that lost their last reference. -/
def releasePage (reclaimed : List Page) (page : Page) : Call (List Page) := do
  let m ← get
  match m.gpuPageRefcounts.lookup page with
  | none | some 0 => throw (.runtimeError s!"GPU page {page} has no live reference")
  | some 1 => do
      reclaimPage page
      pure (reclaimed ++ [page])
  | some (count + 2) => do
      set (m.setRefcount page (count + 1))
      pure reclaimed

/-- `_release_gpu_pages` -/
def releaseGpuPages (pages : List Page) : Call PUnit := do
  let reclaimed ← pages.foldlM releasePage []
  if reclaimed = [] then pure ⟨⟩ else pushFreePages reclaimed

/-! ### Allocation -/

/-- Pop pages from the free stack and append them to the sequence, which may be new. -/
def appendNewPages (sequenceId : SequenceId) (count : ℕ) : Call (List Page) := do
  let newPages ← popFreePages count
  modify fun m => m.retainGpuPages newPages
  modify fun m => m.setSequence sequenceId ((m.sequences.lookup sequenceId).getD [] ++ newPages)
  pure newPages

/-- The number of pages a sequence has. -/
def Manager.currentPages (sequenceId : SequenceId) : ℕ :=
  ((m.sequences.lookup sequenceId).getD []).length

/-- `allocate_pages` -/
def allocatePages (sequenceId : SequenceId) (numTokens : ℤ) : Call (List Page) := do
  ensureInitialized
  let required ← liftExcept (requiredPages cfg numTokens)
  let m ← get
  let missing := required - m.currentPages sequenceId
  if missing = 0 then pure []
  else do
    check (missing ≤ m.freePages.size)
      (.runtimeError s!"Insufficient free pages: need {missing}, have {m.freePages.size}")
    appendNewPages sequenceId missing

/-- One turn of the loop of `allocate_pages_for_sequences`. -/
def allocateRow (allocations : AList fun _ : SequenceId => List Page) (row : SequenceId × ℤ) :
    Call (AList fun _ : SequenceId => List Page) := do
  let (seqId, required) := row
  check (0 < required) (.valueError
    s!"allocate_pages_for_sequences: required pages must be positive for seq {seqId}, got {required}")
  let m ← get
  let missing := required.toNat - m.currentPages seqId
  if missing = 0 then pure (allocations.insert seqId [])
  else do
    check (missing ≤ m.freePages.size) (.runtimeError
      s!"Insufficient free pages for seq {seqId}: need {missing}, free {m.freePages.size}")
    let newPages ← appendNewPages seqId missing
    pure (allocations.insert seqId newPages)

/-- `allocate_pages_for_sequences` -/
def allocatePagesForSequences (sequenceIds : List SequenceId) (numTokens : List ℤ) :
    Call (AList fun _ : SequenceId => List Page) := do
  ensureInitialized
  check (sequenceIds.length = numTokens.length) (.valueError
    "allocate_pages_for_sequences: sequence_ids and num_tokens must be the same length")
  if sequenceIds = [] then pure ∅
  else do
    let required ← liftExcept (requiredPagesVector cfg numTokens)
    (sequenceIds.zip required).foldlM allocateRow ∅

/-! ### Shared pages -/

/-- The test of one row in the first loop of `_normalize_shared_page_keys`. -/
def Manager.checkRow (seqId : SequenceId) (required : ℤ) (keys : List PageKey) :
    Except PyError PUnit :=
  if (m.sequences.lookup seqId).isSome then
    .error (.valueError s!"shared GPU allocation requires a new sequence: {seqId}")
  else if (keys.length : ℤ) ≠ required then
    .error (.valueError ("Host page-key count does not match required GPU pages: " ++
      s!"sequence={seqId}, keys={keys.length}, required={required}"))
  else if ¬keys.Nodup then .error (.valueError s!"sequence {seqId} contains duplicate Host page keys")
  else .ok ⟨⟩

def Manager.isMapped (key : PageKey) : Bool := (m.sharedPageKeyToGpuPage.lookup key).isSome

/-- `check` in a method that does not write. -/
def require (c : Prop) [Decidable c] (e : PyError) : Except PyError PUnit := if c then .ok ⟨⟩ else .error e

/-- The position of a shared key behind a private one, in the second loop. -/
def firstInteriorShare (shared : PageKey → Bool) : Bool → ℕ → List PageKey → Option ℕ
  | _, _, [] => none
  | privateSeen, index, key :: keys =>
    if shared key ∧ privateSeen then some index
    else firstInteriorShare shared (privateSeen || !shared key) (index + 1) keys

/-- The test of one row in the second loop: its shared keys come first. -/
def checkLeadingRun (shared : PageKey → Bool) (seqId : SequenceId) (keys : List PageKey) :
    Except PyError PUnit :=
  match firstInteriorShare shared false 0 keys with
  | none => .ok ⟨⟩
  | some index => .error (.valueError ("shared GPU page keys must form a leading run: " ++
      s!"sequence={seqId} shares page {index} after a private page"))

/-- `_normalize_shared_page_keys`: the rows and the keys that the pool does not map yet.  A key occurs at most
once in a row, so `rows_per_key` counts its occurrences. -/
def Manager.normalizeSharedPageKeys (sequenceIds : List SequenceId) (numTokens : List ℤ)
    (pageKeys : List (List PageKey)) :
    Except PyError (List (List PageKey) × List PageKey) := do
  require m.isInitialized
    (.runtimeError "GPUPagedKVCacheManager.initialize must be called before use")
  require (sequenceIds.length = numTokens.length ∧ numTokens.length = pageKeys.length)
    (.valueError "shared GPU allocation inputs must have equal lengths")
  require sequenceIds.Nodup (.valueError "shared GPU allocation sequence ids must be unique")
  let required ← requiredPagesVector cfg numTokens
  (sequenceIds.zip (required.zip pageKeys)).forM fun (seqId, required, keys) => m.checkRow seqId required keys
  let shared key := m.isMapped key || decide (1 < pageKeys.flatten.count key)
  (sequenceIds.zip pageKeys).forM fun (seqId, keys) => checkLeadingRun shared seqId keys
  pure (pageKeys, (pageKeys.flatten.filter fun key => !m.isMapped key).dedup)

/-- `count_mapped_leading_shared_pages` -/
def Manager.countMappedLeadingSharedPages (pageKeys : List PageKey) : ℕ :=
  (pageKeys.takeWhile m.isMapped).length

/-- The pages of a row of mapped keys. -/
def Manager.pagesOf (keys : List PageKey) : List Page :=
  keys.filterMap fun key => m.sharedPageKeyToGpuPage.lookup key

/-- One turn of the loop that gives the rows their pages; `newPageByKey` are the pages just popped. -/
def allocateKeyedRow (newPageByKey : List (PageKey × Page))
    (allocations : AList fun _ : SequenceId => List Page) (row : SequenceId × List PageKey) :
    Call (AList fun _ : SequenceId => List Page) := do
  let (seqId, keys) := row
  let m ← get
  match keys.find? fun key => !m.isMapped key with
  | some key => throw (.keyError (toString key))
  | none => do
      set ((m.retainGpuPages (m.pagesOf keys)).setSequence seqId (m.pagesOf keys))
      pure (allocations.insert seqId (keys.filterMap fun key => newPageByKey.lookup key))

/-- `allocate_pages_for_sequences_with_page_keys` -/
def allocatePagesForSequencesWithPageKeys (sequenceIds : List SequenceId) (numTokens : List ℤ)
    (pageKeys : List (List PageKey)) :
    Call (AList fun _ : SequenceId => List Page) := do
  let m ← get
  let (rows, newKeys) ← liftExcept (m.normalizeSharedPageKeys cfg sequenceIds numTokens pageKeys)
  check (newKeys.length ≤ m.freePages.size) (.runtimeError ("Insufficient free pages for shared GPU allocation: " ++
    s!"need {newKeys.length}, have {m.freePages.size}"))
  let newPages ← popFreePages newKeys.length
  let newPageByKey := (newKeys.insertionSort (· ≤ ·)).zip newPages
  modify fun m => m.mapKeys newPageByKey
  (sequenceIds.zip rows).foldlM (allocateKeyedRow newPageByKey) ∅

/-! ### Growth and release -/

/-- The tests of `grow_pages_for_sequences`, with the pages that are left. -/
def checkGrowth : ℕ → List (SequenceId × ℤ) → Except PyError PUnit
  | _, [] => .ok ⟨⟩
  | available, (seqId, count) :: rows =>
    if count ≤ 0 then .error (.valueError
      s!"grow_pages_for_sequences: num_pages must be positive for seq {seqId}, got {count}")
    else if available < count then .error (.runtimeError
      (s!"grow_pages_for_sequences: insufficient free pages for seq {seqId}: " ++
        s!"need {count}, free {available}"))
    else checkGrowth (available - count.toNat) rows

/-- The ids without a sequence, joined for an error message. -/
def Manager.missingSequences (sequenceIds : List SequenceId) : List SequenceId :=
  sequenceIds.filter fun seqId => (m.sequences.lookup seqId).isNone

def joinIds (ids : List SequenceId) : String := ", ".intercalate (ids.map toString)

/-- `grow_pages_for_sequences` -/
def growPagesForSequences (sequenceIds : List SequenceId) (numPages : List ℤ) :
    Call (AList fun _ : SequenceId => List Page) := do
  ensureInitialized
  check (sequenceIds.length = numPages.length) (.valueError
    "grow_pages_for_sequences: sequence_ids and num_pages must be the same length")
  if sequenceIds = [] then pure ∅
  else do
    let m ← get
    check (m.missingSequences sequenceIds = []) (.keyError
      ("grow_pages_for_sequences: sequences not allocated: " ++ joinIds (m.missingSequences sequenceIds)))
    liftExcept (checkGrowth m.freePages.size (sequenceIds.zip numPages))
    (sequenceIds.zip numPages).foldlM (fun allocations (seqId, count) => do
      let newPages ← appendNewPages seqId count.toNat
      pure (allocations.insert seqId newPages)) ∅

/-- `reset_allocations`, without the page table and the cache contents. -/
def resetAllocations : Call PUnit := do
  ensureInitialized
  modify fun m => { Manager.fresh cfg with isInitialized := m.isInitialized }

/-- `_sequences.pop` and the release of the pages. -/
def freeSequence (seqId : SequenceId) : Call PUnit := do
  let m ← get
  match m.sequences.lookup seqId with
  | none => throw (.keyError (toString seqId))
  | some pages => do
      set { m with sequences := m.sequences.erase seqId }
      releaseGpuPages pages

/-- `free_pages_for_sequences` -/
def freePagesForSequences (sequenceIds : List SequenceId) : Call PUnit := do
  ensureInitialized
  let m ← get
  check (m.missingSequences sequenceIds = []) (.keyError
    ("free_pages_for_sequences: unknown sequence ids: " ++ joinIds (m.missingSequences sequenceIds)))
  sequenceIds.forM freeSequence

/-- `_release_sequence_prefix_pages` -/
def releaseSequencePrefixPages (sequenceId : SequenceId) (numPages : ℤ) : Call (List Page) := do
  ensureInitialized
  check (0 ≤ numPages) (.valueError
    s!"_release_sequence_prefix_pages: num_pages must be >= 0, got {numPages}")
  if numPages = 0 then pure []
  else do
    let m ← get
    match m.sequences.lookup sequenceId with
    | none => throw (.keyError s!"_release_sequence_prefix_pages: unknown sequence id {sequenceId}")
    | some pages => do
        check (numPages ≤ pages.length) (.valueError
          (s!"_release_sequence_prefix_pages: cannot release {numPages} pages from sequence {sequenceId} " ++
            s!"with only {pages.length} pages"))
        set (m.setSequence sequenceId (pages.drop numPages.toNat))
        releaseGpuPages (pages.take numPages.toNat)
        pure (pages.take numPages.toNat)

/-- `extend_pages_for_sequence` -/
def extendPagesForSequence (sequenceId : SequenceId) (newTotalTokens : ℤ) : Call ℕ := do
  ensureInitialized
  let m ← get
  let required ← liftExcept (requiredPages cfg newTotalTokens)
  let additional := required - m.currentPages sequenceId
  if additional = 0 then pure 0
  else do
    check (additional ≤ m.freePages.size)
      (.runtimeError s!"Insufficient free pages: need {additional}, have {m.freePages.size}")
    let _ ← appendNewPages sequenceId additional
    pure additional

/-! ### Calls -/

/-- A call of one of the methods. -/
inductive Method
  | allocatePages (sequenceId : SequenceId) (numTokens : ℤ)
  | allocatePagesForSequences (sequenceIds : List SequenceId) (numTokens : List ℤ)
  | allocatePagesForSequencesWithPageKeys (sequenceIds : List SequenceId) (numTokens : List ℤ)
      (pageKeys : List (List PageKey))
  | growPagesForSequences (sequenceIds : List SequenceId) (numPages : List ℤ)
  | extendPagesForSequence (sequenceId : SequenceId) (newTotalTokens : ℤ)
  | freePagesForSequences (sequenceIds : List SequenceId)
  | releaseSequencePrefixPages (sequenceId : SequenceId) (numPages : ℤ)
  | resetAllocations

/-- Run a method for its effect. -/
def Method.call : Method → Call PUnit
  | .allocatePages sequenceId numTokens => do let _ ← GpuPagedKV.allocatePages cfg sequenceId numTokens
  | .allocatePagesForSequences sequenceIds numTokens => do
      let _ ← GpuPagedKV.allocatePagesForSequences cfg sequenceIds numTokens
  | .allocatePagesForSequencesWithPageKeys sequenceIds numTokens pageKeys => do
      let _ ← GpuPagedKV.allocatePagesForSequencesWithPageKeys cfg sequenceIds numTokens pageKeys
  | .growPagesForSequences sequenceIds numPages => do
      let _ ← GpuPagedKV.growPagesForSequences sequenceIds numPages
  | .extendPagesForSequence sequenceId newTotalTokens => do
      let _ ← GpuPagedKV.extendPagesForSequence cfg sequenceId newTotalTokens
  | .freePagesForSequences sequenceIds => GpuPagedKV.freePagesForSequences sequenceIds
  | .releaseSequencePrefixPages sequenceId numPages => do
      let _ ← GpuPagedKV.releaseSequencePrefixPages sequenceId numPages
  | .resetAllocations => GpuPagedKV.resetAllocations cfg

/-- The state a call leaves behind, whether it returned or raised. -/
def Method.after (method : Method) (m : Manager) : Manager :=
  match method.call cfg m with
  | .ok _ m' => m'
  | .error _ m' => m'

end Batchgen.GpuPagedKV
