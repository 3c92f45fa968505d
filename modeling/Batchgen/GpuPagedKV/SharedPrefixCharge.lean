import Batchgen.GpuPagedKV.Manager
import Mathlib.Data.Finset.Card
import Mathlib.Data.List.Lex

/-!
# Charging a shared prefix once

The ledger of `worker/shared_prefix_charge.py`, the plan of shared runs and the greedy admission of rows
against the free pages of one pool.

* `SharedPrefixLedger` — who already pays for a segment: `normalize`, `compute`, `preview`, `charge`;
* `planSharedRuns` — the leading pages each sequence shares with another one;
* `admitByMarginalPages` — the rows that fit, each charged for what nobody pays yet.
-/

namespace Batchgen.GpuPagedKV

/-- `SharedPrefixChargeError` -/
structure ChargeError where
  message : String
  deriving DecidableEq

/-- A run of pages that several sequences read from one copy. -/
structure SharedSegment where
  key : PageKey
  pages : ℕ
  pages_pos : 0 < pages
  deriving DecidableEq

/-- The constructor with its check. -/
def SharedSegment.make (key : PageKey) (pages : ℤ) : Except ChargeError SharedSegment :=
  if h : pages ≤ 0 then .error ⟨s!"shared segment {key} must cover >= 1 page, got {pages}"⟩
  else .ok ⟨key, pages.toNat, by omega⟩

structure SharedChargeResult where
  marginalPages : ℤ
  creditedPages : ℤ
  firstReaderKeys : List PageKey

/-! ### The ledger -/

/-- The readers of each segment of one resource, and its pages; `resident` segments have a holder that counts
as a reader. -/
structure SharedPrefixLedger where
  refcounts : AList fun _ : PageKey => ℕ
  pages : AList fun _ : PageKey => ℕ
  resident : List PageKey

variable (ledger : SharedPrefixLedger)

namespace SharedPrefixLedger

def empty : SharedPrefixLedger := ⟨∅, ∅, []⟩

/-- The constructor: one reference for the holder of each resident segment. -/
def make (resident : List (PageKey × ℤ)) : Except ChargeError SharedPrefixLedger :=
  resident.foldlM (fun ledger (key, pages) => do
    let segment ← SharedSegment.make key pages
    pure ⟨ledger.refcounts.insert segment.key 1, ledger.pages.insert segment.key segment.pages,
      segment.key :: ledger.resident⟩) empty

def isCharged (key : PageKey) : Bool := (ledger.refcounts.lookup key).isSome

/-- The loop of `_normalize`: `seen` holds the segments that were kept. -/
def normalizeFrom (seen : List SharedSegment) : List SharedSegment → Except ChargeError (List SharedSegment)
  | [] => .ok seen
  | segment :: segments =>
    match seen.find? (·.key = segment.key) with
    | none => normalizeFrom (seen ++ [segment]) segments
    | some previous =>
      if previous.pages = segment.pages then normalizeFrom seen segments
      else .error ⟨s!"shared segment {segment.key} appears with {previous.pages} " ++
        s!"and {segment.pages} pages in one reservation"⟩

/-- `_normalize` -/
def normalize (segments : List SharedSegment) : Except ChargeError (List SharedSegment) :=
  normalizeFrom [] segments

/-- The credit of a normalized chain: what is charged already, but never the whole reservation. -/
def creditOf (totalPages minPages : ℤ) (normalized : List SharedSegment) : ℤ :=
  min ((normalized.filter fun segment => ledger.isCharged segment.key).map fun segment => (segment.pages : ℤ)).sum
    (max 0 (totalPages - minPages))

/-- `_compute` -/
def compute (totalPages : ℤ) (segments : List SharedSegment) (minPages : ℤ) :
    Except ChargeError SharedChargeResult :=
  if totalPages ≤ 0 then .error ⟨s!"a reservation must cover >= 1 page, got {totalPages}"⟩
  else if minPages < 0 then .error ⟨s!"min_pages must be >= 0, got {minPages}"⟩
  else (normalize segments).map fun normalized =>
    let credited := ledger.creditOf totalPages minPages normalized
    ⟨totalPages - credited, credited,
      (normalized.filter fun segment => !ledger.isCharged segment.key).map SharedSegment.key⟩

/-- `preview` with its default floor of one page. -/
def preview (totalPages : ℤ) (segments : List SharedSegment) :
    Except ChargeError SharedChargeResult := ledger.compute totalPages segments 1

/-- One more reader of a segment. -/
def addReader (segment : SharedSegment) : SharedPrefixLedger :=
  { ledger with
    pages := if (ledger.pages.lookup segment.key).isSome then ledger.pages
      else ledger.pages.insert segment.key segment.pages
    refcounts := ledger.refcounts.insert segment.key ((ledger.refcounts.lookup segment.key).getD 0 + 1) }

/-- `charge` with its default floor of one page. -/
def charge (totalPages : ℤ) (segments : List SharedSegment) :
    Except ChargeError (SharedChargeResult × SharedPrefixLedger) := do
  let result ← ledger.compute totalPages segments 1
  let normalized ← normalize segments
  pure (result, normalized.foldl addReader ledger)

end SharedPrefixLedger

/-! ### Shared runs -/

/-- The pages two tables have in common from the start. -/
def commonPages : List PageKey → List PageKey → ℕ
  | a :: as, b :: bs => if a = b then commonPages as bs + 1 else 0
  | _, _ => 0

/-- The runs of a sorted group: each table compared with its two neighbours. -/
def neighbourRuns : Option (List PageKey) → List (SequenceId × List PageKey) →
    List (SequenceId × PageKey × ℕ)
  | _, [] => []
  | previous, (seqId, table) :: rest =>
    let run := max (previous.elim 0 fun before => commonPages before table)
      (rest.head?.elim 0 fun after => commonPages table after.2)
    match run with
    | 0 => neighbourRuns (some table) rest
    | n + 1 => (seqId, table.getD n 0, n + 1) :: neighbourRuns (some table) rest

/-- `plan_shared_runs`: for each sequence that shares a page, the key that ends its run and the run's length. -/
def planSharedRuns (pageTables : List (SequenceId × List PageKey)) : List (SequenceId × PageKey × ℕ) :=
  let tables := pageTables.filter fun row => row.2 ≠ []
  let firsts := (tables.map fun row => row.2.headI).dedup
  firsts.flatMap fun first =>
    let group := tables.filter fun row => row.2.headI = first
    if group.length < 2 then [] else neighbourRuns none (group.insertionSort fun a b => a.2 ≤ b.2)

/-! ### Admission -/

/-- A row of `admit_by_marginal_pages`, without the index of its resource, which is not read. -/
structure AdmissionRow where
  rowId : SequenceId
  totalPages : ℤ
  run : Option (PageKey × ℤ)
  residentPages : ℤ

/-- The walk's state: the ledger, the pages charged and the rows admitted. -/
structure Walk where
  ledger : SharedPrefixLedger
  used : ℤ
  admitted : List SequenceId

/-- The credit of a row and its segments: the pages the resource holds, or what sharing saves in this round
if that is more. -/
def Walk.creditRow (walk : Walk) (row : AdmissionRow) : Except ChargeError (ℤ × List SharedSegment) :=
  let credit := min row.residentPages (max 0 (row.totalPages - 1))
  match row.run with
  | none => .ok (credit, [])
  | some (key, pages) => do
      let segment ← SharedSegment.make key pages
      let preview ← walk.ledger.preview row.totalPages [segment]
      pure (max credit preview.creditedPages, [segment])

/-- A row that fits is charged. -/
def Walk.take (walk : Walk) (row : AdmissionRow) (charge : ℤ) (segments : List SharedSegment) :
    Except ChargeError Walk := do
  let ledger ← if segments = [] then pure walk.ledger
    else (walk.ledger.charge row.totalPages segments).map Prod.snd
  pure ⟨ledger, walk.used + charge, walk.admitted ++ [row.rowId]⟩

/-- One turn of the loop of `admit_by_marginal_pages`. -/
def Walk.admitRow (freePages : ℤ) (walk : Walk) (row : AdmissionRow) : Except ChargeError Walk :=
  if row.totalPages ≤ 0 then
    .error ⟨s!"row {row.rowId} must reserve >= 1 page, got {row.totalPages}"⟩
  else do
    let (credit, segments) ← walk.creditRow row
    let charge := row.totalPages - credit
    if freePages < walk.used + charge then pure walk else walk.take row charge segments

/-- `admit_by_marginal_pages` -/
def admitByMarginalPages (rows : List AdmissionRow) (freePages : ℤ) (resident : List (PageKey × ℤ)) :
    Except ChargeError (List SequenceId × ℤ) := do
  let ledger ← SharedPrefixLedger.make resident
  let walk ← rows.foldlM (Walk.admitRow freePages) ⟨ledger, 0, []⟩
  pure (walk.admitted, walk.used)

end Batchgen.GpuPagedKV
