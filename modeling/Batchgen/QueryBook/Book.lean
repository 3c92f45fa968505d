import Batchgen.Library.Extents
import Batchgen.Library.Outcome
import Mathlib.Algebra.Order.Ring.Int

/-!
# The query book

`QueryBook` keeps the tokens of the active sequences in one tensor of pages.  A sequence gets a slot and one
contiguous chain of pages when it is bound, and gives both back when it is released.  Each method is a
program that keeps the writes it made before it raises.

The dictionaries `_records`, `_turns`, `_page_ranges`, `_tail_pages`, `_tail_offsets` and `_slot_to_seq` get
a key together, in `bind`, and lose it together, in `release`; here they are one map to an `Entry`.  The
token tensor is contiguous and is read and written by its flat index.
-/

namespace Batchgen.QueryBook

open Extents Function

/-- The exceptions the methods raise, with their messages. -/
inductive PyError
  | valueError (message : String)
  | capacityError (message : String)
  | keyError (message : String)
  | indexError (message : String)
  | runtimeError (message : String)
  deriving DecidableEq

/-- A token of an `int32` tensor. -/
abbrev Token := ℤ

/-- The conversion of a tensor to `int32`. -/
def toInt32 (x : ℤ) : Token := x.bmod (2 ^ 32)

/-- `QueryBookSlot` -/
structure Record where
  slot : ℕ
  promptLength : ℕ
  tokenLength : ℕ
  decodedLength : ℕ
  maxTokens : ℕ
  deriving DecidableEq

/-- `QueryBookTurn`.  The fields of a migrated turn are any integers until they are validated. -/
structure Turn where
  turnId : ℤ
  promptStart : ℤ
  promptLength : ℤ
  generatedStart : ℤ
  generatedLength : ℤ
  deriving DecidableEq

def Turn.promptEnd (u : Turn) : ℤ := u.promptStart + u.promptLength

def Turn.generatedEnd (u : Turn) : ℤ := u.generatedStart + u.generatedLength

def tokenBytes : ℕ := 4

/-- What `__init__` accepts: at least one page. -/
structure Config where
  capacityBytes : ℕ
  pageTokens : ℕ
  pageTokens_pos : 0 < pageTokens
  onePage : pageTokens * tokenBytes ≤ capacityBytes

namespace Config

variable (cfg : Config)

def pageBytes : ℕ := cfg.pageTokens * tokenBytes

def pageCount : ℕ := cfg.capacityBytes / cfg.pageBytes

end Config

/-- What the dictionaries hold for one slot. -/
structure Entry where
  sequenceId : String
  record : Record
  turns : List Turn
  pageStart : ℕ
  pageCount : ℕ
  tailPage : ℕ
  tailOffset : ℕ

structure Book where
  storage : ℕ → Token
  freeExtents : List Extent
  entries : ℕ → Option Entry
  seqToSlot : String → Option ℕ
  /-- The last one is handed out first. -/
  freeSlots : List ℕ
  nextSlot : ℕ

abbrev Call := EStateM PyError Book

variable (cfg : Config)

/-- `__init__`, over a tensor of any content. -/
def Book.init (storage : ℕ → Token) : Book where
  storage := storage
  freeExtents := [(0, cfg.pageCount)]
  entries := fun _ => none
  seqToSlot := fun _ => none
  freeSlots := []
  nextSlot := 0

/-- Raise unless the condition holds. -/
def check (c : Prop) [Decidable c] (e : PyError) : Call PUnit := if c then pure ⟨⟩ else throw e

def liftExcept {α : Type} : Except PyError α → Call α
  | .ok a => pure a
  | .error e => throw e

def positiveInt (value : ℤ) (name : String) : Except PyError ℕ :=
  if value ≤ 0 then .error (.valueError s!"{name} must be > 0, got {value}") else .ok value.toNat

def nonnegativeInt (value : ℤ) (name : String) : Except PyError ℕ :=
  if value < 0 then .error (.valueError s!"{name} must be >= 0, got {value}") else .ok value.toNat

/-- `_check_active_slot`, with what the dictionaries hold for the slot. -/
def activeEntry (slot : ℕ) : Call Entry := do
  let b ← get
  match b.entries slot with
  | some e => pure e
  | none => throw (.capacityError s!"slot is not active: {slot}")

/-- `_check_length` -/
def checkLength (e : Entry) (length : ℕ) : Call PUnit :=
  check (length ≤ e.record.maxTokens)
    (.capacityError s!"token length {length} exceeds reserved max_tokens={e.record.maxTokens}")

def Book.setEntry (b : Book) (slot : ℕ) (e : Entry) : Book :=
  { b with entries := update b.entries slot (some e) }

/-! ### Pages -/

namespace Book

def freePageCount (b : Book) : ℕ := (b.freeExtents.map Prod.snd).sum

def freeBytes (b : Book) : ℕ := b.freePageCount * cfg.pageBytes

def largestFreeExtentPages (b : Book) : ℕ := (b.freeExtents.map Prod.snd).foldl max 0

end Book

def pagesFor (maxTokens : ℤ) : Except PyError ℕ := do
  let maxTokens ← positiveInt maxTokens "max_tokens"
  pure ((maxTokens + cfg.pageTokens - 1) / cfg.pageTokens)

/-- The loop of `can_reserve_batch`: the splits of the allocator on a copy of the extents. -/
def reserveFrom : List Extent → List ℤ → Except PyError Bool
  | _, [] => pure true
  | extents, tokens :: rest => do
      let pages ← pagesFor cfg tokens
      match takeFirst pages extents with
      | some (_, left) => reserveFrom left rest
      | none => pure false

def canReserveBatch (b : Book) (maxTokens : List ℤ) : Except PyError Bool :=
  reserveFrom cfg b.freeExtents maxTokens

def reservationFreeCount (b : Book) (maxTokens : ℤ) : Except PyError ℕ := do
  let pages ← pagesFor cfg maxTokens
  pure ((b.freeExtents.map fun e => e.2 / pages).sum)

/-- `_take_extent` -/
def takeExtent (pageCount : ℕ) : Call ℕ := do
  let b ← get
  match takeFirst pageCount b.freeExtents with
  | some (start, left) =>
    set { b with freeExtents := left }
    pure start
  | none => throw (.capacityError
      s!"no contiguous extent of {pageCount} pages; free_pages={b.freePageCount}")

/-- `_return_extent` -/
def returnExtent (start count : ℕ) : Call PUnit :=
  if count = 0 then pure ⟨⟩
  else modify fun b => { b with freeExtents := giveBack (start, count) b.freeExtents }

/-! ### Binding and releasing -/

/-- Pages taken for a sequence that has no slot yet. -/
structure Reservation where
  sequenceId : String
  pageStart : ℕ
  pageCount : ℕ
  maxTokens : ℕ

def Reservation.entry (r : Reservation) (slot : ℕ) : Entry where
  sequenceId := r.sequenceId
  record := ⟨slot, 0, 0, 0, r.maxTokens⟩
  turns := []
  pageStart := r.pageStart
  pageCount := r.pageCount
  tailPage := r.pageStart
  tailOffset := 0

/-- The next slot number, and the lists without it. -/
def Book.nextFree (b : Book) : ℕ × Book :=
  match b.freeSlots.getLast? with
  | some slot => (slot, { b with freeSlots := b.freeSlots.dropLast })
  | none => (b.nextSlot, { b with nextSlot := b.nextSlot + 1 })

/-- Enter a reservation under a slot. -/
def Book.addEntry (b : Book) (slot : ℕ) (r : Reservation) : Book :=
  { b with
    seqToSlot := update b.seqToSlot r.sequenceId (some slot)
    entries := update b.entries slot (some (r.entry slot)) }

/-- The metadata part of `bind` and of a turn of `bind_batch`. -/
def publish (r : Reservation) : Call ℕ := do
  let b ← get
  set (b.nextFree.2.addEntry b.nextFree.1 r)
  pure b.nextFree.1

/-- Find the pages of one sequence. -/
def reserve (sequenceId : String) (tokens : ℤ) : Call Reservation := do
  let maxTokens ← liftExcept (positiveInt tokens "max_tokens")
  let pageCount ← liftExcept (pagesFor cfg tokens)
  let pageStart ← takeExtent pageCount
  pure ⟨sequenceId, pageStart, pageCount, maxTokens⟩

/-- `except BaseException`: run the handler, then raise again. -/
def onRaise {α : Type} (x : Call α) (handler : Call PUnit) : Call α := fun b =>
  match x b with
  | .ok a b' => .ok a b'
  | .error e b' => (handler >>= fun _ => throw e) b'

/-- The loop of `bind_batch` over the page chains, with the chains found so far given back on a raise. -/
def reserveChains : List (String × ℤ) → List Reservation → Call (List Reservation)
  | [], reservations => pure reservations
  | (sequenceId, tokens) :: rest, reservations => do
      let r ← onRaise (reserve cfg sequenceId tokens)
        (reservations.reverse.forM fun r => returnExtent r.pageStart r.pageCount)
      reserveChains rest (reservations ++ [r])

def bindBatch (sequenceIds : List String) (maxTokens : List ℤ) : Call (List ℕ) := do
  check (sequenceIds.length = maxTokens.length) (.valueError
    s!"sequence_ids/max_tokens length mismatch: {sequenceIds.length} != {maxTokens.length}")
  check sequenceIds.Nodup (.valueError "sequence_ids must be unique within a batch")
  check (∀ sequenceId ∈ sequenceIds, sequenceId ≠ "") (.valueError "sequence_id must be a non-empty string")
  let b ← get
  check (∀ sequenceId ∈ sequenceIds, b.seqToSlot sequenceId = none) (.valueError "sequence_id already bound")
  let pages ← liftExcept (maxTokens.mapM (pagesFor cfg))
  let fits ← liftExcept (canReserveBatch cfg b maxTokens)
  check (fits = true) (.capacityError ("QueryBook token budget exhausted for batch: " ++
    s!"need={pages.sum * cfg.pageBytes} bytes, free={b.freeBytes cfg} bytes"))
  let reservations ← reserveChains cfg (sequenceIds.zip maxTokens) []
  reservations.mapM publish

def bind (sequenceId : String) (maxTokens : ℤ) : Call ℕ := do
  check (sequenceId ≠ "") (.valueError "sequence_id must be a non-empty string")
  let b ← get
  check (b.seqToSlot sequenceId = none) (.valueError s!"sequence_id already bound: {sequenceId}")
  let pageCount ← liftExcept (pagesFor cfg maxTokens)
  check (pageCount ≤ b.largestFreeExtentPages) (.capacityError
    s!"QueryBook token budget exhausted: need={pageCount * cfg.pageBytes} bytes, free={b.freeBytes cfg} bytes")
  let r ← reserve cfg sequenceId maxTokens
  publish r

/-- Take a slot out of the dictionaries. -/
def Book.dropEntry (b : Book) (slot : ℕ) (sequenceId : String) : Book :=
  { b with
    seqToSlot := update b.seqToSlot sequenceId none
    entries := update b.entries slot none
    freeSlots := b.freeSlots ++ [slot] }

def release (slot : ℕ) : Call PUnit := do
  let e ← activeEntry slot
  returnExtent e.pageStart e.pageCount
  modify fun b => b.dropEntry slot e.sequenceId

/-! ### Token spans -/

/-- `_prepare_tokens` -/
def prepareTokens (tokens : List ℤ) : List Token := tokens.map toInt32

/-- Copy values into consecutive cells. -/
def blit (storage : ℕ → Token) (first : ℕ) (values : List Token) : ℕ → Token := fun cell =>
  if first ≤ cell then (values[cell - first]?).getD (storage cell) else storage cell

/-- The loop of `_write_span`, one page at a time; `fuel` bounds the number of pages. -/
def writeSpan (pageStart : ℕ) : ℕ → ℕ → List Token → Call PUnit
  | 0, _, _ => pure ⟨⟩
  | fuel + 1, logical, source =>
    if source = [] then pure ⟨⟩
    else do
      let page := pageStart + logical / cfg.pageTokens
      let pageOffset := logical % cfg.pageTokens
      let count := min source.length (cfg.pageTokens - pageOffset)
      check (page < cfg.pageCount) (.indexError s!"index {page} is out of bounds for dimension 0")
      modify fun b => { b with
        storage := blit b.storage (page * cfg.pageTokens + pageOffset) (source.take count) }
      writeSpan pageStart fuel (logical + count) (source.drop count)

/-- The loop of `_copy_span_to`. -/
def copySpan (pageStart : ℕ) : ℕ → ℕ → ℕ → Call (List Token)
  | 0, _, _ => pure []
  | fuel + 1, logical, remaining =>
    if remaining = 0 then pure []
    else do
      let page := pageStart + logical / cfg.pageTokens
      let pageOffset := logical % cfg.pageTokens
      let count := min remaining (cfg.pageTokens - pageOffset)
      check (page < cfg.pageCount) (.indexError s!"index {page} is out of bounds for dimension 0")
      let b ← get
      let values := (List.range count).map fun i => b.storage (page * cfg.pageTokens + pageOffset + i)
      let rest ← copySpan pageStart fuel (logical + count) (remaining - count)
      pure (values ++ rest)

/-- `_update_tail`: the page and the offset where the next token goes. -/
def updateTail (e : Entry) (logicalLength : ℕ) : Entry :=
  if e.pageCount ≤ logicalLength / cfg.pageTokens then
    { e with tailPage := e.pageStart + (e.pageCount - 1), tailOffset := cfg.pageTokens }
  else
    { e with
      tailPage := e.pageStart + logicalLength / cfg.pageTokens
      tailOffset := logicalLength % cfg.pageTokens }

/-! ### Prompts and turns -/

/-- The entry of a slot that holds a prompt and nothing else. -/
def promptEntry (slot : ℕ) (e : Entry) (length : ℕ) : Entry :=
  { updateTail cfg { e with record := ⟨slot, length, length, 0, e.record.maxTokens⟩ } length with
    turns := [⟨0, 0, length, length, 0⟩] }

/-- The writing part of `write_prompt` and of a turn of `write_prompts`. -/
def storePrompt (slot : ℕ) (tokens : List Token) : Call PUnit := do
  let e ← activeEntry slot
  writeSpan cfg e.pageStart tokens.length 0 tokens
  modify fun b => b.setEntry slot (promptEntry cfg slot e tokens.length)

def writePrompt (slot : ℕ) (promptTokens : List ℤ) : Call PUnit := do
  let e ← activeEntry slot
  let tokens := prepareTokens promptTokens
  checkLength e tokens.length
  storePrompt cfg slot tokens

/-- The checks of one row of `write_prompts`. -/
def checkPrompt (row : ℕ × List ℤ) : Call PUnit := do
  let e ← activeEntry row.1
  checkLength e (prepareTokens row.2).length

def writePrompts (slots : List ℕ) (prompts : List (List ℤ)) : Call PUnit := do
  check (slots.length = prompts.length)
    (.valueError s!"slots/prompts length mismatch: {slots.length} != {prompts.length}")
  check slots.Nodup (.valueError "slots must be unique within a batch")
  (slots.zip prompts).forM checkPrompt
  (slots.zip prompts).forM fun row => storePrompt cfg row.1 (prepareTokens row.2)

def appendPrompt (slot : ℕ) (promptTokens : List ℤ) : Call Turn := do
  let e ← activeEntry slot
  let tokens := prepareTokens promptTokens
  let promptStart := e.record.tokenLength
  let newLength := promptStart + tokens.length
  checkLength e newLength
  writeSpan cfg e.pageStart tokens.length promptStart tokens
  let turn : Turn := ⟨e.turns.length, promptStart, tokens.length, newLength, 0⟩
  let record : Record := ⟨slot, newLength, newLength, e.record.decodedLength, e.record.maxTokens⟩
  modify fun b => b.setEntry slot
    { updateTail cfg { e with record := record } newLength with turns := e.turns ++ [turn] }
  pure turn

/-- The turns after a re-entry, and the turn it made: an unused last turn is replaced. -/
def reentryTurns (e : Entry) (promptLength : ℕ) : List Turn × Turn :=
  match e.turns.getLast? with
  | some last =>
    if last.generatedLength = 0 ∧ last.generatedStart = e.record.tokenLength then
      let turn : Turn := ⟨last.turnId, 0, promptLength, e.record.tokenLength, 0⟩
      (e.turns.dropLast ++ [turn], turn)
    else
      let turn : Turn := ⟨e.turns.length, 0, promptLength, e.record.tokenLength, 0⟩
      (e.turns ++ [turn], turn)
  | none =>
    let turn : Turn := ⟨e.turns.length, 0, promptLength, e.record.tokenLength, 0⟩
    (e.turns ++ [turn], turn)

def beginReentryTurn (slot : ℕ) (promptLength : ℤ) : Call Turn := do
  let e ← activeEntry slot
  let promptLength ← liftExcept (nonnegativeInt promptLength "prompt_length")
  check (promptLength ≤ e.record.tokenLength) (.capacityError
    s!"re-entry prompt_length={promptLength} exceeds token_length={e.record.tokenLength}")
  let (turns, turn) := reentryTurns e promptLength
  modify fun b => b.setEntry slot
    { e with record := { e.record with slot := slot, promptLength := promptLength }, turns := turns }
  pure turn

def setPromptLength (slot : ℕ) (promptLength : ℤ) : Call PUnit := do
  let e ← activeEntry slot
  let promptLength ← liftExcept (nonnegativeInt promptLength "prompt_length")
  check (promptLength ≤ e.record.tokenLength) (.capacityError
    s!"prompt_length={promptLength} exceeds token_length={e.record.tokenLength}")
  modify fun b => b.setEntry slot
    { e with record := { e.record with slot := slot, promptLength := promptLength } }

/-- The turns of `synchronize_metadata` after the lengths of another rank are known. -/
def synchronizedTurns (turns : List Turn) (promptLength tokenLength decodedLength : ℕ) :
    Except PyError (List Turn) :=
  match turns.getLast? with
  | some last =>
    let before := (turns.dropLast.map Turn.generatedLength).sum
    if decodedLength - before < 0 then
      .error (.capacityError "decoded_length is smaller than the committed turn ledger")
    else .ok (turns.dropLast ++ [{ last with generatedLength := decodedLength - before }])
  | none =>
    if tokenLength = 0 ∧ decodedLength = 0 then .ok turns
    else if (tokenLength : ℤ) - promptLength ≠ decodedLength then
      .error (.capacityError "cannot reconstruct an empty turn ledger from lengths")
    else .ok [⟨0, 0, promptLength, promptLength, (tokenLength : ℤ) - promptLength⟩]

def synchronizeMetadata (slot : ℕ) (promptLength tokenLength decodedLength : ℤ) : Call PUnit := do
  let e ← activeEntry slot
  let promptLength ← liftExcept (nonnegativeInt promptLength "prompt_length")
  let tokenLength ← liftExcept (nonnegativeInt tokenLength "token_length")
  let decodedLength ← liftExcept (nonnegativeInt decodedLength "decoded_length")
  check (promptLength ≤ tokenLength)
    (.capacityError s!"prompt_length={promptLength} exceeds token_length={tokenLength}")
  checkLength e tokenLength
  let turns ← liftExcept (synchronizedTurns e.turns promptLength tokenLength decodedLength)
  let record : Record := ⟨slot, promptLength, tokenLength, decodedLength, e.record.maxTokens⟩
  modify fun b => b.setEntry slot
    { updateTail cfg { e with record := record } tokenLength with turns := turns }

/-! ### Generated tokens -/

/-- `_increment_last_turn` -/
def incrementLastTurn (turns : List Turn) (promptLength tokenEnd : ℕ) : List Turn :=
  match turns.getLast? with
  | some last => turns.dropLast ++ [{ last with generatedLength := last.generatedLength + 1 }]
  | none => [⟨0, 0, promptLength, (tokenEnd : ℤ) - 1, 0 + 1⟩]

/-- The entry after one more generated token, as `append_token` and `append_tokens` write it. -/
def advance (slot : ℕ) (e : Entry) : Entry :=
  let index := e.record.tokenLength
  let record : Record :=
    ⟨slot, e.record.promptLength, index + 1, e.record.decodedLength + 1, e.record.maxTokens⟩
  { updateTail cfg { e with record := record } (index + 1) with
    turns := incrementLastTurn e.turns e.record.promptLength (index + 1) }

def int32Overflow : PyError := .runtimeError "value cannot be converted to type int32_t without overflow"

def appendToken (slot : ℕ) (tokenId : ℤ) : Call ℕ := do
  let e ← activeEntry slot
  let index := e.record.tokenLength
  checkLength e (index + 1)
  check (e.tailPage < cfg.pageCount ∧ e.tailOffset < cfg.pageTokens)
    (.indexError s!"index {e.tailOffset} is out of bounds for dimension 0 with size {cfg.pageTokens}")
  check (toInt32 tokenId = tokenId) int32Overflow
  modify fun b => { b with
    storage := update b.storage (e.tailPage * cfg.pageTokens + e.tailOffset) tokenId }
  modify fun b => b.setEntry slot (advance cfg slot e)
  pure index

/-- The checks of one row of `append_tokens`, and the flat index of its tail. -/
def tailPosition (slot : ℕ) : Call ℕ := do
  let e ← activeEntry slot
  checkLength e (e.record.tokenLength + 1)
  pure (e.tailPage * cfg.pageTokens + e.tailOffset)

/-- The bookkeeping of one row of `append_tokens`. -/
def advanceRow (slot : ℕ) : Call PUnit := do
  let e ← activeEntry slot
  modify fun b => b.setEntry slot (advance cfg slot e)

/-- The vectorised store: a value into each position. -/
def scatter (storage : ℕ → Token) (positions : List ℕ) (values : List Token) : ℕ → Token :=
  (positions.zip values).foldl (fun storage w => update storage w.1 w.2) storage

def appendTokens (slots : List ℕ) (tokenIds : List ℤ) : Call PUnit := do
  check (slots.length = tokenIds.length)
    (.valueError s!"slots/token_ids length mismatch: {slots.length} != {tokenIds.length}")
  check slots.Nodup (.valueError "slots must be unique within a batch")
  let positions ← slots.mapM (tailPosition cfg)
  check (∀ tokenId ∈ tokenIds, toInt32 tokenId = tokenId) int32Overflow
  check (∀ position ∈ positions, position < cfg.pageCount * cfg.pageTokens)
    (.indexError "index is out of bounds for dimension 0")
  modify fun b => { b with storage := scatter b.storage positions tokenIds }
  slots.forM (advanceRow cfg)

/-! ### Reading -/

def metadata (slot : ℕ) : Call Record := do
  let e ← activeEntry slot
  pure e.record

def turns (slot : ℕ) : Call (List Turn) := do
  let e ← activeEntry slot
  pure e.turns

def tokens (slot : ℕ) (length : Option ℤ) : Call (List Token) := do
  let e ← activeEntry slot
  let length ← match length with
    | none => pure e.record.tokenLength
    | some length => liftExcept (nonnegativeInt length "length")
  check (length ≤ e.record.tokenLength)
    (.capacityError s!"requested length={length}, valid length={e.record.tokenLength}")
  copySpan cfg e.pageStart length 0 length

/-- The tokens a turn generated. -/
def copyTurn (e : Entry) (u : Turn) : Call (List Token) :=
  copySpan cfg e.pageStart u.generatedLength.toNat u.generatedStart.toNat u.generatedLength.toNat

def generatedTokens (slot : ℕ) : Call (List Token) := do
  let e ← activeEntry slot
  let spans ← (e.turns.filter fun u => u.generatedLength ≠ 0).mapM (copyTurn cfg e)
  pure spans.flatten

def lastGeneratedToken (slot : ℕ) : Call (List Token) := do
  let e ← activeEntry slot
  match e.turns.reverse.find? fun u => u.generatedLength ≠ 0 with
  | some u => copySpan cfg e.pageStart 1 (u.generatedEnd - 1).toNat 1
  | none => do
      check (0 < e.record.promptLength) (.capacityError "sequence has no token to feed to decode")
      copySpan cfg e.pageStart 1 (e.record.promptLength - 1) 1

/-! ### Migration -/

def Turn.row (u : Turn) : List ℤ :=
  [u.turnId, u.promptStart, u.promptLength, u.generatedStart, u.generatedLength, u.generatedEnd]

def turnsPayload (slot : ℕ) : Call (List (List ℤ)) := do
  let us ← turns slot
  pure (us.map Turn.row)

def turnOfRow : List ℤ → Except PyError Turn
  | [turnId, promptStart, promptLength, generatedStart, generatedLength, generatedEnd] =>
    if generatedEnd ≠ generatedStart + generatedLength then
      .error (.valueError "turn payload generated_end is inconsistent")
    else .ok ⟨turnId, promptStart, promptLength, generatedStart, generatedLength⟩
  | _ => .error (.valueError "turn payload must have shape [turns, 6]")

def turnsFromPayload (payload : List (List ℤ)) : Except PyError (List Turn) := payload.mapM turnOfRow

/-- The state of the loop of `_validate_turns`: the next id, the total and the last end. -/
structure TurnScan where
  expectedId : ℤ
  generatedTotal : ℤ
  previousGeneratedEnd : ℤ

/-- One turn of the loop of `_validate_turns`. -/
def scanTurn (tokenLength : ℕ) (s : TurnScan) (u : Turn) : Except PyError TurnScan :=
  if u.turnId ≠ s.expectedId then .error (.valueError "turn ids must be contiguous from zero")
  else if min (min u.promptStart u.promptLength) (min u.generatedStart u.generatedLength) < 0 then
    .error (.valueError "turn spans must be non-negative")
  else if tokenLength < u.promptEnd ∨ tokenLength < u.generatedEnd then
    .error (.valueError "turn span exceeds restored trajectory length")
  else if u.generatedStart < u.promptEnd then
    .error (.valueError "generated span overlaps its prompt span")
  else if u.generatedStart < s.previousGeneratedEnd then
    .error (.valueError "generated spans must be monotonic and non-overlapping")
  else .ok ⟨s.expectedId + 1, s.generatedTotal + u.generatedLength, u.generatedEnd⟩

/-- `_validate_turns` -/
def validateTurns (turns : Option (List Turn)) (tokenLength promptLength decodedLength : ℕ) :
    Except PyError (List Turn) :=
  match turns with
  | none =>
    if tokenLength - promptLength ≠ decodedLength then
      .error (.valueError ("migration restore requires turn metadata when cumulative " ++
        "decoded length differs from the current prompt suffix"))
    else .ok [⟨0, 0, promptLength, promptLength, (tokenLength - promptLength : ℕ)⟩]
  | some turns =>
    match turns.foldlM (scanTurn tokenLength) ⟨0, 0, 0⟩ with
    | .error e => .error e
    | .ok s =>
      if turns = [] ∧ (tokenLength ≠ 0 ∨ decodedLength ≠ 0) then
        .error (.valueError "non-empty trajectory requires at least one turn")
      else if s.generatedTotal ≠ decodedLength then
        .error (.valueError (s!"turn generated total={s.generatedTotal} does not match " ++
          s!"decoded_length={decodedLength}"))
      else .ok turns

def restore (slot : ℕ) (tokens : List ℤ) (promptLength decodedLength : ℤ) (turns : Option (List Turn)) :
    Call PUnit := do
  let e ← activeEntry slot
  let promptLength ← liftExcept (nonnegativeInt promptLength "prompt_length")
  let decodedLength ← liftExcept (nonnegativeInt decodedLength "decoded_length")
  let prepared := prepareTokens tokens
  let tokenLength := prepared.length
  check (promptLength ≤ tokenLength)
    (.valueError s!"prompt_length={promptLength} exceeds token_length={tokenLength}")
  checkLength e tokenLength
  let validated ← liftExcept (validateTurns turns tokenLength promptLength decodedLength)
  writeSpan cfg e.pageStart tokenLength 0 prepared
  let record : Record := ⟨slot, promptLength, tokenLength, decodedLength, e.record.maxTokens⟩
  modify fun b => b.setEntry slot
    { updateTail cfg { e with record := record } tokenLength with turns := validated }

/-! ### Runs -/

/-- The calls that write. -/
inductive Command
  | bind (sequenceId : String) (maxTokens : ℤ)
  | bindBatch (sequenceIds : List String) (maxTokens : List ℤ)
  | release (slot : ℕ)
  | writePrompt (slot : ℕ) (promptTokens : List ℤ)
  | writePrompts (slots : List ℕ) (prompts : List (List ℤ))
  | appendPrompt (slot : ℕ) (promptTokens : List ℤ)
  | beginReentryTurn (slot : ℕ) (promptLength : ℤ)
  | setPromptLength (slot : ℕ) (promptLength : ℤ)
  | synchronizeMetadata (slot : ℕ) (promptLength tokenLength decodedLength : ℤ)
  | restore (slot : ℕ) (tokens : List ℤ) (promptLength decodedLength : ℤ) (turns : Option (List Turn))
  | appendToken (slot : ℕ) (tokenId : ℤ)
  | appendTokens (slots : List ℕ) (tokenIds : List ℤ)

/-- Make a call; the result is the slots it hands out. -/
def Command.exec : Command → Call (List ℕ)
  | .bind sequenceId maxTokens => (fun slot => [slot]) <$> QueryBook.bind cfg sequenceId maxTokens
  | .bindBatch sequenceIds maxTokens => QueryBook.bindBatch cfg sequenceIds maxTokens
  | .release slot => (fun _ => []) <$> QueryBook.release slot
  | .writePrompt slot promptTokens => (fun _ => []) <$> QueryBook.writePrompt cfg slot promptTokens
  | .writePrompts slots prompts => (fun _ => []) <$> QueryBook.writePrompts cfg slots prompts
  | .appendPrompt slot promptTokens => (fun _ => []) <$> QueryBook.appendPrompt cfg slot promptTokens
  | .beginReentryTurn slot promptLength => (fun _ => []) <$> QueryBook.beginReentryTurn slot promptLength
  | .setPromptLength slot promptLength => (fun _ => []) <$> QueryBook.setPromptLength slot promptLength
  | .synchronizeMetadata slot promptLength tokenLength decodedLength => (fun _ => []) <$>
      QueryBook.synchronizeMetadata cfg slot promptLength tokenLength decodedLength
  | .restore slot tokens promptLength decodedLength turns => (fun _ => []) <$>
      QueryBook.restore cfg slot tokens promptLength decodedLength turns
  | .appendToken slot tokenId => (fun _ => []) <$> QueryBook.appendToken cfg slot tokenId
  | .appendTokens slots tokenIds => (fun _ => []) <$> QueryBook.appendTokens cfg slots tokenIds

/-- A new book after any calls, with what each of them handed out; `none` for a call that raised. -/
inductive Runs (storage : ℕ → Token) : List (Command × Option (List ℕ)) → Book → Prop
  | start : Runs storage [] (Book.init cfg storage)
  | returned {trace : List (Command × Option (List ℕ))} {b b' : Book} {c : Command} {slots : List ℕ}
      (before : Runs storage trace b) (call : c.exec cfg b = .ok slots b') :
      Runs storage (trace ++ [(c, some slots)]) b'
  | raised {trace : List (Command × Option (List ℕ))} {b b' : Book} {c : Command} {e : PyError}
      (before : Runs storage trace b) (call : c.exec cfg b = .error e b') :
      Runs storage (trace ++ [(c, none)]) b'

end Batchgen.QueryBook
