import Batchgen.WavePlan.Contract

/-!
# The validator and the levels of a chunk

`validate_wave_prefix_plan` of `wave_plan.py` with its assertions in order, and `order_chunk_items_by_level`
and `chunk_levels` of `levels.py`.  The dictionaries of the validator are association lists in insertion
order; an index or a key that is missing is an error of its own.
-/

namespace Batchgen.WavePlan

/-! ### Assertions -/

inductive PlanAssertion where
  | segmentOffGrid
  | segmentEmpty
  | tooFewMembers
  | loadedSegmentInside
  | parentEndsElsewhere
  | memberNotOfParent
  | rootStartsElsewhere
  | lastTokenNotPrivate
  | membersDiffer
  | emptyChunk
  | noForward
  | tooManyTokens
  | tooManyKeys
  | computedTwice (key : ItemKey)
  | readBeforeComputed (key : ItemKey) (seg : ℕ)
  | readAfterReleased (key : ItemKey) (seg : ℕ)
  | startsElsewhere
  | chainBroken
  | wrongKind
  | wrongRange
  | loadReads
  | endsElsewhere
  | emptyTail
  | wrongChain
  | wrongPoolPages
  | releasedTwice (seg : ℕ)
  | poolNotEmpty
  | wrongPeak
  | wrongReleases
  | wrongItems
  | releasedElsewhere
  | wrongPromptTokens
  | wrongComputedTokens
  | wrongMaterializedTokens
  | tokensNotConserved
  | indexError
  | keyError
  deriving Repr, DecidableEq

def check (p : Prop) [Decidable p] (e : PlanAssertion) : Except PlanAssertion Unit :=
  if p then .ok () else .error e

def fetch {α : Type*} (value : Option α) (e : PlanAssertion) : Except PlanAssertion α :=
  match value with
  | some value => .ok value
  | none => .error e

/-! ### Segments -/

def slice (tokens : Tokens) (start stop : ℕ) : Tokens := (tokens.take stop).drop start

def checkMember (prompts : List Tokens) (seg : PlanSegment) (first : Tokens) (index : ℕ) :
    Except PlanAssertion Unit := do
  let tokens ← fetch prompts[index]? .indexError
  check ((seg.tokenEnd : ℤ) ≤ tokens.length - 1) .lastTokenNotPrivate
  check (slice tokens seg.tokenStart seg.tokenEnd = first) .membersDiffer

def checkParent (segments : List PlanSegment) (seg : PlanSegment) : Except PlanAssertion Unit :=
  match seg.parentId with
  | some up => do
      let parent ← fetch segments[up]? .indexError
      check (parent.tokenEnd = seg.tokenStart) .parentEndsElsewhere
      check (∀ index ∈ seg.members, index ∈ parent.members) .memberNotOfParent
  | none => check (seg.tokenStart = 0) .rootStartsElsewhere

def checkSegment (prompts : List Tokens) (block : ℕ) (segments : List PlanSegment) (seg : PlanSegment) :
    Except PlanAssertion Unit := do
  check (seg.tokenStart % block = 0 ∧ seg.tokenEnd % block = 0) .segmentOffGrid
  check (seg.tokenStart < seg.tokenEnd) .segmentEmpty
  check ((if seg.materialized = true then 1 else 2) ≤ seg.members.length) .tooFewMembers
  check (seg.materialized = true → seg.parentId = none ∧ seg.tokenStart = 0) .loadedSegmentInside
  checkParent segments seg
  let index ← fetch seg.members.head? .indexError
  let tokens ← fetch prompts[index]? .indexError
  seg.members.forM (checkMember prompts seg (slice tokens seg.tokenStart seg.tokenEnd))

/-! ### Chunks -/

structure Checked where
  computedAt : List (ItemKey × ℕ)
  orderAt : List (ItemKey × ℕ)
  releasedAt : List (ℕ × ℕ)
  live : ℤ
  peak : ℤ

def Checked.start : Checked where
  computedAt := []
  orderAt := []
  releasedAt := []
  live := 0
  peak := 0

section

variable (plan : WavePrefixPlan) (prompts : List Tokens)

def checkRead (position order : ℕ) (key : ItemKey) (st : Checked) (seg : ℕ) :
    Except PlanAssertion Unit := do
  let written := (st.computedAt.lookup (.segment seg)).getD (position + 1)
  let sameChunk ←
    if plan.sameChunkAncestors = true ∧ written = position then do
      let at' ← fetch (st.orderAt.lookup (.segment seg)) .keyError
      .ok (decide (at' < order))
    else .ok false
  check (written < position ∨ sameChunk = true) (.readBeforeComputed key seg)
  check (position ≤ (st.releasedAt.lookup seg).getD position) (.readAfterReleased key seg)

def checkStart (item : PlanItem) : Except PlanAssertion Unit :=
  match item.prefixSegments.getLast? with
  | none => check (item.tokenStart = 0) .startsElsewhere
  | some last => do
      let seg ← fetch plan.segments[last]? .indexError
      check (item.tokenStart = seg.tokenEnd) .startsElsewhere

/-- Every pair of neighbours of the chain is a parent and its child. -/
def checkChain : List ℕ → Except PlanAssertion Unit
  | up :: down :: chain => do
      let seg ← fetch plan.segments[down]? .indexError
      check (seg.parentId = some up) .chainBroken
      checkChain (down :: chain)
  | _ => .ok ()

def pagesAt (seg : ℕ) : Except PlanAssertion ℕ := do
  let seg ← fetch plan.segments[seg]? .indexError
  .ok (seg.tokens / plan.blockTokens)

/-- What depends on the kind of an item; the pages it adds to the pool. -/
def checkKind (item : PlanItem) : Except PlanAssertion ℕ :=
  match item.kind with
  | .tail => do
      let tokens ← fetch prompts[item.ref]? .indexError
      check (item.tokenEnd = tokens.length) .endsElsewhere
      check (item.tokenStart + 1 ≤ item.tokenEnd) .emptyTail
      let pooled := (plan.segments.filter fun seg => item.ref ∈ seg.members).map PlanSegment.segmentId
      check ((∀ seg ∈ item.prefixSegments, seg ∈ pooled) ∧ ∀ seg ∈ pooled, seg ∈ item.prefixSegments)
        .wrongChain
      .ok 0
  | kind => do
      let seg ← fetch plan.segments[item.ref]? .indexError
      check (seg.materialized = decide (kind = .materialize)) .wrongKind
      check (item.tokenStart = seg.tokenStart ∧ item.tokenEnd = seg.tokenEnd) .wrongRange
      check (item.prefixSegments = [] ∨ seg.materialized = false) .loadReads
      pagesAt plan item.ref

def checkItem (position : ℕ) (st : Checked) (entry : PlanItem × ℕ) : Except PlanAssertion Checked := do
  let item := entry.1
  check (st.computedAt.lookup item.key = none) (.computedTwice item.key)
  let st := { st with
    computedAt := st.computedAt ++ [(item.key, position)]
    orderAt := st.orderAt ++ [(item.key, entry.2)] }
  item.prefixSegments.forM (checkRead plan position entry.2 item.key st)
  checkStart plan item
  checkChain plan item.prefixSegments
  let pages ← checkKind plan prompts item
  .ok { st with live := st.live + pages }

def checkRelease (position : ℕ) (st : Checked) (seg : ℕ) : Except PlanAssertion Checked := do
  check (st.releasedAt.lookup seg = none) (.releasedTwice seg)
  let pages ← pagesAt plan seg
  .ok { st with releasedAt := st.releasedAt ++ [(seg, position)], live := st.live - pages }

def checkBudget (forward : List PlanItem) : Except PlanAssertion Unit := do
  check (sumTokens forward ≤ plan.chunkTokens ∨ forward.length = 1) .tooManyTokens
  match plan.chunkKeys with
  | none => .ok ()
  | some chunkKeys =>
    check ((sumKeys forward : ℤ) ≤ chunkKeys ∨ forward.length = 1) .tooManyKeys

def checkChunk (st : Checked) (entry : PlanChunk × ℕ) : Except PlanAssertion Checked := do
  let chunk := entry.1
  check (chunk.items ≠ []) .emptyChunk
  check (forwardItems chunk.items ≠ []) .noForward
  checkBudget plan (forwardItems chunk.items)
  let st ← chunk.items.zipIdx.foldlM (checkItem plan prompts entry.2) st
  let st := { st with peak := max st.peak st.live }
  check (chunk.poolPagesInUse = st.live) .wrongPoolPages
  chunk.releaseAfter.foldlM (checkRelease plan entry.2) st

/-! ### The whole plan -/

def dictMax (dict : List (ℕ × ℕ)) (read : ℕ × ℕ) : Except PlanAssertion (List (ℕ × ℕ)) := do
  let _ ← fetch (dict.lookup read.1) .keyError
  .ok (dict.map fun entry => if entry.1 = read.1 then (entry.1, max entry.2 read.2) else entry)

/-- Every read of the plan, with the position of its chunk. -/
def planReads (chunks : List PlanChunk) : List (ℕ × ℕ) :=
  chunks.zipIdx.flatMap fun entry =>
    entry.1.items.flatMap fun item => item.prefixSegments.map fun seg => (seg, entry.2)

def lastRead (st : Checked) : Except PlanAssertion (List (ℕ × ℕ)) := do
  let first ← plan.segments.mapM fun seg => do
    let position ← fetch (st.computedAt.lookup (.segment seg.segmentId)) .keyError
    .ok (seg.segmentId, position)
  (planReads plan.chunks).foldlM dictMax first

/-- The keys every plan has to compute. -/
def expectedKeys : List ItemKey :=
  plan.segments.map (fun seg => .segment seg.segmentId) ++ (List.range prompts.length).map .tail

def sameSet {α : Type*} [DecidableEq α] (xs ys : List α) : Prop := (∀ x ∈ xs, x ∈ ys) ∧ ∀ y ∈ ys, y ∈ xs

instance {α : Type*} [DecidableEq α] (xs ys : List α) : Decidable (sameSet xs ys) :=
  inferInstanceAs (Decidable (_ ∧ _))

/-- Two dictionaries with the same items. -/
def sameDict (xs ys : List (ℕ × ℕ)) : Prop :=
  ∀ key ∈ xs.map Prod.fst ++ ys.map Prod.fst, xs.lookup key = ys.lookup key

instance (xs ys : List (ℕ × ℕ)) : Decidable (sameDict xs ys) :=
  inferInstanceAs (Decidable (∀ _ ∈ _, _))

def checkTokens : Except PlanAssertion Unit := do
  let total := (prompts.map List.length).sum
  let computed := computedTokens plan.chunks
  let saved := ((plan.segments.filter fun seg => seg.materialized = false).map fun seg =>
    (seg.members.length - 1) * seg.tokens).sum
  let loaded := ((plan.segments.filter fun seg => seg.materialized = true).map fun seg =>
    seg.members.length * seg.tokens).sum
  check (plan.promptTokens = total) .wrongPromptTokens
  check (plan.computedTokens = computed) .wrongComputedTokens
  check (plan.materializedTokens = loadedTokens plan.segments) .wrongMaterializedTokens
  check (total = computed + saved + loaded) .tokensNotConserved

def validateWavePrefixPlan : Except PlanAssertion Unit := do
  plan.segments.forM (checkSegment prompts plan.blockTokens plan.segments)
  let st ← plan.chunks.zipIdx.foldlM (checkChunk plan prompts) Checked.start
  check (st.live = 0) .poolNotEmpty
  check (st.peak = plan.peakPoolPages ∧ plan.peakPoolPages ≤ plan.poolPages) .wrongPeak
  check (sameSet (st.releasedAt.map Prod.fst) (List.range plan.segments.length)) .wrongReleases
  check (sameSet (st.computedAt.map Prod.fst) (expectedKeys plan prompts)) .wrongItems
  let last ← lastRead plan st
  check (sameDict st.releasedAt last) .releasedElsewhere
  checkTokens plan prompts

end

/-! ### Levels -/

/-- How many pooled segments a row reads. -/
def PlanItem.level (item : PlanItem) : ℕ := item.prefixSegments.length

def PlanChunk.orderByLevel (chunk : PlanChunk) : PlanChunk :=
  { chunk with items := chunk.items.insertionSort fun x y => x.level ≤ y.level }

def orderChunkItemsByLevel (plan : WavePrefixPlan) : WavePrefixPlan :=
  { plan with chunks := plan.chunks.map PlanChunk.orderByLevel }

structure ChunkLevel where
  depth : ℕ
  rowStart : ℕ
  rowEnd : ℕ
  tokenStart : ℕ
  tokenEnd : ℕ
  bounds : List ℕ
  deriving Repr, DecidableEq

/-- A maximal run of rows of one depth: the depth, its first row and the row behind it. -/
abbrev LevelRun := ℕ × ℕ × ℕ

def addRow (runs : List LevelRun) (entry : PlanItem × ℕ) : List LevelRun :=
  match runs.getLast? with
  | some (depth, start, _) =>
    if depth = entry.1.level then runs.dropLast ++ [(depth, start, entry.2 + 1)]
    else runs ++ [(entry.1.level, entry.2, entry.2 + 1)]
  | none => runs ++ [(entry.1.level, entry.2, entry.2 + 1)]

def levelRuns (items : List PlanItem) : List LevelRun := items.zipIdx.foldl addRow []

/-- The levels of a chunk with these rows, or the depths of its runs when they are not contiguous. -/
def chunkLevels (items : List PlanItem) (rowBounds : List ℕ) : Except (List ℕ) (List ChunkLevel) :=
  let depths := (levelRuns items).map Prod.fst
  if depths ≠ depths.dedup.insertionSort (· ≤ ·) then .error depths
  else .ok ((levelRuns items).map fun run =>
    { depth := run.1
      rowStart := run.2.1
      rowEnd := run.2.2
      tokenStart := rowBounds.getD run.2.1 0
      tokenEnd := rowBounds.getD run.2.2 0
      bounds := ((rowBounds.drop run.2.1).take (run.2.2 + 1 - run.2.1)).map
        (· - rowBounds.getD run.2.1 0) })

end Batchgen.WavePlan
