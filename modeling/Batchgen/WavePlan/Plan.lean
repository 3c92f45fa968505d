import Batchgen.WavePlan.Tree
import Mathlib.Data.List.Sort
import Mathlib.Data.List.Dedup
import Mathlib.Algebra.BigOperators.Group.List.Basic
import Mathlib.Algebra.Order.Ring.Int

/-!
# Planning one wave

`plan_wave_prefix_sharing` of `wave_plan.py` with what it calls: `group_materialized_prefixes`, which
folds identical hits into one loaded segment each, and `_schedule`, which numbers the pooled segments,
lists the work items in depth-first order and packs them into chunks.

A dict is an association list in insertion order, and lists that the source indexes by segment
(`pages`, `need`, `pending_below`) are functions of the segment.  The chunk loop runs on fuel; one round
per item is enough, since every round that goes on places an item.
-/

namespace Batchgen.WavePlan

open Function

/-! ### Data -/

/-- One prompt's committed prefix, to be loaded. -/
structure MaterializedPrefix where
  index : ℤ
  tokens : ℤ
  deriving Repr, DecidableEq

structure PlanSegment where
  segmentId : ℕ
  parentId : Option ℕ
  tokenStart : ℕ
  tokenEnd : ℕ
  members : List ℕ
  materialized : Bool := false
  deriving Repr, DecidableEq

def PlanSegment.tokens (seg : PlanSegment) : ℕ := seg.tokenEnd - seg.tokenStart

inductive ItemKind where
  | segment
  | tail
  | materialize
  deriving Repr, DecidableEq

/-- One unit of work of a chunk. -/
structure PlanItem where
  kind : ItemKind
  ref : ℕ
  prefixSegments : List ℕ
  tokenStart : ℕ
  tokenEnd : ℕ
  deriving Repr, DecidableEq

def PlanItem.tokens (item : PlanItem) : ℕ := item.tokenEnd - item.tokenStart

structure PlanChunk where
  items : List PlanItem
  poolPagesInUse : ℤ
  releaseAfter : List ℕ
  deriving Repr, DecidableEq

/-- The numbers a wave is planned with. -/
structure PlanConfig where
  blockTokens : ℕ
  poolPages : ℕ
  chunkTokens : ℕ
  sameChunkAncestors : Bool := false
  chunkKeys : Option ℤ := none
  deriving Repr, DecidableEq

structure WavePrefixPlan where
  blockTokens : ℕ
  poolPages : ℕ
  chunkTokens : ℕ
  threshold : Option ℤ
  segments : List PlanSegment
  chunks : List PlanChunk
  promptTokens : ℕ
  computedTokens : ℕ
  peakPoolPages : ℤ
  sameChunkAncestors : Bool
  chunkKeys : Option ℤ
  materializedTokens : ℕ
  deriving Repr, DecidableEq

/-! ### Errors -/

inductive PlanError where
  | badSizes
  | emptyPrompt
  | notOfThisWave (index : ℤ) (prompts : ℕ)
  | twoMaterializedPrefixes (index : ℤ)
  | offTheBlockGrid (index tokens : ℤ) (blockTokens : ℕ)
  | lastTokenNotPrivate (index tokens : ℤ) (length : ℕ)
  | needsSameChunkAncestors
  | twoMaterializedSegments (index : ℕ)
  | notClosedUnderAncestors
  | materializesAndShares (index : ℕ)
  | nothingPooledDoesNotSchedule
  | poolMaterializationDoesNotFit (segments tokens poolPages : ℕ)
  deriving Repr, DecidableEq

/-! ### Hits -/

/-- The member lists of `groups`, by boundary and prefix tokens. -/
abbrev HitGroups := List ((ℕ × Tokens) × List ℕ)

def HitGroups.add (key : ℕ × Tokens) (index : ℕ) : HitGroups → HitGroups
  | [] => [(key, [index])]
  | (other, members) :: groups =>
    if other = key then (other, members ++ [index]) :: groups
    else (other, members) :: HitGroups.add key index groups

/-- One round of `group_materialized_prefixes`; `seen` are the prompts with a hit so far. -/
def groupHit (prompts : List Tokens) (blockTokens : ℕ) (seen : List ℤ) (groups : HitGroups)
    (hit : MaterializedPrefix) : Except PlanError (List ℤ × HitGroups) :=
  if ¬ (0 ≤ hit.index ∧ hit.index < prompts.length) then
    .error (.notOfThisWave hit.index prompts.length)
  else if hit.index ∈ seen then .error (.twoMaterializedPrefixes hit.index)
  else
    let prompt := prompts.getD hit.index.toNat []
    if hit.tokens ≤ 0 ∨ hit.tokens % blockTokens ≠ 0 then
      .error (.offTheBlockGrid hit.index hit.tokens blockTokens)
    else if (prompt.length : ℤ) - 1 < hit.tokens then
      .error (.lastTokenNotPrivate hit.index hit.tokens prompt.length)
    else
      .ok (hit.index :: seen,
        groups.add (hit.tokens.toNat, prompt.take hit.tokens.toNat) hit.index.toNat)

def groupHits (prompts : List Tokens) (blockTokens : ℕ) :
    List ℤ → HitGroups → List MaterializedPrefix → Except PlanError HitGroups
  | _, groups, [] => .ok groups
  | seen, groups, hit :: hits =>
    match groupHit prompts blockTokens seen groups hit with
    | .error e => .error e
    | .ok (seen, groups) => groupHits prompts blockTokens seen groups hits

/-- Per loaded segment: its tokens and its members. -/
def groupMaterializedPrefixes (prompts : List Tokens) (blockTokens : ℕ)
    (materialized : List MaterializedPrefix) : Except PlanError (List (ℕ × List ℕ)) :=
  (groupHits prompts blockTokens [] [] materialized).map fun groups =>
    groups.map fun group => (group.1.1, group.2)

/-! ### Segments and items -/

def pooledSegment (tree : Tree) (threshold : Option ℤ) (seg : ℕ) : Bool :=
  match threshold with
  | none => false
  | some threshold => decide (max threshold 2 ≤ (tree.count seg : ℤ))

/-- Every member with the loaded segment it reads. -/
def readerPairs (groups : List (ℕ × List ℕ)) : List (ℕ × ℕ) :=
  groups.zipIdx.flatMap fun group => group.1.2.map fun index => (index, group.2)

/-- `materialized_of`. -/
def materializedOf (groups : List (ℕ × List ℕ)) : Except PlanError (List (ℕ × ℕ)) :=
  (readerPairs groups).foldlM
    (fun readers reader =>
      if (readers.lookup reader.1).isSome then .error (.twoMaterializedSegments reader.1)
      else .ok (readers ++ [reader])) []

/-- The pooled segments of every prompt's path. -/
def pooledChains (pooled : ℕ → Bool) (readers : List (ℕ × ℕ)) :
    ℕ → List (List ℕ) → Except PlanError (List (List ℕ))
  | _, [] => .ok []
  | index, path :: paths =>
    let chain := path.filter pooled
    if chain ≠ path.take chain.length then .error .notClosedUnderAncestors
    else if (readers.lookup index).isSome ∧ chain ≠ [] then .error (.materializesAndShares index)
    else (pooledChains pooled readers (index + 1) paths).map (chain :: ·)

/-- The pooled children of a segment, or the pooled roots. -/
def pooledKids (tree : Tree) (pooled : ℕ → Bool) (up : Option ℕ) : List ℕ :=
  (List.range tree.size).filter fun seg => pooled seg && tree.parent seg = up

/-- The stack loop that lists the pooled segments in depth-first order. -/
def dfsOrder (kids : Option ℕ → List ℕ) : ℕ → List ℕ → List ℕ
  | 0, _ => []
  | _ + 1, [] => []
  | fuel + 1, seg :: stack => seg :: dfsOrder kids fuel (kids (some seg) ++ stack)

/-- What `_schedule` knows about the wave once the chains are checked. -/
structure Layout where
  groups : List (ℕ × List ℕ)
  readers : List (ℕ × ℕ)
  chains : List (List ℕ)
  order : List ℕ

namespace Layout

def chain (l : Layout) (index : ℕ) : List ℕ := l.chains.getD index []

/-- Loaded segments are numbered first. -/
def newId (l : Layout) (old : ℕ) : ℕ := l.groups.length + l.order.idxOf old

def members (l : Layout) (old : ℕ) : List ℕ :=
  (List.range l.chains.length).filter fun index => old ∈ l.chain index

/-- The prompts whose deepest pooled segment is `old`. -/
def tailsAt (l : Layout) (old : Option ℕ) : List ℕ :=
  (List.range l.chains.length).filter fun index =>
    l.readers.lookup index = none ∧ (l.chain index).getLast? = old

def tailsAtMaterialized (l : Layout) (segmentId : ℕ) : List ℕ :=
  (List.range l.chains.length).filter fun index => l.readers.lookup index = some segmentId

def loadedSegment (segmentId : ℕ) (group : ℕ × List ℕ) : PlanSegment where
  segmentId := segmentId
  parentId := none
  tokenStart := 0
  tokenEnd := group.1
  members := group.2
  materialized := true

def computedSegment (l : Layout) (tree : Tree) (blockTokens : ℕ) (old : ℕ) : PlanSegment where
  segmentId := l.newId old
  parentId := (tree.parent old).map l.newId
  tokenStart := tree.startBlock old * blockTokens
  tokenEnd := tree.endBlock old * blockTokens
  members := l.members old

def segments (l : Layout) (tree : Tree) (blockTokens : ℕ) : List PlanSegment :=
  l.groups.mapIdx loadedSegment ++ l.order.map (l.computedSegment tree blockTokens)

end Layout

def parentOf (segments : List PlanSegment) (seg : ℕ) : Option ℕ :=
  segments[seg]?.bind PlanSegment.parentId

def endOf (segments : List PlanSegment) (seg : ℕ) : ℕ :=
  (segments[seg]?.map PlanSegment.tokenEnd).getD 0

/-- The segments from the root down to `seg`; parents are numbered before their children, so the number
of segments is enough fuel. -/
def ancestry (segments : List PlanSegment) : ℕ → Option ℕ → List ℕ
  | 0, _ => []
  | _ + 1, none => []
  | fuel + 1, some seg => ancestry segments fuel (parentOf segments seg) ++ [seg]

namespace Layout

variable (l : Layout) (segments : List PlanSegment) (lengths : List ℕ)

def tailItem (index : ℕ) : PlanItem where
  kind := .tail
  ref := index
  prefixSegments := (l.chain index).map l.newId
  tokenStart := match ((l.chain index).map l.newId).getLast? with
    | some seg => endOf segments seg
    | none => 0
  tokenEnd := lengths.getD index 0

def loadedItems (segmentId : ℕ) : List PlanItem :=
  { kind := .materialize, ref := segmentId, prefixSegments := [], tokenStart := 0
    tokenEnd := endOf segments segmentId } ::
    (l.tailsAtMaterialized segmentId).map fun index =>
      { kind := .tail, ref := index, prefixSegments := [segmentId]
        tokenStart := endOf segments segmentId, tokenEnd := lengths.getD index 0 }

def segmentItem (tree : Tree) (blockTokens : ℕ) (old : ℕ) : PlanItem where
  kind := .segment
  ref := l.newId old
  prefixSegments := ancestry segments segments.length ((tree.parent old).map l.newId)
  tokenStart := tree.startBlock old * blockTokens
  tokenEnd := tree.endBlock old * blockTokens

/-- The work items in depth-first order: loads with their readers, then every pooled segment with the
tails that end at it, then the prompts that share nothing. -/
def items (tree : Tree) (blockTokens : ℕ) : List PlanItem :=
  (List.range l.groups.length).flatMap (l.loadedItems segments lengths) ++
    (l.order.flatMap fun old =>
      l.segmentItem segments tree blockTokens old ::
        (l.tailsAt (some old)).map (l.tailItem segments lengths)) ++
    (l.tailsAt none).map (l.tailItem segments lengths)

end Layout

/-! ### The chunk loop -/

def segmentPages (blockTokens : ℕ) (segments : List PlanSegment) (seg : ℕ) : ℕ :=
  (segments[seg]?.map PlanSegment.tokens).getD 0 / blockTokens

/-- One round of the `need` loop: a parent needs its own pages and those of its deepest child. -/
def needStep (segments : List PlanSegment) (pages : ℕ → ℕ) (need : ℕ → ℕ) (seg : ℕ) : ℕ → ℕ :=
  match parentOf segments seg with
  | none => need
  | some up => update need up (max (need up) (pages up + need seg))

def needPages (segments : List PlanSegment) (pages : ℕ → ℕ) : ℕ → ℕ :=
  (List.range segments.length).reverse.foldl (needStep segments pages) pages

/-- What the loop reads and never writes. -/
structure Work where
  segments : List PlanSegment
  items : List PlanItem
  pages : ℕ → ℕ
  need : ℕ → ℕ

/-- The locals of one round over the remaining items. -/
structure Pass where
  chosen : List PlanItem
  used : ℕ
  keys : ℕ
  written : ℕ
  rest : List PlanItem
  chosenSegments : List ℕ

def Pass.empty : Pass where
  chosen := []
  used := 0
  keys := 0
  written := 0
  rest := []
  chosenSegments := []

/-- The locals of the loop. -/
structure Progress where
  doneSegments : List ℕ
  remaining : List PlanItem
  live : ℤ
  peak : ℤ
  pendingBelow : ℕ → ℤ
  chunks : List PlanChunk

namespace Pass

variable (cfg : PlanConfig) (work : Work) (done : List ℕ) (live : ℤ) (p : Pass)

/-- Every segment the item reads is in the pool. -/
def ready (item : PlanItem) : Prop :=
  ∀ seg ∈ item.prefixSegments,
    seg ∈ done ∨ (cfg.sameChunkAncestors = true ∧ seg ∈ p.chosenSegments)

instance (item : PlanItem) : Decidable (p.ready cfg done item) :=
  inferInstanceAs (Decidable (∀ seg ∈ _, _))

/-- The chunk has room for the item's tokens and keys; the first item always has, and a load takes
none. -/
def fitsChunk (item : PlanItem) : Prop :=
  p.chosen = [] ∨ item.kind = .materialize ∨
    (p.used + item.tokens ≤ cfg.chunkTokens ∧
      ∀ chunkKeys, cfg.chunkKeys = some chunkKeys → (p.keys : ℤ) + item.tokenEnd ≤ chunkKeys)

instance (item : PlanItem) : Decidable (p.fitsChunk cfg item) :=
  inferInstanceAs (Decidable (_ ∨ _ ∨ (_ ∧ _)))

/-- The pool has room for the segment and the deepest path below it. -/
def fitsPool (item : PlanItem) : Prop :=
  item.kind ≠ .tail → live + p.written + work.need item.ref ≤ cfg.poolPages

instance (item : PlanItem) : Decidable (p.fitsPool cfg work live item) :=
  inferInstanceAs (Decidable (_ → _))

def take (item : PlanItem) : Pass :=
  let p := { p with chosen := p.chosen ++ [item] }
  let p := if item.kind = .materialize then p
    else { p with used := p.used + item.tokens, keys := p.keys + item.tokenEnd }
  if item.kind = .tail then p
  else
    { p with
      written := p.written + work.pages item.ref
      chosenSegments := p.chosenSegments ++ [item.ref] }

/-- One item of the round. -/
def step (item : PlanItem) : Pass :=
  if p.ready cfg done item ∧ p.fitsChunk cfg item ∧ p.fitsPool cfg work live item then p.take work item
  else { p with rest := p.rest ++ [item] }

end Pass

def runPass (cfg : PlanConfig) (work : Work) (done : List ℕ) (live : ℤ) (remaining : List PlanItem) :
    Pass :=
  remaining.foldl (fun p item => p.step cfg work done live item) .empty

/-- `pending_below` after the chosen items are counted off. -/
def countOff (pendingBelow : ℕ → ℤ) (chosen : List PlanItem) : ℕ → ℤ :=
  chosen.foldl (fun pending item =>
    item.prefixSegments.foldl (fun pending seg => update pending seg (pending seg - 1))
      pending) pendingBelow

/-- The segments whose subtree the chunk completes. -/
def releasedBy (pendingBelow : ℕ → ℤ) (chosen : List PlanItem) : List ℕ :=
  chosen.foldl (fun released item =>
    let released :=
      if item.kind = .segment ∧ pendingBelow item.ref = 0 then released ++ [item.ref] else released
    item.prefixSegments.foldl (fun released seg =>
      if pendingBelow seg = 0 ∧ seg ∉ released then released ++ [seg] else released) released) []

def sumPages (pages : ℕ → ℕ) (segs : List ℕ) : ℕ := (segs.map pages).sum

/-- The end of a round: the chunk, and the state behind it. -/
def Progress.close (work : Work) (st : Progress) (p : Pass) : Progress :=
  let live := st.live + p.written
  let pending := countOff st.pendingBelow p.chosen
  let released := releasedBy pending p.chosen
  let liveAfter := live - sumPages work.pages released
  { doneSegments := st.doneSegments ++
      (p.chosen.filter fun item => item.kind = .segment).map PlanItem.ref
    remaining := p.rest
    live := liveAfter
    peak := max st.peak live
    pendingBelow := released.foldl (fun pending seg => update pending seg (-1)) pending
    chunks := st.chunks ++
      [{ items := p.chosen
         poolPagesInUse := liveAfter + sumPages work.pages released
         releaseAfter := released.insertionSort (· ≤ ·) }] }

/-- The loop; `none` when it gets stuck, or when a chunk would only load. -/
def scheduleLoop (cfg : PlanConfig) (work : Work) : ℕ → Progress → Option Progress
  | 0, st => if st.remaining = [] then some st else none
  | fuel + 1, st =>
    if st.remaining = [] then some st
    else
      let p := runPass cfg work st.doneSegments st.live st.remaining
      if p.chosen = [] then none
      else if ∀ item ∈ p.chosen, item.kind = .materialize then none
      else scheduleLoop cfg work fuel (st.close work p)

def startProgress (work : Work) : Progress where
  doneSegments := []
  remaining := work.items
  live := 0
  peak := 0
  pendingBelow := fun seg =>
    ((work.items.flatMap PlanItem.prefixSegments).count seg : ℕ)
  chunks := []

def computedTokens (chunks : List PlanChunk) : ℕ :=
  (((chunks.flatMap PlanChunk.items).filter fun item => item.kind ≠ .materialize).map
    PlanItem.tokens).sum

def loadedTokens (segments : List PlanSegment) : ℕ :=
  ((segments.filter PlanSegment.materialized).map PlanSegment.tokens).sum

def layoutOf (tree : Tree) (threshold : Option ℤ) (groups : List (ℕ × List ℕ)) :
    Except PlanError Layout :=
  let pooled := pooledSegment tree threshold
  match materializedOf groups with
  | .error e => .error e
  | .ok readers =>
    match pooledChains pooled readers 0 tree.paths with
    | .error e => .error e
    | .ok chains =>
      let kids := pooledKids tree pooled
      .ok { groups, readers, chains, order := dfsOrder kids tree.size (kids none) }

def workOf (cfg : PlanConfig) (tree : Tree) (lengths : List ℕ) (l : Layout) : Work :=
  let segments := l.segments tree cfg.blockTokens
  let pages := segmentPages cfg.blockTokens segments
  { segments
    items := l.items segments lengths tree cfg.blockTokens
    pages
    need := needPages segments pages }

/-- List-schedule one threshold; `none` if the pool deadlocks. -/
def schedule (cfg : PlanConfig) (tree : Tree) (lengths : List ℕ) (threshold : Option ℤ)
    (groups : List (ℕ × List ℕ)) : Except PlanError (Option WavePrefixPlan) :=
  match layoutOf tree threshold groups with
  | .error e => .error e
  | .ok l =>
    let work := workOf cfg tree lengths l
    .ok ((scheduleLoop cfg work work.items.length (startProgress work)).map fun st =>
      { blockTokens := cfg.blockTokens
        poolPages := cfg.poolPages
        chunkTokens := cfg.chunkTokens
        threshold := if work.segments = [] then none else threshold
        segments := work.segments
        chunks := st.chunks
        promptTokens := lengths.sum
        computedTokens := computedTokens st.chunks
        peakPoolPages := st.peak
        sameChunkAncestors := cfg.sameChunkAncestors
        chunkKeys := cfg.chunkKeys
        materializedTokens := loadedTokens work.segments })

/-! ### The planner -/

/-- 2 means every shared segment; higher values only where counts exist. -/
def thresholds (tree : Tree) : List ℤ :=
  ((2 :: ((List.range tree.size).map fun seg => (tree.count seg : ℤ)).filter (2 < ·)).dedup).insertionSort
    (· ≤ ·)

/-- The first threshold that schedules. -/
def firstPlan (plan : ℤ → Except PlanError (Option WavePrefixPlan)) :
    List ℤ → Except PlanError (Option WavePrefixPlan)
  | [] => .ok none
  | threshold :: rest =>
    match plan threshold with
    | .error e => .error e
    | .ok (some result) => .ok (some result)
    | .ok none => firstPlan plan rest

/-- The candidates in order, then nothing pooled. -/
def planTree (cfg : PlanConfig) (tree : Tree) (lengths : List ℕ) (groups : List (ℕ × List ℕ)) :
    Except PlanError WavePrefixPlan :=
  match firstPlan (fun threshold => schedule cfg tree lengths (some threshold) groups)
    (thresholds tree) with
  | .error e => .error e
  | .ok (some result) => .ok result
  | .ok none =>
    match schedule cfg tree lengths none groups with
    | .error e => .error e
    | .ok (some result) => .ok result
    | .ok none =>
      if groups = [] then .error .nothingPooledDoesNotSchedule
      else
        .error (.poolMaterializationDoesNotFit groups.length (groups.map Prod.fst).sum
          cfg.poolPages)

def planWavePrefixSharing (cfg : PlanConfig) (prompts : List Tokens)
    (materialized : List MaterializedPrefix) : Except PlanError WavePrefixPlan :=
  if cfg.blockTokens = 0 ∨ cfg.chunkTokens = 0 then .error .badSizes
  else if ∃ tokens ∈ prompts, tokens = [] then .error .emptyPrompt
  else
    match groupMaterializedPrefixes prompts cfg.blockTokens materialized with
    | .error e => .error e
    | .ok groups =>
      if groups ≠ [] ∧ cfg.sameChunkAncestors = false then .error .needsSameChunkAncestors
      else
        planTree cfg (buildTree prompts cfg.blockTokens (groups.flatMap Prod.snd))
          (prompts.map List.length) groups

end Batchgen.WavePlan
