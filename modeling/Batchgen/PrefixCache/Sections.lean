import Batchgen.PrefixCache.Region
import Batchgen.Library.Outcome
import Batchgen.Library.OrderedMap

/-!
# The header-mutex sections of the host prefix cache

The functions of `host_prefix_cache_coordinator.cpp` that change the shared region under the header mutex, as
programs over it.  A program that throws keeps the writes it made before.  The groups, in source
order:

* the node index and the page reference table, two open-addressing tables with lazy rebuilds;
* the arenas: usage, capacity, compaction;
* nodes: search, allocation, materialization spans, attachment references, protection;
* eviction of one node, and the scans over candidates;
* the two passes of `CommitPrefixPages`, and the prefix walk of a lookup.

An array index is not reduced modulo `2 ^ 32`, and `max - next` is not taken modulo `2 ^ 32`: ranges
stay below their arenas in every run (`ArenaOk`).  The one place that can leave an arena is the second
pass of a commit whose page count wraps; there the write past the end is the fault `outOfBounds`.
-/

namespace Batchgen.PrefixCache

open MachineInt OpenAddressing Function

def kNodeIndexRebuildMinTombstones : ℕ := 1024

def kPageRefRebuildMinTombstones : ℕ := 1024

def kArenaCompactMinDeadGroupEntries : ℕ := 1024

def kArenaCompactMinDeadPageHandles : ℕ := 4096

variable (cfg : HostPrefixCacheCoordinator)

/-! ### Node index -/

def maxNodeIndexSlots : ℕ :=
  if cfg.maxNodes = 0 then 1 else nextPowerOfTwo (u32 (cfg.maxNodes * 2))

/-- The slots the search for `digest` visits. -/
def nodeIndexProbes (digest : PrefixDigest) : List ℕ :=
  linearProbes (maxNodeIndexSlots cfg) (digestHash digest).toNat

def Region.nodeIndexKind (r : Region) (slot : ℕ) : SlotKind PrefixDigest :=
  (r.nodeIndexSlots slot).kind

def findNodeIndexSlotLocked (r : Region) (digest : PrefixDigest) : Option ℕ :=
  find r.nodeIndexKind digest (nodeIndexProbes cfg digest)

def insertNodeIndexLocked (digest : PrefixDigest) (nodeIndex : ℕ) : CacheM Unit := do
  let r ← get
  match claim r.nodeIndexKind digest (nodeIndexProbes cfg digest) none with
  | none => CacheM.throwError .nodeIndexTableFull
  | some slot =>
    set { r with
      nodeIndexSlots := update r.nodeIndexSlots slot ⟨.resident, nodeIndex, digest⟩ }

def removeNodeIndexLocked (digest : PrefixDigest) (r : Region) : Region :=
  match findNodeIndexSlotLocked cfg r digest with
  | none => r
  | some slot =>
    { r with nodeIndexSlots := update r.nodeIndexSlots slot ⟨.tombstone, 0, {}⟩ }

/-- One turn of the loop of `RebuildNodeIndexLocked`. -/
def reindexNode (nodeIndex : ℕ) : CacheM Unit := do
  let r ← get
  if (r.nodes nodeIndex).state = .resident then
    insertNodeIndexLocked cfg (r.nodes nodeIndex).digest nodeIndex
  else pure ()

def rebuildNodeIndexLocked : CacheM Unit := do
  modify fun r => { r with nodeIndexSlots := fun _ => {} }
  (List.range cfg.maxNodes).forM (reindexNode cfg)

def countNodeIndexTombstonesLocked (r : Region) : ℕ :=
  (List.range (maxNodeIndexSlots cfg)).countP fun slot =>
    (r.nodeIndexSlots slot).state = .tombstone

def rebuildNodeIndexIfNeededLocked : CacheM Unit := do
  let r ← get
  if max kNodeIndexRebuildMinTombstones (maxNodeIndexSlots cfg / 4) ≤
      countNodeIndexTombstonesLocked cfg r then
    rebuildNodeIndexLocked cfg
  else pure ()

/-! ### Page references -/

def maxPageRefSlots : ℕ :=
  if cfg.maxPageHandles = 0 then 1 else nextPowerOfTwo (u32 (cfg.maxPageHandles * 2))

/-- The slots the search for a page of a group visits. -/
def pageRefProbes (page : ℕ × ℕ) : List ℕ :=
  linearProbes (maxPageRefSlots cfg) (pageRefHash page.1 page.2).toNat

def Region.pageRefKind (r : Region) (slot : ℕ) : SlotKind (ℕ × ℕ) := (r.pageRefSlots slot).kind

def findPageRefSlotLocked (r : Region) (groupId pageId : ℕ) : Option ℕ :=
  find r.pageRefKind (groupId, pageId) (pageRefProbes cfg (groupId, pageId))

def insertOrGetPageRefSlotLocked (groupId pageId : ℕ) : CacheM ℕ := do
  let r ← get
  match claim r.pageRefKind (groupId, pageId) (pageRefProbes cfg (groupId, pageId)) none with
  | none => CacheM.throwError .pageRefTableFull
  | some slot =>
    if r.pageRefKind slot = .live (groupId, pageId) then pure slot
    else do
      set { r with
        pageRefSlots := update r.pageRefSlots slot ⟨.resident, groupId, pageId, 0⟩ }
      pure slot

/-- Overwrite the reference count of a slot. -/
def setPageRefCount (slot refCount : ℕ) (r : Region) : Region :=
  { r with
    pageRefSlots := update r.pageRefSlots slot
      { r.pageRefSlots slot with refCount := refCount } }

def incrementPageRefLocked (groupId pageId : ℕ) : CacheM Unit := do
  let slot ← insertOrGetPageRefSlotLocked cfg groupId pageId
  let r ← get
  if (r.pageRefSlots slot).refCount = 2 ^ 32 - 1 then CacheM.throwError .pageRefOverflow
  else set (setPageRefCount slot ((r.pageRefSlots slot).refCount + 1) r)

/-- Whether the last reference to the page went away. -/
def decrementPageRefLocked (groupId pageId : ℕ) : CacheM Bool := do
  let r ← get
  match findPageRefSlotLocked cfg r groupId pageId with
  | none => CacheM.throwError .pageRefMissing
  | some slot =>
    match (r.pageRefSlots slot).refCount with
    | 0 => CacheM.throwError .pageRefUnderflow
    | 1 => do
        set { r with
          pageRefSlots := update r.pageRefSlots slot ⟨.tombstone, 0, 0, 0⟩ }
        pure true
    | refCount + 2 => do
        set (setPageRefCount slot (refCount + 1) r)
        pure false

/-- One turn of the reinsertion loop of `RebuildPageRefIndexLocked`. -/
def reinsertPageRef (ref : SharedPageRefSlot) : CacheM Unit := do
  let slot ← insertOrGetPageRefSlotLocked cfg ref.groupId ref.pageId
  modify (setPageRefCount slot ref.refCount)

/-- The live slots of the page reference table in slot order. -/
def residentPageRefs (r : Region) : List SharedPageRefSlot :=
  ((List.range (maxPageRefSlots cfg)).map r.pageRefSlots).filter (·.state = .resident)

def rebuildPageRefIndexLocked : CacheM Unit := do
  let r ← get
  set { r with pageRefSlots := fun _ => {} }
  (residentPageRefs cfg r).forM (reinsertPageRef cfg)

def countPageRefTombstonesLocked (r : Region) : ℕ :=
  (List.range (maxPageRefSlots cfg)).countP fun slot => (r.pageRefSlots slot).state = .tombstone

def rebuildPageRefIndexIfNeededLocked : CacheM Unit := do
  let r ← get
  if max kPageRefRebuildMinTombstones (maxPageRefSlots cfg / 4) ≤
      countPageRefTombstonesLocked cfg r then
    rebuildPageRefIndexLocked cfg
  else pure ()

/-! ### Reading a node -/

/-- The group entries of a node, in arena order. -/
def Region.entries (r : Region) (node : SharedPrefixNode) : List SharedGroupEntry :=
  (List.range node.groupEntryCount).map fun offset => r.groupEntries (node.firstGroupEntry + offset)

/-- The pages of a group entry, in arena order. -/
def Region.pages (r : Region) (entry : SharedGroupEntry) : List ℕ :=
  (List.range entry.pageHandleCount).map fun pageIdx =>
    r.pageHandles (entry.firstPageHandle + pageIdx)

/-- The entries that the loops do not skip. -/
def Region.residentEntries (r : Region) (node : SharedPrefixNode) : List SharedGroupEntry :=
  (r.entries node).filter (·.state = .resident)

/-- The nodes of the table that are resident, with their indices. -/
def residentIndices (r : Region) : List ℕ :=
  (List.range cfg.maxNodes).filter fun index => (r.nodes index).state = .resident

structure GroupEntrySnapshot where
  groupId : ℕ
  rawStartToken : ℕ
  rawEndToken : ℕ
  activeRefCount : ℕ
  pendingLoadCount : ℕ
  pages : List ℕ
  deriving Repr, DecidableEq

structure NodeSnapshot where
  namespaceDigest : PrefixDigest
  digest : PrefixDigest
  rawStartToken : ℕ
  rawEndToken : ℕ
  lastAccessEpoch : ℕ
  groups : List GroupEntrySnapshot
  deriving Repr, DecidableEq

def Region.snapshotGroup (r : Region) (entry : SharedGroupEntry) : GroupEntrySnapshot where
  groupId := entry.groupId
  rawStartToken := entry.rawStartToken
  rawEndToken := entry.rawEndToken
  activeRefCount := entry.activeRefCount
  pendingLoadCount := entry.pendingLoadCount
  pages := r.pages entry

/-- The snapshot compaction takes of a resident node. -/
def Region.snapshotNode (r : Region) (node : SharedPrefixNode) : NodeSnapshot where
  namespaceDigest := node.namespaceDigest
  digest := node.digest
  rawStartToken := node.rawStartToken
  rawEndToken := node.rawEndToken
  lastAccessEpoch := node.lastAccessEpoch
  groups := (r.residentEntries node).map r.snapshotGroup

/-! ### Arenas -/

structure ArenaUsage where
  groupEntries : ℕ
  pageHandles : ℕ
  deriving Repr, DecidableEq

def residentArenaUsageLocked (r : Region) : ArenaUsage where
  groupEntries := u32 ((residentIndices cfg r).map fun index =>
    (r.nodes index).groupEntryCount).sum
  pageHandles := u32 ((residentIndices cfg r).map fun index =>
    ((r.residentEntries (r.nodes index)).map (·.pageHandleCount)).sum).sum

def tailArenaCapacityEnoughLocked (minGroupEntries minPageHandles : ℕ) (r : Region) : Bool :=
  minGroupEntries ≤ cfg.maxGroupEntries - r.nextGroupEntry &&
    minPageHandles ≤ cfg.maxPageHandles - r.nextPageHandle

def compactedArenaCapacityEnoughLocked (minGroupEntries minPageHandles : ℕ) (r : Region) : Bool :=
  minGroupEntries ≤ cfg.maxGroupEntries - (residentArenaUsageLocked cfg r).groupEntries &&
    minPageHandles ≤ cfg.maxPageHandles - (residentArenaUsageLocked cfg r).pageHandles

/-- Append one page to the page handle arena. -/
def placePage (r : Region) (page : ℕ) : Region :=
  { r with
    pageHandles := update r.pageHandles r.nextPageHandle page
    nextPageHandle := r.nextPageHandle + 1 }

/-- Append one group entry and its pages to the arenas. -/
def placeGroup (r : Region) (group : GroupEntrySnapshot) : Region :=
  group.pages.foldl placePage
    { r with
      groupEntries := update r.groupEntries r.nextGroupEntry
        { state := .resident
          groupId := group.groupId
          rawStartToken := group.rawStartToken
          rawEndToken := group.rawEndToken
          firstPageHandle := r.nextPageHandle
          pageHandleCount := group.pages.length
          activeRefCount := group.activeRefCount
          pendingLoadCount := group.pendingLoadCount }
      nextGroupEntry := r.nextGroupEntry + 1 }

/-- Point a node at the end of the arenas and append its groups there. -/
def placeNode (r : Region) (indexed : ℕ × NodeSnapshot) : Region :=
  indexed.2.groups.foldl placeGroup
    { r with
      nodes := update r.nodes indexed.1
        { state := .resident
          namespaceDigest := indexed.2.namespaceDigest
          digest := indexed.2.digest
          rawStartToken := indexed.2.rawStartToken
          rawEndToken := indexed.2.rawEndToken
          firstGroupEntry := r.nextGroupEntry
          groupEntryCount := indexed.2.groups.length
          lastAccessEpoch := indexed.2.lastAccessEpoch } }

/-- The snapshots `CompactArenasLocked` takes, in node order. -/
def nodeSnapshots (r : Region) : List (ℕ × NodeSnapshot) :=
  (residentIndices cfg r).map fun index => (index, r.snapshotNode (r.nodes index))

/-- `CompactArenasLocked` up to the rebuild of the index: both arenas are cleared and filled again
from the snapshots. -/
def relayArenas (r : Region) : Region :=
  (nodeSnapshots cfg r).foldl placeNode
    { r with
      groupEntries := fun _ => {}
      pageHandles := fun _ => 0
      nextGroupEntry := 0
      nextPageHandle := 0 }

def compactArenasLocked : CacheM Unit := do
  modify (relayArenas cfg)
  rebuildNodeIndexLocked cfg

def compactArenasForCapacityLocked (minGroupEntries minPageHandles : ℕ) : CacheM Unit := do
  let r ← get
  if tailArenaCapacityEnoughLocked cfg minGroupEntries minPageHandles r then pure ()
  else if compactedArenaCapacityEnoughLocked cfg minGroupEntries minPageHandles r then
    compactArenasLocked cfg
  else pure ()

/-- Whether a quarter of an arena, and at least the fixed minimum, is dead. -/
def arenaMostlyDead (r : Region) : Bool :=
  max kArenaCompactMinDeadGroupEntries (cfg.maxGroupEntries / 4) ≤
      r.nextGroupEntry - (residentArenaUsageLocked cfg r).groupEntries ||
    max kArenaCompactMinDeadPageHandles (cfg.maxPageHandles / 4) ≤
      r.nextPageHandle - (residentArenaUsageLocked cfg r).pageHandles

def compactArenasAfterEvictionIfUsefulLocked (minGroupEntries minPageHandles : ℕ) :
    CacheM Unit := do
  let r ← get
  if !tailArenaCapacityEnoughLocked cfg minGroupEntries minPageHandles r &&
      compactedArenaCapacityEnoughLocked cfg minGroupEntries minPageHandles r then
    compactArenasLocked cfg
  else if arenaMostlyDead cfg r then compactArenasLocked cfg
  else do
    rebuildNodeIndexIfNeededLocked cfg
    rebuildPageRefIndexIfNeededLocked cfg

/-! ### Nodes -/

def findNodeLocked (r : Region) (digest : PrefixDigest) : Option ℕ :=
  match findNodeIndexSlotLocked cfg r digest with
  | none => none
  | some slot =>
    let nodeIndex := (r.nodeIndexSlots slot).nodeIndex
    if cfg.maxNodes ≤ nodeIndex then none
    else if (r.nodes nodeIndex).state ≠ .resident ∨ (r.nodes nodeIndex).digest ≠ digest then none
    else some nodeIndex

/-- A node slot that `AllocateNodeLocked` may take. -/
def SharedPrefixNode.isFree (node : SharedPrefixNode) : Bool :=
  node.state = .empty || node.state = .tombstone

def allocateNodeLocked : CacheM ℕ := do
  let r ← get
  match (List.range cfg.maxNodes).find? fun index => (r.nodes index).isFree with
  | none => CacheM.throwError .nodeTableFull
  | some index => do
      set { r with nodes := update r.nodes index {} }
      pure index

def countFreeNodeSlotsLocked (r : Region) : ℕ :=
  (List.range cfg.maxNodes).countP fun index => (r.nodes index).isFree

def nodeHasRequiredGroupsLocked (r : Region) (node : SharedPrefixNode) : Bool :=
  (requiredSpecs cfg.groupSpecs).all fun spec =>
    (r.residentEntries node).any fun entry =>
      entry.groupId = spec.groupId && entry.rawStartToken ≤ node.rawStartToken &&
        node.rawEndToken ≤ entry.rawEndToken

def nodeIsProtectedLocked (r : Region) (node : SharedPrefixNode) : Bool :=
  (r.residentEntries node).any fun entry =>
    entry.activeRefCount ≠ 0 || entry.pendingLoadCount ≠ 0

structure GroupMaterializationSpan where
  groupId : ℕ
  rawEndToken : ℕ
  pages : List ℕ
  deriving Repr, DecidableEq

/-- The span of one group grows by one entry. -/
def extendSpan (r : Region) (spans : List (ℕ × GroupMaterializationSpan))
    (entry : SharedGroupEntry) : List (ℕ × GroupMaterializationSpan) :=
  OrderedMap.alter entry.groupId
    (fun span =>
      { groupId := entry.groupId
        rawEndToken := max ((span.map (·.rawEndToken)).getD 0) entry.rawEndToken
        pages := (span.map (·.pages)).getD [] ++ r.pages entry })
    spans

/-- `spans_by_group` after the nodes of the list. -/
def spansByGroup (r : Region) :
    List ℕ → List (ℕ × GroupMaterializationSpan) →
      Except PrefixCacheError (List (ℕ × GroupMaterializationSpan))
  | [], spans => .ok spans
  | nodeIndex :: rest, spans =>
    if cfg.maxNodes ≤ nodeIndex then .error .nodeIndexOutOfRange
    else if (r.nodes nodeIndex).state ≠ .resident then .error .materializationNonResident
    else spansByGroup r rest ((r.residentEntries (r.nodes nodeIndex)).foldl (extendSpan r) spans)

/-- The spans in the order of the configured groups, then any other group in id order. -/
def orderSpans : List HostKVGroupSpec → List (ℕ × GroupMaterializationSpan) →
    List GroupMaterializationSpan
  | [], spans => spans.map (·.2)
  | spec :: rest, spans =>
    match OrderedMap.lookup spec.groupId spans with
    | none => orderSpans rest spans
    | some span => span :: orderSpans rest (spans.filter (·.1 ≠ spec.groupId))

def buildMaterializationSpansLocked (r : Region) (nodeIndices : List ℕ) :
    Except PrefixCacheError (List GroupMaterializationSpan) :=
  match spansByGroup cfg r nodeIndices [] with
  | .error e => .error e
  | .ok spans => .ok (orderSpans cfg.groupSpecs spans)

/-! ### Attachment references -/

/-- Rewrite every group entry of a node, stopping at the first one `f` rejects. -/
def updateEntriesLocked (node : SharedPrefixNode)
    (f : SharedGroupEntry → Except PrefixCacheError SharedGroupEntry) : CacheM Unit :=
  (List.range node.groupEntryCount).forM fun offset => do
    let r ← get
    match f (r.groupEntries (node.firstGroupEntry + offset)) with
    | .error e => CacheM.throwError e
    | .ok entry =>
      set { r with
        groupEntries := update r.groupEntries (node.firstGroupEntry + offset) entry }

/-- The entry with one more active reference.  The counter is not checked. -/
def addActiveRef (entry : SharedGroupEntry) : Except PrefixCacheError SharedGroupEntry :=
  .ok { entry with activeRefCount := u32 (entry.activeRefCount + 1) }

def dropActiveRef (entry : SharedGroupEntry) : Except PrefixCacheError SharedGroupEntry :=
  if entry.activeRefCount = 0 then .error .activeRefUnderflow
  else .ok { entry with activeRefCount := entry.activeRefCount - 1 }

/-- The entry with one more pending load.  The counter is not checked. -/
def addLoadRef (entry : SharedGroupEntry) : Except PrefixCacheError SharedGroupEntry :=
  .ok { entry with pendingLoadCount := u32 (entry.pendingLoadCount + 1) }

def dropLoadRef (entry : SharedGroupEntry) : Except PrefixCacheError SharedGroupEntry :=
  if entry.pendingLoadCount = 0 then .error .pendingLoadRefUnderflow
  else .ok { entry with pendingLoadCount := entry.pendingLoadCount - 1 }

/-- One node of a loop that throws at a node that is not resident. -/
def updateResidentNodeLocked (f : SharedGroupEntry → Except PrefixCacheError SharedGroupEntry)
    (nodeIndex : ℕ) : CacheM Unit := do
  let r ← get
  if (r.nodes nodeIndex).state ≠ .resident then CacheM.throwError .attachmentNonResident
  else updateEntriesLocked (r.nodes nodeIndex) f

def incrementActiveRefsLocked (nodeIndices : List ℕ) : CacheM Unit :=
  nodeIndices.forM (updateResidentNodeLocked addActiveRef)

/-- The loop skips a node that is not resident. -/
def decrementActiveRefsLocked (nodeIndices : List ℕ) : CacheM Unit :=
  nodeIndices.forM fun nodeIndex => do
    let r ← get
    if (r.nodes nodeIndex).state ≠ .resident then pure ()
    else updateEntriesLocked (r.nodes nodeIndex) dropActiveRef

/-- `UpdateLoadRefsLocked(nodes, +1)`. -/
def addLoadRefsLocked (nodeIndices : List ℕ) : CacheM Unit :=
  nodeIndices.forM (updateResidentNodeLocked addLoadRef)

/-- `UpdateLoadRefsLocked(nodes, -1)`. -/
def dropLoadRefsLocked (nodeIndices : List ℕ) : CacheM Unit :=
  nodeIndices.forM (updateResidentNodeLocked dropLoadRef)

/-- One turn of the first loop of `AttachNodesLocked`. -/
def touchNodeLocked (epoch nodeIndex : ℕ) : CacheM Unit := do
  let r ← get
  if cfg.maxNodes ≤ nodeIndex then CacheM.throwError .nodeIndexOutOfRange
  else if (r.nodes nodeIndex).state ≠ .resident then CacheM.throwError .attachNonResident
  else
    set { r with
      nodes := update r.nodes nodeIndex
        { r.nodes nodeIndex with lastAccessEpoch := epoch } }

/-- `AttachNodesLocked` up to the registration of the handle. -/
def attachNodesLocked (nodeIndices : List ℕ) : CacheM Unit := do
  if nodeIndices = [] then CacheM.throwError .attachEmpty
  else do
    let r ← get
    set { r with globalEpoch := u64 (r.globalEpoch + 1) }
    nodeIndices.forM (touchNodeLocked cfg (u64 (r.globalEpoch + 1)))
    incrementActiveRefsLocked nodeIndices

/-! ### Eviction -/

structure GroupCommitPages where
  groupId : ℕ
  pages : List ℕ
  deriving Repr, DecidableEq

structure PrefixEvictionResult where
  evictedNodes : ℕ := 0
  protectedNodes : ℕ := 0
  freedGroupEntries : ℕ := 0
  freedPageHandles : ℕ := 0
  evictedGroupPages : List GroupCommitPages := []
  deriving Repr, DecidableEq

/-- Append a page to its group's list, or start the list at the end. -/
def appendEvictedPage (groupId pageId : ℕ) : List GroupCommitPages → List GroupCommitPages
  | [] => [⟨groupId, [pageId]⟩]
  | group :: rest =>
    if group.groupId = groupId then ⟨groupId, group.pages ++ [pageId]⟩ :: rest
    else group :: appendEvictedPage groupId pageId rest

/-- The page references of a node, entry by entry. -/
def Region.pageRefs (r : Region) (node : SharedPrefixNode) : List (ℕ × ℕ) :=
  (r.residentEntries node).flatMap fun entry => (r.pages entry).map fun page => (entry.groupId, page)

/-- One turn of the loops of `AppendEvictedPagesLocked`. -/
def evictPageLocked (evicted : List GroupCommitPages) (page : ℕ × ℕ) :
    CacheM (List GroupCommitPages) := do
  let released ← decrementPageRefLocked cfg page.1 page.2
  pure (if released then appendEvictedPage page.1 page.2 evicted else evicted)

def appendEvictedPagesLocked (node : SharedPrefixNode) (evicted : List GroupCommitPages) :
    CacheM (List GroupCommitPages) := do
  let r ← get
  (r.pageRefs node).foldlM (evictPageLocked cfg) evicted

def evictNodeLocked (nodeIndex : ℕ) (result : PrefixEvictionResult) :
    CacheM PrefixEvictionResult := do
  let r ← get
  let node := r.nodes nodeIndex
  let evicted ← appendEvictedPagesLocked cfg node result.evictedGroupPages
  modify fun r =>
    let r := removeNodeIndexLocked cfg node.digest r
    { r with nodes := update r.nodes nodeIndex { state := .tombstone } }
  pure
    { evictedNodes := u32 (result.evictedNodes + 1)
      protectedNodes := result.protectedNodes
      freedGroupEntries := u32 (result.freedGroupEntries + node.groupEntryCount)
      freedPageHandles := u32 (result.freedPageHandles +
        ((r.residentEntries node).map (·.pageHandleCount)).sum)
      evictedGroupPages := evicted }

/-- The loop all four eviction calls run over their candidates: a node that `skip` rejects is passed
over, a protected one is counted, any other is evicted, until `stop` is satisfied. -/
def evictScan (maxScanNodes : ℕ) (skip : SharedPrefixNode → Bool)
    (stop : Region → PrefixEvictionResult → Bool) :
    List ℕ → ℕ → PrefixEvictionResult → CacheM PrefixEvictionResult
  | [], _, result => pure result
  | nodeIndex :: rest, scanned, result =>
    if maxScanNodes ≠ 0 ∧ maxScanNodes ≤ scanned then pure result
    else do
      let r ← get
      if (r.nodes nodeIndex).state ≠ .resident ∨ skip (r.nodes nodeIndex) then
        evictScan maxScanNodes skip stop rest (scanned + 1) result
      else if nodeIsProtectedLocked r (r.nodes nodeIndex) then
        evictScan maxScanNodes skip stop rest (scanned + 1)
          { result with protectedNodes := u32 (result.protectedNodes + 1) }
      else do
        let result ← evictNodeLocked cfg nodeIndex result
        let r ← get
        if stop r result then pure result
        else evictScan maxScanNodes skip stop rest (scanned + 1) result

/-- Compaction after a loop that evicted something. -/
def compactAfterEvictScan (minGroupEntries minPageHandles : ℕ) (result : PrefixEvictionResult) :
    CacheM Unit :=
  if result.evictedNodes ≠ 0 then
    compactArenasAfterEvictionIfUsefulLocked cfg minGroupEntries minPageHandles
  else pure ()

/-- What every eviction call does after its loop. -/
def finishEviction (minGroupEntries minPageHandles : ℕ) (result : PrefixEvictionResult) :
    CacheM PrefixEvictionResult := do
  compactAfterEvictScan cfg minGroupEntries minPageHandles result
  modify fun r =>
    { r with
      evictedNodes := u64 (r.evictedNodes + result.evictedNodes)
      evictionProtectedSkips := u64 (r.evictionProtectedSkips + result.protectedNodes) }
  pure result

/-- `std::sort` on node indices by a key: any algorithm that permutes its input into key order. -/
structure StdSort where
  run : (ℕ → ℕ) → List ℕ → List ℕ
  perm : ∀ key indices, (run key indices).Perm indices
  sorted : ∀ key indices, (run key indices).Pairwise fun a b => key a ≤ key b

/-- One such sort. -/
def StdSort.merge : StdSort where
  run key indices := indices.mergeSort fun a b => key a ≤ key b
  perm _ indices := List.mergeSort_perm indices _
  sorted key indices := by
    have hsorted : (indices.mergeSort fun a b => decide (key a ≤ key b)).Pairwise
        fun a b => decide (key a ≤ key b) = true :=
      List.pairwise_mergeSort (by intro a b c; simp only [decide_eq_true_eq]; omega)
        (by intro a b; simp only [Bool.or_eq_true, decide_eq_true_eq]; omega) indices
    simpa only [decide_eq_true_eq] using hsorted

variable (sort : StdSort)

/-- The resident nodes, least recently used first. -/
def evictionCandidates (r : Region) : List ℕ :=
  sort.run (fun index => (r.nodes index).lastAccessEpoch) (residentIndices cfg r)

/-- The free node slots and the tail of both arenas cover the request. -/
def hasEnoughFreeCapacity (minFreeNodes minFreeGroupEntries minFreePageHandles : ℕ) (r : Region) :
    Bool :=
  minFreeNodes ≤ countFreeNodeSlotsLocked cfg r &&
    tailArenaCapacityEnoughLocked cfg minFreeGroupEntries minFreePageHandles r

/-- The free node slots and the compacted arenas cover the request. -/
def canSatisfyAfterCompact (minFreeNodes minFreeGroupEntries minFreePageHandles : ℕ) (r : Region) :
    Bool :=
  minFreeNodes ≤ countFreeNodeSlotsLocked cfg r &&
    compactedArenaCapacityEnoughLocked cfg minFreeGroupEntries minFreePageHandles r

def evictUntilFree (minFreeNodes minFreeGroupEntries minFreePageHandles maxScanNodes : ℕ) :
    CacheM PrefixEvictionResult := do
  let r ← get
  if hasEnoughFreeCapacity cfg minFreeNodes minFreeGroupEntries minFreePageHandles r then pure {}
  else do
    compactArenasForCapacityLocked cfg minFreeGroupEntries minFreePageHandles
    let r ← get
    if hasEnoughFreeCapacity cfg minFreeNodes minFreeGroupEntries minFreePageHandles r then pure {}
    else do
      let result ← evictScan cfg maxScanNodes (fun _ => false)
        (fun r _ =>
          hasEnoughFreeCapacity cfg minFreeNodes minFreeGroupEntries minFreePageHandles r ||
            canSatisfyAfterCompact cfg minFreeNodes minFreeGroupEntries minFreePageHandles r)
        (evictionCandidates cfg sort r) 0 {}
      finishEviction cfg minFreeGroupEntries minFreePageHandles result

structure GroupPageRequirement where
  groupId : ℕ
  minPages : ℕ
  deriving Repr, DecidableEq

def normalizePageRequirements (requirements : List GroupPageRequirement) : List (ℕ × ℕ) :=
  requirements.foldl
    (fun result requirement =>
      if requirement.minPages = 0 then result
      else OrderedMap.alter requirement.groupId
        (fun pages => u32 (pages.getD 0 + requirement.minPages)) result) []

/-- `released_by_group`. -/
def releasedByGroup (evicted : List GroupCommitPages) : List (ℕ × ℕ) :=
  evicted.foldl
    (fun released group =>
      OrderedMap.alter group.groupId (fun pages => u32 (pages.getD 0 + u32 group.pages.length))
        released) []

def hasEnoughReleasablePages (requirements : List (ℕ × ℕ)) (result : PrefixEvictionResult) : Bool :=
  requirements.all fun requirement =>
    requirement.2 ≤
      (OrderedMap.lookup requirement.1 (releasedByGroup result.evictedGroupPages)).getD 0

def evictUntilReleasablePages (requirements : List GroupPageRequirement) (maxScanNodes : ℕ) :
    CacheM PrefixEvictionResult := do
  if normalizePageRequirements requirements = [] then pure {}
  else do
    let r ← get
    let result ← evictScan cfg maxScanNodes (fun _ => false)
      (fun _ result => hasEnoughReleasablePages (normalizePageRequirements requirements) result)
      (evictionCandidates cfg sort r) 0 {}
    finishEviction cfg 0 0 result

def clearUnprotected : CacheM PrefixEvictionResult := do
  let result ← evictScan cfg 0 (fun _ => false) (fun _ _ => false) (List.range cfg.maxNodes) 0 {}
  finishEviction cfg 0 0 result

def clearNamespace (namespaceDigest : PrefixDigest) : CacheM PrefixEvictionResult := do
  let result ← evictScan cfg 0 (fun node => node.namespaceDigest ≠ namespaceDigest)
    (fun _ _ => false) (List.range cfg.maxNodes) 0 {}
  finishEviction cfg 0 0 result

/-! ### Commit -/

structure PrefixCommitResult where
  committedTokens : ℕ := 0
  insertedNodes : ℕ := 0
  existingNodes : ℕ := 0
  activeAttachmentHandle : ℕ := 0
  insertedGroupPages : List GroupCommitPages := []
  deriving Repr, DecidableEq

/-- `pages_by_group`: a later list of the same group replaces an earlier one. -/
def pagesByGroup (groupPages : List GroupCommitPages) (groupId : ℕ) : Option (List ℕ) :=
  (groupPages.reverse.find? (·.groupId = groupId)).map (·.pages)

/-- The committed length: at most the token list, rounded down to the commit boundary. -/
def commitLength (tokenIds : List Int64) (commitTokens : ℕ) : ℕ :=
  min commitTokens (u32 tokenIds.length) -
    min commitTokens (u32 tokenIds.length) % cfg.commitBoundaryTokens

/-- Every required group brings enough pages. -/
def checkRequiredPages (byGroup : ℕ → Option (List ℕ)) (commitTokens : ℕ) :
    List HostKVGroupSpec → Except PrefixCacheError Unit
  | [] => .ok ()
  | spec :: rest =>
    match byGroup spec.groupId with
    | none => .error (.missingPages spec.groupId)
    | some pages =>
      if pages.length < commitTokens / spec.rawPageTokens then
        .error (.insufficientPages spec.groupId)
      else checkRequiredPages byGroup commitTokens rest

/-- The blocks of the chain that become nodes: those that end on a commit boundary. -/
def commitBlocks (chain : List (ℕ × PrefixDigest)) (commitTokens : ℕ) : List (ℕ × PrefixDigest) :=
  chain.filter fun block => block.1 ≤ commitTokens && block.1 % cfg.commitBoundaryTokens = 0

/-- The part of a group's page list that covers `rawStart .. rawEnd`, when both ends fall on its page
boundaries and the list reaches that far. -/
def groupSlice (byGroup : ℕ → Option (List ℕ)) (rawStart rawEnd : ℕ) (spec : HostKVGroupSpec) :
    Option (ℕ × List ℕ) :=
  match byGroup spec.groupId with
  | none => none
  | some pages =>
    if rawStart % spec.rawPageTokens ≠ 0 ∨ rawEnd % spec.rawPageTokens ≠ 0 then none
    else if pages.length <
        rawStart / spec.rawPageTokens + (rawEnd - rawStart) / spec.rawPageTokens then none
    else some (spec.groupId,
      (pages.drop (rawStart / spec.rawPageTokens)).take ((rawEnd - rawStart) / spec.rawPageTokens))

/-- The group entries a new node gets. -/
def groupSlices (byGroup : ℕ → Option (List ℕ)) (rawStart rawEnd : ℕ) : List (ℕ × List ℕ) :=
  cfg.groupSpecs.filterMap (groupSlice byGroup rawStart rawEnd)

/-- The page handles of a list of slices. -/
def sliceHandles (slices : List (ℕ × List ℕ)) : ℕ := (slices.map (·.2.length)).sum

/-- What the first pass counts. -/
structure CommitNeed where
  newNodes : ℕ := 0
  groupEntries : ℕ := 0
  pageHandles : ℕ := 0
  insertedPages : List (ℕ × List ℕ) := []
  deriving Repr, DecidableEq

/-- The needs of one more node, in 32-bit counters. -/
def CommitNeed.addNode (need : CommitNeed) (slices : List (ℕ × List ℕ)) : CommitNeed where
  newNodes := u32 (need.newNodes + 1)
  groupEntries := u32 (need.groupEntries + slices.length)
  pageHandles := u32 (need.pageHandles + sliceHandles slices)
  insertedPages := slices.foldl
    (fun inserted slice => OrderedMap.alter slice.1 (fun pages => pages.getD [] ++ slice.2) inserted)
    need.insertedPages

/-- The first pass: what the blocks that are not resident will take. -/
def countNeed (r : Region) (byGroup : ℕ → Option (List ℕ)) :
    ℕ → List (ℕ × PrefixDigest) → CommitNeed → CommitNeed
  | _, [], need => need
  | rawStart, (rawEnd, digest) :: rest, need =>
    if (findNodeLocked cfg r digest).isSome then countNeed r byGroup rawEnd rest need
    else countNeed r byGroup rawEnd rest (need.addNode (groupSlices cfg byGroup rawStart rawEnd))

/-- The checks the second pass makes on the required groups of a block. -/
def checkSlices (byGroup : ℕ → Option (List ℕ)) (rawStart rawEnd : ℕ) :
    List HostKVGroupSpec → Except PrefixCacheError Unit
  | [] => .ok ()
  | spec :: rest =>
    match byGroup spec.groupId with
    | none => checkSlices byGroup rawStart rawEnd rest
    | some pages =>
      if rawStart % spec.rawPageTokens ≠ 0 ∨ rawEnd % spec.rawPageTokens ≠ 0 then
        if spec.requiredForReuse then .error .requiredGroupNotAligned
        else checkSlices byGroup rawStart rawEnd rest
      else if pages.length <
          rawStart / spec.rawPageTokens + (rawEnd - rawStart) / spec.rawPageTokens then
        if spec.requiredForReuse then .error .requiredGroupTooShort
        else checkSlices byGroup rawStart rawEnd rest
      else checkSlices byGroup rawStart rawEnd rest

/-- Write the pages of one entry from `nextPageHandle` on, counting a reference for each. -/
def writeHandles (groupId : ℕ) : List ℕ → ℕ → CacheM ℕ
  | [], nextPageHandle => pure nextPageHandle
  | page :: rest, nextPageHandle =>
    if cfg.maxPageHandles ≤ nextPageHandle then throw .outOfBounds
    else do
      modify fun r => { r with pageHandles := update r.pageHandles nextPageHandle page }
      incrementPageRefLocked cfg groupId page
      writeHandles groupId rest (nextPageHandle + 1)

/-- Write the entries of a new node from `nextGroupEntry` on. -/
def writeEntries (rawStart rawEnd : ℕ) : List (ℕ × List ℕ) → ℕ → ℕ → CacheM (ℕ × ℕ)
  | [], nextGroupEntry, nextPageHandle => pure (nextGroupEntry, nextPageHandle)
  | slice :: rest, nextGroupEntry, nextPageHandle =>
    if cfg.maxGroupEntries ≤ nextGroupEntry then throw .outOfBounds
    else do
      modify fun r =>
        { r with
          groupEntries := update r.groupEntries nextGroupEntry
            { state := .resident
              groupId := slice.1
              rawStartToken := rawStart
              rawEndToken := rawEnd
              firstPageHandle := nextPageHandle
              pageHandleCount := slice.2.length } }
      let nextPageHandle ← writeHandles cfg slice.1 slice.2 nextPageHandle
      writeEntries rawStart rawEnd rest (nextGroupEntry + 1) nextPageHandle

/-- Allocate the node of a block whose entries have been written, and index it. -/
def publishNode (namespaceDigest digest : PrefixDigest)
    (rawStart rawEnd groupEntryCount nextGroupEntry nextPageHandle : ℕ) : CacheM ℕ := do
  let nodeIndex ← allocateNodeLocked cfg
  modify fun r =>
    { r with
      nodes := update r.nodes nodeIndex
        { state := .resident
          namespaceDigest := namespaceDigest
          digest := digest
          rawStartToken := rawStart
          rawEndToken := rawEnd
          firstGroupEntry := r.nextGroupEntry
          groupEntryCount := groupEntryCount
          lastAccessEpoch := u64 (r.globalEpoch + 1) }
      globalEpoch := u64 (r.globalEpoch + 1)
      nextGroupEntry := nextGroupEntry
      nextPageHandle := nextPageHandle }
  insertNodeIndexLocked cfg digest nodeIndex
  pure nodeIndex

/-- The second pass on one block that is not resident. -/
def insertBlock (namespaceDigest : PrefixDigest) (byGroup : ℕ → Option (List ℕ))
    (rawStart rawEnd : ℕ) (digest : PrefixDigest) : CacheM ℕ :=
  match checkSlices byGroup rawStart rawEnd cfg.groupSpecs with
  | .error e => CacheM.throwError e
  | .ok () => do
      let slices := groupSlices cfg byGroup rawStart rawEnd
      let r ← get
      if cfg.maxGroupEntries < u32 (r.nextGroupEntry + u32 slices.length) then
        CacheM.throwError .groupEntryTableFull
      else if cfg.maxPageHandles < u32 (r.nextPageHandle + u32 (sliceHandles slices)) then
        CacheM.throwError .pageHandleArenaFull
      else do
        let next ← writeEntries cfg rawStart rawEnd slices r.nextGroupEntry r.nextPageHandle
        publishNode cfg namespaceDigest digest rawStart rawEnd (u32 slices.length) next.1 next.2

/-- The second pass: the inserted node indices and the number of blocks found resident. -/
def insertBlocks (namespaceDigest : PrefixDigest) (byGroup : ℕ → Option (List ℕ)) :
    ℕ → List (ℕ × PrefixDigest) → List ℕ → ℕ → CacheM (List ℕ × ℕ)
  | _, [], inserted, existing => pure (inserted, existing)
  | rawStart, (rawEnd, digest) :: rest, inserted, existing => do
      let r ← get
      if (findNodeLocked cfg r digest).isSome then
        insertBlocks namespaceDigest byGroup rawEnd rest inserted (u32 (existing + 1))
      else do
        let nodeIndex ← insertBlock cfg namespaceDigest byGroup rawStart rawEnd digest
        insertBlocks namespaceDigest byGroup rawEnd rest (inserted ++ [nodeIndex]) existing

/-- `CommitPrefixPages` under the lock, up to the protecting attachment: the result without its
handle, and the inserted node indices. -/
def commitBlocksLocked (namespaceDigest : PrefixDigest) (byGroup : ℕ → Option (List ℕ))
    (commitTokens : ℕ) (blocks : List (ℕ × PrefixDigest)) :
    CacheM (PrefixCommitResult × List ℕ) := do
  let r ← get
  let need := countNeed cfg r byGroup 0 blocks {}
  if countFreeNodeSlotsLocked cfg r < need.newNodes then CacheM.throwError .nodeTableFull
  else do
    compactArenasForCapacityLocked cfg need.groupEntries need.pageHandles
    let r ← get
    if cfg.maxGroupEntries < u32 (r.nextGroupEntry + need.groupEntries) then
      CacheM.throwError .groupEntryTableFull
    else if cfg.maxPageHandles < u32 (r.nextPageHandle + need.pageHandles) then
      CacheM.throwError .pageHandleArenaFull
    else do
      let inserted ← insertBlocks cfg namespaceDigest byGroup 0 blocks [] 0
      pure
        ({ committedTokens := commitTokens
           insertedNodes := u32 inserted.1.length
           existingNodes := inserted.2
           insertedGroupPages := need.insertedPages.map fun group => ⟨group.1, group.2⟩ },
          inserted.1)

/-! ### Lookup -/

structure PrefixLookupResult where
  attachmentHandle : ℕ := 0
  commonCachedTokens : ℕ := 0
  materializationSpans : List GroupMaterializationSpan := []
  missReasonMask : ℕ := 0
  deriving Repr, DecidableEq

/-- The blocks of the chain a lookup visits. -/
def lookupBlocks (chain : List (ℕ × PrefixDigest)) : List (ℕ × PrefixDigest) :=
  chain.filter fun block => block.1 % cfg.commitBoundaryTokens = 0

/-- The nodes of the leading blocks that are resident with all their required groups. -/
def hitNodeIndices (r : Region) : List (ℕ × PrefixDigest) → List ℕ
  | [] => []
  | (_, digest) :: rest =>
    match findNodeLocked cfg r digest with
    | none => []
    | some nodeIndex =>
      if nodeHasRequiredGroupsLocked cfg r (r.nodes nodeIndex) then
        nodeIndex :: hitNodeIndices r rest
      else []

/-- `common_cached_tokens`: the end of the last hit. -/
def commonCachedTokens (r : Region) (hits : List ℕ) : ℕ :=
  (hits.getLast?.map fun nodeIndex => (r.nodes nodeIndex).rawEndToken).getD 0

end Batchgen.PrefixCache
