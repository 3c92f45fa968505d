import Batchgen.Library.OpenAddressing
import Mathlib.Data.Nat.GCD.Basic

/-!
# The shared region of the host prefix cache

The region of `host_prefix_cache_coordinator.cpp` that every process maps: the prefix nodes, the two
bump arenas for group entries and page handles, the node index, the page reference table and the
header counters, together with the configuration the constructor accepts and the prefix hash.

* `HostPrefixCacheCoordinator` — a configuration with the proof that the constructor accepts it;
* `hashPrefixBlock`, `buildPrefixHashChain` — one digest per hash block, each chained to the last;
* `Region`, `constructSharedState` — the arrays and counters, and their initial values;
* `PrefixCacheError` — every exception of the modelled calls, with its class and text.

Arrays are functions of their index.  Sizes, ids and counters are naturals; a 32- or 64-bit variable
that can wrap carries the wrap (`u32`, `u64`).  The digest is computed on `UInt64` lanes.
-/

namespace Batchgen.PrefixCache

open MachineInt OpenAddressing

/-! ### Configuration -/

structure HostKVGroupSpec where
  groupId : ℕ
  requiredForReuse : Bool := true
  rawPageTokens : ℕ
  compressionRatio : ℕ := 1
  deriving Repr, DecidableEq

/-- The fields of `HostPrefixCacheConfig` that the coordinator reads.  The capacities are 32-bit
fields; `configuredHashBlockTokens` is the configuration's `hash_block_tokens`, where zero means
"computed from the groups". -/
structure HostPrefixCacheConfig where
  shmName : String
  groupSpecs : List HostKVGroupSpec
  configuredHashBlockTokens : ℕ := 0
  maxNodes : ℕ
  maxGroupEntries : ℕ
  maxPageHandles : ℕ
  deriving Repr, DecidableEq

inductive ConfigError where
  | shmNameEmpty
  | groupSpecsEmpty
  | capacityZero
  | rawPageTokensZero
  | compressionRatioZero
  | noRequiredGroup
  | zeroTokenBoundary
  deriving Repr, DecidableEq

/-- `ValidateGroupSpec` on each group in turn. -/
def validateGroupSpecs : List HostKVGroupSpec → Except ConfigError Unit
  | [] => .ok ()
  | spec :: rest =>
    if spec.rawPageTokens = 0 then .error .rawPageTokensZero
    else if spec.compressionRatio = 0 then .error .compressionRatioZero
    else validateGroupSpecs rest

/-- The groups a cached prefix needs before it can be reused. -/
def requiredSpecs (specs : List HostKVGroupSpec) : List HostKVGroupSpec :=
  specs.filter (·.requiredForReuse)

/-- `ComputeHashBlockTokens`: the gcd of the required groups' page sizes. -/
def computeHashBlockTokens (specs : List HostKVGroupSpec) : ℕ :=
  (requiredSpecs specs).foldl
    (fun result spec => if result = 0 then spec.rawPageTokens else Nat.gcd result spec.rawPageTokens) 0

/-- `ComputeCommitBoundaryTokens`: the lcm of the required groups' page sizes.  `std::lcm` multiplies
in 32 bits. -/
def computeCommitBoundaryTokens (specs : List HostKVGroupSpec) : ℕ :=
  if requiredSpecs specs = [] then 0
  else (requiredSpecs specs).foldl (fun result spec => u32 (Nat.lcm result spec.rawPageTokens)) 1

/-- `hash_block_tokens_` of the coordinator: the configured value unless it is zero. -/
def selectHashBlockTokens (config : HostPrefixCacheConfig) : ℕ :=
  if config.configuredHashBlockTokens = 0 then computeHashBlockTokens config.groupSpecs
  else config.configuredHashBlockTokens

/-- The constructor's checks in source order, and the two token boundaries it computes. -/
def construct (config : HostPrefixCacheConfig) : Except ConfigError (ℕ × ℕ) :=
  if config.shmName = "" then .error .shmNameEmpty
  else if config.groupSpecs = [] then .error .groupSpecsEmpty
  else if config.maxNodes = 0 ∨ config.maxGroupEntries = 0 ∨ config.maxPageHandles = 0 then
    .error .capacityZero
  else
    match validateGroupSpecs config.groupSpecs with
    | .error e => .error e
    | .ok () =>
      if requiredSpecs config.groupSpecs = [] then .error .noRequiredGroup
      else if selectHashBlockTokens config = 0 ∨ computeCommitBoundaryTokens config.groupSpecs = 0
      then .error .zeroTokenBoundary
      else .ok (selectHashBlockTokens config, computeCommitBoundaryTokens config.groupSpecs)

/-- **A coordinator**: a configuration, the token boundaries the constructor computed for it, and the
evidence that it was accepted. -/
structure HostPrefixCacheCoordinator extends HostPrefixCacheConfig where
  hashBlockTokens : ℕ
  commitBoundaryTokens : ℕ
  accepted : construct toHostPrefixCacheConfig = .ok (hashBlockTokens, commitBoundaryTokens)
  maxNodes_lt : maxNodes < 2 ^ 32
  maxGroupEntries_lt : maxGroupEntries < 2 ^ 32
  maxPageHandles_lt : maxPageHandles < 2 ^ 32

theorem validateGroupSpecs_ok {specs : List HostKVGroupSpec} (h : validateGroupSpecs specs = .ok ()) :
    ∀ spec ∈ specs, 0 < spec.rawPageTokens := by
  induction specs with
  | nil => simp
  | cons first rest ih =>
    rw [validateGroupSpecs] at h
    split at h
    · simp at h
    split at h
    · simp at h
    · intro spec hspec
      rcases List.mem_cons.mp hspec with rfl | hspec
      · omega
      · exact ih h spec hspec

/-- What every accepted configuration satisfies. -/
structure HostPrefixCacheConfig.Accepted (config : HostPrefixCacheConfig)
    (hashBlockTokens commitBoundaryTokens : ℕ) : Prop where
  maxNodes_pos : 0 < config.maxNodes
  rawPageTokens_pos : ∀ spec ∈ config.groupSpecs, 0 < spec.rawPageTokens
  required_ne_nil : requiredSpecs config.groupSpecs ≠ []
  hashBlockTokens_pos : 0 < hashBlockTokens
  commitBoundaryTokens_pos : 0 < commitBoundaryTokens
  commitBoundaryTokens_eq : commitBoundaryTokens = computeCommitBoundaryTokens config.groupSpecs

theorem construct_ok {config : HostPrefixCacheConfig} {hashBlockTokens commitBoundaryTokens : ℕ}
    (h : construct config = .ok (hashBlockTokens, commitBoundaryTokens)) :
    config.Accepted hashBlockTokens commitBoundaryTokens := by
  unfold construct at h
  split at h
  · simp at h
  split at h
  · simp at h
  split at h
  · simp at h
  next hcapacity =>
  split at h
  · simp at h
  next hspecs =>
  split at h
  · simp at h
  next hrequired =>
  split at h
  · simp at h
  next hboundary =>
  simp only [Except.ok.injEq, Prod.mk.injEq] at h
  obtain ⟨rfl, rfl⟩ := h
  exact ⟨by omega, validateGroupSpecs_ok hspecs, hrequired, by omega, by omega, rfl⟩

theorem HostPrefixCacheCoordinator.valid (cfg : HostPrefixCacheCoordinator) :
    cfg.toHostPrefixCacheConfig.Accepted cfg.hashBlockTokens cfg.commitBoundaryTokens :=
  construct_ok cfg.accepted

/-! ### Prefix digests -/

/-- `PrefixDigest`, an array of four 64-bit lanes. -/
structure PrefixDigest where
  lane0 : UInt64 := 0
  lane1 : UInt64 := 0
  lane2 : UInt64 := 0
  lane3 : UInt64 := 0
  deriving Repr, DecidableEq

def PrefixDigest.get (digest : PrefixDigest) : Fin 4 → UInt64
  | 0 => digest.lane0
  | 1 => digest.lane1
  | 2 => digest.lane2
  | 3 => digest.lane3

def PrefixDigest.ofLanes (lane : Fin 4 → UInt64) : PrefixDigest :=
  ⟨lane 0, lane 1, lane 2, lane 3⟩

def PrefixDigest.set (digest : PrefixDigest) (lane : Fin 4) (value : UInt64) : PrefixDigest :=
  .ofLanes fun other => if other = lane then value else digest.get other

def splitMix64 (value : UInt64) : UInt64 :=
  let value := value + 0x9e3779b97f4a7c15
  let value := (value ^^^ (value >>> 30)) * 0xbf58476d1ce4e5b9
  let value := (value ^^^ (value >>> 27)) * 0x94d049bb133111eb
  value ^^^ (value >>> 31)

def digestHash (digest : PrefixDigest) : UInt64 :=
  splitMix64 (([0, 1, 2, 3] : List (Fin 4)).foldl
    (fun value lane => value ^^^ splitMix64 (digest.get lane + UInt64.ofNat lane)) 0x9e3779b97f4a7c15)

def pageRefHash (groupId pageId : ℕ) : UInt64 :=
  splitMix64 ((UInt64.ofNat groupId <<< 32) ||| UInt64.ofNat pageId)

/-- The token loop of `HashPrefixBlock`: token `idx` stirs lane `idx % 4` and leaks into the next. -/
def absorbTokens : PrefixDigest → ℕ → List Int64 → PrefixDigest
  | state, _, [] => state
  | state, idx, token :: rest =>
    let lane : Fin 4 := Fin.ofNat 4 idx
    let stirred := splitMix64 (state.get lane ^^^ token.toUInt64 ^^^ (UInt64.ofNat idx <<< 32))
    let state := state.set lane stirred
    let next : Fin 4 := lane + 1
    absorbTokens (state.set next (state.get next ^^^ stirred)) (idx + 1) rest

def hashPrefixBlock (namespaceDigest parentDigest : PrefixDigest) (tokens : List Int64) :
    PrefixDigest :=
  let seed : PrefixDigest :=
    ⟨0x243f6a8885a308d3, 0x13198a2e03707344, 0xa4093822299f31d0, 0x082efa98ec4e6c89⟩
  let state := PrefixDigest.ofLanes fun lane =>
    seed.get lane ^^^ splitMix64 (namespaceDigest.get lane) ^^^
      splitMix64 (parentDigest.get lane + UInt64.ofNat lane)
  let state := absorbTokens state 0 tokens
  PrefixDigest.ofLanes fun lane =>
    splitMix64 (state.get lane ^^^ UInt64.ofNat tokens.length ^^^ UInt64.ofNat lane)

/-- The loop of `BuildPrefixHashChain`: `blocks` more hash blocks from token `start` on. -/
def hashChainFrom (namespaceDigest : PrefixDigest) (tokenIds : List Int64) (blockTokens : ℕ) :
    ℕ → ℕ → PrefixDigest → List (ℕ × PrefixDigest)
  | 0, _, _ => []
  | blocks + 1, start, parentDigest =>
    let digest := hashPrefixBlock namespaceDigest parentDigest
      ((tokenIds.drop start).take blockTokens)
    (start + blockTokens, digest) ::
      hashChainFrom namespaceDigest tokenIds blockTokens blocks (start + blockTokens) digest

/-- `BuildPrefixHashChain` for a positive block size: the end token and digest of every full hash
block.  The token count is narrowed to 32 bits first. -/
def buildPrefixHashChain (namespaceDigest : PrefixDigest) (tokenIds : List Int64)
    (blockTokens : ℕ) : List (ℕ × PrefixDigest) :=
  hashChainFrom namespaceDigest tokenIds blockTokens (u32 tokenIds.length / blockTokens) 0 {}

/-! ### The region -/

inductive EntryState where
  | empty
  | resident
  | tombstone
  deriving Repr, DecidableEq

inductive IndexSlotState where
  | empty
  | resident
  | tombstone
  deriving Repr, DecidableEq

structure SharedPrefixNode where
  state : EntryState := .empty
  namespaceDigest : PrefixDigest := {}
  digest : PrefixDigest := {}
  rawStartToken : ℕ := 0
  rawEndToken : ℕ := 0
  firstGroupEntry : ℕ := 0
  groupEntryCount : ℕ := 0
  lastAccessEpoch : ℕ := 0
  deriving Repr, DecidableEq

structure SharedNodeIndexSlot where
  state : IndexSlotState := .empty
  nodeIndex : ℕ := 0
  digest : PrefixDigest := {}
  deriving Repr, DecidableEq

structure SharedGroupEntry where
  state : EntryState := .empty
  groupId : ℕ := 0
  rawStartToken : ℕ := 0
  rawEndToken : ℕ := 0
  firstPageHandle : ℕ := 0
  pageHandleCount : ℕ := 0
  activeRefCount : ℕ := 0
  pendingLoadCount : ℕ := 0
  deriving Repr, DecidableEq

structure SharedPageRefSlot where
  state : IndexSlotState := .empty
  groupId : ℕ := 0
  pageId : ℕ := 0
  refCount : ℕ := 0
  deriving Repr, DecidableEq

/-- What a node index slot is to a search for a digest. -/
def SharedNodeIndexSlot.kind (slot : SharedNodeIndexSlot) : SlotKind PrefixDigest :=
  match slot.state with
  | .empty => .empty
  | .tombstone => .tombstone
  | .resident => .live slot.digest

/-- What a page reference slot is to a search for a page of a group. -/
def SharedPageRefSlot.kind (slot : SharedPageRefSlot) : SlotKind (ℕ × ℕ) :=
  match slot.state with
  | .empty => .empty
  | .tombstone => .tombstone
  | .resident => .live (slot.groupId, slot.pageId)

/-- The arrays and header counters.  A page handle is its page id. -/
structure Region where
  nodes : ℕ → SharedPrefixNode := fun _ => {}
  nodeIndexSlots : ℕ → SharedNodeIndexSlot := fun _ => {}
  pageRefSlots : ℕ → SharedPageRefSlot := fun _ => {}
  groupEntries : ℕ → SharedGroupEntry := fun _ => {}
  pageHandles : ℕ → ℕ := fun _ => 0
  nextGroupEntry : ℕ := 0
  nextPageHandle : ℕ := 0
  globalEpoch : ℕ := 0
  lookupHits : ℕ := 0
  lookupMisses : ℕ := 0
  evictedNodes : ℕ := 0
  evictionProtectedSkips : ℕ := 0

/-- `ConstructSharedState`: the mapping is zeroed. -/
def constructSharedState : Region := {}

/-! ### Errors -/

inductive PrefixCacheError where
  | missingPages (groupId : ℕ)
  | insufficientPages (groupId : ℕ)
  | nodeTableFull
  | groupEntryTableFull
  | pageHandleArenaFull
  | requiredGroupNotAligned
  | requiredGroupTooShort
  | nodeIndexTableFull
  | pageRefTableFull
  | pageRefOverflow
  | pageRefMissing
  | pageRefUnderflow
  | nodeIndexOutOfRange
  | materializationNonResident
  | attachEmpty
  | attachNonResident
  | attachmentNonResident
  | activeRefUnderflow
  | pendingLoadRefUnderflow
  | unknownHandle
  | releaseAlreadyRequested
  | loadHandleZero
  | loadAfterRelease
  | pendingLoadUnderflow
  deriving Repr, DecidableEq

/-- How a call stops short: it throws, or it writes past the end of a mapped array, which is undefined
behaviour: after the latter the region may be any. -/
inductive Fault where
  | thrown (error : PrefixCacheError)
  | outOfBounds
  deriving Repr, DecidableEq

/-- A section of code under the header mutex. -/
abbrev CacheM := EStateM Fault Region

def CacheM.throwError {α : Type} (error : PrefixCacheError) : CacheM α := throw (.thrown error)

end Batchgen.PrefixCache
