import Batchgen.Library.MachineInt
import Batchgen.Library.LinkedChain

/-!
# The shared region of the host paged KV backend

The region of `host_paged_kv_backend.cpp` that every process maps: the free stack, the page owners and
page links, the sequence table and the header counters.  Arrays are functions of their index; a page id
is the signed 32-bit value the arrays store, so the free stack of a fresh region holds `i32` of each
page number, exactly as `ConstructSharedState` casts it.

The sequence table is an open-addressing table whose probe order starts at `hashSequenceId`;
`findSequenceEntryLocked` and `findOrInsertSequenceEntryLocked` follow the source's two scans,
including the first-tombstone reuse and the full-table error.
-/

namespace Batchgen.HostPagedKV

open MachineInt

variable {sequenceId : ℤ} {capacity slot : ℕ}

def kInvalidPageIndex : ℤ := -1

def kEmptySequenceId : ℤ := -2 ^ 63

def kTombstoneSequenceId : ℤ := kEmptySequenceId + 1

def kPrefixResidentSequenceId : ℤ := kEmptySequenceId + 2

def isReservedSequenceId (sequenceId : ℤ) : Bool :=
  sequenceId = kEmptySequenceId || sequenceId = kTombstoneSequenceId ||
    sequenceId = kPrefixResidentSequenceId

def NoneReserved (sequenceIds : List ℤ) : Prop := ∀ sequenceId ∈ sequenceIds, isReservedSequenceId sequenceId = false

/-- The part of `HostPagedKVConfig` the allocator reads, as `SanitizeConfig` lets it through: the three
sizes are `size_t` values, and a zero page count or page size is rejected.  There is no upper bound. -/
structure HostPagedKVConfig where
  numPages : ℕ
  pageSizeTokens : ℕ
  sequenceTableCapacity : ℕ
  numPages_pos : 0 < numPages
  numPages_lt : numPages < 2 ^ 64
  pageSizeTokens_pos : 0 < pageSizeTokens
  pageSizeTokens_lt : pageSizeTokens < 2 ^ 64
  sequenceTableCapacity_lt : sequenceTableCapacity < 2 ^ 64

variable {cfg : HostPagedKVConfig}

variable (cfg)

/-- A zero capacity in the configuration means one table slot per page. -/
def HostPagedKVConfig.sequenceCapacity : ℕ :=
  if cfg.sequenceTableCapacity = 0 then cfg.numPages else cfg.sequenceTableCapacity

theorem HostPagedKVConfig.sequenceCapacity_pos : 0 < cfg.sequenceCapacity := by
  unfold HostPagedKVConfig.sequenceCapacity
  split
  · exact cfg.numPages_pos
  · omega

variable {cfg}

@[ext] structure SequenceEntry where
  sequenceId : ℤ := kEmptySequenceId
  numPages : ℕ := 0
  headPage : ℤ := kInvalidPageIndex
  tailPage : ℤ := kInvalidPageIndex
  deriving Repr, DecidableEq

variable {table : ℕ → SequenceEntry}

/-- An entry is live when its id is neither the empty nor the tombstone marker. -/
def SequenceEntry.live (entry : SequenceEntry) : Prop :=
  entry.sequenceId ≠ kEmptySequenceId ∧ entry.sequenceId ≠ kTombstoneSequenceId

instance (entry : SequenceEntry) : Decidable entry.live :=
  inferInstanceAs (Decidable (_ ∧ _))

/-- A released slot: the fields every release path leaves behind. -/
def tombstoneEntry : SequenceEntry where
  sequenceId := kTombstoneSequenceId
  numPages := 0
  headPage := kInvalidPageIndex
  tailPage := kInvalidPageIndex

/-- The region's arrays and counters.  An index outside its array is undefined behaviour in the source;
here it has a cell of its own, and the page partition shows that no run with page ids that fit uses
one. -/
structure Region where
  freeStack : ℕ → ℤ
  freeStackTop : ℕ
  pageOwners : ℤ → ℤ
  pageLinks : ℤ → ℤ
  sequenceTable : ℕ → SequenceEntry
  activeSequences : ℕ
  sequencesInserted : ℕ
  sequencesReleased : ℕ
  acquireFailures : ℕ

variable {r : Region}

/-- A page id the arrays of the region are indexed by. -/
def InRange (cfg : HostPagedKVConfig) (page : ℤ) : Prop := 0 ≤ page ∧ page < cfg.numPages

instance (cfg : HostPagedKVConfig) (page : ℤ) : Decidable (InRange cfg page) :=
  inferInstanceAs (Decidable (_ ∧ _))

/-- `ConstructSharedState`: every page is on the stack in descending order, unowned and unlinked, and
every table slot is empty.  Both casts of the page count narrow without a check. -/
def constructSharedState (cfg : HostPagedKVConfig) : Region where
  freeStack := fun i => i32 (cfg.numPages - 1 - i)
  freeStackTop := u32 cfg.numPages
  pageOwners := fun _ => kEmptySequenceId
  pageLinks := fun _ => kInvalidPageIndex
  sequenceTable := fun _ => {}
  activeSequences := 0
  sequencesInserted := 0
  sequencesReleased := 0
  acquireFailures := 0

/-! ### Errors -/

/-- The calls that look a sequence up and report when it is missing. -/
inductive SequenceLookup where
  | release
  | prefixRelease
  | pageRetain
  | pageFetch
  deriving Repr, DecidableEq

/-- The calls that check a list of page ids given by the caller. -/
inductive PageListCall where
  | retained
  | resident
  deriving Repr, DecidableEq

inductive BackendError where
  | reservedSequenceId
  | insufficientFreePages (sequenceId : ℤ) (requested available : ℕ)
  | insufficientFreePagesForBatch (requested available : ℕ)
  | sequenceTableFull (capacity : ℕ)
  | lengthMismatch
  | duplicateSequenceId (sequenceId : ℤ)
  | zeroTokens (sequenceId : ℤ)
  | pageRequestExceedsSizeT
  | pageRequestExceedsSharedCounter
  | sequenceNotFound (call : SequenceLookup) (sequenceId : ℤ)
  | prefixReleaseTooLong (sequenceId : ℤ) (requested owned : ℕ)
  | corruptPageChain (sequenceId : ℤ)
  | pageOutOfRange (call : PageListCall) (page : ℤ)
  | duplicatePage (call : PageListCall) (page : ℤ)
  | notSequenceOwned (page sequenceId : ℤ)
  | retainedPagesNotInChain (sequenceId : ℤ)
  | notPrefixResident (page : ℤ)
  | liveSequenceDuringRebuild (sequenceId : ℤ)
  | tooManyPagesFetched (sequenceId : ℤ) (requested available : ℕ)
  deriving Repr, DecidableEq

/-! ### The sequence table -/

/-- The 64-bit finalizer the table hashes a sequence id with. -/
def hashSequenceId (capacity : ℕ) (sequenceId : ℤ) : ℕ :=
  let x := BitVec.ofInt 64 sequenceId
  let x := x ^^^ (x >>> 33)
  let x := x * 0xff51afd7ed558ccd#64
  let x := x ^^^ (x >>> 33)
  let x := x * 0xc4ceb9fe1a85ec53#64
  let x := x ^^^ (x >>> 33)
  x.toNat % capacity

/-- The scan of `FindSequenceEntryLocked`: stop at the id or at an empty slot. -/
def findEntryFrom (capacity : ℕ) (table : ℕ → SequenceEntry) (sequenceId : ℤ) :
    ℕ → ℕ → Option ℕ
  | 0, _ => none
  | fuel + 1, index =>
    if (table index).sequenceId = sequenceId then some index
    else if (table index).sequenceId = kEmptySequenceId then none
    else findEntryFrom capacity table sequenceId fuel ((index + 1) % capacity)

def findSequenceEntryLocked (cfg : HostPagedKVConfig) (r : Region) (sequenceId : ℤ) : Option ℕ :=
  findEntryFrom cfg.sequenceCapacity r.sequenceTable sequenceId cfg.sequenceCapacity
    (hashSequenceId cfg.sequenceCapacity sequenceId)

/-- The scan of `FindOrInsertSequenceEntryLocked`: the slot it settles on and whether the slot has to
be claimed.  `firstTombstone` is the earliest reusable slot seen so far. -/
def findOrClaimFrom (capacity : ℕ) (table : ℕ → SequenceEntry) (sequenceId : ℤ) :
    ℕ → ℕ → Option ℕ → Option (ℕ × Bool)
  | 0, _, firstTombstone => firstTombstone.map fun slot => (slot, true)
  | fuel + 1, index, firstTombstone =>
    if (table index).sequenceId = sequenceId then some (index, false)
    else if (table index).sequenceId = kEmptySequenceId then
      some (firstTombstone.getD index, true)
    else
      let firstTombstone :=
        if (table index).sequenceId = kTombstoneSequenceId then firstTombstone.or (some index)
        else firstTombstone
      findOrClaimFrom capacity table sequenceId fuel ((index + 1) % capacity) firstTombstone

variable (cfg)

/-- The slot of `sequenceId` and whether it is new; a new slot is reset and given the id. -/
def findOrInsertSequenceEntryLocked (r : Region) (sequenceId : ℤ) :
    Except BackendError (ℕ × Bool × Region) :=
  match findOrClaimFrom cfg.sequenceCapacity r.sequenceTable sequenceId cfg.sequenceCapacity
      (hashSequenceId cfg.sequenceCapacity sequenceId) none with
  | none => .error (.sequenceTableFull cfg.sequenceCapacity)
  | some (slot, false) => .ok (slot, false, r)
  | some (slot, true) =>
    .ok (slot, true,
      { r with
        sequenceTable := Function.update r.sequenceTable slot { sequenceId := sequenceId } })

theorem hashSequenceId_lt (sequenceId : ℤ) : hashSequenceId cfg.sequenceCapacity sequenceId < cfg.sequenceCapacity :=
  Nat.mod_lt _ cfg.sequenceCapacity_pos

variable {cfg}

theorem findEntryFrom_some (hcap : 0 < capacity) :
    ∀ {fuel index slot : ℕ}, index < capacity → findEntryFrom capacity table sequenceId fuel index = some slot →
      slot < capacity ∧ (table slot).sequenceId = sequenceId := by
  intro fuel
  induction fuel with
  | zero => intro index slot _ h; simp [findEntryFrom] at h
  | succ fuel ih =>
    intro index slot hindex h
    rw [findEntryFrom] at h
    split at h
    · rename_i hid
      cases h
      exact ⟨hindex, hid⟩
    · split at h
      · cases h
      · exact ih (Nat.mod_lt _ hcap) h

/-- A found slot is a table slot that carries the id. -/
theorem findSequenceEntryLocked_some (h : findSequenceEntryLocked cfg r sequenceId = some slot) :
    slot < cfg.sequenceCapacity ∧ (r.sequenceTable slot).sequenceId = sequenceId :=
  findEntryFrom_some cfg.sequenceCapacity_pos (hashSequenceId_lt cfg sequenceId) h

/-- The scan settles on a slot that carries the id, or on one that no live entry uses. -/
theorem findOrClaimFrom_some (hcap : 0 < capacity) :
    ∀ {fuel index : ℕ} {firstTombstone : Option ℕ} {slot : ℕ} {isNew : Bool}, index < capacity →
      (∀ t, firstTombstone = some t → t < capacity ∧ ¬ (table t).live) →
      findOrClaimFrom capacity table sequenceId fuel index firstTombstone = some (slot, isNew) → slot < capacity ∧
        (isNew = false → (table slot).sequenceId = sequenceId) ∧ (isNew = true → ¬ (table slot).live) := by
  intro fuel
  induction fuel with
  | zero =>
    intro index firstTombstone slot isNew _ htomb h
    rw [findOrClaimFrom, Option.map_eq_some_iff] at h
    obtain ⟨t, ht, heq⟩ := h
    cases heq
    exact ⟨(htomb _ ht).1, by simp, fun _ => (htomb _ ht).2⟩
  | succ fuel ih =>
    intro index firstTombstone slot isNew hindex htomb h
    rw [findOrClaimFrom] at h
    split at h
    · rename_i hid
      cases h
      exact ⟨hindex, fun _ => hid, by simp⟩
    split at h
    · rename_i hempty
      cases h
      cases firstTombstone with
      | none => exact ⟨hindex, by simp, fun _ hlive => hlive.1 hempty⟩
      | some t => exact ⟨(htomb t rfl).1, by simp, fun _ => (htomb t rfl).2⟩
    · refine ih (Nat.mod_lt _ hcap) ?_ h
      intro t ht
      split at ht
      · rename_i htombstone
        cases firstTombstone with
        | none =>
          cases ht
          exact ⟨hindex, fun hlive => hlive.2 htombstone⟩
        | some t' =>
          cases ht
          exact htomb t rfl
      · exact htomb t ht

/-- The id has a slot, found or claimed. -/
abbrev SlotFound (cfg : HostPagedKVConfig) (r : Region) (sequenceId : ℤ) (slot : ℕ) (isNew : Bool) (r' : Region) :
    Prop := findOrInsertSequenceEntryLocked cfg r sequenceId = .ok (slot, isNew, r')

/-- **What an insertion does to the region.**  Either the id already had a slot and nothing changes,
or a slot no live entry used is reset and given the id. -/
theorem SlotFound.cases {r' : Region} {isNew : Bool} (h : SlotFound cfg r sequenceId slot isNew r') :
    slot < cfg.sequenceCapacity ∧ ((isNew = false ∧ r' = r ∧ (r.sequenceTable slot).sequenceId = sequenceId) ∨
        (isNew = true ∧ ¬ (r.sequenceTable slot).live ∧ r' = { r with
            sequenceTable := Function.update r.sequenceTable slot { sequenceId := sequenceId } })) := by
  unfold SlotFound findOrInsertSequenceEntryLocked at h
  split at h
  · cases h
  · rename_i s hs
    cases h
    have hspec := findOrClaimFrom_some cfg.sequenceCapacity_pos (hashSequenceId_lt cfg sequenceId) (by simp) hs
    exact ⟨hspec.1, Or.inl ⟨rfl, rfl, hspec.2.1 rfl⟩⟩
  · rename_i s hs
    cases h
    have hspec := findOrClaimFrom_some cfg.sequenceCapacity_pos (hashSequenceId_lt cfg sequenceId) (by simp) hs
    exact ⟨hspec.1, Or.inr ⟨rfl, hspec.2.2 rfl, rfl⟩⟩

end Batchgen.HostPagedKV
