import Batchgen.HostPagedKV.Region
import Batchgen.Library.OpenAddressing
import Mathlib.Data.List.Range

/-!
# The sequence table as an open-addressing table

The two scans of the source are the library's `find` and `claim` along `probeOrder`, the slots from the
hash of the id once around the table.  `TableValid` is the library's invariant for it: no id is in two
slots, and the scan for an id that is in the table passes no empty slot.
-/

namespace Batchgen.HostPagedKV

open OpenAddressing Function List

variable {entry : SequenceEntry} {isNew : Bool}

/-- What the scans read of an entry. -/
def SequenceEntry.kind (entry : SequenceEntry) : SlotKind ℤ :=
  if entry.sequenceId = kEmptySequenceId then .empty
  else if entry.sequenceId = kTombstoneSequenceId then .tombstone
  else .live entry.sequenceId

/-- The slots visited for an id. -/
def probeOrder (cfg : HostPagedKVConfig) (sequenceId : ℤ) : List ℕ :=
  (List.range cfg.sequenceCapacity).map fun probe =>
    (hashSequenceId cfg.sequenceCapacity sequenceId + probe) % cfg.sequenceCapacity

def slotKinds (r : Region) (slot : ℕ) : SlotKind ℤ := (r.sequenceTable slot).kind

def TableValid (cfg : HostPagedKVConfig) (r : Region) : Prop :=
  Valid (probeOrder cfg) cfg.sequenceCapacity (slotKinds r)

/-! ### Kinds -/

/-- An entry is empty, a tombstone or live, and its kind says which. -/
theorem kind_cases (entry : SequenceEntry) : (entry.sequenceId = kEmptySequenceId ∧ entry.kind = .empty) ∨
      (entry.sequenceId = kTombstoneSequenceId ∧ entry.sequenceId ≠ kEmptySequenceId ∧ entry.kind = .tombstone) ∨
      (entry.live ∧ entry.kind = .live entry.sequenceId) := by
  unfold SequenceEntry.kind
  by_cases hempty : entry.sequenceId = kEmptySequenceId
  · exact Or.inl ⟨hempty, if_pos hempty⟩
  · rw [if_neg hempty]
    by_cases htombstone : entry.sequenceId = kTombstoneSequenceId
    · exact Or.inr (Or.inl ⟨htombstone, hempty, if_pos htombstone⟩)
    · exact Or.inr (Or.inr ⟨⟨hempty, htombstone⟩, if_neg htombstone⟩)

theorem kind_eq_live_iff {sequenceId : ℤ} :
    entry.kind = .live sequenceId ↔ entry.live ∧ entry.sequenceId = sequenceId := by
  rcases kind_cases entry with ⟨hid, hkind⟩ | ⟨hid, -, hkind⟩ | ⟨hlive, hkind⟩
  · simp [hkind, SequenceEntry.live, hid]
  · simp [hkind, SequenceEntry.live, hid]
  · simp [hkind, hlive]

theorem kind_congr {entry' : SequenceEntry} (h : entry'.sequenceId = entry.sequenceId) : entry'.kind = entry.kind := by
  unfold SequenceEntry.kind
  rw [h]

@[simp] theorem kind_tombstone (h : entry.sequenceId = kTombstoneSequenceId) : entry.kind = .tombstone := by
  simp [SequenceEntry.kind, h, kTombstoneSequenceId, kEmptySequenceId]

/-! ### The scans -/

section Scan

variable {capacity : ℕ} {table : ℕ → SequenceEntry} {sequenceId : ℤ}

/-- The slots of a scan that starts at `index`. -/
def scanOrder (capacity fuel index : ℕ) : List ℕ :=
  (List.range fuel).map fun probe => (index + probe) % capacity

theorem scanOrder_succ {fuel index : ℕ} (hindex : index < capacity) :
    scanOrder capacity (fuel + 1) index = index :: scanOrder capacity fuel ((index + 1) % capacity) := by
  rw [scanOrder, range_succ_eq_map, map_cons, map_map, Nat.add_zero, Nat.mod_eq_of_lt hindex, scanOrder]
  congr 1
  apply map_congr_left
  intro probe _
  rw [comp_apply, Nat.mod_add_mod]
  congr 1
  omega

section

variable (hid : sequenceId ≠ kEmptySequenceId ∧ sequenceId ≠ kTombstoneSequenceId)
include hid

theorem kind_of_sequenceId (h : entry.sequenceId = sequenceId) : entry.kind = .live sequenceId :=
  kind_eq_live_iff.mpr ⟨⟨h ▸ hid.1, h ▸ hid.2⟩, h⟩

variable (fuel : ℕ)
include fuel

/-- An id that is not a marker is found where the library's search finds it. -/
theorem findEntryFrom_eq : ∀ {index : ℕ}, index < capacity → findEntryFrom capacity table sequenceId fuel index =
        find (fun slot => (table slot).kind) sequenceId (scanOrder capacity fuel index) := by
  induction fuel with
  | zero => intro index _; rfl
  | succ fuel ih =>
    intro index hindex
    have hnext : (index + 1) % capacity < capacity := Nat.mod_lt _ (by omega)
    rw [findEntryFrom, scanOrder_succ hindex, find, ih hnext]
    by_cases hfound : (table index).sequenceId = sequenceId
    · rw [if_pos hfound, kind_of_sequenceId hid hfound]
      exact (if_pos rfl).symm
    · rw [if_neg hfound]
      rcases kind_cases (table index) with ⟨hempty, hkind⟩ | ⟨-, hempty, hkind⟩ | ⟨hlive, hkind⟩
      · simp [hempty, hkind]
      · simp [hempty, hkind]
      · simp [hlive.1, hkind, hfound]

/-- The insertion scan settles where the library's does, and reports a new slot exactly when the
search fails. -/
theorem findOrClaimFrom_eq : ∀ {index : ℕ} (firstTombstone : Option ℕ), index < capacity →
      findOrClaimFrom capacity table sequenceId fuel index firstTombstone =
        (claim (fun slot => (table slot).kind) sequenceId (scanOrder capacity fuel index)
          firstTombstone).map fun slot => (slot, (find (fun slot => (table slot).kind) sequenceId
              (scanOrder capacity fuel index)).isNone) := by
  induction fuel with
  | zero => intro index firstTombstone _; rfl
  | succ fuel ih =>
    intro index firstTombstone hindex
    have hnext : (index + 1) % capacity < capacity := Nat.mod_lt _ (by omega)
    rw [findOrClaimFrom, scanOrder_succ hindex, find, claim, ih _ hnext]
    by_cases hfound : (table index).sequenceId = sequenceId
    · rw [if_pos hfound, kind_of_sequenceId hid hfound]
      simp
    · rw [if_neg hfound]
      rcases kind_cases (table index) with
        ⟨hempty, hkind⟩ | ⟨htombstone, hempty, hkind⟩ | ⟨hlive, hkind⟩
      · simp [hempty, hkind]
      · rw [if_neg hempty, if_pos htombstone]
        cases firstTombstone <;> simp [hkind]
      · simp [hlive.1, hlive.2, hkind, hfound]

end

end Scan

section Table

variable {cfg : HostPagedKVConfig} {r r' : Region} {sequenceId : ℤ} {slot : ℕ}

theorem not_marker_of_not_reserved (h : isReservedSequenceId sequenceId = false) :
    sequenceId ≠ kEmptySequenceId ∧ sequenceId ≠ kTombstoneSequenceId := by
  simp only [isReservedSequenceId, Bool.or_eq_false_iff, decide_eq_false_iff_not] at h
  exact ⟨h.1.1, h.1.2⟩

section

variable (hid : sequenceId ≠ kEmptySequenceId ∧ sequenceId ≠ kTombstoneSequenceId)
include hid

theorem findSequenceEntryLocked_eq :
    findSequenceEntryLocked cfg r sequenceId = find (slotKinds r) sequenceId (probeOrder cfg sequenceId) :=
  findEntryFrom_eq hid _ (hashSequenceId_lt cfg sequenceId)

theorem findOrClaimFrom_probe :
    findOrClaimFrom cfg.sequenceCapacity r.sequenceTable sequenceId cfg.sequenceCapacity
        (hashSequenceId cfg.sequenceCapacity sequenceId) none =
      (claim (slotKinds r) sequenceId (probeOrder cfg sequenceId) none).map fun slot =>
        (slot, (find (slotKinds r) sequenceId (probeOrder cfg sequenceId)).isNone) :=
  findOrClaimFrom_eq hid _ none (hashSequenceId_lt cfg sequenceId)

end

theorem mem_probeOrder : slot ∈ probeOrder cfg sequenceId ↔ slot < cfg.sequenceCapacity :=
  mem_cyclic (hashSequenceId_lt cfg sequenceId)

/-- **A live id is found in its slot.** -/
theorem TableValid.find_live (h : TableValid cfg r) (hslot : slot < cfg.sequenceCapacity)
    (hlive : (r.sequenceTable slot).live) :
    findSequenceEntryLocked cfg r (r.sequenceTable slot).sequenceId = some slot := by
  rw [findSequenceEntryLocked_eq hlive]
  exact h.find_eq_some_iff.mpr ⟨hslot, kind_eq_live_iff.mpr ⟨hlive, rfl⟩⟩

/-- No id is live in two slots. -/
theorem TableValid.slot_unique (h : TableValid cfg r) {slot' : ℕ}
    (hslot : slot < cfg.sequenceCapacity) (hslot' : slot' < cfg.sequenceCapacity) (hlive : (r.sequenceTable slot).live)
    (hid : (r.sequenceTable slot').sequenceId = (r.sequenceTable slot).sequenceId) : slot' = slot := by
  refine h.unique _ slot' slot hslot' hslot (kind_eq_live_iff.mpr ⟨?_, hid⟩) (kind_eq_live_iff.mpr ⟨hlive, rfl⟩)
  exact ⟨hid ▸ hlive.1, hid ▸ hlive.2⟩

/-- The invariant only depends on the ids. -/
theorem TableValid.congr (h : TableValid cfg r)
    (hids : ∀ slot, (r'.sequenceTable slot).sequenceId = (r.sequenceTable slot).sequenceId) : TableValid cfg r' := by
  have hkinds : slotKinds r' = slotKinds r := funext fun slot => kind_congr (hids slot)
  unfold TableValid
  rw [hkinds]
  exact h

theorem slotKinds_update (entry : SequenceEntry) (htable : r'.sequenceTable = update r.sequenceTable slot entry) :
    slotKinds r' = update (slotKinds r) slot entry.kind := by
  unfold slotKinds
  rw [htable]
  exact comp_update SequenceEntry.kind r.sequenceTable slot entry

section

variable (h : TableValid cfg r)
include h

/-- A slot that becomes a tombstone cuts no scan short. -/
theorem TableValid.tombstone (hid : entry.sequenceId = kTombstoneSequenceId)
    (htable : r'.sequenceTable = update r.sequenceTable slot entry) : TableValid cfg r' := by
  unfold TableValid
  rw [slotKinds_update entry htable, kind_tombstone hid]
  exact h.remove slot

section

variable (hid : sequenceId ≠ kEmptySequenceId ∧ sequenceId ≠ kTombstoneSequenceId)
include hid

/-- **What a successful insertion scan settled on.** -/
theorem findOrInsert_settled (hfind : SlotFound cfg r sequenceId slot isNew r') :
    isNew = true → (∀ s, s < cfg.sequenceCapacity → slotKinds r s ≠ .live sequenceId) ∧
      Reached (slotKinds r) (probeOrder cfg sequenceId) slot := by
  rintro rfl
  unfold SlotFound findOrInsertSequenceEntryLocked at hfind
  rw [findOrClaimFrom_probe hid] at hfind
  cases hclaim : claim (slotKinds r) sequenceId (probeOrder cfg sequenceId) none with
  | none => simp [hclaim] at hfind
  | some found =>
    cases hsearch : find (slotKinds r) sequenceId (probeOrder cfg sequenceId) with
    | some s => simp [hclaim, hsearch] at hfind
    | none =>
      simp only [hclaim, hsearch, Option.map_some, Option.isNone_none, Except.ok.injEq, Prod.mk.injEq] at hfind
      obtain ⟨rfl, -, -⟩ := hfind
      exact ⟨h.find_eq_none_iff.mp hsearch, (h.claim_fresh hsearch hclaim).2.1⟩

/-- A claimed slot keeps the table searchable once its id is stored. -/
theorem TableValid.claimed (hfresh : ∀ s, s < cfg.sequenceCapacity → slotKinds r s ≠ .live sequenceId)
    (hreached : Reached (slotKinds r) (probeOrder cfg sequenceId) slot) (hentry : entry.sequenceId = sequenceId)
    (htable : r'.sequenceTable = update r.sequenceTable slot entry) : TableValid cfg r' := by
  unfold TableValid
  rw [slotKinds_update entry htable, kind_of_sequenceId hid hentry]
  exact Valid.insert h hfresh hreached

end

/-- **Find or insert** keeps the table searchable, and settles on the slot of an id that is in it. -/
theorem TableValid.findOrInsert (hres : isReservedSequenceId sequenceId = false)
    (hfind : SlotFound cfg r sequenceId slot isNew r') :
    TableValid cfg r' ∧ ∀ s < cfg.sequenceCapacity, (r.sequenceTable s).sequenceId = sequenceId → s = slot := by
  have hid := not_marker_of_not_reserved hres
  have hsettled := findOrInsert_settled h hid hfind
  obtain ⟨hslot, ⟨-, rfl, hsame⟩ | ⟨hnew, -, rfl⟩⟩ := hfind.cases
  · refine ⟨h, fun s hs heq => ?_⟩
    exact h.slot_unique hslot hs ⟨hsame ▸ hid.1, hsame ▸ hid.2⟩ (heq.trans hsame.symm)
  · obtain ⟨hfresh, hreached⟩ := hsettled hnew
    refine ⟨h.claimed hid hfresh hreached rfl rfl, fun s hs heq => ?_⟩
    exact absurd (kind_of_sequenceId hid heq) (hfresh s hs)

end

/-- A table without live entries is a valid one. -/
theorem tableValid_of_dead (hdead : ∀ slot < cfg.sequenceCapacity, ¬ (r.sequenceTable slot).live) :
    TableValid cfg r where
  mem_probes := fun _ _ => mem_probeOrder
  unique := fun _ slot _ hslot _ hlive _ => absurd (kind_eq_live_iff.mp hlive).1 (hdead slot hslot)
  reached := fun _ slot hslot hlive => absurd (kind_eq_live_iff.mp hlive).1 (hdead slot hslot)

end Table

end Batchgen.HostPagedKV
