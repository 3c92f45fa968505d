import Batchgen.HostPagedKV.ProbeTable
import Batchgen.Library.Runs

/-!
# The sequence table as a finite map

An insertion goes through `findOrInsertSequenceEntryLocked`, and a removal turns the slot of a live entry into a
tombstone, as `ReleaseSequence` and the rollback of `AcquirePagesForSequences` do.  In whatever order they come, the
table holds the ids that were inserted and not removed since, and it is full when there are as many of them as slots.
-/

namespace Batchgen.HostPagedKV

open OpenAddressing Option Finset

variable {cfg : HostPagedKVConfig} {t t' : Region × Finset ℤ} {sequenceId : ℤ} {r : Region}

inductive TableOp where
  | findOrInsert (sequenceId : ℤ)
  | tombstone (slot : ℕ)

/-- One operation on the table, beside the ids that were inserted and not removed since.  An insertion that throws
changes nothing. -/
def tableStep (cfg : HostPagedKVConfig) (t : Region × Finset ℤ) : TableOp → Option (Region × Finset ℤ)
  | .findOrInsert sequenceId =>
    if isReservedSequenceId sequenceId then none
    else
      match findOrInsertSequenceEntryLocked cfg t.1 sequenceId with
      | .ok (_, _, r) => some (r, insert sequenceId t.2)
      | .error _ => some t
  | .tombstone slot =>
    if slot < cfg.sequenceCapacity ∧ (t.1.sequenceTable slot).live then
      some ({ t.1 with sequenceTable := Function.update t.1.sequenceTable slot tombstoneEntry },
        t.2.erase (t.1.sequenceTable slot).sequenceId)
    else none

/-- The scans of the table find the ids. -/
structure TableHolds (cfg : HostPagedKVConfig) (t : Region × Finset ℤ) : Prop where
  valid : TableValid cfg t.1
  keys : Keys cfg.sequenceCapacity (slotKinds t.1) t.2

theorem TableHolds.fresh (cfg : HostPagedKVConfig) : TableHolds cfg (constructSharedState cfg, ∅) where
  valid := tableValid_of_dead fun _ _ hlive => hlive.1 rfl
  keys := fun _ => by simp [slotKinds, constructSharedState, SequenceEntry.kind]

theorem TableHolds.findOrInsert (h : TableHolds cfg t) (hid : isReservedSequenceId sequenceId = false) {slot : ℕ}
    {isNew : Bool} (hfind : SlotFound cfg t.1 sequenceId slot isNew r) :
    TableHolds cfg (r, insert sequenceId t.2) := by
  have hvalid := (h.valid.findOrInsert hid hfind).1
  have hid := not_marker_of_not_reserved hid
  obtain ⟨hslot, ⟨-, rfl, hsame⟩ | ⟨-, hdead, rfl⟩⟩ := hfind.cases
  · have hmem : sequenceId ∈ t.2 := (h.keys sequenceId).mpr ⟨slot, hslot, kind_of_sequenceId hid hsame⟩
    rw [insert_eq_of_mem hmem]
    exact h
  · refine ⟨hvalid, ?_⟩
    show Keys _ (slotKinds _) _
    rw [slotKinds_update _ rfl, kind_of_sequenceId hid rfl]
    exact h.keys.insert hslot fun k hk => hdead (kind_eq_live_iff.mp hk).1

theorem TableHolds.step {op : TableOp} (h : TableHolds cfg t) (hstep : tableStep cfg t op = some t') :
    TableHolds cfg t' := by
  cases op with
  | findOrInsert sequenceId =>
    obtain ⟨hid, hstep⟩ := ite_none_left_eq_some.mp hstep
    split at hstep
    · next hfind =>
      cases hstep
      exact h.findOrInsert (by simpa using hid) hfind
    · cases hstep
      exact h
  | tombstone slot =>
    obtain ⟨⟨hslot, hlive⟩, hstep⟩ := ite_none_right_eq_some.mp hstep
    cases hstep
    refine ⟨h.valid.tombstone rfl rfl, ?_⟩
    show Keys _ (slotKinds _) _
    rw [slotKinds_update _ rfl, kind_tombstone rfl]
    exact h.keys.remove h.valid hslot (kind_eq_live_iff.mpr ⟨hlive, rfl⟩)

/-- The insertion scan throws when it ends without a slot. -/
theorem findOrInsert_error_iff (hid : sequenceId ≠ kEmptySequenceId ∧ sequenceId ≠ kTombstoneSequenceId) :
    findOrInsertSequenceEntryLocked cfg r sequenceId = .error (.sequenceTableFull cfg.sequenceCapacity) ↔
      claim (slotKinds r) sequenceId (probeOrder cfg sequenceId) none = none := by
  unfold findOrInsertSequenceEntryLocked
  rw [findOrClaimFrom_probe hid]
  cases claim (slotKinds r) sequenceId (probeOrder cfg sequenceId) none with
  | none => simp
  | some slot => cases find (slotKinds r) sequenceId (probeOrder cfg sequenceId) <;> simp

theorem TableValid.findSequenceEntryLocked_iff (h : TableValid cfg r)
    (hid : sequenceId ≠ kEmptySequenceId ∧ sequenceId ≠ kTombstoneSequenceId) (slot : ℕ) :
    findSequenceEntryLocked cfg r sequenceId = some slot ↔
      slot < cfg.sequenceCapacity ∧ (r.sequenceTable slot).sequenceId = sequenceId := by
  rw [findSequenceEntryLocked_eq hid, h.find_eq_some_iff]
  refine and_congr_right fun _ => kind_eq_live_iff.trans (and_iff_right_of_imp ?_)
  rintro rfl
  exact hid

/-- **The table is a finite map**, after every run of insertions and removals: the search finds exactly the ids that
were inserted and not removed since, each in the one slot that carries it; an insertion ends at a slot with the id, new
exactly when the table did not hold it, and fails exactly when the table is full. -/
theorem sequenceTable_finite_map (cfg : HostPagedKVConfig) (r : Region) (ids : Finset ℤ)
    (h : Runs.Reached (tableStep cfg) (fun _ _ => True) (constructSharedState cfg, ∅) (r, ids)) (sequenceId : ℤ)
    (hid : isReservedSequenceId sequenceId = false) :
    ((findSequenceEntryLocked cfg r sequenceId).isSome ↔ sequenceId ∈ ids) ∧
      (∀ slot, findSequenceEntryLocked cfg r sequenceId = some slot ↔
        slot < cfg.sequenceCapacity ∧ (r.sequenceTable slot).sequenceId = sequenceId) ∧
      (∀ slot slot', slot < cfg.sequenceCapacity → slot' < cfg.sequenceCapacity →
        (r.sequenceTable slot).sequenceId = sequenceId → (r.sequenceTable slot').sequenceId = sequenceId →
        slot = slot') ∧
      (∀ slot isNew r', findOrInsertSequenceEntryLocked cfg r sequenceId = .ok (slot, isNew, r') →
        findSequenceEntryLocked cfg r' sequenceId = some slot ∧ (isNew = true ↔ sequenceId ∉ ids)) ∧
      (findOrInsertSequenceEntryLocked cfg r sequenceId = .error (.sequenceTableFull cfg.sequenceCapacity) ↔
        ids.card = cfg.sequenceCapacity ∧ sequenceId ∉ ids) := by
  have hmarker := not_marker_of_not_reserved hid
  have hholds : TableHolds cfg (r, ids) := h.invariant (TableHolds cfg) (.fresh cfg) fun _ _ _ h _ hstep => h.step hstep
  refine ⟨?_, hholds.valid.findSequenceEntryLocked_iff hmarker, fun slot slot' hslot hslot' heq heq' => ?_,
    fun slot isNew r' hfind => ?_, ?_⟩
  · rw [findSequenceEntryLocked_eq hmarker, isSome_iff_exists, hholds.keys sequenceId]
    exact exists_congr fun slot => hholds.valid.find_eq_some_iff
  · subst heq
    exact (hholds.valid.slot_unique hslot hslot' hmarker heq').symm
  · have hvalid := hholds.valid.findOrInsert hid hfind
    rw [hvalid.1.findSequenceEntryLocked_iff hmarker, hholds.keys sequenceId]
    obtain ⟨hslot, ⟨rfl, rfl, hsame⟩ | ⟨rfl, hdead, rfl⟩⟩ := SlotFound.cases hfind
    · simpa [hslot, hsame] using ⟨slot, hslot, kind_of_sequenceId hmarker hsame⟩
    · refine ⟨⟨hslot, by simp⟩, iff_of_true rfl ?_⟩
      rintro ⟨s, hs, hkind⟩
      obtain ⟨hlive, hsame⟩ := kind_eq_live_iff.mp hkind
      exact hdead (hvalid.2 s hs hsame ▸ hlive)
  · rw [findOrInsert_error_iff hmarker]
    exact hholds.valid.claim_eq_none_iff hholds.keys

/-- A table of one slot. -/
def oneSlot : HostPagedKVConfig where
  numPages := 1
  pageSizeTokens := 1
  sequenceTableCapacity := 1
  numPages_pos := Nat.one_pos
  numPages_lt := Nat.one_lt_two_pow (by decide)
  pageSizeTokens_pos := Nat.one_pos
  pageSizeTokens_lt := Nat.one_lt_two_pow (by decide)
  sequenceTableCapacity_lt := Nat.one_lt_two_pow (by decide)

/-- A table of two slots. -/
def twoSlots : HostPagedKVConfig :=
  { oneSlot with sequenceTableCapacity := 2, sequenceTableCapacity_lt := by decide }

/-- All three ids hash to slot 1.  Sequence 9 takes the slot that 7 leaves, and the table is full again. -/
theorem sequenceTable_finite_map_twoSlots :
    ∃ r, Runs.Reached (tableStep twoSlots) (fun _ _ => True) (constructSharedState twoSlots, ∅) (r, {8, 9}) ∧
      (findSequenceEntryLocked twoSlots r 9).isSome ∧ ¬ (findSequenceEntryLocked twoSlots r 7).isSome ∧
      findOrInsertSequenceEntryLocked twoSlots r 7 = .error (.sequenceTableFull twoSlots.sequenceCapacity) := by
  have hend : ∃ t, Runs.Reached (tableStep twoSlots) (fun _ _ => True) (constructSharedState twoSlots, ∅) t ∧
      t.2 = {8, 9} :=
    Runs.Reached.exists_of_run [.findOrInsert 7, .findOrInsert 8, .tombstone 1, .findOrInsert 9] (by decide +kernel)
  obtain ⟨⟨r, ids⟩, hreached, rfl⟩ := hend
  have hnine := sequenceTable_finite_map twoSlots r {8, 9} hreached 9 rfl
  have hseven := sequenceTable_finite_map twoSlots r {8, 9} hreached 7 rfl
  exact ⟨r, hreached, hnine.1.mpr (by decide), fun hsome => absurd (hseven.1.mp hsome) (by decide),
    hseven.2.2.2.2.mpr ⟨rfl, by decide⟩⟩

end Batchgen.HostPagedKV
