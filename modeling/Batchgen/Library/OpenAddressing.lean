import Batchgen.Library.MachineInt
import Mathlib.Data.Finset.Card

/-!
# Open addressing with tombstones

A table of slots in which a key is searched along its own probe order.  A slot is empty, a tombstone,
or live with a key.  The search for a key stops at the first empty slot; an insertion reuses the first
tombstone it passed.  The two scans are `find` and `claim`, both recursive on the list of slots still
to visit.

`Valid` is what makes the search exact: no key is live twice, and no probe order passes an empty slot
before it reaches its key.  The results:

* `Valid.find_eq_some_iff`, `Valid.find_eq_none_iff` — the search finds exactly the live keys;
* `claim_of_find`, `Valid.claim_fresh`, `claim_eq_none` — where an insertion goes, and when it fails;
* `valid_empty`, `Valid.insert`, `Valid.remove` — the three ways a table is written;
* `Keys`, `Valid.claim_eq_none_iff` — the live keys as a set, and when the table is full;
* `Valid.claim_ne_none` — an insertion succeeds when fewer keys are in use than there are slots;
* `mem_linearProbes` — the linear probe order masked by a power of two visits every slot.
-/

namespace Batchgen.OpenAddressing

open Function List

variable {slots rest : List ℕ} {firstTombstone : Option ℕ}

inductive SlotKind (κ : Type*) where
  | empty
  | tombstone
  | live (key : κ)
  deriving DecidableEq

variable {κ : Type*} [DecidableEq κ] {kind : ℕ → SlotKind κ} {key : κ} {slot : ℕ}

/-- The slot the search for `key` ends at, if it ends at one that holds the key. -/
def find (kind : ℕ → SlotKind κ) (key : κ) : List ℕ → Option ℕ
  | [] => none
  | slot :: rest =>
    match kind slot with
    | .empty => none
    | .tombstone => find kind key rest
    | .live other => if other = key then some slot else find kind key rest

/-- The slot an insertion of `key` writes: the one that holds it, else the first tombstone passed,
else the empty slot that ends the scan.  `none` means the table is full. -/
def claim (kind : ℕ → SlotKind κ) (key : κ) : List ℕ → Option ℕ → Option ℕ
  | [], firstTombstone => firstTombstone
  | slot :: rest, firstTombstone =>
    match kind slot with
    | .empty => some (firstTombstone.getD slot)
    | .tombstone => claim kind key rest (some (firstTombstone.getD slot))
    | .live other =>
      if other = key then some slot else claim kind key rest firstTombstone

/-- `slot` is reached on the way through `slots`, with no empty slot before it. -/
def Reached (kind : ℕ → SlotKind κ) (slots : List ℕ) (slot : ℕ) : Prop :=
  ∃ before after, slots = before ++ slot :: after ∧ ∀ other ∈ before, kind other ≠ .empty

omit [DecidableEq κ] in
theorem Reached.head : Reached kind (slot :: rest) slot := ⟨[], rest, rfl, by simp⟩

omit [DecidableEq κ] in
theorem Reached.cons {first : ℕ} (h : Reached kind rest slot)
    (hfirst : kind first ≠ .empty) : Reached kind (first :: rest) slot := by
  obtain ⟨before, after, rfl, hbefore⟩ := h
  refine ⟨first :: before, after, rfl, ?_⟩
  intro other hother
  rcases mem_cons.mp hother with rfl | hother
  · exact hfirst
  · exact hbefore other hother

omit [DecidableEq κ] in
theorem Reached.mem (h : Reached kind slots slot) : slot ∈ slots := by
  obtain ⟨before, after, rfl, _⟩ := h
  simp

omit [DecidableEq κ] in
/-- Filling slots keeps everything reached. -/
theorem Reached.mono {kind' : ℕ → SlotKind κ} (h : Reached kind slots slot)
    (hfill : ∀ other, kind other ≠ .empty → kind' other ≠ .empty) : Reached kind' slots slot := by
  obtain ⟨before, after, heq, hbefore⟩ := h
  exact ⟨before, after, heq, fun other hother => hfill other (hbefore other hother)⟩

omit [DecidableEq κ] in
theorem Reached.update {other : ℕ} {new : SlotKind κ} (h : Reached kind slots slot) (hnew : new ≠ .empty) :
    Reached (update kind other new) slots slot := by
  refine h.mono fun s hs => ?_
  by_cases heq : s = other
  · rwa [heq, update_self]
  · rwa [update_of_ne heq]

omit [DecidableEq κ] in
theorem update_eq_live_iff {s : ℕ} {new : SlotKind κ} :
    update kind slot new s = .live key ↔ (s = slot ∧ new = .live key) ∨ s ≠ slot ∧ kind s = .live key := by
  by_cases hs : s = slot <;> simp [hs]

/-! ### The two scans -/

theorem find_live (h : find kind key slots = some slot) : slot ∈ slots ∧ kind slot = .live key := by
  induction slots with
  | nil => simp [find] at h
  | cons first rest ih =>
    rw [find] at h
    split at h
    · simp at h
    · exact ⟨mem_cons_of_mem _ (ih h).1, (ih h).2⟩
    · next other hlive =>
      split at h
      · next heq =>
        obtain rfl := Option.some.inj h
        exact ⟨mem_cons_self, heq ▸ hlive⟩
      · exact ⟨mem_cons_of_mem _ (ih h).1, (ih h).2⟩

/-- A reached slot that holds the key is found, or an earlier one that holds it is. -/
theorem find_isSome_of_reached (h : Reached kind slots slot)
    (hlive : kind slot = .live key) : (find kind key slots).isSome := by
  obtain ⟨before, after, rfl, hbefore⟩ := h
  induction before with
  | nil => simp [find, hlive]
  | cons first before ih =>
    have hrest := ih fun other hother => hbefore other (mem_cons_of_mem _ hother)
    have hfirst := hbefore first mem_cons_self
    rw [cons_append, find]
    split
    · next hempty => exact absurd hempty hfirst
    · exact hrest
    · split
      · rfl
      · exact hrest

/-- **An insertion of a key that is found goes to the slot that holds it.** -/
theorem claim_of_find (h : find kind key slots = some slot) : claim kind key slots firstTombstone = some slot := by
  induction slots generalizing firstTombstone with
  | nil => simp [find] at h
  | cons first rest ih =>
    rw [find] at h
    rw [claim]
    split at h
    · simp at h
    · exact ih h
    · split at h
      · next heq => rw [if_pos heq, h]
      · next hne => rw [if_neg hne, ih h]

/-- An insertion of a key that is not found goes to a slot that is not live. -/
theorem claim_of_find_none (hfind : find kind key slots = none) (h : claim kind key slots firstTombstone = some slot) :
    firstTombstone = some slot ∨ Reached kind slots slot ∧ (kind slot = .empty ∨ kind slot = .tombstone) := by
  induction slots generalizing firstTombstone with
  | nil => exact Or.inl h
  | cons first rest ih =>
    rw [find] at hfind
    rw [claim] at h
    split at h
    · next hempty =>
      cases firstTombstone with
      | none =>
        obtain rfl := Option.some.inj h
        exact Or.inr ⟨Reached.head, Or.inl hempty⟩
      | some tombstone => exact Or.inl h
    · next htombstone =>
      rw [htombstone] at hfind
      rcases ih hfind h with hfirst | ⟨hreached, hkind⟩
      · cases firstTombstone with
        | none =>
          obtain rfl := Option.some.inj hfirst
          exact Or.inr ⟨Reached.head, Or.inr htombstone⟩
        | some tombstone => exact Or.inl hfirst
      · exact Or.inr ⟨hreached.cons (by simp [htombstone]), hkind⟩
    · next other hlive =>
      simp only [hlive] at hfind
      split at hfind
      · simp at hfind
      · next hne =>
        rw [if_neg hne] at h
        rcases ih hfind h with hfirst | ⟨hreached, hkind⟩
        · exact Or.inl hfirst
        · exact Or.inr ⟨hreached.cons (by simp [hlive]), hkind⟩

/-- **An insertion fails only in a table without a free slot.** -/
theorem claim_eq_none (h : claim kind key slots firstTombstone = none) :
    ∀ other ∈ slots, ∃ k, kind other = .live k := by
  induction slots generalizing firstTombstone with
  | nil => simp
  | cons first rest ih =>
    rw [claim] at h
    intro other hother
    split at h
    · simp at h
    · exact absurd h (claim_ne_none_of_tombstone _)
    · next k hlive =>
      split at h
      · simp at h
      · rcases mem_cons.mp hother with rfl | hother
        · exact ⟨k, hlive⟩
        · exact ih h other hother
where
  claim_ne_none_of_tombstone {rest : List ℕ} (tombstone : ℕ) : claim kind key rest (some tombstone) ≠ none := by
    induction rest generalizing tombstone with
    | nil => simp [claim]
    | cons first rest ih =>
      rw [claim]
      split
      · simp
      · exact ih _
      · split
        · simp
        · exact ih _

/-! ### Valid tables -/

/-- **The invariant of a table of `slotCount` slots**: every probe order visits every slot, no key is
live in two slots, and every live key is reached along its own probe order. -/
structure Valid (probes : κ → List ℕ) (slotCount : ℕ) (kind : ℕ → SlotKind κ) : Prop where
  mem_probes : ∀ key slot, slot ∈ probes key ↔ slot < slotCount
  unique : ∀ key slot slot', slot < slotCount → slot' < slotCount →
    kind slot = .live key → kind slot' = .live key → slot = slot'
  reached : ∀ key slot, slot < slotCount → kind slot = .live key → Reached kind (probes key) slot

variable {probes : κ → List ℕ} {slotCount : ℕ}

section

variable (h : Valid probes slotCount kind)
include h

/-- **The search is exact.** -/
theorem Valid.find_eq_some_iff : find kind key (probes key) = some slot ↔ slot < slotCount ∧ kind slot = .live key := by
  constructor
  · intro hfind
    have hlive := find_live hfind
    exact ⟨(h.mem_probes key slot).mp hlive.1, hlive.2⟩
  · rintro ⟨hslot, hlive⟩
    have hsome := find_isSome_of_reached (h.reached key slot hslot hlive) hlive
    obtain ⟨found, hfound⟩ := Option.isSome_iff_exists.mp hsome
    have hfoundLive := find_live hfound
    have hfoundLt := (h.mem_probes key found).mp hfoundLive.1
    rw [hfound, h.unique key found slot hfoundLt hslot hfoundLive.2 hlive]

theorem Valid.find_eq_none_iff :
    find kind key (probes key) = none ↔ ∀ slot, slot < slotCount → kind slot ≠ .live key := by
  constructor
  · intro hnone slot hslot hlive
    rw [h.find_eq_some_iff.mpr ⟨hslot, hlive⟩] at hnone
    simp at hnone
  · intro habsent
    rw [Option.eq_none_iff_forall_ne_some]
    intro slot hfind
    have hlive := h.find_eq_some_iff.mp hfind
    exact habsent slot hlive.1 hlive.2

/-- **An insertion of a key that is not live goes to a free slot that its probe order reaches.** -/
theorem Valid.claim_fresh (hfind : find kind key (probes key) = none)
    (hclaim : claim kind key (probes key) none = some slot) :
    slot < slotCount ∧ Reached kind (probes key) slot ∧ (kind slot = .empty ∨ kind slot = .tombstone) := by
  rcases claim_of_find_none hfind hclaim with hnone | ⟨hreached, hkind⟩
  · simp at hnone
  · exact ⟨(h.mem_probes key slot).mp hreached.mem, hreached, hkind⟩

end

omit [DecidableEq κ] in
theorem valid_empty (hmem : ∀ key slot, slot ∈ probes key ↔ slot < slotCount) :
    Valid probes slotCount fun _ => .empty where
  mem_probes := hmem
  unique := by simp
  reached := by simp

omit [DecidableEq κ] in
/-- **Insert.**  A fresh key written to a free slot that its probe order reaches. -/
theorem Valid.insert (h : Valid probes slotCount kind) (hfresh : ∀ slot, slot < slotCount → kind slot ≠ .live key)
    (hreached : Reached kind (probes key) slot) : Valid probes slotCount (update kind slot (.live key)) where
  mem_probes := h.mem_probes
  unique := by
    intro key' s t hs ht hks hkt
    rcases update_eq_live_iff.mp hks with ⟨hs', hnew⟩ | ⟨-, hks⟩ <;>
      rcases update_eq_live_iff.mp hkt with ⟨ht', hnew'⟩ | ⟨-, hkt⟩
    · rw [hs', ht']
    · cases hnew
      exact absurd hkt (hfresh t ht)
    · cases hnew'
      exact absurd hks (hfresh s hs)
    · exact h.unique key' s t hs ht hks hkt
  reached := by
    intro key' s hs hks
    rcases update_eq_live_iff.mp hks with ⟨rfl, hnew⟩ | ⟨-, hks⟩
    · cases hnew
      exact hreached.update (by simp)
    · exact (h.reached key' s hs hks).update (by simp)

omit [DecidableEq κ] in
/-- **Remove.**  A tombstone keeps every other key reached. -/
theorem Valid.remove (h : Valid probes slotCount kind) (slot : ℕ) :
    Valid probes slotCount (update kind slot .tombstone) := by
  have hlive : ∀ key' s, update kind slot .tombstone s = .live key' → kind s = .live key' := fun key' s hs =>
    ((update_eq_live_iff.mp hs).resolve_left (by simp)).2
  refine ⟨h.mem_probes, ?_, ?_⟩
  · intro key' s t hs ht hks hkt
    exact h.unique key' s t hs ht (hlive key' s hks) (hlive key' t hkt)
  · intro key' s hs hks
    exact (h.reached key' s hs (hlive key' s hks)).update (by simp)

/-- **A table with fewer keys than slots has room.**  The keys in use are given by an injection of the
live slots into a set that is smaller than the table. -/
theorem Valid.claim_ne_none {β : Type*} (h : Valid probes slotCount kind)
    (used : Finset β) (tag : ℕ → β) (hused : used.card < slotCount)
    (htag : ∀ slot k, slot < slotCount → kind slot = .live k → tag slot ∈ used)
    (hinj : ∀ s t k l, s < slotCount → t < slotCount → kind s = .live k → kind t = .live l → tag s = tag t → s = t) :
    claim kind key (probes key) none ≠ none := by
  intro hnone
  have hall : ∀ slot, slot < slotCount → ∃ k, kind slot = .live k := fun slot hslot =>
    claim_eq_none hnone slot ((h.mem_probes key slot).mpr hslot)
  have hle : (Finset.range slotCount).card ≤ used.card := by
    apply Finset.card_le_card_of_injOn tag
    · intro slot hslot
      obtain ⟨k, hk⟩ := hall slot (Finset.mem_range.mp hslot)
      exact htag slot k (Finset.mem_range.mp hslot) hk
    · intro s hs t ht heq
      have hs := Finset.mem_range.mp hs
      have ht := Finset.mem_range.mp ht
      obtain ⟨k, hk⟩ := hall s hs
      obtain ⟨l, hl⟩ := hall t ht
      exact hinj s t k l hs ht hk hl heq
  rw [Finset.card_range] at hle
  omega

/-! ### The keys of a table -/

/-- The keys that are live in the table. -/
def Keys (slotCount : ℕ) (kind : ℕ → SlotKind κ) (keys : Finset κ) : Prop :=
  ∀ key, key ∈ keys ↔ ∃ slot < slotCount, kind slot = .live key

variable {keys : Finset κ}

theorem Keys.insert (h : Keys slotCount kind keys) (hslot : slot < slotCount) (hfree : ∀ k, kind slot ≠ .live k) :
    Keys slotCount (update kind slot (.live key)) (insert key keys) := by
  intro k
  rw [Finset.mem_insert, h k]
  constructor
  · rintro (rfl | ⟨s, hs, hlive⟩)
    · exact ⟨slot, hslot, update_self ..⟩
    · have hne : s ≠ slot := fun heq => hfree k (heq ▸ hlive)
      exact ⟨s, hs, (update_of_ne hne ..).trans hlive⟩
  · rintro ⟨s, hs, hlive⟩
    rcases update_eq_live_iff.mp hlive with ⟨-, hnew⟩ | ⟨-, hlive⟩
    · exact Or.inl (SlotKind.live.inj hnew).symm
    · exact Or.inr ⟨s, hs, hlive⟩

theorem Keys.remove (h : Keys slotCount kind keys) (hvalid : Valid probes slotCount kind) (hslot : slot < slotCount)
    (hlive : kind slot = .live key) : Keys slotCount (update kind slot .tombstone) (keys.erase key) := by
  intro k
  rw [Finset.mem_erase, h k]
  constructor
  · rintro ⟨hne, s, hs, hk⟩
    have hslot : s ≠ slot := fun heq => hne (SlotKind.live.inj (hk.symm.trans (heq ▸ hlive)))
    exact ⟨s, hs, (update_of_ne hslot ..).trans hk⟩
  · rintro ⟨s, hs, hk⟩
    obtain ⟨hne, hk⟩ := (update_eq_live_iff.mp hk).resolve_left (by simp)
    refine ⟨?_, s, hs, hk⟩
    rintro rfl
    exact hne (hvalid.unique k s slot hs hslot hk hlive)

/-- **The table is full exactly when every slot has a key and the key to insert is not among them.** -/
theorem Valid.claim_eq_none_iff (h : Valid probes slotCount kind) (hkeys : Keys slotCount kind keys) :
    claim kind key (probes key) none = none ↔ keys.card = slotCount ∧ key ∉ keys := by
  -- the keys are as many as the live slots, since each is found in a slot of its own
  have hfound : ∀ k ∈ keys, ∃ slot, find kind k (probes k) = some slot := fun k hk => by
    obtain ⟨slot, hslot⟩ := (hkeys k).mp hk
    exact ⟨slot, h.find_eq_some_iff.mpr hslot⟩
  choose! slotOf hslotOf using hfound
  have hlive : ∀ k ∈ keys, slotOf k < slotCount ∧ kind (slotOf k) = .live k := fun k hk =>
    h.find_eq_some_iff.mp (hslotOf k hk)
  have hcard : (keys.image slotOf).card = keys.card := by
    refine Finset.card_image_of_injOn fun k hk l hl heq => ?_
    exact SlotKind.live.inj ((hlive k hk).2.symm.trans (heq ▸ (hlive l hl).2))
  have hsub : keys.image slotOf ⊆ Finset.range slotCount := fun slot hslot => by
    obtain ⟨k, hk, rfl⟩ := Finset.mem_image.mp hslot
    exact Finset.mem_range.mpr (hlive k hk).1
  constructor
  · intro hnone
    refine ⟨?_, fun hkey => ?_⟩
    · rw [← hcard, ← Finset.card_range slotCount]
      refine congrArg Finset.card (Finset.Subset.antisymm hsub fun slot hslot => ?_)
      have hslot := Finset.mem_range.mp hslot
      obtain ⟨k, hk⟩ := claim_eq_none hnone slot ((h.mem_probes key slot).mpr hslot)
      have hmem := (hkeys k).mpr ⟨slot, hslot, hk⟩
      exact Finset.mem_image.mpr ⟨k, hmem, h.unique k _ slot (hlive k hmem).1 hslot (hlive k hmem).2 hk⟩
    · rw [claim_of_find (hslotOf key hkey)] at hnone
      cases hnone
  · rintro ⟨hfull, hkey⟩
    rw [Option.eq_none_iff_forall_ne_some]
    intro slot hclaim
    have hfind : find kind key (probes key) = none := h.find_eq_none_iff.mpr fun s hs hk =>
      hkey ((hkeys key).mpr ⟨s, hs, hk⟩)
    obtain ⟨hslot, -, hfree⟩ := h.claim_fresh hfind hclaim
    have hall : keys.image slotOf = Finset.range slotCount :=
      Finset.eq_of_subset_of_card_le hsub (by rw [hcard, hfull, Finset.card_range])
    obtain ⟨k, hk, rfl⟩ := Finset.mem_image.mp (hall ▸ Finset.mem_range.mpr hslot)
    simp [(hlive k hk).2] at hfree

/-- Going round once from any slot visits every slot. -/
theorem mem_cyclic {start : ℕ} (hstart : start < slotCount) :
    slot ∈ (List.range slotCount).map (fun probe => (start + probe) % slotCount) ↔ slot < slotCount := by
  rw [mem_map]
  constructor
  · rintro ⟨probe, _, rfl⟩
    exact Nat.mod_lt _ (by omega)
  · intro hslot
    by_cases hle : start ≤ slot
    · refine ⟨slot - start, mem_range.mpr (by omega), ?_⟩
      rw [show start + (slot - start) = slot by omega, Nat.mod_eq_of_lt hslot]
    · refine ⟨slot + slotCount - start, mem_range.mpr (by omega), ?_⟩
      rw [show start + (slot + slotCount - start) = slot + slotCount by omega, Nat.add_mod_right,
        Nat.mod_eq_of_lt hslot]

/-! ### Linear probing in a table of `2 ^ k` slots -/

/-- The slots visited for a hash: start at `hash` masked by the table size and go round once. -/
def linearProbes (slotCount hash : ℕ) : List ℕ :=
  (List.range slotCount).map fun probe =>
    ((hash &&& (slotCount - 1)) + probe) &&& (slotCount - 1)

theorem mem_linearProbes {k hash slot : ℕ} : slot ∈ linearProbes (2 ^ k) hash ↔ slot < 2 ^ k := by
  simp only [linearProbes, Nat.and_two_pow_sub_one_eq_mod]
  exact mem_cyclic (Nat.mod_lt _ (Nat.two_pow_pos k))

end Batchgen.OpenAddressing
