import Batchgen.WeightBuffer.SlotTable
import Mathlib.Data.List.Range
import Mathlib.Tactic.IntervalCases

/-!
# What the table keeps

`Inv` ties the tables of the ring together: the index is exactly the named slots that are filled, copied or
leased; what is held and what is to be skipped belongs to an open pass; and the cursor of every type with an
installed list runs between the oldest open pass and the pass after the newest.
-/

namespace Batchgen.WeightBuffer

open Function List Option

variable {t : Table} {moduleType name : String} {pass : ℕ}

/-- The slot is indexed: named, and filling, present or leased. -/
def Slot.Live (s : Slot) : Prop :=
  s.name ≠ "" ∧ (s.state = .filling ∨ s.state = .present ∨ s.state = .leased)

theorem Slot.Live.ne_free {s : Slot} (h : s.Live) : s.state ≠ .free := by
  rcases h.2 with hst | hst | hst <;> rw [hst] <;> decide

structure Inv (t : Table) : Prop where
  openTwo : t.openPasses.length ≤ 2
  openLt : t.openPasses.length < t.nextPass
  consecutive : t.openPasses = List.range' (t.nextPass - t.openPasses.length) t.openPasses.length
  index : ∀ name pass ref, t.index (name, pass) = some ref ↔
    ∃ slot, t.slot? ref = some slot ∧ slot.Live ∧ slot.name = name ∧ slot.pass = pass
  named : ∀ ref slot, t.slot? ref = some slot → slot.state ≠ .free → slot.name ≠ "" → slot.pass ∈ t.openPasses
  skips : ∀ pass name, (pass, name) ∈ t.pendingSkips → pass ∈ t.openPasses ∧
    ∃ i, t.installed.lookup name = some i ∧ ¬ t.produced i.moduleType pass i.position
  installed : ∀ name i, t.installed.lookup name = some i ↔
    ∃ names, t.lists.lookup i.moduleType = some names ∧ names[i.position]? = some name
  names : ∀ moduleType names, t.lists.lookup moduleType = some names → "" ∉ names
  ahead : ∀ moduleType, (t.cursors moduleType).pass ≤ t.nextPass
  cursors : ∀ moduleType names, t.lists.lookup moduleType = some names → names ≠ [] →
    (t.cursors moduleType).position < names.length ∧
      t.nextPass - t.openPasses.length ≤ (t.cursors moduleType).pass
  types : ∀ moduleType, t.slots moduleType ≠ [] → moduleType ∈ t.types

theorem Inv.fresh : Inv {} where
  openTwo := Nat.zero_le _
  openLt := Nat.zero_lt_one
  consecutive := rfl
  index name pass ref := by
    constructor
    · intro h
      cases h
    · rintro ⟨slot, hslot, -⟩
      cases hslot
  named ref slot hslot := by cases hslot
  skips pass name h := absurd h (Finset.notMem_empty _)
  installed name i := by
    constructor
    · intro h
      cases h
    · rintro ⟨names, hnames, -⟩
      cases hnames
  names moduleType names h := by cases h
  ahead _ := le_rfl
  cursors moduleType names h := by cases h
  types moduleType h := absurd rfl h

/-! ### One slot -/

section

variable {ref other : SlotRef} {s s' : Slot}

theorem setSlot_slots : (t.setSlot ref s').slots =
    update t.slots ref.moduleType ((t.slots ref.moduleType).set ref.index s') := rfl

theorem slot?_setSlot_self (h : t.slot? ref = some s) : (t.setSlot ref s').slot? ref = some s' := by
  have hlt : ref.index < (t.slots ref.moduleType).length := (List.getElem?_eq_some_iff.mp h).1
  rw [Table.slot?, setSlot_slots, update_self, getElem?_set_self hlt]

theorem slot?_setSlot_of_ne (h : other ≠ ref) : (t.setSlot ref s').slot? other = t.slot? other := by
  rw [Table.slot?, setSlot_slots, Table.slot?]
  by_cases htype : other.moduleType = ref.moduleType
  · have hindex : ref.index ≠ other.index := by
      intro hindex
      obtain ⟨ty, i⟩ := other
      obtain ⟨ty', i'⟩ := ref
      cases htype
      cases hindex
      exact h rfl
    rw [htype, update_self, getElem?_set_ne hindex]
  · rw [update_of_ne htype]

theorem setSlot_slots_ne_nil : (t.setSlot ref s').slots moduleType ≠ [] ↔ t.slots moduleType ≠ [] := by
  rw [setSlot_slots]
  by_cases htype : moduleType = ref.moduleType
  · subst htype
    rw [update_self, ne_eq, ne_eq, set_eq_nil_iff]
  · rw [update_of_ne htype]

variable (h : Inv t) (hslot : t.slot? ref = some s)
include h hslot

/-- Writing one slot and the index: the index has to follow the slot. -/
theorem Inv.setSlot {index : String × ℕ → Option SlotRef}
    (hopen : s'.state ≠ .free → s'.name ≠ "" → s'.pass ∈ t.openPasses)
    (hindex : ∀ name pass other, index (name, pass) = some other ↔ other ≠ ref ∧ t.index (name, pass) = some other ∨
        other = ref ∧ s'.Live ∧ s'.name = name ∧ s'.pass = pass) : Inv { t.setSlot ref s' with index := index } := by
  have hself : ({ t.setSlot ref s' with index := index } : Table).slot? ref = some s' := slot?_setSlot_self hslot
  have hother : ∀ {o}, o ≠ ref → ({ t.setSlot ref s' with index := index } : Table).slot? o = t.slot? o :=
    fun hne => slot?_setSlot_of_ne hne
  refine { h with
    index := fun name pass o => ?_, named := fun o slot ho => ?_
    types := fun moduleType hne => h.types moduleType (setSlot_slots_ne_nil.mp hne) }
  · show index (name, pass) = some o ↔ _
    rw [hindex]
    by_cases ho : o = ref
    · subst ho
      rw [hself]
      simp
    · rw [hother ho, h.index]
      simp [ho]
  · by_cases hne : o = ref
    · subst hne
      rw [hself] at ho
      cases ho
      exact hopen
    · rw [hother hne] at ho
      exact h.named o slot ho

/-- A slot that stays indexed under the same key. -/
theorem Inv.setLive (hs : s.Live) (hs' : s'.Live)
    (hname : s'.name = s.name) (hpass : s'.pass = s.pass) : Inv (t.setSlot ref s') := by
  refine h.setSlot hslot (fun _ _ => hpass ▸ h.named ref s hslot hs.ne_free hs.1) fun name pass other => ?_
  by_cases hother : other = ref
  · subst hother
    rw [h.index, hslot]
    simp [hs, hs', hname, hpass]
  · simp [hother]

/-- A slot that is taken out of the index. -/
theorem Inv.dropLive (hs : s.Live) (hs' : ¬ s'.Live)
    (hopen : s'.state ≠ .free → s'.name ≠ "" → s'.pass ∈ t.openPasses) :
    Inv ((t.eraseIndex (s.name, s.pass)).setSlot ref s') := by
  have hkey : t.index (s.name, s.pass) = some ref := (h.index _ _ _).mpr ⟨s, hslot, hs, rfl, rfl⟩
  refine @Inv.setSlot t ref s s' h hslot (update t.index (s.name, s.pass) none) hopen fun name pass other => ?_
  by_cases heq : (name, pass) = (s.name, s.pass)
  · rw [heq, update_self, hkey]
    obtain ⟨rfl, rfl⟩ := Prod.mk.inj heq
    constructor
    · intro hnone
      cases hnone
    · rintro (⟨hne, hsame⟩ | ⟨-, hlive, -⟩)
      · exact absurd (some_inj.mp hsame).symm hne
      · exact absurd hlive hs'
  · rw [update_of_ne heq]
    constructor
    · intro hindex
      refine Or.inl ⟨?_, hindex⟩
      rintro rfl
      obtain ⟨slot, hslot', -, rfl, rfl⟩ := (h.index _ _ _).mp hindex
      rw [hslot] at hslot'
      cases hslot'
      exact heq rfl
    · rintro (⟨-, hindex⟩ | ⟨-, hlive, -⟩)
      · exact hindex
      · exact absurd hlive hs'

/-- A slot that is indexed neither before nor after. -/
theorem Inv.setQuiet (hs : ¬ s.Live) (hs' : ¬ s'.Live)
    (hopen : s'.state ≠ .free → s'.name ≠ "" → s'.pass ∈ t.openPasses) : Inv (t.setSlot ref s') := by
  refine h.setSlot hslot hopen fun name pass other => ?_
  by_cases hother : other = ref
  · subst hother
    rw [h.index, hslot]
    simp [hs, hs']
  · simp [hother]

/-- A slot that gets a name. -/
theorem Inv.setName (hs : ¬ s.Live) (hs' : s'.Live) (hname : s'.name = name)
    (hpass : s'.pass = pass) (hopen : pass ∈ t.openPasses) (hfresh : t.index (name, pass) = none) :
    Inv (({ t with index := update t.index (name, pass) (some ref) } : Table).setSlot ref s') := by
  refine @Inv.setSlot t ref s s' h hslot (update t.index (name, pass) (some ref))
    (fun _ _ => hpass ▸ hopen) fun name' pass' other => ?_
  by_cases heq : (name', pass') = (name, pass)
  · obtain ⟨rfl, rfl⟩ := Prod.mk.inj heq
    rw [update_self, hfresh, some_inj]
    simp [hs', hname, hpass, eq_comm]
  rw [update_of_ne heq]
  constructor
  · intro hindex
    refine Or.inl ⟨?_, hindex⟩
    rintro rfl
    obtain ⟨slot, hslot', hlive, -⟩ := (h.index _ _ _).mp hindex
    rw [hslot] at hslot'
    cases hslot'
    exact hs hlive
  · rintro (⟨-, hindex⟩ | ⟨-, -, rfl, rfl⟩)
    · exact hindex
    · rw [hname, hpass] at heq
      exact absurd rfl heq

omit h hslot in
theorem Slot.not_live_blank : ¬ ({} : Slot).Live := fun h => h.1 rfl

/-- A slot that is emptied, indexed before or not. -/
theorem Inv.dropBlank (hs : s.Live) : Inv ((t.eraseIndex (s.name, s.pass)).setSlot ref {}) :=
  h.dropLive hslot hs Slot.not_live_blank fun hfree => absurd rfl hfree

theorem Inv.setBlank (hs : ¬ s.Live) : Inv (t.setSlot ref {}) :=
  h.setQuiet hslot hs Slot.not_live_blank fun hfree => absurd rfl hfree

end

/-- The counts of the passes play no part. -/
theorem Inv.count (h : Inv t) (pass : ℕ) (moduleType : String) (f : PassCounts → PassCounts) :
    Inv (t.count pass moduleType f) := { h with }

/-! ### Passes and cursors -/

theorem Inv.mem_open (h : Inv t) :
    pass ∈ t.openPasses ↔ t.nextPass - t.openPasses.length ≤ pass ∧ pass < t.nextPass := by
  have hlt := h.openLt
  rw [h.consecutive, mem_range'_1]
  simp only [length_range']
  omega

theorem Inv.openPasses_cases (h : Inv t) :
    t.openPasses = [] ∨ (∃ p, t.openPasses = [p]) ∨ ∃ p, t.openPasses = [p, p + 1] := by
  have htwo := h.openTwo
  rw [h.consecutive]
  generalize t.nextPass - t.openPasses.length = first
  generalize t.openPasses.length = n at htwo
  interval_cases n
  · exact Or.inl rfl
  · exact Or.inr (Or.inl ⟨first, rfl⟩)
  · exact Or.inr (Or.inr ⟨first, rfl⟩)

theorem Inv.newest (h : Inv t) (hpass : t.openPasses.getLast? = some pass) : pass + 1 = t.nextPass := by
  have hlt := h.openLt
  have hmem := (h.mem_open.mp (mem_of_mem_getLast? hpass)).2
  rw [h.consecutive, getLast?_range'] at hpass
  split at hpass
  · cases hpass
  · cases hpass
    omega

theorem Inv.oldest (h : Inv t) (hpass : t.openPasses.head? = some pass) : pass = t.nextPass - t.openPasses.length := by
  rw [h.consecutive, head?_range'] at hpass
  split at hpass
  · cases hpass
  · cases hpass
    rfl

/-- The module at the producer's cursor, in an open pass. -/
def Table.AtCursor (t : Table) (moduleType : String) (pass : ℕ) (name : String) : Prop :=
  ∃ names, t.lists.lookup moduleType = some names ∧ names[(t.cursors moduleType).position]? = some name ∧
    (t.cursors moduleType).pass = pass ∧ pass ∈ t.openPasses

/-- What the producer can find at its cursor. -/
inductive Table.Produces (t : Table) (moduleType : String) : Production → Prop
  | none : Produces t moduleType .none
  | parked {pass position name} : Produces t moduleType (.parked pass position name)
  | skip {pass position name} (hat : t.AtCursor moduleType pass name) :
    Produces t moduleType (.skip pass position name)
  | copy {pass position name} (hat : t.AtCursor moduleType pass name) (hskip : (pass, name) ∉ t.pendingSkips) :
    Produces t moduleType (.copy pass position name)

theorem Table.produces (t : Table) (moduleType : String) : t.Produces moduleType (t.nextProduction moduleType) := by
  unfold Table.nextProduction
  split
  · exact .none
  · next names hlist =>
    dsimp only
    split
    · exact .none
    · next name hname =>
      split
      · exact .parked
      · next hopen =>
        have hat : t.AtCursor moduleType _ name := ⟨names, hlist, hname, rfl, not_not.mp hopen⟩
        split
        · exact .skip hat
        · next hskip => exact .copy hat hskip

/-- The producer moves on from a position of an open pass whose skip is not pending. -/
theorem Inv.advance (h : Inv t) (hat : t.AtCursor moduleType pass name) (hskip : (pass, name) ∉ t.pendingSkips) :
    Inv (t.advance moduleType) := by
  obtain ⟨names, hlist, hname, rfl, hopen⟩ := hat
  have hne : names ≠ [] := by
    rintro rfl
    cases hname
  obtain ⟨hposition, hlow⟩ := h.cursors moduleType names hlist hne
  have hbelow := (h.mem_open.mp hopen).2
  have hcursor : ∀ other, (t.advance moduleType).cursors other = if other = moduleType then
      (if names.length ≤ (t.cursors moduleType).position + 1 then ⟨(t.cursors moduleType).pass + 1, 0⟩
        else ⟨(t.cursors moduleType).pass, (t.cursors moduleType).position + 1⟩) else t.cursors other := by
    intro other
    rw [Table.advance, hlist]
    dsimp only [getD_some]
    by_cases hother : other = moduleType
    · subst hother
      rw [update_self, if_pos rfl]
    · rw [update_of_ne hother, if_neg hother]
  refine { h with
    skips := fun pass other hpending => ?_, ahead := fun other => ?_, cursors := fun other list hother hlistNe => ?_ }
  · obtain ⟨hpass, i, hi, hunproduced⟩ := h.skips pass other hpending
    refine ⟨hpass, i, hi, ?_⟩
    obtain ⟨list, hlist', hat⟩ := (h.installed other i).mp hi
    unfold Table.produced at hunproduced ⊢
    rw [hcursor]
    split
    · next htype =>
      rw [htype] at hunproduced hlist'
      rw [hlist] at hlist'
      cases hlist'
      have hpos : i.position < names.length := (List.getElem?_eq_some_iff.mp hat).1
      -- the skip is not the one at the cursor, so it lies behind it
      have hnot : ¬ (pass = (t.cursors moduleType).pass ∧ i.position = (t.cursors moduleType).position) := by
        rintro ⟨rfl, hsame⟩
        rw [hsame, hname] at hat
        cases hat
        exact hskip hpending
      split
      · dsimp only
        omega
      · dsimp only
        omega
    · exact hunproduced
  · rw [hcursor]
    show _ ≤ t.nextPass
    split
    · split
      · exact hbelow
      · exact hbelow.le
    · exact h.ahead other
  · rw [hcursor]
    split
    · next htype =>
      subst htype
      rw [show t.lists.lookup other = some list from hother] at hlist
      cases hlist
      show _ ∧ t.nextPass - t.openPasses.length ≤ _
      split
      · dsimp only
        exact ⟨length_pos_iff.mpr hlistNe, by omega⟩
      · dsimp only
        exact ⟨by omega, hlow⟩
    · exact h.cursors other list hother hlistNe

end Batchgen.WeightBuffer
