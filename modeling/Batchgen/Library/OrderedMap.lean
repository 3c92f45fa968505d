import Mathlib.Algebra.Order.BigOperators.Group.List
import Mathlib.Algebra.Order.Ring.Nat

/-!
# Ordered maps as association lists

`std::map` with natural keys, as the list of its pairs in key order.  `alter` is the one operation that
writes: it replaces the value of a key, or inserts the key where it belongs.

* `Ordered.alter` — the order is kept;
* `lookup_alter_self`, `lookup_alter_of_ne` — what a lookup sees after a write;
* `Ordered.lookup_eq_some_iff` — the pairs of the list are exactly what lookups see;
* `erase`, with `lookup_erase_self` and `lookup_erase_of_ne`;
* `total`, a sum over the pairs, with what each write changes of it.
-/

namespace Batchgen.OrderedMap

open List Option

variable {β : Type*} {m : List (ℕ × β)} {key other : ℕ} {f : Option β → β} {p : ℕ × β}

def lookup (key : ℕ) : List (ℕ × β) → Option β
  | [] => none
  | (k, v) :: rest => if k = key then some v else lookup key rest

/-- Replace the value of `key` by `f` of what it was. -/
def alter (key : ℕ) (f : Option β → β) : List (ℕ × β) → List (ℕ × β)
  | [] => [(key, f none)]
  | (k, v) :: rest =>
    if k = key then (key, f (some v)) :: rest
    else if key < k then (key, f none) :: (k, v) :: rest
    else (k, v) :: alter key f rest

def Ordered (m : List (ℕ × β)) : Prop := m.Pairwise fun a b => a.1 < b.1

theorem lookup_eq_none_iff : lookup key m = none ↔ ∀ p ∈ m, p.1 ≠ key := by
  induction m with
  | nil => simp [lookup]
  | cons q rest ih =>
    rw [lookup]
    split
    · next heq => simp [heq]
    · next hne => simp [ih, hne]

theorem lookup_eq_none_of_lt (h : ∀ p ∈ m, key < p.1) : lookup key m = none :=
  lookup_eq_none_iff.mpr fun p hp => (h p hp).ne'

theorem mem_alter_key (h : p ∈ alter key f m) : p.1 = key ∨ p ∈ m := by
  induction m with
  | nil =>
    rw [alter, mem_singleton] at h
    exact Or.inl (by rw [h])
  | cons q rest ih =>
    rw [alter] at h
    split at h
    · rcases mem_cons.mp h with rfl | h
      · exact Or.inl rfl
      · exact Or.inr (mem_cons_of_mem _ h)
    split at h
    · rcases mem_cons.mp h with rfl | h
      · exact Or.inl rfl
      · exact Or.inr h
    · rcases mem_cons.mp h with rfl | h
      · exact Or.inr mem_cons_self
      · exact (ih h).imp id (mem_cons_of_mem _)

theorem Ordered.alter (h : Ordered m) : Ordered (alter key f m) := by
  induction m with
  | nil => exact pairwise_singleton _ _
  | cons q rest ih =>
    obtain ⟨hq, hrest⟩ := pairwise_cons.mp h
    rw [OrderedMap.alter]
    split
    · next heq => exact pairwise_cons.mpr ⟨fun p hp => heq ▸ hq p hp, hrest⟩
    split
    · next hlt =>
      refine pairwise_cons.mpr ⟨fun p hp => ?_, h⟩
      rcases mem_cons.mp hp with rfl | hp
      · exact hlt
      · exact lt_trans hlt (hq p hp)
    · next hne hnlt =>
      refine pairwise_cons.mpr ⟨fun p hp => ?_, ih hrest⟩
      rcases mem_alter_key hp with heq | hp
      · show q.1 < p.1
        omega
      · exact hq p hp

theorem lookup_alter_self (h : Ordered m) : lookup key (alter key f m) = some (f (lookup key m)) := by
  induction m with
  | nil => simp [alter, lookup]
  | cons q rest ih =>
    obtain ⟨hq, hrest⟩ := pairwise_cons.mp h
    rw [alter]
    split
    · next heq => simp [lookup, heq]
    · next hne =>
      split
      · next hlt =>
        have hnone : lookup key rest = none := lookup_eq_none_of_lt fun p hp => lt_trans hlt (hq p hp)
        simp [lookup, hne, hnone]
      · rw [lookup, if_neg hne, ih hrest]
        simp [lookup, hne]

theorem lookup_alter_of_ne (hne : other ≠ key) : lookup other (alter key f m) = lookup other m := by
  induction m with
  | nil => simp [alter, lookup, hne.symm]
  | cons q rest ih =>
    rw [alter]
    split
    · next heq => rw [lookup, lookup, if_neg hne.symm, if_neg (by omega)]
    · split
      · rw [lookup, if_neg hne.symm]
      · rw [lookup, lookup, ih]

theorem Ordered.lookup_eq_some_iff (h : Ordered m) {v : β} : lookup key m = some v ↔ (key, v) ∈ m := by
  induction m with
  | nil => simp [lookup]
  | cons q rest ih =>
    obtain ⟨hq, hrest⟩ := pairwise_cons.mp h
    rw [lookup, mem_cons]
    split
    · next heq =>
      have hout : (key, v) ∉ rest := fun hmem => absurd (hq _ hmem) heq.not_lt
      rw [or_iff_left hout, Option.some_inj, Prod.ext_iff, and_iff_right heq.symm, eq_comm]
    · next hne => rw [ih hrest, or_iff_right fun heq => hne (congrArg Prod.fst heq).symm]

/-! ### Erasure -/

def erase (key : ℕ) (m : List (ℕ × β)) : List (ℕ × β) := m.filter (·.1 ≠ key)

theorem Ordered.erase (h : Ordered m) : Ordered (erase key m) := List.Pairwise.filter _ h

theorem mem_erase : p ∈ erase key m ↔ p ∈ m ∧ p.1 ≠ key := by
  simp [erase, mem_filter]

theorem lookup_erase_self : lookup key (erase key m) = none := lookup_eq_none_iff.mpr fun _ hp => (mem_erase.mp hp).2

theorem lookup_erase_of_ne (hne : other ≠ key) : lookup other (erase key m) = lookup other m := by
  induction m with
  | nil => rfl
  | cons q rest ih =>
    rw [lookup]
    by_cases hq : q.1 = key
    · have hskip : erase key (q :: rest) = erase key rest := by simp [erase, hq]
      rw [hskip, ih, if_neg (by omega)]
    · have hkeep : erase key (q :: rest) = q :: erase key rest := by simp [erase, hq]
      rw [hkeep, lookup, ih]

/-! ### Sums -/

section Total

variable {g g' : ℕ → β → ℕ}

/-- The sum of `g` over the pairs. -/
def total (g : ℕ → β → ℕ) (m : List (ℕ × β)) : ℕ := (m.map fun p => g p.1 p.2).sum

@[simp] theorem total_nil : total g [] = 0 := rfl

@[simp] theorem total_cons (q : ℕ × β) (rest : List (ℕ × β)) : total g (q :: rest) = g q.1 q.2 + total g rest := by
  simp [total]

theorem total_congr (h : ∀ p ∈ m, g' p.1 p.2 = g p.1 p.2) : total g' m = total g m := by
  unfold total
  rw [map_congr_left h]

/-- A pair of the map is part of every sum. -/
theorem le_total (h : p ∈ m) : g p.1 p.2 ≤ total g m := by
  exact single_le_sum (fun _ _ => Nat.zero_le _) _ (mem_map_of_mem h)

/-- A write exchanges the part of its key. -/
theorem total_alter (h : Ordered m) :
    total g (alter key f m) + (lookup key m).elim 0 (g key) = total g m + g key (f (lookup key m)) := by
  induction m with
  | nil => simp [alter, lookup]
  | cons q rest ih =>
    obtain ⟨hq, hrest⟩ := pairwise_cons.mp h
    rw [alter, lookup]
    split
    · next heq =>
      subst heq
      simp only [total_cons, elim_some]
      omega
    · split
      · next hlt =>
        have hnone : lookup key rest = none := lookup_eq_none_of_lt fun p hp => lt_trans hlt (hq p hp)
        rw [hnone]
        simp only [total_cons, elim_none]
        omega
      · simp only [total_cons]
        have := ih hrest
        omega

theorem total_erase (h : Ordered m) : total g (erase key m) + (lookup key m).elim 0 (g key) = total g m := by
  induction m with
  | nil => rfl
  | cons q rest ih =>
    obtain ⟨hq, hrest⟩ := pairwise_cons.mp h
    rw [lookup]
    by_cases hkey : q.1 = key
    · subst hkey
      have hskip : erase q.1 (q :: rest) = erase q.1 rest := by simp [erase]
      have hself : erase q.1 rest = rest := by
        rw [erase, filter_eq_self]
        intro p hp
        have := hq p hp
        simp only [decide_eq_true_eq]
        omega
      rw [hskip, hself, if_pos rfl, total_cons, elim_some, Nat.add_comm]
    · have hkeep : erase key (q :: rest) = q :: erase key rest := by simp [erase, hkey]
      rw [hkeep, if_neg hkey, total_cons, total_cons]
      have := ih hrest
      omega

/-- Two summands that differ at one key. -/
theorem total_point (key : ℕ) (h : Ordered m) (hne : ∀ k, k ≠ key → g' k = g k) :
    total g' m + (lookup key m).elim 0 (g key) = total g m + (lookup key m).elim 0 (g' key) := by
  have hrest : total g' (erase key m) = total g (erase key m) := by
    apply total_congr
    intro p hp
    rw [hne p.1 (mem_erase.mp hp).2]
  have h₁ : total g (erase key m) + (lookup key m).elim 0 (g key) = total g m := total_erase h
  have h₂ : total g' (erase key m) + (lookup key m).elim 0 (g' key) = total g' m := total_erase h
  omega

end Total

end Batchgen.OrderedMap
