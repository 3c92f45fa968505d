import Mathlib.Algebra.Order.BigOperators.Group.Finset
import Mathlib.Order.Interval.Finset.Nat

/-!
# Ranges of an arena

A range is a first cell and a length.  `Apart` says that one ends before the other begins.  Ranges that
are pairwise apart and end below a bound have at most that many cells in total (`sum_length_le`), which
is what turns "ranges do not overlap" into a capacity bound.
-/

namespace Batchgen.Ranges

open Finset

/-- The range of `n` cells from `a` and the range of `m` cells from `b` do not overlap. -/
def Apart (a n b m : ℕ) : Prop := a + n ≤ b ∨ b + m ≤ a

/-- **Capacity.**  Ranges that are pairwise apart fit below any bound they all end below. -/
theorem sum_length_le {ι : Type*} [DecidableEq ι] {s : Finset ι} (first : ι → ℕ) {length : ι → ℕ} {bound : ℕ}
    (hbelow : ∀ i ∈ s, first i + length i ≤ bound)
    (hapart : ∀ i ∈ s, ∀ j ∈ s, i ≠ j → Apart (first i) (length i) (first j) (length j)) :
    ∑ i ∈ s, length i ≤ bound := by
  have hdisjoint : (s : Set ι).PairwiseDisjoint fun i => Finset.Ico (first i) (first i + length i) := by
    intro i hi j hj hne
    rw [Function.onFun, disjoint_left]
    intro cell hci hcj
    rw [mem_Ico] at hci hcj
    rcases hapart i hi j hj hne with h | h <;> omega
  have hsubset : (s.biUnion fun i => Finset.Ico (first i) (first i + length i)) ⊆
      Finset.range bound := by
    intro cell hcell
    obtain ⟨i, hi, hmem⟩ := mem_biUnion.mp hcell
    rw [mem_Ico] at hmem
    have := hbelow i hi
    exact mem_range.mpr (by omega)
  have hcard := card_le_card hsubset
  rw [card_biUnion hdisjoint, card_range] at hcard
  simpa only [Nat.card_Ico, Nat.add_sub_cancel_left] using hcard

end Batchgen.Ranges
