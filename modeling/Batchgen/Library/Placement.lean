import Mathlib.Algebra.Order.Ring.Int
import Mathlib.Data.List.Nodup
import Mathlib.Data.List.Perm.Subperm

/-!
# Every item in exactly one place

A family of lists `cells`, one per place, holds a universe of items so that every item is in exactly
one list and occurs there once.  This is the shape of an allocator's safety property: a place is a free
list, an owner, or the hands of a running call.

* `Placement` — the property, as four fields a proof can use one by one;
* `Placement.move` — **the one rule a step needs**: when two places exchange items, that is when their
  concatenation is only permuted, and no other place changes, the property is kept;
* `Placement.length_append_le` — two places together hold no more items than there are;
* `Placement.length_eq_sum` — all places together hold every item.
-/

namespace Batchgen

variable {ι α : Type*} {univ : α → Prop} {cells cells' : ι → List α} {all : List α} {i j : ι}

/-- Every item of the universe is in exactly one place, once. -/
structure Placement (univ : α → Prop) (cells : ι → List α) : Prop where
  nodup : ∀ i, (cells i).Nodup
  mem_univ : ∀ i a, a ∈ cells i → univ a
  cover : ∀ a, univ a → ∃ i, a ∈ cells i
  disjoint : ∀ i j a, a ∈ cells i → a ∈ cells j → i = j

section

variable (h : Placement univ cells)
include h

theorem Placement.nodup_append (hij : i ≠ j) : (cells i ++ cells j).Nodup := by
  rw [List.nodup_append]
  refine ⟨h.nodup i, h.nodup j, ?_⟩
  intro a hai b hbj hab
  subst hab
  exact hij (h.disjoint i j a hai hbj)

/-- **Moving items between two places** keeps every item in exactly one place. -/
theorem Placement.move (hij : i ≠ j) (hperm : (cells' i ++ cells' j).Perm (cells i ++ cells j))
    (hframe : ∀ k, k ≠ i → k ≠ j → cells' k = cells k) : Placement univ cells' := by
  have hnodup : (cells' i ++ cells' j).Nodup := hperm.nodup_iff.mpr (h.nodup_append hij)
  have hmem : ∀ a, (a ∈ cells' i ∨ a ∈ cells' j) ↔ (a ∈ cells i ∨ a ∈ cells j) := by
    intro a
    rw [← List.mem_append, ← List.mem_append]
    exact hperm.mem_iff
  have hpair : ∀ {c : ι → List α} {k : ι} {a : α}, k = i ∨ k = j → a ∈ c k → a ∈ c i ∨ a ∈ c j := by
    rintro c k a (rfl | rfl) hak
    · exact Or.inl hak
    · exact Or.inr hak
  have hsame : ∀ k, ¬ (k = i ∨ k = j) → cells' k = cells k := fun k hk =>
    hframe k (not_or.mp hk).1 (not_or.mp hk).2
  -- an item of an uninvolved place was there before, hence is in neither of the two
  have hother : ∀ k a, ¬ (k = i ∨ k = j) → a ∈ cells' k → ¬ (a ∈ cells' i ∨ a ∈ cells' j) := by
    intro k a hk hak
    rw [hsame k hk] at hak
    rw [hmem a]
    rintro (hai | haj)
    · exact hk (Or.inl (h.disjoint k i a hak hai))
    · exact hk (Or.inr (h.disjoint k j a hak haj))
  rw [List.nodup_append] at hnodup
  refine ⟨fun k => ?_, fun k a hak => ?_, fun a ha => ?_, fun k l a hak hal => ?_⟩
  · by_cases hk : k = i ∨ k = j
    · rcases hk with rfl | rfl
      · exact hnodup.1
      · exact hnodup.2.1
    · exact hsame k hk ▸ h.nodup k
  · by_cases hk : k = i ∨ k = j
    · rcases (hmem a).mp (hpair hk hak) with hai | haj
      · exact h.mem_univ i a hai
      · exact h.mem_univ j a haj
    · exact h.mem_univ k a (hsame k hk ▸ hak)
  · obtain ⟨k, hak⟩ := h.cover a ha
    by_cases hk : k = i ∨ k = j
    · rcases (hmem a).mpr (hpair hk hak) with hai | haj
      · exact ⟨i, hai⟩
      · exact ⟨j, haj⟩
    · exact ⟨k, (hsame k hk).symm ▸ hak⟩
  · by_cases hk : k = i ∨ k = j
    · by_cases hl : l = i ∨ l = j
      · rcases hk with rfl | rfl
        · exact hl.elim Eq.symm fun hlj => absurd rfl (hnodup.2.2 a hak a (hlj ▸ hal))
        · exact hl.elim (fun hli => absurd rfl (hnodup.2.2 a (hli ▸ hal) a hak)) Eq.symm
      · exact absurd (hpair hk hak) (hother l a hl hal)
    · have hl : ¬ (l = i ∨ l = j) := fun hl => hother k a hk hak (hpair hl hal)
      rw [hsame k hk] at hak
      rw [hsame l hl] at hal
      exact h.disjoint k l a hak hal

/-- Two places together hold no more items than a list of the whole universe. -/
theorem Placement.length_append_le (hij : i ≠ j) (hall : ∀ a, univ a → a ∈ all) :
    (cells i).length + (cells j).length ≤ all.length := by
  rw [← List.length_append]
  refine ((h.nodup_append hij).subperm ?_).length_le
  intro a ha
  rcases List.mem_append.mp ha with hai | haj
  · exact hall a (h.mem_univ i a hai)
  · exact hall a (h.mem_univ j a haj)

/-- The items are counted place by place. -/
theorem Placement.length_eq_sum {places : List ι} (hplaces : places.Nodup) (hout : ∀ k, k ∉ places → cells k = [])
    (hnodup : all.Nodup) (hall : ∀ a, a ∈ all ↔ univ a) : all.length = (places.map fun k => (cells k).length).sum := by
  have hperm : all.Perm (places.flatMap cells) := by
    refine (List.perm_ext_iff_of_nodup hnodup (List.nodup_flatMap.mpr ⟨fun k _ => h.nodup k, ?_⟩)).mpr fun a => ?_
    · exact hplaces.imp fun hne a hi hj => hne (h.disjoint _ _ a hi hj)
    · rw [hall, List.mem_flatMap]
      constructor
      · intro ha
        obtain ⟨k, hk⟩ := h.cover a ha
        refine ⟨k, ?_, hk⟩
        by_contra hnot
        rw [hout k hnot] at hk
        cases hk
      · rintro ⟨k, -, hk⟩
        exact h.mem_univ k a hk
  rw [hperm.length_eq, List.length_flatMap]

end

end Batchgen
