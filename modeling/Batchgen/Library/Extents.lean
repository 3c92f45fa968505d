import Mathlib.Data.List.Sort

/-!
# Free extents

A set of natural numbers kept as a list of extents `(start, count)` that `Covers` it.  The list is `Separated`
when it is sorted and any two extents have a gap between them.  Space is taken first fit from the front of an
extent, and returned by sorting it in and merging what touches.

* `takeFirst_separated`, `covers_takeFirst`, `disjoint_takeFirst`: what taking does to the list;
* `takeFirst_isSome`: taking succeeds when one extent is large enough;
* `coalesce_ok`, `giveBack_ok`: what merging and returning do.
-/

namespace Batchgen.Extents

open List

abbrev Extent := ℕ × ℕ

variable {taken : ℕ × List Extent}

/-- The numbers of one extent. -/
def Extent.Holds (e : Extent) (p : ℕ) : Prop := e.1 ≤ p ∧ p < e.1 + e.2

instance (e : Extent) (p : ℕ) : Decidable (e.Holds p) := instDecidableAnd

def Covers (es : List Extent) (p : ℕ) : Prop := ∃ e ∈ es, Extent.Holds e p

structure Separated (es : List Extent) : Prop where
  pos : ∀ e ∈ es, 0 < e.2
  apart : es.Pairwise fun a b => a.1 + a.2 < b.1

variable {es rest : List Extent} {e : Extent} {n p q start count : ℕ}

theorem covers_nil : ¬ Covers [] p := by
  rintro ⟨e, he, -⟩
  exact absurd he not_mem_nil

theorem covers_cons : Covers (e :: es) p ↔ Extent.Holds e p ∨ Covers es p := by
  simp only [Covers, mem_cons, exists_eq_or_imp]

theorem covers_append {fs : List Extent} : Covers (es ++ fs) p ↔ Covers es p ∨ Covers fs p := by
  constructor
  · rintro ⟨e, he, hp⟩
    exact (mem_append.mp he).imp (fun h => ⟨e, h, hp⟩) fun h => ⟨e, h, hp⟩
  · rintro (⟨e, he, hp⟩ | ⟨e, he, hp⟩)
    · exact ⟨e, mem_append_left _ he, hp⟩
    · exact ⟨e, mem_append_right _ he, hp⟩

theorem Separated.nil : Separated [] := ⟨fun _ h => absurd h not_mem_nil, List.Pairwise.nil⟩

theorem Separated.sublist {fs : List Extent} (h : Separated es) (hfs : fs.Sublist es) : Separated fs :=
  ⟨fun f hf => h.pos f (hfs.subset hf), h.apart.sublist hfs⟩

theorem Separated.single (h : 0 < e.2) : Separated [e] :=
  ⟨fun f hf => by rwa [mem_singleton.mp hf], pairwise_singleton _ _⟩

theorem separated_append {fs : List Extent} :
    Separated (es ++ fs) ↔ Separated es ∧ Separated fs ∧ ∀ e ∈ es, ∀ f ∈ fs, e.1 + e.2 < f.1 := by
  constructor
  · intro h
    exact ⟨h.sublist (sublist_append_left _ _), h.sublist (sublist_append_right _ _), (pairwise_append.mp h.apart).2.2⟩
  · rintro ⟨hes, hfs, hgap⟩
    refine ⟨fun f hf => ?_, pairwise_append.mpr ⟨hes.apart, hfs.apart, hgap⟩⟩
    exact (mem_append.mp hf).elim (hes.pos f) (hfs.pos f)

/-! ### Taking -/

/-- First fit: `n` numbers from the front of the first extent that has them. -/
def takeFirst (n : ℕ) : List Extent → Option (ℕ × List Extent)
  | [] => none
  | (start, count) :: rest =>
    if count < n then (takeFirst n rest).map fun taken => (taken.1, (start, count) :: taken.2)
    else if count = n then some (start, rest)
    else some (start, (start + n, count - n) :: rest)

theorem takeFirst_isSome : (takeFirst n es).isSome ↔ ∃ e ∈ es, n ≤ e.2 := by
  induction es with
  | nil => simp [takeFirst]
  | cons e es ih =>
    simp only [takeFirst, mem_cons, exists_eq_or_imp]
    split
    · next hsmall =>
      rw [Option.isSome_map, ih]
      constructor
      · exact Or.inr
      · exact fun h => h.resolve_left (by omega)
    · next hlarge =>
      have hfits : n ≤ e.2 := not_lt.mp hlarge
      split <;> simp [hfits]

/-- The extent that is taken from, and what is left of it. -/
theorem takeFirst_split (h : takeFirst n es = some taken) : ∃ front e rest, es = front ++ [e] ++ rest ∧ n ≤ e.2 ∧
    taken = (e.1, front ++ (if e.2 = n then [] else [(e.1 + n, e.2 - n)]) ++ rest) := by
  induction es generalizing taken with
  | nil => cases h
  | cons e es ih =>
    rw [takeFirst] at h
    split at h
    · obtain ⟨inner, hinner, rfl⟩ := Option.map_eq_some_iff.mp h
      obtain ⟨front, f, rest, rfl, hfits, rfl⟩ := ih hinner
      exact ⟨e :: front, f, rest, rfl, hfits, rfl⟩
    · next hlarge =>
      refine ⟨[], e, es, rfl, not_lt.mp hlarge, ?_⟩
      split at h
      · next heq => rw [if_pos heq, ← Option.some.inj h]; rfl
      · next hne => rw [if_neg hne, ← Option.some.inj h]; rfl

theorem takeFirst_separated (hes : Separated es) (h : takeFirst n es = some taken) : Separated taken.2 := by
  obtain ⟨front, e, rest, rfl, hfits, rfl⟩ := takeFirst_split h
  dsimp only
  split
  · exact hes.sublist (((nil_sublist [e]).append_left front).append_right rest)
  · next hne =>
    rw [append_assoc, separated_append, separated_append] at hes ⊢
    obtain ⟨hfront, ⟨-, hrest, hbehind⟩, hbefore⟩ := hes
    refine ⟨hfront, ⟨Separated.single (Nat.sub_pos_of_lt (by omega)), hrest, ?_⟩, fun f hf g hg => ?_⟩
    · intro f hf g hg
      have hgap := hbehind e mem_cons_self g hg
      rw [mem_singleton.mp hf]
      dsimp only
      omega
    · rcases mem_append.mp hg with hg | hg
      · have hgap := hbefore f hf e mem_cons_self
        rw [mem_singleton.mp hg]
        dsimp only
        omega
      · exact hbefore f hf g (mem_append_right _ hg)

/-- What was covered is what is left and what was taken. -/
theorem covers_takeFirst (h : takeFirst n es = some taken) :
    Covers es p ↔ Covers taken.2 p ∨ Extent.Holds (taken.1, n) p := by
  obtain ⟨front, e, rest, rfl, hfits, rfl⟩ := takeFirst_split h
  simp only [covers_append]
  refine (or_congr_left ?_).trans or_right_comm
  rw [or_assoc]
  refine or_congr_right ?_
  rw [covers_cons, or_iff_left covers_nil]
  split
  · next heq => rw [or_iff_right covers_nil, ← heq]
  · rw [covers_cons, or_iff_left covers_nil]
    unfold Extent.Holds
    dsimp only
    omega

theorem disjoint_takeFirst (hes : Separated es)
    (h : takeFirst n es = some taken) : Covers taken.2 p → ¬ Extent.Holds (taken.1, n) p := by
  obtain ⟨front, e, rest, rfl, hfits, rfl⟩ := takeFirst_split h
  rw [append_assoc, separated_append, separated_append] at hes
  obtain ⟨-, ⟨-, -, hbehind⟩, hbefore⟩ := hes
  simp only [covers_append]
  rintro ((⟨f, hf, hp⟩ | hp) | ⟨f, hf, hp⟩)
  · have hgap := hbefore f hf e mem_cons_self
    unfold Extent.Holds at hp ⊢
    dsimp only
    omega
  · split at hp
    · exact absurd hp covers_nil
    · rw [covers_cons, or_iff_left covers_nil] at hp
      unfold Extent.Holds at hp ⊢
      dsimp only at hp ⊢
      omega
  · have hgap := hbehind e mem_cons_self f hf
    unfold Extent.Holds at hp ⊢
    dsimp only
    omega

/-! ### Returning -/

/-- Append an extent, or lengthen the last one where the two touch. -/
def addExtent (merged : List Extent) (e : Extent) : List Extent :=
  match merged.getLast? with
  | none => merged ++ [e]
  | some last =>
    if last.1 + last.2 < e.1 then merged ++ [e]
    else merged.dropLast ++ [(last.1, max (last.1 + last.2) (e.1 + e.2) - last.1)]

def coalesce (es : List Extent) : List Extent := es.foldl addExtent []

/-- The order of pairs. -/
def le (a b : Extent) : Prop := a.1 < b.1 ∨ a.1 = b.1 ∧ a.2 ≤ b.2

instance (a b : Extent) : Decidable (le a b) := instDecidableOr

instance : Std.Total le := ⟨fun a b => by unfold le; omega⟩

instance : IsTrans Extent le := ⟨fun a b c hab hbc => by unfold le at *; omega⟩

/-- Sort an extent in and merge. -/
def giveBack (e : Extent) (es : List Extent) : List Extent := coalesce ((es ++ [e]).insertionSort le)

/-- One step of the merge: the list stays separated and starts no later than the new extent. -/
theorem addExtent_ok {merged : List Extent} (hmerged : Separated merged) (hpos : 0 < e.2)
    (hle : ∀ f ∈ merged, f.1 ≤ e.1) :
    Separated (addExtent merged e) ∧ (∀ f ∈ addExtent merged e, f.1 ≤ e.1) ∧
      ∀ p, Covers (addExtent merged e) p ↔ Covers merged p ∨ Extent.Holds e p := by
  rcases eq_nil_or_concat merged with rfl | ⟨front, last, rfl⟩
  · refine ⟨Separated.single hpos, fun f hf => ?_, fun p => ?_⟩
    · rw [mem_singleton.mp hf]
    · exact covers_cons.trans or_comm
  rw [concat_eq_append] at *
  obtain ⟨hfrontSeparated, -, hfront⟩ := separated_append.mp hmerged
  have hlastPos := hmerged.pos last (mem_append_right _ mem_cons_self)
  have hlastLe := hle last (mem_append_right _ mem_cons_self)
  rw [addExtent, getLast?_concat]
  dsimp only
  split
  · next hgap =>
    refine ⟨separated_append.mpr ⟨hmerged, .single hpos, fun f hf g hg => ?_⟩, fun f hf => ?_, fun p => ?_⟩
    · rw [mem_singleton.mp hg]
      rcases mem_append.mp hf with hf | hf
      · have := hfront f hf last mem_cons_self
        omega
      · rwa [mem_singleton.mp hf]
    · rcases mem_append.mp hf with hf | hf
      · exact hle f hf
      · rw [mem_singleton.mp hf]
    · rw [covers_append, covers_cons, or_iff_left covers_nil]
  · next htouch =>
    rw [dropLast_concat]
    refine ⟨separated_append.mpr ⟨hfrontSeparated, .single ?_, fun f hf g hg => ?_⟩, fun f hf => ?_, fun p => ?_⟩
    · dsimp only
      omega
    · rw [mem_singleton.mp hg]
      exact hfront f hf last mem_cons_self
    · rcases mem_append.mp hf with hf | hf
      · exact hle f (mem_append_left _ hf)
      · rw [mem_singleton.mp hf]
        exact hlastLe
    · rw [covers_append, covers_append, covers_cons, covers_cons, or_iff_left covers_nil,
        or_iff_left covers_nil, or_assoc]
      refine or_congr_right ?_
      unfold Extent.Holds
      dsimp only
      omega

/-- Merging a sorted list of extents keeps what it covers and leaves a gap between any two. -/
theorem coalesce_ok (hpos : ∀ e ∈ es, 0 < e.2) (hsorted : es.Pairwise fun a b => a.1 ≤ b.1) :
    Separated (coalesce es) ∧ ∀ p, Covers (coalesce es) p ↔ Covers es p := by
  have hrun : ∀ merged, Separated merged → (∀ f ∈ merged, ∀ e ∈ es, f.1 ≤ e.1) → Separated (es.foldl addExtent merged) ∧
        ∀ p, Covers (es.foldl addExtent merged) p ↔ Covers merged p ∨ Covers es p := by
    induction es with
    | nil => exact fun merged hmerged _ => ⟨hmerged, fun p => (or_iff_left covers_nil).symm⟩
    | cons e es ih =>
      intro merged hmerged hle
      obtain ⟨hfirst, hrest⟩ := pairwise_cons.mp hsorted
      obtain ⟨hadd, haddLe, hcover⟩ := addExtent_ok hmerged (hpos e mem_cons_self) fun f hf => hle f hf e mem_cons_self
      obtain ⟨hseparated, hcovers⟩ := ih (fun f hf => hpos f (mem_cons_of_mem _ hf)) hrest _ hadd
        fun f hf g hg => (haddLe f hf).trans (hfirst g hg)
      refine ⟨hseparated, fun p => ?_⟩
      rw [foldl_cons, hcovers, hcover, covers_cons, or_assoc]
  obtain ⟨hseparated, hcovers⟩ := hrun [] Separated.nil fun _ hf => absurd hf not_mem_nil
  exact ⟨hseparated, fun p => (hcovers p).trans (or_iff_right covers_nil)⟩

theorem giveBack_ok (hes : Separated es) (hpos : 0 < e.2) :
    Separated (giveBack e es) ∧ ∀ p, Covers (giveBack e es) p ↔ Covers es p ∨ Extent.Holds e p := by
  have hperm := perm_insertionSort le (es ++ [e])
  have hsorted : ((es ++ [e]).insertionSort le).Pairwise fun a b => a.1 ≤ b.1 :=
    (pairwise_insertionSort le _).imp fun hab => by unfold le at hab; omega
  have hcount : ∀ f ∈ (es ++ [e]).insertionSort le, 0 < f.2 := by
    intro f hf
    rcases mem_append.mp (hperm.mem_iff.mp hf) with hf | hf
    · exact hes.pos f hf
    · rwa [mem_singleton.mp hf]
  obtain ⟨hseparated, hcovers⟩ := coalesce_ok hcount hsorted
  refine ⟨hseparated, fun p => (hcovers p).trans ?_⟩
  have hsame : Covers ((es ++ [e]).insertionSort le) p ↔ Covers (es ++ [e]) p :=
    exists_congr fun f => and_congr_left fun _ => hperm.mem_iff
  rw [hsame, covers_append, covers_cons, or_iff_left covers_nil]

end Batchgen.Extents
