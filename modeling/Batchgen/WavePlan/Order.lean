import Batchgen.WavePlan.Plan
import Batchgen.WavePlan.Segments

/-!
# Chains of segments and the order they are numbered in

Lemmas about `LinkedFrom` chains, and what the stack loop of `_schedule` lists: every pooled segment
once, each after its parent.
-/

namespace Batchgen.WavePlan

open List Option

variable {seg : ℕ} {visited stack : List ℕ}

/-! ### Chains -/

section Chains

variable {parent : ℕ → Option ℕ} {up : Option ℕ} {xs ys : List ℕ}

theorem linkedFrom_append :
    LinkedFrom parent up (xs ++ ys) ↔ LinkedFrom parent up xs ∧ LinkedFrom parent (xs.getLast?.or up) ys := by
  induction xs generalizing up with
  | nil => simp [LinkedFrom]
  | cons x xs ih =>
    rw [cons_append, LinkedFrom, LinkedFrom, ih, and_assoc]
    have hlast : (x :: xs).getLast?.or up = xs.getLast?.or (some x) := by
      cases xs with
      | nil => rfl
      | cons y ys => simp [getLast?_cons]
    rw [hlast]

/-- A chain that is renumbered. -/
theorem LinkedFrom.map {parent' : ℕ → Option ℕ} {f : ℕ → ℕ} (h : LinkedFrom parent up xs)
    (heq : ∀ x ∈ xs, parent' (f x) = (parent x).map f) : LinkedFrom parent' (up.map f) (xs.map f) := by
  induction xs generalizing up with
  | nil => trivial
  | cons x xs ih =>
    refine ⟨?_, ih h.2 fun y hy => heq y (mem_cons_of_mem x hy)⟩
    rw [heq x mem_cons_self, h.1]

/-- What holds between every parent and its children holds along a chain. -/
theorem LinkedFrom.pairwise {R : ℕ → ℕ → Prop} [IsTrans ℕ R] (hR : ∀ x ∈ xs, ∀ p, parent x = some p → R p x)
    (h : LinkedFrom parent up xs) : xs.Pairwise R ∧ ∀ p, up = some p → ∀ x ∈ xs, R p x := by
  induction xs generalizing up with
  | nil => simp
  | cons x xs ih =>
    obtain ⟨hpairs, hbelow⟩ := ih (fun y hy => hR y (mem_cons_of_mem x hy)) h.2
    refine ⟨pairwise_cons.mpr ⟨hbelow x rfl, hpairs⟩, fun p hp y hy => ?_⟩
    have hpx := hR x mem_cons_self p (h.1.trans hp)
    rcases mem_cons.mp hy with rfl | hy
    · exact hpx
    · exact IsTrans.trans p x y hpx (hbelow x rfl y hy)

/-- Along a chain the numbers rise when every parent is numbered before its children. -/
theorem LinkedFrom.sorted (hlt : ∀ x ∈ xs, ∀ p, parent x = some p → p < x) (h : LinkedFrom parent up xs) :
    xs.Pairwise (· < ·) ∧ ∀ p, up = some p → ∀ x ∈ xs, p < x :=
  h.pairwise hlt

/-- A chain from the root holds the parent of each of its segments. -/
theorem LinkedFrom.parent_mem {p : ℕ} (h : LinkedFrom parent none xs) (hseg : seg ∈ xs)
    (hp : parent seg = some p) : p ∈ xs := by
  obtain ⟨before, after, rfl⟩ := append_of_mem hseg
  obtain ⟨-, hrest⟩ := linkedFrom_append.mp h
  have hlast : before.getLast? = some p := by
    rw [← hp, hrest.1, or_none]
  exact mem_append_left _ (mem_of_getLast? hlast)

/-- A chain from the root is known by its end. -/
theorem LinkedFrom.unique (h : LinkedFrom parent none xs) (h' : LinkedFrom parent none ys)
    (hlast : xs.getLast? = ys.getLast?) : xs = ys := by
  induction xs using List.reverseRecOn generalizing ys with
  | nil =>
    rw [getLast?_nil] at hlast
    exact (getLast?_eq_none_iff.mp hlast.symm).symm
  | append_singleton xs x ih =>
    rw [getLast?_concat] at hlast
    obtain ⟨ys, rfl⟩ := getLast?_eq_some_iff.mp hlast.symm
    obtain ⟨hxs, hx⟩ := linkedFrom_append.mp h
    obtain ⟨hys, hy⟩ := linkedFrom_append.mp h'
    have hup : xs.getLast?.or none = ys.getLast?.or none := hx.1.symm.trans hy.1
    rw [or_none, or_none] at hup
    rw [ih hxs hys hup]

end Chains

/-- A property that, along the list, only goes from true to false keeps a front part. -/
theorem filter_eq_take {p : ℕ → Bool} {xs : List ℕ} (h : xs.Pairwise fun a b => p b = true → p a = true) :
    xs.filter p = xs.take (xs.filter p).length := by
  induction xs with
  | nil => rfl
  | cons x xs ih =>
    obtain ⟨hx, hxs⟩ := pairwise_cons.mp h
    by_cases hp : p x = true
    · rw [filter_cons_of_pos hp, length_cons, take_succ_cons, ← ih hxs]
    · have hnil : xs.filter p = [] := by
        rw [filter_eq_nil_iff]
        exact fun y hy hpy => hp (hx y hy hpy)
      rw [filter_cons_of_neg hp, hnil]
      rfl

theorem mem_of_split {α : Type*} {xs before after : List α} {x : α} (h : xs = before ++ x :: after) : x ∈ xs := by
  rw [h]
  exact mem_append_right _ mem_cons_self

theorem append_singleton_split {α : Type*} {xs before after : List α} {x y : α} (h : xs ++ [x] = before ++ y :: after) :
    (before = xs ∧ y = x) ∨ ∃ rest, xs = before ++ y :: rest := by
  rcases eq_nil_or_concat after with rfl | ⟨rest, z, rfl⟩
  · obtain ⟨rfl, hyx⟩ := append_inj' h rfl
    exact Or.inl ⟨rfl, (List.cons.inj hyx).1.symm⟩
  · rw [concat_eq_append, ← cons_append, ← append_assoc] at h
    exact Or.inr ⟨rest, append_inj_left' h rfl⟩

/-! ### The stack loop -/

/-- `visited` has been listed and `stack` is still to be. -/
structure Visiting (tree : Tree) (pooled : ℕ → Bool) (visited stack : List ℕ) : Prop where
  nodup : (visited ++ stack).Nodup
  known : ∀ seg ∈ visited ++ stack, seg < tree.size ∧ pooled seg = true
  roots : ∀ seg < tree.size, pooled seg = true → tree.parent seg = none → seg ∈ visited ++ stack
  kids : ∀ seg < tree.size, pooled seg = true → ∀ up ∈ visited, tree.parent seg = some up →
    seg ∈ visited ++ stack
  ups : ∀ seg ∈ stack, ∀ up, tree.parent seg = some up → up ∈ visited
  sorted : ∀ before seg after, visited = before ++ seg :: after → ∀ up, tree.parent seg = some up →
    up ∈ before

section Visits

variable {tree : Tree} {pooled : ℕ → Bool}

theorem mem_pooledKids {up : Option ℕ} :
    seg ∈ pooledKids tree pooled up ↔ seg < tree.size ∧ pooled seg = true ∧ tree.parent seg = up := by
  simp [pooledKids, mem_filter]

theorem visiting_start : Visiting tree pooled [] (pooledKids tree pooled none) := by
  refine ⟨?_, fun seg hseg => ?_, fun seg hseg hp hroot => ?_, fun _ _ _ _ hup => (by cases hup),
    fun seg hseg up hup => ?_, fun before seg after heq => ?_⟩
  · exact nodup_range.filter _
  · obtain ⟨hlt, hp, -⟩ := mem_pooledKids.mp hseg
    exact ⟨hlt, hp⟩
  · exact mem_pooledKids.mpr ⟨hseg, hp, hroot⟩
  · rw [(mem_pooledKids.mp hseg).2.2] at hup
    cases hup
  · simp at heq

/-- One turn of the stack loop. -/
theorem Visiting.pop (h : Visiting tree pooled visited (seg :: stack)) :
    Visiting tree pooled (visited ++ [seg]) (pooledKids tree pooled (some seg) ++ stack) := by
  have hnodup := h.nodup
  rw [nodup_append] at hnodup
  have hnotVisited : seg ∉ visited := fun hmem =>
    hnodup.2.2 seg hmem seg mem_cons_self rfl
  -- a child of `seg` is not known yet: its parent would have been visited
  have hkidsNew : ∀ kid ∈ pooledKids tree pooled (some seg), kid ∉ visited ++ seg :: stack := by
    intro kid hkid hmem
    have hparent := (mem_pooledKids.mp hkid).2.2
    rcases mem_append.mp hmem with hmem | hmem
    · obtain ⟨before, after, hsplit⟩ := append_of_mem hmem
      exact hnotVisited (hsplit ▸ mem_append_left _ (h.sorted before kid after hsplit seg hparent))
    · exact hnotVisited (h.ups kid hmem seg hparent)
  have hmem : ∀ x, x ∈ visited ++ [seg] ++ (pooledKids tree pooled (some seg) ++ stack) ↔
      x ∈ visited ++ seg :: stack ∨ x ∈ pooledKids tree pooled (some seg) := by
    intro x
    simp only [mem_append, mem_cons, not_mem_nil, or_false]
    tauto
  refine ⟨?_, fun x hx => ?_, fun x hx hp hroot => ?_, fun x hx hp up hup hparent => ?_,
    fun x hx up hup => ?_, fun before x after heq up hup => ?_⟩
  · have hperm : (visited ++ [seg] ++ (pooledKids tree pooled (some seg) ++ stack)).Perm
        (pooledKids tree pooled (some seg) ++ (visited ++ seg :: stack)) := by
      rw [append_assoc, ← append_assoc [seg]]
      refine (List.Perm.append_left visited ((perm_append_comm).append_right stack)).trans ?_
      rw [append_assoc, ← append_assoc visited]
      refine (perm_append_comm.append_right _).trans ?_
      rw [append_assoc]
      rfl
    rw [hperm.nodup_iff, nodup_append]
    refine ⟨nodup_range.filter _, h.nodup, ?_⟩
    rintro x hx y hy rfl
    exact hkidsNew x hx hy
  · rcases (hmem x).mp hx with hx | hx
    · exact h.known x hx
    · obtain ⟨hlt, hp, -⟩ := mem_pooledKids.mp hx
      exact ⟨hlt, hp⟩
  · exact (hmem x).mpr (Or.inl (h.roots x hx hp hroot))
  · rcases mem_append.mp hup with hup | hup
    · exact (hmem x).mpr (Or.inl (h.kids x hx hp up hup hparent))
    · rw [mem_singleton.mp hup] at hparent
      exact (hmem x).mpr (Or.inr (mem_pooledKids.mpr ⟨hx, hp, hparent⟩))
  · rcases mem_append.mp hx with hx | hx
    · rw [(mem_pooledKids.mp hx).2.2] at hup
      cases hup
      simp
    · exact mem_append_left _ (h.ups x (mem_cons_of_mem _ hx) up hup)
  · rcases append_singleton_split heq with ⟨rfl, rfl⟩ | ⟨rest, hvisited⟩
    · exact h.ups x mem_cons_self up hup
    · exact h.sorted before x rest hvisited up hup

/-- The loop lists the rest of the pooled segments when it has a turn for each. -/
theorem Visiting.dfsOrder {fuel : ℕ} (h : Visiting tree pooled visited stack)
    (hfuel : tree.size ≤ fuel + visited.length) :
    Visiting tree pooled (visited ++ dfsOrder (pooledKids tree pooled) fuel stack) [] := by
  induction fuel generalizing visited stack with
  | zero =>
    -- every segment has been visited, so nothing is left
    have hlen : (visited ++ stack).length ≤ tree.size := by
      have hsub : (visited ++ stack).Subperm (List.range tree.size) :=
        subperm_of_subset h.nodup fun seg hseg => mem_range.mpr (h.known seg hseg).1
      simpa using hsub.length_le
    have hnil : stack = [] := by
      rw [length_append] at hlen
      exact length_eq_zero_iff.mp (by omega)
    subst hnil
    simpa [WavePlan.dfsOrder] using h
  | succ fuel ih =>
    cases stack with
    | nil => simpa [WavePlan.dfsOrder] using h
    | cons seg stack =>
      have hnext := ih h.pop (by rw [length_append, length_singleton]; omega)
      rw [append_assoc, singleton_append] at hnext
      exact hnext

/-- **The order of the pooled segments**: each once, after its parent. -/
theorem dfsOrder_spec (hlt : ∀ seg < tree.size, ∀ up, tree.parent seg = some up → up < seg)
    (hclosed : ∀ seg < tree.size, pooled seg = true → ∀ up, tree.parent seg = some up → pooled up = true) :
    (dfsOrder (pooledKids tree pooled) tree.size (pooledKids tree pooled none)).Nodup ∧
      (∀ seg, seg ∈ dfsOrder (pooledKids tree pooled) tree.size (pooledKids tree pooled none) ↔
        seg < tree.size ∧ pooled seg = true) ∧ ∀ before seg after,
        dfsOrder (pooledKids tree pooled) tree.size (pooledKids tree pooled none) = before ++ seg :: after →
        ∀ up, tree.parent seg = some up → up ∈ before := by
  have hvisit : Visiting tree pooled
      ([] ++ dfsOrder (pooledKids tree pooled) tree.size (pooledKids tree pooled none)) [] :=
    visiting_start.dfsOrder (by simp)
  rw [nil_append] at hvisit
  generalize dfsOrder (pooledKids tree pooled) tree.size (pooledKids tree pooled none) = order at *
  have hnodup := hvisit.nodup
  have hknown := hvisit.known
  have hroots := hvisit.roots
  have hkids := hvisit.kids
  simp only [append_nil] at hnodup hknown hroots hkids
  refine ⟨hnodup, fun seg => ⟨hknown seg, ?_⟩, hvisit.sorted⟩
  -- on the number of the segment: its parent is numbered before it
  induction seg using Nat.strong_induction_on with
  | _ seg ih =>
    rintro ⟨hseg, hp⟩
    cases hparent : tree.parent seg with
    | none => exact hroots seg hseg hp hparent
    | some up =>
      have hup := hlt seg hseg up hparent
      have hin := ih up hup ⟨hup.trans hseg, hclosed seg hseg hp up hparent⟩
      exact hkids seg hseg hp up hin hparent

end Visits

end Batchgen.WavePlan
