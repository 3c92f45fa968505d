import Batchgen.WavePlan.Contract

/-!
# What admitting a segment reserves

`need` is the number of pages on the deepest path below a segment, the segment included.  The loop of
`_schedule` runs through the segments from the last to the first, so every child is final when its parent
is updated.
-/

namespace Batchgen.WavePlan

open Function List

variable {seg up : ℕ}

section Loop

variable {segments : List PlanSegment} {pages : ℕ → ℕ}

theorem lt_length_of_parentOf (hup : parentOf segments seg = some up) : seg < segments.length := by
  obtain ⟨s, hs, -⟩ := Option.bind_eq_some_iff.mp hup
  exact (List.getElem?_eq_some_iff.mp hs).1

/-- The loop has run through the segments from `k` on. -/
structure NeedFrom (segments : List PlanSegment) (pages : ℕ → ℕ) (k : ℕ) (need : ℕ → ℕ) : Prop where
  own : ∀ seg, pages seg ≤ need seg
  child : ∀ seg up, k ≤ seg → parentOf segments seg = some up → pages up + need seg ≤ need up
  attained : ∀ up, need up = pages up ∨
    ∃ seg, k ≤ seg ∧ parentOf segments seg = some up ∧ need up = pages up + need seg

section

variable (hlt : ∀ seg up, parentOf segments seg = some up → up < seg)
include hlt

theorem NeedFrom.step {need : ℕ → ℕ} {k : ℕ} (h : NeedFrom segments pages (k + 1) need) :
    NeedFrom segments pages k (needStep segments pages need k) := by
  unfold needStep
  cases hup : parentOf segments k with
  | none =>
    refine ⟨h.own, fun seg up hk hparent => ?_, fun up => ?_⟩
    · rcases Nat.eq_or_lt_of_le hk with rfl | hk
      · rw [hup] at hparent
        cases hparent
      · exact h.child seg up hk hparent
    · refine (h.attained up).imp id ?_
      rintro ⟨seg, hk, hparent, heq⟩
      exact ⟨seg, Nat.le_of_succ_le hk, hparent, heq⟩
  | some up =>
    have hbefore := hlt k up hup
    change NeedFrom segments pages k (update need up (max (need up) (pages up + need k)))
    generalize hnew : update need up (max (need up) (pages up + need k)) = need'
    have hself : need' up = max (need up) (pages up + need k) := by
      rw [← hnew, update_self]
    have hother : ∀ seg, seg ≠ up → need' seg = need seg := fun seg hne => by
      rw [← hnew, update_of_ne hne]
    -- only `up` changes, and it lies before everything from `k` on
    have hsame : ∀ seg, k ≤ seg → need' seg = need seg := fun seg hk => hother seg (by omega)
    have hgrow : ∀ seg, need seg ≤ need' seg := by
      intro seg
      rcases eq_or_ne seg up with rfl | hne
      · rw [hself]
        exact le_max_left _ _
      · rw [hother seg hne]
    refine ⟨fun seg => (h.own seg).trans (hgrow seg), fun seg parent hk hparent => ?_, fun parent => ?_⟩
    · rw [hsame seg hk]
      rcases Nat.eq_or_lt_of_le hk with rfl | hk
      · cases hup.symm.trans hparent
        rw [hself]
        exact le_max_right _ _
      · exact (h.child seg parent hk hparent).trans (hgrow parent)
    · have hold : need parent = pages parent ∨ ∃ seg, k ≤ seg ∧ parentOf segments seg = some parent ∧
          need parent = pages parent + need' seg := by
        refine (h.attained parent).imp id ?_
        rintro ⟨seg, hk, hparent, heq⟩
        have hle := Nat.le_of_succ_le hk
        exact ⟨seg, hle, hparent, by rw [hsame seg hle, heq]⟩
      rcases eq_or_ne parent up with rfl | hne
      · rw [hself]
        rcases le_total (need parent) (pages parent + need k) with hmax | hmax
        · rw [max_eq_right hmax]
          exact Or.inr ⟨k, le_rfl, hup, by rw [hsame k le_rfl]⟩
        · rwa [max_eq_left hmax]
      · rwa [hother parent hne]

theorem needPages_from : NeedFrom segments pages 0 (needPages segments pages) := by
  have hrun : ∀ k need, NeedFrom segments pages k need →
      NeedFrom segments pages 0 ((List.range k).reverse.foldl (needStep segments pages) need) := by
    intro k
    induction k with
    | zero => exact fun need h => h
    | succ k ih =>
      intro need h
      rw [range_succ, reverse_append, reverse_singleton, singleton_append, foldl_cons]
      exact ih _ (h.step hlt)
  refine hrun _ _ ⟨fun seg => le_rfl, fun seg up hk hparent => ?_, fun up => Or.inl rfl⟩
  exact absurd (lt_length_of_parentOf hparent) (not_lt.mpr hk)

end

end Loop

namespace WorkValid

variable {prompts : List Tokens} {blockTokens : ℕ} {work : Work}
variable (h : WorkValid prompts blockTokens work)
include h

theorem parent_lt (hup : parentOf work.segments seg = some up) : up < seg :=
  ItemsValid.parentOf_lt h.segments hup

theorem needFrom : NeedFrom work.segments work.pages 0 work.need := by
  rw [h.need]
  exact needPages_from fun seg up hup => h.parent_lt hup

theorem pages_le_need (seg : ℕ) : work.pages seg ≤ work.need seg := h.needFrom.own seg

theorem need_child (hup : parentOf work.segments seg = some up) : work.pages up + work.need seg ≤ work.need up :=
  h.needFrom.child seg up (Nat.zero_le _) hup

/-- A path downwards never takes more than its first segment reserves. -/
theorem path_le_need {below : List ℕ} (hlinked : LinkedFrom (parentOf work.segments) (some seg) below) :
    sumPages work.pages (seg :: below) ≤ work.need seg := by
  induction below generalizing seg with
  | nil => simpa [sumPages] using h.pages_le_need seg
  | cons next below ih =>
    have hnext := ih hlinked.2
    have hstep := h.need_child hlinked.1
    simp only [sumPages, map_cons, sum_cons] at hnext ⊢
    omega

/-- Some path downwards takes all of it. -/
theorem exists_path (seg : ℕ) : ∃ below, LinkedFrom (parentOf work.segments) (some seg) below ∧
      work.need seg = sumPages work.pages (seg :: below) := by
  -- on the segments behind `seg`, where its children are
  induction hn : work.segments.length - seg using Nat.strong_induction_on generalizing seg with
  | _ n ih =>
    rcases h.needFrom.attained seg with hleaf | ⟨child, -, hparent, hneed⟩
    · exact ⟨[], trivial, by simpa [sumPages] using hleaf⟩
    have hbefore := h.parent_lt hparent
    have hchild := lt_length_of_parentOf hparent
    obtain ⟨below, hlinked, hsum⟩ := ih _ (by omega) child rfl
    refine ⟨child :: below, ⟨hparent, hlinked⟩, ?_⟩
    rw [hneed, hsum]
    simp [sumPages]

end WorkValid

end Batchgen.WavePlan
