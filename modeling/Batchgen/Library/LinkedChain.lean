import Mathlib.Data.List.Nodup

/-!
# Singly linked chains inside a link array

A chain is stored as a head and an array `links`: the successor of a cell is read from the array, and
the value `stop` ends the walk.  `IsChain stop links head cells` says that the walk from `head` visits
exactly `cells`.  The facts below are what a program that edits such chains in place needs:

* `IsChain.unique`, `IsChain.nodup` — a walk that ends is determined by its head and repeats nothing;
* `IsChain.congr` — the frame rule: links outside the chain do not matter;
* `IsChain.relink` — another chain behind a cell;
* `IsChain.snoc`, `IsChain.remove_head`, `IsChain.remove_inner`, `IsChain.drop` — appending behind
  the last cell, unlinking one cell, and dropping a front segment.
-/

namespace Batchgen.LinkedChain

open Function List

variable {α : Type*} {stop head c v : α} {links links' : α → α} {cs xs ys cells : List α}

/-- Following `links` from `head` visits exactly `cells` and then reads `stop`. -/
def IsChain (stop : α) (links : α → α) : α → List α → Prop
  | head, [] => head = stop
  | head, c :: cs => head = c ∧ c ≠ stop ∧ IsChain stop links (links c) cs

/-- The cells a walk of at most `fuel` steps visits. -/
def walk [DecidableEq α] (stop : α) (links : α → α) : ℕ → α → List α
  | 0, _ => []
  | fuel + 1, cell => if cell = stop then [] else cell :: walk stop links fuel (links cell)

/-- The last cell of a chain, or `stop` for the empty one. -/
def lastCell (stop : α) (cells : List α) : α := cells.getLastD stop

@[simp] theorem isChain_nil : IsChain stop links head [] ↔ head = stop := Iff.rfl

@[simp] theorem isChain_cons :
    IsChain stop links head (c :: cs) ↔ head = c ∧ c ≠ stop ∧ IsChain stop links (links c) cs :=
  Iff.rfl

@[simp] theorem lastCell_nil : lastCell stop ([] : List α) = stop := rfl

@[simp] theorem lastCell_append_singleton (cs : List α) (c : α) : lastCell stop (cs ++ [c]) = c := by
  simp [lastCell]

theorem lastCell_cons (c : α) (cs : List α) : lastCell stop (c :: cs) = lastCell c cs := by
  cases cs <;> rfl

theorem lastCell_cons_cons {d e : α} {es : List α} : lastCell stop (d :: e :: es) = lastCell stop (e :: es) := by
  rw [lastCell_cons, lastCell_cons, lastCell_cons]

theorem lastCell_append_of_ne_nil (h : ys ≠ []) : lastCell stop (xs ++ ys) = lastCell stop ys := by
  rw [lastCell, lastCell, getLastD_eq_getLast?, getLastD_eq_getLast?, getLast?_append_of_ne_nil _ h]

theorem lastCell_mem (h : cells ≠ []) : lastCell stop cells ∈ cells := by
  rw [lastCell, getLastD_eq_getLast?, getLast?_eq_some_getLast h]
  exact getLast_mem h

theorem IsChain.head_eq (h : IsChain stop links head cells) : head = cells.headD stop := by
  cases cells with
  | nil => exact h
  | cons c cs => exact h.1

theorem IsChain.not_mem_stop (h : IsChain stop links head cells) : stop ∉ cells := by
  induction cells generalizing head with
  | nil => simp
  | cons c cs ih =>
    intro hmem
    rcases mem_cons.mp hmem with heq | hmem
    · exact h.2.1 heq.symm
    · exact ih h.2.2 hmem

/-- The last cell of a chain links to the end. -/
theorem IsChain.link_lastCell (h : IsChain stop links head cells) (hne : cells ≠ []) :
    links (lastCell stop cells) = stop := by
  induction cells generalizing head with
  | nil => exact absurd rfl hne
  | cons c cs ih =>
    cases cs with
    | nil => exact h.2.2
    | cons d ds =>
      rw [lastCell_cons_cons]
      exact ih h.2.2 (by simp)

/-- **The walk is deterministic.** -/
theorem IsChain.unique (hx : IsChain stop links head xs) (hy : IsChain stop links head ys) : xs = ys := by
  induction xs generalizing head ys with
  | nil =>
    cases ys with
    | nil => rfl
    | cons y ys => exact absurd (hy.1.symm.trans hx) hy.2.1
  | cons x xs ih =>
    cases ys with
    | nil => exact absurd (hx.1.symm.trans hy) hx.2.1
    | cons y ys =>
      obtain ⟨rfl, _, hx⟩ := hx
      obtain ⟨rfl, _, hy⟩ := hy
      rw [ih hx hy]

/-- The part of a chain behind a cell is the chain from that cell. -/
theorem IsChain.suffix (h : IsChain stop links head (xs ++ c :: ys)) : IsChain stop links c (c :: ys) := by
  induction xs generalizing head with
  | nil =>
    obtain ⟨rfl, hc⟩ := h
    exact ⟨rfl, hc⟩
  | cons x xs ih => exact ih h.2.2

/-- A walk that reaches `stop` never visits a cell twice: the second visit would restart it. -/
theorem IsChain.nodup (h : IsChain stop links head cells) : cells.Nodup := by
  induction cells generalizing head with
  | nil => exact nodup_nil
  | cons c cs ih =>
    rw [nodup_cons]
    refine ⟨fun hmem => ?_, ih h.2.2⟩
    obtain ⟨ys, zs, hsplit⟩ := append_of_mem hmem
    have htail : IsChain stop links c (c :: zs) := by
      have h' := h.2.2
      rw [hsplit] at h'
      exact h'.suffix
    have heq := IsChain.unique (h.1 ▸ h) htail
    rw [hsplit] at heq
    have hlen := congrArg List.length heq
    simp only [length_cons, length_append] at hlen
    omega

/-- **Frame rule.**  Only the links of the chain's own cells matter. -/
theorem IsChain.congr (h : IsChain stop links head cells)
    (heq : ∀ c ∈ cells, links' c = links c) : IsChain stop links' head cells := by
  induction cells generalizing head with
  | nil => exact h
  | cons c cs ih =>
    refine ⟨h.1, h.2.1, ?_⟩
    rw [heq c mem_cons_self]
    exact ih h.2.2 fun d hd => heq d (mem_cons_of_mem c hd)

/-- Dropping a front segment leaves the chain of the rest. -/
theorem IsChain.drop (h : IsChain stop links head (xs ++ ys)) : IsChain stop links (ys.headD stop) ys := by
  cases ys with
  | nil => rfl
  | cons y ys => exact h.suffix

section Update

variable [DecidableEq α]

theorem IsChain.update_of_not_mem (h : IsChain stop links head cells) (hc : c ∉ cells) :
    IsChain stop (update links c v) head cells := by
  apply h.congr
  intro d hd
  have hne : d ≠ c := fun heq => hc (heq ▸ hd)
  exact update_of_ne hne _ _

/-- What hangs behind the last kept cell is exchanged for another chain. -/
theorem IsChain.relink {kept : List α} (h : IsChain stop links head (kept ++ ys)) (hne : kept ≠ [])
    (hrest : IsChain stop links v cs) (hlast : lastCell stop kept ∉ cs) :
    IsChain stop (update links (lastCell stop kept) v) head (kept ++ cs) := by
  induction kept generalizing head with
  | nil => exact absurd rfl hne
  | cons d ds ih =>
    have hnd : d ∉ ds ++ ys := (nodup_cons.mp h.nodup).1
    refine ⟨h.1, h.2.1, ?_⟩
    cases ds with
    | nil =>
      rw [lastCell_cons, lastCell_nil] at hlast ⊢
      rw [update_self]
      exact hrest.update_of_not_mem hlast
    | cons e es =>
      have hdlast : d ≠ lastCell stop (e :: es) := by
        intro heq
        exact hnd (mem_append_left _ (heq ▸ lastCell_mem (by simp)))
      rw [lastCell_cons_cons] at hlast ⊢
      rw [update_of_ne hdlast]
      exact ih h.2.2 (by simp) hlast

/-- **Append.**  Linking a fresh cell behind the last one extends the chain by it. -/
theorem IsChain.snoc (h : IsChain stop links head cells) (hne : cells ≠ []) (hstop : c ≠ stop) (hfresh : c ∉ cells)
    (hlink : links c = stop) : IsChain stop (update links (lastCell stop cells) c) head (cells ++ [c]) := by
  rw [← append_nil cells] at h
  refine h.relink hne ⟨rfl, hstop, hlink⟩ fun hmem => hfresh ?_
  exact mem_singleton.mp hmem ▸ lastCell_mem hne

/-- **Unlink the first cell.** -/
theorem IsChain.remove_head (h : IsChain stop links head (c :: cs)) : IsChain stop (update links c v) (links c) cs := by
  have hnodup := h.nodup
  rw [nodup_cons] at hnodup
  exact h.2.2.update_of_not_mem hnodup.1

/-- **Unlink an inner cell**: its predecessor takes over its successor. -/
theorem IsChain.remove_inner {kept : List α} (h : IsChain stop links head (kept ++ c :: cs)) (hne : kept ≠ []) :
    IsChain stop (update (update links (lastCell stop kept) (links c)) c v) head (kept ++ cs) := by
  have hfresh : c ∉ kept ++ cs := (nodup_cons.mp (nodup_middle.mp h.nodup)).1
  refine (h.relink hne h.suffix.2.2 fun hmem => ?_).update_of_not_mem hfresh
  exact (nodup_append.mp h.nodup).2.2 _ (lastCell_mem hne) _ (mem_cons_of_mem c hmem) rfl

end Update

end Batchgen.LinkedChain
