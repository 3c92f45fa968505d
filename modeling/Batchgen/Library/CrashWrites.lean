import Mathlib.Data.List.Basic

/-!
# Programs that can be stopped between two writes

A critical section is the list of the writes it performs.  Killing the process that runs it leaves the
store with a prefix of that list.  `Survives torn inv s ws` says that `inv` holds after every write of
`ws`, apart from the writes that `torn` names: a section must not be stopped right behind one of those.

* `survives_append` — the rule of sequential composition;
* `Survives.stop` — **what a kill leaves behind**: the invariant holds after every prefix of the writes
  that does not end in a torn one.
-/

namespace Batchgen.CrashWrites

open List

variable {σ ω : Type*} {apply : σ → ω → σ} {torn : σ → ω → Prop} {inv inv' : σ → Prop} {vs ws : List ω} {count : ℕ}
  {s : σ}

/-- The store after a list of writes. -/
def applyAll (apply : σ → ω → σ) (s : σ) (ws : List ω) : σ := ws.foldl apply s

@[simp] theorem applyAll_nil (s : σ) : applyAll apply s [] = s := rfl

@[simp] theorem applyAll_cons (s : σ) (w : ω) (ws : List ω) :
    applyAll apply s (w :: ws) = applyAll apply (apply s w) ws := rfl

@[simp] theorem applyAll_append (s : σ) (ws vs : List ω) :
    applyAll apply s (ws ++ vs) = applyAll apply (applyAll apply s ws) vs :=
  foldl_append

/-- The invariant holds after every write that may be the last one. -/
def Survives (apply : σ → ω → σ) (torn : σ → ω → Prop) (inv : σ → Prop) : σ → List ω → Prop
  | _, [] => True
  | s, w :: ws => (torn s w ∨ inv (apply s w)) ∧ Survives apply torn inv (apply s w) ws

@[simp] theorem survives_nil (s : σ) : Survives apply torn inv s [] := trivial

@[simp] theorem survives_cons {w : ω} : Survives apply torn inv s (w :: ws) ↔
      (torn s w ∨ inv (apply s w)) ∧ Survives apply torn inv (apply s w) ws := Iff.rfl

/-- **Sequential composition.** -/
theorem survives_append : Survives apply torn inv s (ws ++ vs) ↔
      Survives apply torn inv s ws ∧ Survives apply torn inv (applyAll apply s ws) vs := by
  induction ws generalizing s with
  | nil => simp
  | cons w ws ih =>
    rw [cons_append, survives_cons, survives_cons, ih, applyAll_cons, and_assoc]

theorem Survives.append (h : Survives apply torn inv s ws) (h' : Survives apply torn inv (applyAll apply s ws) vs) :
    Survives apply torn inv s (ws ++ vs) :=
  survives_append.mpr ⟨h, h'⟩

theorem Survives.mono (himp : ∀ s, inv s → inv' s) :
    ∀ {s : σ}, Survives apply torn inv s ws → Survives apply torn inv' s ws := by
  induction ws with
  | nil => exact fun _ => trivial
  | cons w ws ih => exact fun h => ⟨h.1.imp id (himp _), ih h.2⟩

/-- A program whose writes all keep the invariant survives and ends in it. -/
theorem Survives.of_keeps (hkeep : ∀ w ∈ ws, ∀ s, inv s → inv (apply s w)) :
    ∀ {s : σ}, inv s → Survives apply torn inv s ws ∧ inv (applyAll apply s ws) := by
  induction ws with
  | nil => exact fun h => ⟨trivial, h⟩
  | cons w ws ih =>
    intro s h
    have hw := hkeep w mem_cons_self s h
    have hrest := ih (fun v hv => hkeep v (mem_cons_of_mem w hv)) hw
    exact ⟨⟨Or.inr hw, hrest.1⟩, hrest.2⟩

/-- Stopping after `count` writes does not stop right behind a torn one. -/
def Stoppable (apply : σ → ω → σ) (torn : σ → ω → Prop) (s : σ) (ws : List ω) (count : ℕ) : Prop :=
  ∀ before w, ws.take count = before ++ [w] → ¬ torn (applyAll apply s before) w

/-- Once something has been written, the store the program started from does not matter. -/
theorem Survives.stop_of_ne_nil (hsurvives : Survives apply torn inv s ws) (hstop : Stoppable apply torn s ws count)
    (hne : ws.take count ≠ []) : inv (applyAll apply s (ws.take count)) := by
  induction ws generalizing s count with
  | nil => simp at hne
  | cons w ws ih =>
    cases count with
    | zero => simp at hne
    | succ count =>
      by_cases hrest : ws.take count = []
      · have heq : (w :: ws).take (count + 1) = [] ++ [w] := by
          rw [take_succ_cons, hrest, nil_append]
        rw [heq]
        exact hsurvives.1.resolve_left (hstop [] w heq)
      · rw [take_succ_cons, applyAll_cons]
        refine ih hsurvives.2 ?_ hrest
        intro before v hv
        have heq : (w :: ws).take (count + 1) = (w :: before) ++ [v] := by
          rw [take_succ_cons, hv, cons_append]
        exact hstop (w :: before) v heq

/-- **What a kill leaves behind** satisfies the invariant. -/
theorem Survives.stop (hinv : inv s) (hsurvives : Survives apply torn inv s ws)
    (hstop : Stoppable apply torn s ws count) : inv (applyAll apply s (ws.take count)) := by
  by_cases hnone : ws.take count = []
  · rw [hnone]
    exact hinv
  · exact hsurvives.stop_of_ne_nil hstop hnone

end Batchgen.CrashWrites
