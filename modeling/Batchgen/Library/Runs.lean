import Mathlib.Logic.Basic

/-!
# Runs of a step function

A system is a function `step s l` that says where the step labelled `l` leads from `s`, if it can be taken there.
`Reached step ok start s` says that some run leads from `start` to `s` all of whose steps meet `ok`.

* `Reached.invariant` — what holds at the start and is kept by every step holds in every state reached;
* `run`, `Reached.of_run`, `Reached.exists_of_run` — a run given by its labels, to be evaluated;
* `run_induction` — what every step of a run keeps, the run keeps.
-/

namespace Batchgen.Runs

variable {σ ι : Type*} {step : σ → ι → Option σ} {ok : σ → ι → Prop} {start s s' : σ}

/-- **A run whose steps meet `ok` leads from `start` to the state.** -/
inductive Reached (step : σ → ι → Option σ) (ok : σ → ι → Prop) (start : σ) : σ → Prop
  | start : Reached step ok start start
  | step {s s' : σ} (l : ι) (h : Reached step ok start s) (hok : ok s l) (hstep : step s l = some s') :
      Reached step ok start s'

/-- The invariant rule. -/
theorem Reached.invariant (inv : σ → Prop) (h : Reached step ok start s) (hstart : inv start)
    (hkeep : ∀ s l s', inv s → ok s l → step s l = some s' → inv s') : inv s := by
  induction h with
  | start => exact hstart
  | step l _ hok hstep ih => exact hkeep _ l _ ih hok hstep

/-- The run with the given labels. -/
def run (step : σ → ι → Option σ) : List ι → σ → Option σ
  | [], s => some s
  | l :: ls, s => (step s l).bind (run step ls)

theorem run_cons {l : ι} {ls : List ι} (h : run step (l :: ls) s = some s') :
    ∃ s₁, step s l = some s₁ ∧ run step ls s₁ = some s' :=
  Option.bind_eq_some_iff.mp h

/-- What every step of the run keeps, the run keeps. -/
theorem run_induction (inv : σ → Prop) {labels : List ι} (h : run step labels s = some s') (hs : inv s)
    (hkeep : ∀ s, ∀ l ∈ labels, ∀ s', inv s → step s l = some s' → inv s') : inv s' := by
  induction labels generalizing s with
  | nil =>
    cases h
    exact hs
  | cons l ls ih =>
    obtain ⟨s₁, hstep, hrun⟩ := run_cons h
    have hs₁ := hkeep s l List.mem_cons_self s₁ hs hstep
    exact ih hrun hs₁ fun s l hl => hkeep s l (List.mem_cons_of_mem _ hl)

/-- The step function that refuses the steps that do not meet `ok`. -/
def guarded (step : σ → ι → Option σ) (ok : σ → ι → Prop) [∀ s l, Decidable (ok s l)] (s : σ) (l : ι) : Option σ :=
  if ok s l then step s l else none

theorem guarded_eq_some [∀ s l, Decidable (ok s l)] {l : ι} :
    guarded step ok s l = some s' ↔ ok s l ∧ step s l = some s' := by
  unfold guarded
  split <;> simp [*]

theorem Reached.of_run [∀ s l, Decidable (ok s l)] (h : Reached step ok start s) (labels : List ι)
    (hrun : run (guarded step ok) labels s = some s') : Reached step ok start s' := by
  refine run_induction (Reached step ok start) hrun h fun s l _ s' hs hstep => ?_
  obtain ⟨hok, hstep⟩ := guarded_eq_some.mp hstep
  exact .step l hs hok hstep

/-- A run to be evaluated, with what holds at its end. -/
theorem Reached.exists_of_run [∀ s l, Decidable (ok s l)] {p : σ → Prop} [DecidablePred p] (labels : List ι)
    (h : (run (guarded step ok) labels start).any (fun s => decide (p s)) = true) :
    ∃ s, Reached step ok start s ∧ p s := by
  cases hrun : run (guarded step ok) labels start with
  | none =>
    rw [hrun] at h
    cases h
  | some s =>
    rw [hrun] at h
    exact ⟨s, Reached.start.of_run labels hrun, of_decide_eq_true h⟩

end Batchgen.Runs
