import Mathlib.Data.Nat.Notation
import Mathlib.Logic.Basic

/-!
# Programs that keep their state when they throw

An `EStateM` program returns a value or throws, and in both cases leaves a state behind: the writes
made before a throw stay.  `Ends x s ret exc` says that `x`, run from `s`, returns into `ret` or throws
into `exc`.  It is computed through the program by one equation per construct, all of them `simp`
lemmas, and a caller uses a callee through `Ends.mono` and never unfolds it.

* `ends_pure`, `ends_throw`, `ends_get`, `ends_set`, `ends_modify`, `ends_bind` — the equations;
* `Ends.mono` — weakening;
* `Keeps`, `Keeps.bind`, `Keeps.forM`, `Keeps.foldlM` — an invariant that holds however the program ends, and its loops;
* `bind_ok`, `except_bind_ok`, `except_forM_ok`, `forM_range_ok` — programs that are known to return.
-/

namespace Batchgen.Outcome

open List

universe u

variable {ε σ α β : Type u}

/-- **`x` run from `s` returns into `ret` or throws into `exc`.** -/
def Ends (x : EStateM ε σ α) (s : σ) (ret : α → σ → Prop) (exc : ε → σ → Prop) : Prop :=
  match x s with
  | .ok a s' => ret a s'
  | .error e s' => exc e s'

variable {s : σ} {ret : α → σ → Prop} {exc : ε → σ → Prop}

/-- On a concrete state the outcome can be computed. -/
instance [∀ a s, Decidable (ret a s)] [∀ e s, Decidable (exc e s)] {x : EStateM ε σ α} :
    Decidable (Ends x s ret exc) :=
  match h : x s with
  | .ok a s' => decidable_of_iff (ret a s') (by rw [Ends, h])
  | .error e s' => decidable_of_iff (exc e s') (by rw [Ends, h])

@[simp] theorem ends_pure {a : α} : Ends (pure a : EStateM ε σ α) s ret exc ↔ ret a s := Iff.rfl

@[simp] theorem ends_throw {e : ε} : Ends (throw e : EStateM ε σ α) s ret exc ↔ exc e s := Iff.rfl

@[simp] theorem ends_get {ret : σ → σ → Prop} : Ends (get : EStateM ε σ σ) s ret exc ↔ ret s s := Iff.rfl

@[simp] theorem ends_set {s' : σ} {ret : PUnit → σ → Prop} :
    Ends (set s' : EStateM ε σ PUnit) s ret exc ↔ ret ⟨⟩ s' := Iff.rfl

@[simp] theorem ends_modify {f : σ → σ} {ret : PUnit → σ → Prop} :
    Ends (modify f : EStateM ε σ PUnit) s ret exc ↔ ret ⟨⟩ (f s) := Iff.rfl

@[simp] theorem ends_bind {x : EStateM ε σ β} {f : β → EStateM ε σ α} :
    Ends (x >>= f) s ret exc ↔ Ends x s (fun b s' => Ends (f b) s' ret exc) exc := by
  unfold Ends
  show (match EStateM.bind x f s with | .ok a s' => ret a s' | .error e s' => exc e s') ↔ _
  unfold EStateM.bind
  cases x s <;> rfl

@[simp] theorem ends_map {x : EStateM ε σ β} {f : β → α} :
    Ends (f <$> x) s ret exc ↔ Ends x s (fun b s' => ret (f b) s') exc := by
  unfold Ends
  show (match EStateM.map f x s with | .ok a s' => ret a s' | .error e s' => exc e s') ↔ _
  unfold EStateM.map
  cases x s <;> rfl

/-- **Consequence.** -/
theorem Ends.mono {x : EStateM ε σ α} {ret' : α → σ → Prop} {exc' : ε → σ → Prop}
    (h : Ends x s ret exc) (hret : ∀ a s', ret a s' → ret' a s')
    (hexc : ∀ e s', exc e s' → exc' e s') : Ends x s ret' exc' := by
  unfold Ends at h ⊢
  cases hx : x s with
  | ok a s' => rw [hx] at h; exact hret a s' h
  | error e s' => rw [hx] at h; exact hexc e s' h

/-- A run that does not throw returns. -/
theorem Ends.exists_ok {x : EStateM ε σ α} (h : Ends x s ret fun _ _ => False) : ∃ a s', x s = .ok a s' ∧ ret a s' := by
  unfold Ends at h
  cases hx : x s with
  | ok a s' =>
    rw [hx] at h
    exact ⟨a, s', rfl, h⟩
  | error e s' =>
    rw [hx] at h
    exact h.elim

theorem Ends.of_ok {x : EStateM ε σ α} {a : α} {s' : σ} (h : Ends x s ret exc) (hx : x s = .ok a s') : ret a s' := by
  unfold Ends at h
  rwa [hx] at h

theorem Ends.of_error {x : EStateM ε σ α} {e : ε} {s' : σ} (h : Ends x s ret exc)
    (hx : x s = .error e s') : exc e s' := by
  unfold Ends at h
  rwa [hx] at h

/-! ### Invariants -/

/-- **`x` keeps `inv`, whether it returns or throws, and throws only exceptions in `err`.** -/
def Keeps (err : ε → Prop) (inv : σ → Prop) (x : EStateM ε σ α) : Prop :=
  ∀ s, inv s → Ends x s (fun _ => inv) (fun e s' => err e ∧ inv s')

variable {err : ε → Prop} {inv : σ → Prop}

theorem Keeps.pure (a : α) : Keeps err inv (Pure.pure a : EStateM ε σ α) := fun _ h => h

theorem Keeps.modify {f : σ → σ} (h : ∀ s, inv s → inv (f s)) : Keeps err inv (modify f : EStateM ε σ PUnit) := h

theorem Keeps.bind {x : EStateM ε σ β} {f : β → EStateM ε σ α} (hx : Keeps err inv x)
    (hf : ∀ b, Keeps err inv (f b)) : Keeps err inv (x >>= f) := by
  intro s hs
  rw [ends_bind]
  exact (hx s hs).mono (fun b s' hs' => hf b s' hs') fun _ _ hs' => hs'

/-- A program that reads the state first, with what the invariant says about it. -/
theorem Keeps.get_bind {f : σ → EStateM ε σ α}
    (hf : ∀ s, inv s → Ends (f s) s (fun _ => inv) (fun e s' => err e ∧ inv s')) : Keeps err inv (get >>= f) := by
  intro s hs
  rw [ends_bind, ends_get]
  exact hf s hs

theorem Keeps.ite {c : Prop} [Decidable c] {x y : EStateM ε σ α} (hx : c → Keeps err inv x)
    (hy : ¬ c → Keeps err inv y) : Keeps err inv (if c then x else y) := by
  split
  · next h => exact hx h
  · next h => exact hy h

theorem Keeps.forM {f : β → EStateM ε σ PUnit} {l : List β} (h : ∀ b ∈ l, Keeps err inv (f b)) :
    Keeps err inv (l.forM f) := by
  induction l with
  | nil => exact Keeps.pure _
  | cons b l ih =>
    refine Keeps.bind (h b mem_cons_self) fun _ => ?_
    exact ih fun b' hb' => h b' (mem_cons_of_mem b hb')

theorem Keeps.foldlM {f : α → β → EStateM ε σ α} {l : List β}
    (h : ∀ a, ∀ b ∈ l, Keeps err inv (f a b)) (a : α) : Keeps err inv (l.foldlM f a) := by
  induction l generalizing a with
  | nil => exact Keeps.pure a
  | cons b l ih =>
    rw [foldlM_cons]
    refine Keeps.bind (h a b mem_cons_self) fun a' => ?_
    exact ih (fun a b' hb' => h a b' (mem_cons_of_mem b hb')) a'

/-! ### Programs that return -/

theorem bind_ok {x : EStateM ε σ β} {f : β → EStateM ε σ α} {b : β} {s s' : σ}
    (h : x s = .ok b s') : (x >>= f) s = f b s' := by
  show EStateM.bind x f s = _
  unfold EStateM.bind
  rw [h]

theorem map_ok {x : EStateM ε σ β} {f : β → α} {b : β} {s s' : σ} (h : x s = .ok b s') :
    (f <$> x) s = .ok (f b) s' := by
  show EStateM.map f x s = _
  rw [EStateM.map, h]

theorem get_bind {f : σ → EStateM ε σ α} (s : σ) : (get >>= f) s = f s s := rfl

theorem set_bind {f : PUnit → EStateM ε σ α} (s s' : σ) : (set s' >>= f) s = f ⟨⟩ s' := rfl

theorem modify_bind {g : σ → σ} {f : PUnit → EStateM ε σ α} (s : σ) : (modify g >>= f) s = f ⟨⟩ (g s) := rfl

theorem except_bind_ok {x : Except ε β} {f : β → Except ε α} {a : α} (h : (x >>= f) = .ok a) :
    ∃ b, x = .ok b ∧ f b = .ok a := by
  cases x with
  | error e => cases h
  | ok b => exact ⟨b, rfl, h⟩

theorem except_forM_ok {ε : Type} {f : β → Except ε Unit} {l : List β} :
    l.forM f = .ok () ↔ ∀ b ∈ l, f b = .ok () := by
  induction l with
  | nil => exact iff_of_true rfl (by simp)
  | cons b l ih =>
    rw [forall_mem_cons, ← ih]
    change (f b >>= fun _ => l.forM f) = _ ↔ _
    constructor
    · intro h
      obtain ⟨_, hb, hl⟩ := except_bind_ok h
      exact ⟨hb, hl⟩
    · rintro ⟨hb, hl⟩
      rw [hb]
      exact hl

/-- A loop over `0 .. n - 1` whose turns all return: `inv` is indexed by the turns made. -/
theorem forM_range_ok {f : ℕ → EStateM ε σ PUnit} (inv : ℕ → σ → Prop) {n : ℕ} {s : σ} (h0 : inv 0 s)
    (hstep : ∀ i s, i < n → inv i s → ∃ s', f i s = .ok ⟨⟩ s' ∧ inv (i + 1) s') :
    ∃ s', (range n).forM f s = .ok ⟨⟩ s' ∧ inv n s' := by
  induction n with
  | zero => exact ⟨s, rfl, h0⟩
  | succ n ih =>
    obtain ⟨s', hrun, hinv⟩ := ih fun i s hi => hstep i s (by omega)
    obtain ⟨s'', hrun', hinv'⟩ := hstep n s' (by omega) hinv
    refine ⟨s'', ?_, hinv'⟩
    have hsplit : (List.range n ++ [n]).forM f = ((List.range n).forM f >>= fun _ => [n].forM f) := forM_append
    have hlast : [n].forM f s' = .ok ⟨⟩ s'' := bind_ok hrun'
    rw [range_succ, hsplit, bind_ok hrun, hlast]

end Batchgen.Outcome
