import Mathlib.Algebra.BigOperators.Group.List.Basic
import Mathlib.Algebra.Order.Ring.Int

/-!
# Residency of what tasks write and read

A list of tasks, each of which may write one resource and reads a list of them.  While the tasks are done
in some order, a resource is resident from the task that writes it until the last task that reads it.
The lemmas follow the residents through one more batch of tasks, and account for a weight on them.
-/

namespace Batchgen

open List

structure Tasks (ι S : Type*) where
  all : List ι
  writes : ι → Option S
  reads : ι → List S

namespace Tasks

variable {ι S : Type*} [DecidableEq ι] [DecidableEq S] (T : Tasks ι S) {done more : List ι} {s : S}

def written (done : List ι) : List S := done.filterMap T.writes

/-- Every reader of `s` is done. -/
def Over (done : List ι) (s : S) : Prop := ∀ x ∈ T.all, s ∈ T.reads x → x ∈ done

instance (done : List ι) (s : S) : Decidable (T.Over done s) :=
  inferInstanceAs (Decidable (∀ x ∈ T.all, s ∈ T.reads x → x ∈ done))

def resident (done : List ι) : List S := (T.written done).filter fun s => ¬ T.Over done s

/-- What leaves once the tasks `more` are done behind `done`. -/
def expired (done more : List ι) : List S :=
  (T.resident done ++ T.written more).filter fun s => T.Over (done ++ more) s

omit [DecidableEq ι] [DecidableEq S] in
theorem written_append : T.written (done ++ more) = T.written done ++ T.written more := filterMap_append

omit [DecidableEq ι] [DecidableEq S] in
variable {T} in
theorem Over.mono (h : T.Over done s) (hsub : ∀ x ∈ T.all, x ∈ done → x ∈ more) : T.Over more s :=
  fun x hx hread => hsub x hx (h x hx hread)

theorem mem_resident : s ∈ T.resident done ↔ s ∈ T.written done ∧ ¬ T.Over done s := by
  rw [resident, mem_filter, decide_eq_true_eq]

theorem mem_expired : s ∈ T.expired done more ↔
    (s ∈ T.written done ∧ ¬ T.Over done s ∨ s ∈ T.written more) ∧ T.Over (done ++ more) s := by
  rw [expired, mem_filter, mem_append, mem_resident, decide_eq_true_eq]

theorem resident_append :
    T.resident (done ++ more) = (T.resident done ++ T.written more).filter fun s => ¬ T.Over (done ++ more) s := by
  have hkeep : ∀ s, ¬ T.Over (done ++ more) s → ¬ T.Over done s := fun s hlive hover =>
    hlive (hover.mono fun x _ hx => mem_append_left more hx)
  rw [resident, written_append, filter_append, filter_append]
  congr 1
  rw [resident, filter_filter]
  refine filter_congr fun s _ => ?_
  by_cases hlive : T.Over (done ++ more) s
  · simp [hlive]
  · simp [hlive, hkeep s hlive]

omit [DecidableEq ι] [DecidableEq S] in
theorem over_perm (h : done.Perm more) : T.Over done s ↔ T.Over more s := by
  simp only [Over, h.mem_iff]

/-- The residents only depend on which tasks are done. -/
theorem resident_perm (h : done.Perm more) : (T.resident done).Perm (T.resident more) := by
  simp only [resident, T.over_perm h]
  exact (h.filterMap _).filter _

theorem expired_perm {done' more' : List ι} (hdone : done.Perm done') (hmore : more.Perm more') :
    (T.expired done more).Perm (T.expired done' more') := by
  simp only [expired, T.over_perm (hdone.append hmore)]
  exact ((T.resident_perm hdone).append (hmore.filterMap _)).filter _

/-- What was there and what is new either stays or leaves. -/
theorem split_perm : (T.resident (done ++ more) ++ T.expired done more).Perm (T.resident done ++ T.written more) := by
  have hsplit := filter_append_perm (fun s => decide (T.Over (done ++ more) s)) (T.resident done ++ T.written more)
  rw [resident_append, expired]
  refine perm_append_comm.trans ?_
  simpa using hsplit

theorem weight_split (f : S → ℕ) : ((T.resident (done ++ more)).map f).sum + ((T.expired done more).map f).sum =
      ((T.resident done).map f).sum + ((T.written more).map f).sum := by
  rw [← sum_append, ← sum_append, ← map_append, ← map_append]
  exact (T.split_perm.map f).sum_eq

end Tasks

end Batchgen
