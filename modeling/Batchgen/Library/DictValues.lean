import Mathlib.Data.List.AList
import Mathlib.Data.List.Count

/-!
# The values of a dictionary of lists

A dictionary whose values are lists holds each element as often as all its values together do.  `pooled` is
that list, and `count_pooled_insert` and `count_pooled_erase` say what a write changes of it.
-/

namespace Batchgen.DictValues

open List

variable {κ α : Type*} [DecidableEq κ]

/-- All values of the dictionary, one after the other. -/
def pooled (d : AList fun _ : κ => List α) : List α := d.entries.flatMap Sigma.snd

variable [DecidableEq α] {d : AList fun _ : κ => List α} {k : κ} {l : List α}

/-- Taking a key out takes its value out. -/
theorem count_pooled_erase (k : κ) (a : α) :
    (pooled (d.erase k)).count a + ((d.lookup k).getD []).count a = (pooled d).count a := by
  show ((d.entries.kerase k).flatMap Sigma.snd).count a + ((d.entries.dlookup k).getD []).count a =
    (d.entries.flatMap Sigma.snd).count a
  by_cases hk : k ∈ d.entries.keys
  · obtain ⟨b, l₁, l₂, hl₁, hl, herase⟩ := exists_of_kerase hk
    have hlookup : d.entries.dlookup k = some b := mem_dlookup d.nodupKeys (by rw [hl]; simp)
    rw [herase, hlookup, hl]
    simp only [flatMap_append, flatMap_cons, count_append, Option.getD_some]
    omega
  · rw [kerase_of_notMem_keys hk, dlookup_eq_none.2 hk]
    simp

/-- Writing a key replaces its value. -/
theorem count_pooled_insert (k : κ) (l : List α) (a : α) :
    (pooled (d.insert k l)).count a + ((d.lookup k).getD []).count a = (pooled d).count a + l.count a := by
  have hinsert : pooled (d.insert k l) = l ++ pooled (d.erase k) := rfl
  rw [hinsert, count_append, ← count_pooled_erase (d := d) k a]
  omega

end Batchgen.DictValues
