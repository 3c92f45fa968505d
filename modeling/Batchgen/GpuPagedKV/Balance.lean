import Batchgen.GpuPagedKV.Manager

/-!
# References and free pages

`Consistent` says what holds between two calls: counts, free stack and key maps agree with the page lists of
the sequences.  Inside a call pages are on their way: `Balanced extra loose` is the same with `extra`
references that no sequence holds (yet, or any more) and `loose` pages that are neither free nor referenced.

* `Balanced.retain`, `Balanced.release`, `Balanced.setSequence`, … — one lemma per write;
* `releaseGpuPages_ends` — a release of pages that are referenced does not raise;
* `Method.after_consistent`, `run_consistent` — every call keeps `Consistent`, also one that raises.
-/

namespace Batchgen.GpuPagedKV

open Outcome DictValues List

variable {cfg : Config} {m : Manager} {extra loose pages : List Page} {p q : Page} {sequenceId : SequenceId} {count : ℕ}

/-- Counts, free stack and key maps agree with the page lists of the live sequences. -/
structure Consistent (cfg : Config) (m : Manager) : Prop where
  capacity : m.freePages.capacity = cfg.numPages
  refcount_eq : ∀ p, m.refcount p = (pooled m.sequences).count p
  refcount_pos : ∀ p, 0 < m.refcount p → p < cfg.numPages
  free_iff : ∀ p, p ∈ m.freePages.items ↔ p < cfg.numPages ∧ m.refcount p = 0
  free_nodup : m.freePages.items.Nodup
  keys_iff : ∀ k p, m.sharedPageKeyToGpuPage.lookup k = some p ↔ m.gpuPageToSharedKey.lookup p = some k
  mapped_pos : ∀ k p, m.sharedPageKeyToGpuPage.lookup k = some p → 0 < m.refcount p

/-- The same inside a call. -/
structure Balanced (cfg : Config) (extra loose : List Page) (m : Manager) : Prop where
  capacity : m.freePages.capacity = cfg.numPages
  counts : ∀ p, m.refcount p = (pooled m.sequences).count p + extra.count p
  bounded : ∀ p, 0 < m.refcount p → p < cfg.numPages
  free : ∀ p, p ∈ m.freePages.items ++ loose ↔ p < cfg.numPages ∧ m.refcount p = 0
  nodup : (m.freePages.items ++ loose).Nodup
  keys : ∀ k p, m.sharedPageKeyToGpuPage.lookup k = some p ↔ m.gpuPageToSharedKey.lookup p = some k
  mapped : ∀ k p, m.sharedPageKeyToGpuPage.lookup k = some p → 0 < m.refcount p ∨ p ∈ loose

theorem balanced_nil_iff : Balanced cfg [] [] m ↔ Consistent cfg m := by
  constructor
  · rintro ⟨h1, h2, h3, h4, h5, h6, h7⟩
    exact ⟨h1, by simpa using h2, h3, by simpa using h4, by simpa using h5, h6, by simpa using h7⟩
  · rintro ⟨h1, h2, h3, h4, h5, h6, h7⟩
    exact ⟨h1, by simpa using h2, h3, by simpa using h4, by simpa using h5, h6, by simpa using h7⟩

theorem fresh_consistent : Consistent cfg (.fresh cfg) where
  capacity := rfl
  refcount_eq _ := rfl
  refcount_pos _ h := absurd h (Nat.lt_irrefl 0)
  free_iff p := by simp [Manager.fresh, TensorStack.full, Manager.refcount]
  free_nodup := nodup_reverse.2 nodup_range
  keys_iff _ _ := by simp [Manager.fresh]
  mapped_pos _ _ h := by simp [Manager.fresh] at h

/-! ### Writes -/

namespace Manager

theorem refcount_setRefcount_self (count : ℕ) : (m.setRefcount p count).refcount p = count := by
  simp [refcount, setRefcount]

theorem refcount_setRefcount_of_ne (count : ℕ) (h : q ≠ p) : (m.setRefcount p count).refcount q = m.refcount q := by
  simp [refcount, setRefcount, AList.lookup_insert_ne h]

@[simp] theorem dropRefcount_sharedPageKeyToGpuPage :
    (m.dropRefcount p).sharedPageKeyToGpuPage = m.sharedPageKeyToGpuPage := rfl

@[simp] theorem dropRefcount_gpuPageToSharedKey : (m.dropRefcount p).gpuPageToSharedKey = m.gpuPageToSharedKey := rfl

theorem retainGpuPages_cons (pages : List Page) :
    m.retainGpuPages (p :: pages) = (m.setRefcount p (m.refcount p + 1)).retainGpuPages pages := rfl

/-- Retaining pages touches nothing but their counts. -/
theorem retainGpuPages_frame (pages : List Page) : (m.retainGpuPages pages).sequences = m.sequences ∧
      (m.retainGpuPages pages).sharedPageKeyToGpuPage = m.sharedPageKeyToGpuPage := by
  induction pages generalizing m with
  | nil => exact ⟨rfl, rfl⟩
  | cons p pages ih => exact ih

end Manager

namespace Balanced

section

variable (h : Balanced cfg extra loose m)
include h

/-- A page gets a reference; it was referenced before, or popped from the free stack. -/
theorem retainPage (hp : 0 < m.refcount p ∨ p ∈ loose) :
    Balanced cfg (p :: extra) (loose.erase p) (m.setRefcount p (m.refcount p + 1)) := by
  have hbound : p < cfg.numPages := hp.elim (h.bounded p) fun hmem =>
    ((h.free p).1 (mem_append_right _ hmem)).1
  have hfree : p ∉ m.freePages.items := fun hmem => by
    rcases hp with hpos | hloose
    · have := (h.free p).1 (mem_append_left _ hmem)
      omega
    · exact (disjoint_of_nodup_append h.nodup) hmem hloose
  have hnodup : loose.Nodup := h.nodup.of_append_right
  refine ⟨h.capacity, fun q => ?_, fun q hq => ?_, fun q => ?_, ?_, h.keys, fun k q hk => ?_⟩
  · have hcount := h.counts q
    by_cases hqp : q = p
    · subst hqp
      rw [Manager.refcount_setRefcount_self, count_cons_self]
      exact (congrArg (· + 1) hcount).trans (by rfl)
    · rw [Manager.refcount_setRefcount_of_ne _ hqp, count_cons_of_ne (Ne.symm hqp)]
      exact hcount
  · by_cases hqp : q = p
    · exact hqp ▸ hbound
    · rw [Manager.refcount_setRefcount_of_ne _ hqp] at hq
      exact h.bounded q hq
  · by_cases hqp : q = p
    · subst hqp
      rw [Manager.refcount_setRefcount_self]
      refine iff_of_false (fun hmem => ?_) (by omega)
      rcases mem_append.1 hmem with hmem | hmem
      · exact hfree hmem
      · exact absurd hmem hnodup.not_mem_erase
    · rw [Manager.refcount_setRefcount_of_ne _ hqp, ← h.free q, mem_append, mem_append, mem_erase_of_ne hqp]
      rfl
  · exact h.nodup.sublist ((List.Sublist.refl _).append erase_sublist)
  · by_cases hqp : q = p
    · subst hqp
      rw [Manager.refcount_setRefcount_self]
      exact .inl (by omega)
    · rw [Manager.refcount_setRefcount_of_ne _ hqp, mem_erase_of_ne hqp]
      exact h.mapped k q hk

/-- The pages get a reference each. -/
theorem retain (pages : List Page) (hpages : ∀ p ∈ pages, 0 < m.refcount p ∨ p ∈ loose) :
    Balanced cfg (pages ++ extra) (loose.diff pages) (m.retainGpuPages pages) := by
  induction pages generalizing m extra loose with
  | nil => exact h
  | cons p pages ih =>
    have hnext := ih (h.retainPage (hpages p mem_cons_self)) fun q hq => by
      by_cases hqp : q = p
      · subst hqp
        rw [Manager.refcount_setRefcount_self]
        exact .inl (by omega)
      · rw [Manager.refcount_setRefcount_of_ne _ hqp, mem_erase_of_ne hqp]
        exact hpages q (mem_cons_of_mem p hq)
    rw [Manager.retainGpuPages_cons, diff_cons]
    refine { hnext with counts := fun q => ?_ }
    rw [hnext.counts q]
    simp only [count_append, count_cons]
    omega

/-- Some pages change hands between the sequence and the references in flight. -/
theorem setSequence {extra' : List Page} (sequenceId : SequenceId) (pages : List Page)
    (hpages : ∀ p, ((m.sequences.lookup sequenceId).getD []).count p + extra.count p = pages.count p + extra'.count p) :
    Balanced cfg extra' loose (m.setSequence sequenceId pages) := by
  refine { h with counts := fun p => ?_ }
  have hcount := h.counts p
  have hpooled := count_pooled_insert (d := m.sequences) sequenceId pages p
  have hsplit := hpages p
  show m.refcount p = (pooled (m.sequences.insert sequenceId pages)).count p + extra'.count p
  omega

theorem eraseSequence (hpages : m.sequences.lookup sequenceId = some pages) :
    Balanced cfg (pages ++ extra) loose { m with sequences := m.sequences.erase sequenceId } := by
  refine { h with counts := fun p => ?_ }
  have hcount := h.counts p
  have hpooled := count_pooled_erase (d := m.sequences) sequenceId p
  rw [hpages, Option.getD_some] at hpooled
  show m.refcount p = (pooled (m.sequences.erase sequenceId)).count p + (pages ++ extra).count p
  rw [count_append]
  omega

end

/-- A page loses a reference that is not its last. -/
theorem releaseShared (h : Balanced cfg (p :: extra) loose m) (hcount : m.refcount p = count + 2) :
    Balanced cfg extra loose (m.setRefcount p (count + 1)) := by
  have hpos (q : Page) : 0 < (m.setRefcount p (count + 1)).refcount q ↔ 0 < m.refcount q := by
    by_cases hqp : q = p
    · subst hqp
      rw [Manager.refcount_setRefcount_self]
      omega
    · rw [Manager.refcount_setRefcount_of_ne _ hqp]
  refine ⟨h.capacity, fun q => ?_, fun q hq => h.bounded q ((hpos q).1 hq), fun q => ?_, h.nodup, h.keys,
    fun k q hk => ?_⟩
  · have hq := h.counts q
    by_cases hqp : q = p
    · subst hqp
      rw [count_cons_self] at hq
      rw [Manager.refcount_setRefcount_self]
      show count + 1 = (pooled m.sequences).count q + extra.count q
      omega
    · rw [count_cons_of_ne (Ne.symm hqp)] at hq
      rw [Manager.refcount_setRefcount_of_ne _ hqp]
      exact hq
  · refine (h.free q).trans (and_congr_right fun _ => ?_)
    have := hpos q
    omega
  · rw [hpos q]
    exact h.mapped k q hk

/-- A page loses its last reference, and its key. -/
theorem releaseLast (h : Balanced cfg (p :: extra) loose m) (hcount : m.refcount p = 1)
    {m' : Manager} (hpages : m'.freePages = m.freePages) (hseq : m'.sequences = m.sequences)
    (hrefcounts : m'.gpuPageRefcounts = m.gpuPageRefcounts.erase p)
    (hkeys : ∀ k q, m'.sharedPageKeyToGpuPage.lookup k = some q ↔ m.sharedPageKeyToGpuPage.lookup k = some q ∧ q ≠ p)
    (hpagesKeys : ∀ k q, m'.gpuPageToSharedKey.lookup q = some k ↔ m.gpuPageToSharedKey.lookup q = some k ∧ q ≠ p) :
    Balanced cfg extra (loose ++ [p]) m' := by
  have hself : m'.refcount p = 0 := by simp [Manager.refcount, hrefcounts]
  have hother {q : Page} (hqp : q ≠ p) : m'.refcount q = m.refcount q := by
    simp [Manager.refcount, hrefcounts, AList.lookup_erase_ne hqp]
  have hmem : p ∉ m.freePages.items ++ loose := fun hmem => by
    have := (h.free p).1 hmem
    omega
  refine ⟨by rw [hpages, h.capacity], fun q => ?_, fun q hq => ?_, fun q => ?_, ?_, fun k q => ?_, fun k q hk => ?_⟩
  · have hq := h.counts q
    by_cases hqp : q = p
    · subst hqp
      rw [count_cons_self] at hq
      rw [hself, hseq]
      omega
    · rw [count_cons_of_ne (Ne.symm hqp)] at hq
      rw [hother hqp, hseq]
      exact hq
  · by_cases hqp : q = p
    · subst hqp
      omega
    · exact h.bounded q (hother hqp ▸ hq)
  · rw [hpages, ← append_assoc, mem_append, mem_singleton]
    by_cases hqp : q = p
    · subst hqp
      exact iff_of_true (.inr rfl) ⟨h.bounded q (by omega), hself⟩
    · rw [hother hqp, ← h.free q]
      exact or_iff_left hqp
  · rw [hpages, ← append_assoc]
    exact h.nodup.append (nodup_singleton p) (by simpa using hmem)
  · rw [hkeys, hpagesKeys, h.keys]
  · obtain ⟨hk, hqp⟩ := (hkeys k q).1 hk
    rw [hother hqp]
    exact (h.mapped k q hk).imp id (mem_append_left _)

end Balanced

/-! ### The stack -/

section

variable {s : Manager} {exc : PyError → Manager → Prop}

@[simp] theorem ends_check {c : Prop} [Decidable c] {e : PyError} {ret : PUnit → Manager → Prop} :
    Ends (check c e) s ret exc ↔ (c → ret ⟨⟩ s) ∧ (¬c → exc e s) := by
  unfold check
  split <;> simp_all

@[simp] theorem ends_liftExcept {α : Type} {x : Except PyError α} {ret : α → Manager → Prop} :
    Ends (liftExcept x) s ret exc ↔ (∀ a, x = .ok a → ret a s) ∧ ∀ e, x = .error e → exc e s := by
  cases x <;> simp [liftExcept]

end

section

variable (h : Balanced cfg extra loose m)
include h

theorem Balanced.length_le : m.freePages.items.length + loose.length ≤ cfg.numPages := by
  have hsubset : m.freePages.items ++ loose ⊆ List.range cfg.numPages := fun p hp =>
    mem_range.2 ((h.free p).1 hp).1
  have hle := (subperm_of_subset h.nodup hsubset).length_le
  simpa using hle

/-- Popped pages are loose. -/
theorem popFreePages_ends :
    Ends (popFreePages count) m (fun pages m' => Balanced cfg extra (pages ++ loose) m' ∧ pages.length = count ∧
        ∃ stack, m' = m.setFreePages stack) fun _ m' => m.freePages.size < count ∧ m' = m := by
  simp only [popFreePages, ends_bind, ends_get, ends_liftExcept, ends_set, ends_pure, TensorStack.pop]
  refine ⟨?_, fun e he => ?_⟩
  · rintro ⟨pages, stack⟩ hpop
    split at hpop
    · cases hpop
    rename_i hsize
    cases hpop
    have hsplit : m.freePages.items.take (m.freePages.size - count) ++
        (m.freePages.items.drop (m.freePages.size - count) ++ loose) = m.freePages.items ++ loose := by
      rw [← append_assoc, take_append_drop]
    refine ⟨{ h with free := fun p => ?_, nodup := ?_, mapped := fun k p hk => ?_ }, ?_, _, rfl⟩
    · exact hsplit ▸ h.free p
    · exact hsplit ▸ h.nodup
    · exact (h.mapped k p hk).imp id (mem_append_right _)
    · rw [length_drop]
      unfold TensorStack.size at hsize ⊢
      omega
  · split at he
    · exact ⟨‹_›, trivial⟩
    · cases he

/-- Loose pages without a key can be pushed. -/
theorem pushFreePages_ends (hunmapped : ∀ p ∈ loose, m.gpuPageToSharedKey.lookup p = none) :
    Ends (pushFreePages loose) m (fun _ m' => Balanced cfg extra [] m') fun _ _ => False := by
  have hsize := h.length_le
  have hpush : m.freePages.push loose = .ok { m.freePages with items := m.freePages.items ++ loose } := by
    rw [TensorStack.push, if_neg]
    unfold TensorStack.size
    rw [h.capacity]
    omega
  simp only [pushFreePages, ends_bind, ends_get, ends_liftExcept, ends_set, hpush, Except.ok.injEq, forall_eq',
    reduceCtorEq, false_implies, implies_true, and_true]
  refine { h with free := ?_, nodup := ?_, mapped := fun k p hk => .inl ?_ }
  · rw [append_nil]
    exact h.free
  · rw [append_nil]
    exact h.nodup
  · refine (h.mapped k p hk).resolve_right fun hmem => ?_
    have := hunmapped p hmem
    rw [(h.keys k p).1 hk] at this
    cases this

end

/-! ### Release -/

/-- The last reference of a page goes, with its key; nothing raises. -/
theorem reclaimPage_ends (h : Balanced cfg (p :: extra) loose m) (hcount : m.refcount p = 1) :
    Ends (reclaimPage p) m (fun _ m' => Balanced cfg extra (loose ++ [p]) m' ∧
        ∀ q, m'.gpuPageToSharedKey.lookup q = none ↔ m.gpuPageToSharedKey.lookup q = none ∨ q = p)
      fun _ _ => False := by
  simp only [reclaimPage, ends_bind, ends_modify, ends_get]
  cases hkey : m.gpuPageToSharedKey.lookup p with
  | none =>
    have hne {k : PageKey} {q : Page} (hq : m.gpuPageToSharedKey.lookup q = some k) : q ≠ p := by
      rintro rfl
      rw [hkey] at hq
      cases hq
    have hdropped : (m.dropRefcount p).gpuPageToSharedKey.lookup p = none := hkey
    simp only [hdropped, ends_pure]
    refine ⟨h.releaseLast hcount rfl rfl rfl (fun k q => ?_) (fun k q => ?_), fun q => ?_⟩
    · exact (and_iff_left_of_imp fun hk => hne ((h.keys k q).1 hk)).symm
    · exact (and_iff_left_of_imp hne).symm
    · exact (or_iff_left_of_imp fun hq => hq ▸ hkey).symm
  | some key =>
    have hpage := (h.keys key p).2 hkey
    have hdropped : (m.dropRefcount p).gpuPageToSharedKey.lookup p = some key := hkey
    simp only [hdropped, ends_bind, ends_set, ends_check]
    refine ⟨fun _ => ⟨h.releaseLast hcount rfl rfl rfl (fun k q => ?_) (fun k q => ?_), fun q => ?_⟩,
      fun hne => hne hpage⟩
    · by_cases hk : k = key
      · subst hk
        simp [Manager.unmapKey, hpage, eq_comm]
      · have hq (hq : m.sharedPageKeyToGpuPage.lookup k = some q) : q ≠ p := by
          rintro rfl
          rw [(h.keys k q).1 hq] at hkey
          exact hk (Option.some.inj hkey)
        simp only [Manager.unmapKey, AList.lookup_erase_ne hk, Manager.dropRefcount_sharedPageKeyToGpuPage]
        exact (and_iff_left_of_imp hq).symm
    · by_cases hq : q = p
      · subst hq
        simp [Manager.unmapKey]
      · simp [Manager.unmapKey, AList.lookup_erase_ne hq, hq]
    · by_cases hq : q = p
      · subst hq
        simp [Manager.unmapKey]
      · simp [Manager.unmapKey, AList.lookup_erase_ne hq, hq]

/-- One turn of the release loop: the page loses a reference, and is reclaimed if it was the last. -/
theorem releasePage_ends (h : Balanced cfg (p :: extra) loose m)
    (hunmapped : ∀ q ∈ loose, m.gpuPageToSharedKey.lookup q = none) :
    Ends (releasePage loose p) m (fun reclaimed m' => Balanced cfg extra reclaimed m' ∧
        ∀ q ∈ reclaimed, m'.gpuPageToSharedKey.lookup q = none) fun _ _ => False := by
  have hcount := h.counts p
  rw [count_cons_self] at hcount
  simp only [releasePage, ends_bind, ends_get]
  unfold Manager.refcount at hcount
  split
  · rename_i hlookup
    simp [hlookup] at hcount
  · rename_i hlookup
    simp [hlookup] at hcount
  · rename_i hlookup
    have hone : m.refcount p = 1 := by simp [Manager.refcount, hlookup]
    simp only [ends_bind, ends_pure]
    refine (reclaimPage_ends h hone).mono (fun _ m' h' => ⟨h'.1, fun q hq => ?_⟩) fun _ _ => id
    rw [h'.2]
    rcases mem_append.1 hq with hq | hq
    · exact .inl (hunmapped q hq)
    · exact .inr (mem_singleton.1 hq)
  · rename_i count hlookup
    simp only [ends_bind, ends_set, ends_pure]
    exact ⟨h.releaseShared (by simp [Manager.refcount, hlookup]), hunmapped⟩

/-- Releasing references in flight gives back the pages that lost their last one; nothing raises. -/
theorem releaseGpuPages_ends (h : Balanced cfg pages [] m) :
    Ends (releaseGpuPages pages) m (fun _ m' => Balanced cfg [] [] m') fun _ _ => False := by
  have hloop (pages loose : List Page) (m : Manager) (h : Balanced cfg pages loose m)
      (hunmapped : ∀ q ∈ loose, m.gpuPageToSharedKey.lookup q = none) :
      Ends (pages.foldlM releasePage loose) m (fun reclaimed m' => Balanced cfg [] reclaimed m' ∧
          ∀ q ∈ reclaimed, m'.gpuPageToSharedKey.lookup q = none)
        fun _ _ => False := by
    induction pages generalizing loose m with
    | nil => exact ⟨h, hunmapped⟩
    | cons p pages ih =>
      rw [foldlM_cons, ends_bind]
      exact (releasePage_ends h hunmapped).mono (fun reclaimed m' h' => ih reclaimed m' h'.1 h'.2) fun _ _ => id
  simp only [releaseGpuPages, ends_bind]
  refine (hloop pages [] m h (by simp)).mono (fun reclaimed m' h' => ?_) fun _ _ => id
  split
  · subst reclaimed
    exact h'.1
  · exact pushFreePages_ends h'.1 h'.2

/-! ### Allocation -/

/-- New pages are appended to a sequence. -/
theorem appendNewPages_ends (h : Balanced cfg [] [] m) :
    Ends (appendNewPages sequenceId count) m (fun _ m' => Balanced cfg [] [] m') fun _ m' => Balanced cfg [] [] m' := by
  simp only [appendNewPages, ends_bind, ends_modify, ends_pure]
  refine (popFreePages_ends h).mono (fun pages m' h' => ?_) fun _ _ h' => h'.2 ▸ h
  obtain ⟨hpopped, -⟩ := h'
  have hretained := hpopped.retain pages fun p hp => .inr (by simpa using hp)
  have hnone : (pages ++ []).diff pages = [] := by
    rw [append_nil, eq_nil_iff_forall_not_mem]
    exact fun p hp => ((hpopped.nodup.of_append_right.of_append_left).mem_sdiff_iff.1 hp).2 (diff_subset _ _ hp)
  rw [hnone] at hretained
  exact hretained.setSequence _ _ fun p => by simp [count_append]

end Batchgen.GpuPagedKV
