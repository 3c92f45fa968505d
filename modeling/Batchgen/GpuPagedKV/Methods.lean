import Batchgen.GpuPagedKV.Balance

/-!
# The methods keep the bookkeeping consistent

Every method of the manager keeps `Consistent`, whether it returns or raises, so it holds in every state that
any sequence of calls reaches.

* `normalizeSharedPageKeys_ok` — what the validation of a keyed allocation guarantees;
* `allocatePagesForSequencesWithPageKeys_ends` — a keyed allocation, with its pages in flight;
* `Method.call_keeps` — every method;
* `run_consistent` — every sequence of calls.
-/

namespace Batchgen.GpuPagedKV

open Outcome DictValues List Option

variable {cfg : Config} {m : Manager} {extra loose : List Page} {p q : Page} {c : Prop} {e : PyError}
  {seqId sequenceId : SequenceId} {keys newKeys : List PageKey} {pageKeys : List (List PageKey)} {key : PageKey}
  {pairs : List (PageKey × Page)} {u : PUnit} {α : Type} {sequenceIds : List SequenceId}

/-! ### Validation -/

theorem require_ok [Decidable c] (h : require c e = .ok u) : c := by
  unfold require at h
  split at h
  · assumption
  · cases h

theorem requiredPagesVector_length {tokens : List ℤ} {required : List ℤ}
    (h : requiredPagesVector cfg tokens = .ok required) : required.length = tokens.length := by
  unfold requiredPagesVector at h
  split at h
  · cases h
  split at h
  · cases h
  · split at h
    · cases h
    · cases h
      simp

theorem Manager.checkRow_ok {required : ℤ} (h : m.checkRow seqId required keys = .ok u) :
    m.sequences.lookup seqId = none := by
  unfold Manager.checkRow at h
  split at h
  · cases h
  rename_i hnew
  simpa using hnew

/-- The rows of an accepted keyed allocation: distinct new sequences, and the keys to be mapped. -/
theorem normalizeSharedPageKeys_ok {numTokens : List ℤ} {rows : List (List PageKey)}
    (h : m.normalizeSharedPageKeys cfg sequenceIds numTokens pageKeys = .ok (rows, newKeys)) :
    rows = pageKeys ∧ newKeys = (pageKeys.flatten.filter fun key => !m.isMapped key).dedup ∧
      sequenceIds.length = pageKeys.length ∧ sequenceIds.Nodup ∧
      ∀ seqId ∈ sequenceIds, m.sequences.lookup seqId = none := by
  obtain ⟨_, -, h⟩ := except_bind_ok h
  obtain ⟨_, hlengths, h⟩ := except_bind_ok h
  obtain ⟨_, hnodup, h⟩ := except_bind_ok h
  obtain ⟨required, hrequired, h⟩ := except_bind_ok h
  obtain ⟨_, hrows, h⟩ := except_bind_ok h
  obtain ⟨_, -, h⟩ := except_bind_ok h
  obtain ⟨hlength, hlength'⟩ := require_ok hlengths
  cases h
  refine ⟨rfl, rfl, hlength.trans hlength', require_ok hnodup, fun seqId hmem => ?_⟩
  obtain ⟨i, hi, rfl⟩ := mem_iff_getElem.1 hmem
  have hreq := requiredPagesVector_length hrequired
  have hrow : (sequenceIds[i], required[i], pageKeys[i]) ∈ sequenceIds.zip (required.zip pageKeys) := by
    refine mem_iff_getElem.2 ⟨i, by simp; omega, by simp⟩
  exact Manager.checkRow_ok (except_forM_ok.1 hrows _ hrow)

/-! ### Keys -/

/-- A key is mapped to a page that was popped for it. -/
theorem Balanced.mapKey (h : Balanced cfg extra loose m) (hkey : m.sharedPageKeyToGpuPage.lookup key = none)
    (hpage : m.gpuPageToSharedKey.lookup p = none)
    (hloose : p ∈ loose) : Balanced cfg extra loose (m.mapKey key p) := by
  refine { h with keys := fun k q => ?_, mapped := fun k q hk => ?_ }
  · show (m.sharedPageKeyToGpuPage.insert key p).lookup k = some q ↔
      (m.gpuPageToSharedKey.insert p key).lookup q = some k
    by_cases hk : k = key
    · subst hk
      by_cases hq : q = p
      · subst hq
        simp
      · rw [AList.lookup_insert, AList.lookup_insert_ne hq, ← h.keys, hkey]
        simp [Ne.symm hq]
    · by_cases hq : q = p
      · subst hq
        rw [AList.lookup_insert, AList.lookup_insert_ne hk, h.keys, hpage]
        simp [Ne.symm hk]
      · rw [AList.lookup_insert_ne hk, AList.lookup_insert_ne hq, h.keys]
  · change (m.sharedPageKeyToGpuPage.insert key p).lookup k = some q at hk
    by_cases hkk : k = key
    · subst hkk
      rw [AList.lookup_insert] at hk
      cases hk
      exact .inr hloose
    · rw [AList.lookup_insert_ne hkk] at hk
      exact h.mapped k q hk

/-- What the maps are after the new keys were entered. -/
structure KeysMapped (m m' : Manager) (pairs : List (PageKey × Page)) : Prop where
  new : ∀ key page, (key, page) ∈ pairs → m'.sharedPageKeyToGpuPage.lookup key = some page
  old : ∀ key, key ∉ pairs.map Prod.fst →
    m'.sharedPageKeyToGpuPage.lookup key = m.sharedPageKeyToGpuPage.lookup key
  sequences : m'.sequences = m.sequences

theorem Balanced.mapKeys (h : Balanced cfg extra loose m) (hkeys : (pairs.map Prod.fst).Nodup)
    (hpages : (pairs.map Prod.snd).Nodup) (hfresh : ∀ pair ∈ pairs, m.sharedPageKeyToGpuPage.lookup pair.1 = none ∧
      m.gpuPageToSharedKey.lookup pair.2 = none ∧ pair.2 ∈ loose) :
    Balanced cfg extra loose (m.mapKeys pairs) ∧ KeysMapped m (m.mapKeys pairs) pairs := by
  induction pairs generalizing m with
  | nil => exact ⟨h, ⟨by simp, fun _ _ => rfl, rfl⟩⟩
  | cons pair pairs ih =>
    obtain ⟨key, page⟩ := pair
    obtain ⟨hk, hp, hl⟩ := hfresh _ mem_cons_self
    rw [map_cons, nodup_cons] at hkeys hpages
    have hstep := h.mapKey hk hp hl
    obtain ⟨hbalanced, hmapped⟩ := ih hstep hkeys.2 hpages.2 fun pair hpair => by
      obtain ⟨hk', hp', hl'⟩ := hfresh pair (mem_cons_of_mem _ hpair)
      have hne : pair.1 ≠ key := fun heq => hkeys.1 (mem_map.2 ⟨pair, hpair, heq⟩)
      have hne' : pair.2 ≠ page := fun heq => hpages.1 (mem_map.2 ⟨pair, hpair, heq⟩)
      exact ⟨by simpa [Manager.mapKey, AList.lookup_insert_ne hne] using hk',
        by simpa [Manager.mapKey, AList.lookup_insert_ne hne'] using hp', hl'⟩
    refine ⟨hbalanced, fun key' page' hmem => ?_, fun key' hkey' => ?_, hmapped.sequences⟩
    · rcases mem_cons.1 hmem with heq | hmem
      · cases heq
        exact (hmapped.old key hkeys.1).trans (by simp [Manager.mapKey])
      · exact hmapped.new key' page' hmem
    · rw [map_cons, mem_cons, not_or] at hkey'
      exact (hmapped.old key' hkey'.2).trans (by simp [Manager.mapKey, AList.lookup_insert_ne hkey'.1])

/-! ### Keyed rows -/

theorem Manager.isMapped_iff :
    m.isMapped key ↔ ∃ page, m.sharedPageKeyToGpuPage.lookup key = some page := isSome_iff_exists

theorem Manager.mem_pagesOf : p ∈ m.pagesOf keys ↔ ∃ key ∈ keys, m.sharedPageKeyToGpuPage.lookup key = some p := by
  simp [Manager.pagesOf]

/-- The rows get their pages: what was popped for them is loose until the first row that uses it. -/
theorem allocateKeyedRows_ends {rows : List (SequenceId × List PageKey)}
    (allocations : AList fun _ : SequenceId => List Page) (h : Balanced cfg [] loose m)
    (hmapped : ∀ row ∈ rows, ∀ key ∈ row.2, m.isMapped key) (hids : (rows.map Prod.fst).Nodup)
    (hnew : ∀ row ∈ rows, m.sequences.lookup row.1 = none) :
    Ends (rows.foldlM (allocateKeyedRow pairs) allocations) m
      (fun _ m' => Balanced cfg [] (loose.diff (rows.flatMap fun row => m.pagesOf row.2)) m') fun _ _ => False := by
  induction rows generalizing m loose allocations with
  | nil => exact h
  | cons row rows ih =>
    obtain ⟨seqId, keys⟩ := row
    have hfind : keys.find? (fun key => !m.isMapped key) = none :=
      find?_eq_none.2 fun key hkey => by simpa using hmapped _ mem_cons_self key hkey
    obtain ⟨hsequences, hkeymap⟩ := m.retainGpuPages_frame (m.pagesOf keys)
    rw [map_cons, nodup_cons] at hids
    simp only [foldlM_cons, allocateKeyedRow, hfind, ends_bind, ends_get, ends_set, ends_pure]
    have hretained := h.retain (m.pagesOf keys) fun p hp => by
      obtain ⟨key, -, hkey⟩ := Manager.mem_pagesOf.1 hp
      exact h.mapped key p hkey
    have hnone : (m.retainGpuPages (m.pagesOf keys)).sequences.lookup seqId = none := by
      rw [hsequences]
      exact hnew _ mem_cons_self
    have hset : Balanced cfg [] _ _ := hretained.setSequence seqId (m.pagesOf keys) fun p => by
      rw [hnone]
      simp
    have hpagesOf (keys' : List PageKey) :
        ((m.retainGpuPages (m.pagesOf keys)).setSequence seqId (m.pagesOf keys)).pagesOf keys' =
          m.pagesOf keys' := by
      show keys'.filterMap (fun key => (m.retainGpuPages (m.pagesOf keys)).sharedPageKeyToGpuPage.lookup key) = _
      rw [hkeymap]
      rfl
    refine (ih (m := (m.retainGpuPages (m.pagesOf keys)).setSequence seqId (m.pagesOf keys)) _ hset
      (fun row hrow key hkey => ?_) hids.2 fun row hrow => ?_).mono (fun _ m' h' => ?_) fun _ _ => id
    · have := hmapped row (mem_cons_of_mem _ hrow) key hkey
      simpa [Manager.isMapped, Manager.setSequence, hkeymap] using this
    · have hne : row.1 ≠ seqId := fun heq => hids.1 (mem_map.2 ⟨row, hrow, heq⟩)
      simpa [Manager.setSequence, AList.lookup_insert_ne hne, hsequences] using hnew row (mem_cons_of_mem _ hrow)
    · simp only [hpagesOf] at h'
      rwa [flatMap_cons, diff_append]

/-- The pages popped for the new keys are loose, unmapped, and one for each key. -/
theorem newPairs_fresh {newPages : List Page} {stack : TensorStack} (h : Balanced cfg [] [] m)
    (hpopped : Balanced cfg [] newPages (m.setFreePages stack)) (hcount : newPages.length = newKeys.length)
    (hnodup : newKeys.Nodup) (hunmapped : ∀ key ∈ newKeys, m.sharedPageKeyToGpuPage.lookup key = none) :
    let pairs := (newKeys.insertionSort (· ≤ ·)).zip newPages
    pairs.map Prod.fst = newKeys.insertionSort (· ≤ ·) ∧ pairs.map Prod.snd = newPages ∧
      (pairs.map Prod.fst).Nodup ∧ (pairs.map Prod.snd).Nodup ∧
      ∀ pair ∈ pairs, m.sharedPageKeyToGpuPage.lookup pair.1 = none ∧
        m.gpuPageToSharedKey.lookup pair.2 = none ∧ pair.2 ∈ newPages := by
  intro pairs
  have hlength := length_insertionSort (· ≤ ·) newKeys
  have hfst : pairs.map Prod.fst = newKeys.insertionSort (· ≤ ·) := map_fst_zip (by omega)
  have hsnd : pairs.map Prod.snd = newPages := map_snd_zip (by omega)
  have hperm := perm_insertionSort (· ≤ ·) newKeys
  refine ⟨hfst, hsnd, hfst ▸ hperm.nodup_iff.2 hnodup, hsnd ▸ hpopped.nodup.of_append_right, fun pair hpair => ?_⟩
  obtain ⟨hkey, hpage⟩ := of_mem_zip hpair
  refine ⟨hunmapped _ (hperm.mem_iff.1 hkey), ?_, hpage⟩
  rcases hlookup : m.gpuPageToSharedKey.lookup pair.2 with - | key
  · rfl
  · -- A mapped page is referenced, so it was not on the free stack.
    have hpos := (h.mapped key pair.2 ((h.keys key pair.2).2 hlookup)).resolve_right (by simp)
    have hzero := ((hpopped.free pair.2).1 (mem_append_right _ hpage)).2
    exact absurd hpos (Nat.pos_iff_ne_zero.not.2 (not_not.2 hzero))

/-- A keyed allocation raises before it writes, or gives every popped page to a row. -/
theorem allocatePagesForSequencesWithPageKeys_ends {numTokens : List ℤ} (h : Balanced cfg [] [] m) :
    Ends (allocatePagesForSequencesWithPageKeys cfg sequenceIds numTokens pageKeys) m
      (fun _ m' => Balanced cfg [] [] m')
      fun e m' => m' = m ∧ (m.normalizeSharedPageKeys cfg sequenceIds numTokens pageKeys = .error e ∨
        ∃ rows newKeys, m.normalizeSharedPageKeys cfg sequenceIds numTokens pageKeys = .ok (rows, newKeys) ∧
          m.freePages.size < newKeys.length) := by
  simp only [allocatePagesForSequencesWithPageKeys, ends_bind, ends_get, ends_liftExcept, ends_check, ends_modify]
  refine ⟨?_, fun e he => ⟨trivial, .inl he⟩⟩
  rintro ⟨rows, newKeys⟩ hok
  refine ⟨fun hfits => ?_, fun hfull => ⟨trivial, .inr ⟨rows, newKeys, hok, not_le.1 hfull⟩⟩⟩
  refine (popFreePages_ends h).mono (fun newPages m₁ h₁ => ?_) fun _ m' h' =>
    ⟨h'.2, .inr ⟨rows, newKeys, hok, h'.1⟩⟩
  obtain ⟨rfl, hnewKeys, hlength, hids, hnew⟩ := normalizeSharedPageKeys_ok hok
  obtain ⟨hpopped, hcount, stack, rfl⟩ := h₁
  rw [append_nil] at hpopped
  have hmemNew (key : PageKey) : key ∈ newKeys ↔ key ∈ rows.flatten ∧ m.isMapped key = false := by
    rw [hnewKeys, mem_dedup, mem_filter]
    simp
  have hunmapped (key : PageKey) (hkey : key ∈ newKeys) : m.sharedPageKeyToGpuPage.lookup key = none := by
    simpa [Manager.isMapped] using ((hmemNew key).1 hkey).2
  obtain ⟨hfst, hsnd, hkeysNodup, hpagesNodup, hfresh⟩ :=
    newPairs_fresh h hpopped hcount (hnewKeys ▸ nodup_dedup _) hunmapped
  obtain ⟨hbalanced, hkeys⟩ := hpopped.mapKeys hkeysNodup hpagesNodup hfresh
  have hrow {row : SequenceId × List PageKey} (hrow : row ∈ sequenceIds.zip rows) {key : PageKey}
      (hkey : key ∈ row.2) : key ∈ rows.flatten :=
    mem_flatten.2 ⟨row.2, (of_mem_zip hrow).2, hkey⟩
  have hpair {key : PageKey} (hkey : key ∈ newKeys) :
      ∃ page, (key, page) ∈ (newKeys.insertionSort (· ≤ ·)).zip newPages := by
    have hmem := (perm_insertionSort (· ≤ ·) newKeys).mem_iff.2 hkey
    rw [← hfst] at hmem
    obtain ⟨pair, hpair, rfl⟩ := mem_map.1 hmem
    exact ⟨pair.2, hpair⟩
  refine (allocateKeyedRows_ends ∅ hbalanced (fun row hmem key hkey => ?_) ?_ fun row hmem => ?_).mono
    (fun _ m' h' => ?_) fun _ _ => False.elim
  · by_cases hold : m.isMapped key
    · have hnotNew : key ∉ ((newKeys.insertionSort (· ≤ ·)).zip newPages).map Prod.fst := by
        rw [hfst, mem_insertionSort, hmemNew, hold]
        simp
      rw [Manager.isMapped, hkeys.old key hnotNew]
      exact hold
    · obtain ⟨page, hmem'⟩ := hpair ((hmemNew key).2 ⟨hrow hmem hkey, by simpa using hold⟩)
      exact Manager.isMapped_iff.2 ⟨page, hkeys.new key page hmem'⟩
  · rw [map_fst_zip hlength.le]
    exact hids
  · rw [hkeys.sequences]
    exact hnew row.1 (of_mem_zip hmem).1
  · -- Every new key stands in a row, so every popped page was given to one.
    suffices hnone : newPages.diff ((sequenceIds.zip rows).flatMap fun row => _) = [] by rwa [hnone] at h'
    rw [eq_nil_iff_forall_not_mem]
    intro page hpage
    obtain ⟨hpage, hunused⟩ := (hpopped.nodup.of_append_right.mem_sdiff_iff).1 hpage
    rw [← hsnd] at hpage
    obtain ⟨⟨key, page⟩, hmem, rfl⟩ := mem_map.1 hpage
    have hkey := (hmemNew key).1 ((mem_insertionSort _).1 (of_mem_zip hmem).1)
    obtain ⟨keys, hkeys', hkey'⟩ := mem_flatten.1 hkey.1
    rw [← map_snd_zip hlength.ge] at hkeys'
    obtain ⟨row, hrow', rfl⟩ := mem_map.1 hkeys'
    exact hunused (mem_flatMap.2 ⟨row, hrow', Manager.mem_pagesOf.2 ⟨key, hkey', hkeys.new key page hmem⟩⟩)

/-! ### Every method -/

/-- Keeping the books balanced, however the call ends. -/
abbrev KeepsBalanced {α : Type} (cfg : Config) (x : Call α) : Prop :=
  Keeps (fun _ => True) (Balanced cfg [] []) x

theorem KeepsBalanced.of_ends {x : Call α}
    (h : ∀ m, Balanced cfg [] [] m → Ends x m (fun _ m' => Balanced cfg [] [] m') fun _ m' => Balanced cfg [] [] m') :
    KeepsBalanced cfg x := fun m hm => (h m hm).mono (fun _ _ => id) fun _ _ h' => ⟨trivial, h'⟩

theorem KeepsBalanced.ends {x : Call α} (h : KeepsBalanced cfg x) (hm : Balanced cfg [] [] m) :
    Ends x m (fun _ m' => Balanced cfg [] [] m') fun _ m' => Balanced cfg [] [] m' :=
  (h m hm).mono (fun _ _ => id) fun _ _ h' => h'.2

theorem ensureInitialized_keeps : KeepsBalanced cfg ensureInitialized := .of_ends fun m hm => by
  simp [ensureInitialized, hm]

theorem check_keeps [Decidable c] : KeepsBalanced cfg (check c e) :=
  .of_ends fun m hm => by simp [hm]

theorem liftExcept_keeps {x : Except PyError α} : KeepsBalanced cfg (liftExcept x) := .of_ends fun m hm => by simp [hm]

theorem get_keeps : KeepsBalanced cfg (get : Call Manager) := .of_ends fun _ hm => hm

theorem appendNewPages_keeps {count : ℕ} :
    KeepsBalanced cfg (appendNewPages sequenceId count) := .of_ends fun _ hm => appendNewPages_ends hm

theorem allocatePages_keeps {numTokens : ℤ} : KeepsBalanced cfg (allocatePages cfg sequenceId numTokens) :=
  ensureInitialized_keeps.bind fun _ => liftExcept_keeps.bind fun _ => get_keeps.bind fun _ =>
    .ite (fun _ => .pure _) fun _ => check_keeps.bind fun _ => appendNewPages_keeps

theorem allocateRow_keeps {allocations : AList fun _ : SequenceId => List Page} {row : SequenceId × ℤ} :
    KeepsBalanced cfg (allocateRow allocations row) :=
  check_keeps.bind fun _ => get_keeps.bind fun _ => .ite (fun _ => .pure _) fun _ =>
    check_keeps.bind fun _ => appendNewPages_keeps.bind fun _ => .pure _

theorem allocatePagesForSequences_keeps {numTokens : List ℤ} :
    KeepsBalanced cfg (allocatePagesForSequences cfg sequenceIds numTokens) :=
  ensureInitialized_keeps.bind fun _ => check_keeps.bind fun _ => .ite (fun _ => .pure _) fun _ =>
    liftExcept_keeps.bind fun _ => .foldlM (fun _ _ _ => allocateRow_keeps) _

theorem growPagesForSequences_keeps {numPages : List ℤ} :
    KeepsBalanced cfg (growPagesForSequences sequenceIds numPages) :=
  ensureInitialized_keeps.bind fun _ => check_keeps.bind fun _ => .ite (fun _ => .pure _) fun _ =>
    get_keeps.bind fun _ => check_keeps.bind fun _ => liftExcept_keeps.bind fun _ =>
      .foldlM (fun _ _ _ => appendNewPages_keeps.bind fun _ => .pure _) _

theorem extendPagesForSequence_keeps {newTotalTokens : ℤ} :
    KeepsBalanced cfg (extendPagesForSequence cfg sequenceId newTotalTokens) :=
  ensureInitialized_keeps.bind fun _ => get_keeps.bind fun _ => liftExcept_keeps.bind fun _ =>
    .ite (fun _ => .pure _) fun _ => check_keeps.bind fun _ => appendNewPages_keeps.bind fun _ => .pure _

/-- A sequence goes and its references with it. -/
theorem freeSequence_keeps : KeepsBalanced cfg (freeSequence seqId) := .of_ends fun m hm => by
    simp only [freeSequence, ends_bind, ends_get]
    split
    · exact hm
    · rename_i pages hpages
      simp only [ends_bind, ends_set]
      have herased := hm.eraseSequence hpages
      rw [append_nil] at herased
      exact (releaseGpuPages_ends herased).mono (fun _ _ => id) fun _ _ => False.elim

theorem freePagesForSequences_keeps : KeepsBalanced cfg (freePagesForSequences sequenceIds) :=
  ensureInitialized_keeps.bind fun _ => get_keeps.bind fun _ => check_keeps.bind fun _ =>
    .forM fun _ _ => freeSequence_keeps

/-- The oldest pages of a sequence go. -/
theorem releaseSequencePrefixPages_keeps {numPages : ℤ} :
    KeepsBalanced cfg (releaseSequencePrefixPages sequenceId numPages) := by
  refine ensureInitialized_keeps.bind fun _ => check_keeps.bind fun _ => .ite (fun _ => .pure _) fun _ =>
    KeepsBalanced.of_ends fun m hm => ?_
  simp only [ends_bind, ends_get]
  split
  · exact hm
  rename_i pages hpages
  simp only [ends_bind, ends_check, ends_set, ends_pure]
  refine ⟨fun _ => ?_, fun _ => hm⟩
  have hsplit : Balanced cfg (pages.take numPages.toNat) [] (m.setSequence sequenceId (pages.drop numPages.toNat)) := by
    refine hm.setSequence sequenceId _ fun p => ?_
    rw [hpages, getD_some, count_nil, Nat.add_zero, Nat.add_comm, ← count_append, take_append_drop]
  exact (releaseGpuPages_ends hsplit).mono (fun _ _ => id) fun _ _ => False.elim

theorem resetAllocations_keeps : KeepsBalanced cfg (resetAllocations cfg) :=
  ensureInitialized_keeps.bind fun _ => KeepsBalanced.of_ends fun m _ => by
    have hfresh : Consistent cfg (.fresh cfg) := fresh_consistent
    obtain ⟨h1, h2, h3, h4, h5, h6, h7⟩ := balanced_nil_iff.2 hfresh
    exact ⟨h1, h2, h3, h4, h5, h6, h7⟩

/-- Every method keeps the bookkeeping, also when it raises. -/
theorem Method.call_keeps (cfg : Config) (method : Method) : KeepsBalanced cfg (method.call cfg) := by
  cases method with
  | allocatePages => exact allocatePages_keeps.bind fun _ => .pure _
  | allocatePagesForSequences => exact allocatePagesForSequences_keeps.bind fun _ => .pure _
  | allocatePagesForSequencesWithPageKeys =>
    refine Keeps.bind (KeepsBalanced.of_ends fun m hm => ?_) fun _ => .pure _
    exact (allocatePagesForSequencesWithPageKeys_ends hm).mono (fun _ _ => id) fun _ _ h' => h'.1 ▸ hm
  | growPagesForSequences => exact growPagesForSequences_keeps.bind fun _ => .pure _
  | extendPagesForSequence => exact extendPagesForSequence_keeps.bind fun _ => .pure _
  | freePagesForSequences => exact freePagesForSequences_keeps
  | releaseSequencePrefixPages => exact releaseSequencePrefixPages_keeps.bind fun _ => .pure _
  | resetAllocations => exact resetAllocations_keeps

theorem Method.after_consistent (method : Method) (h : Consistent cfg m) : Consistent cfg (method.after cfg m) := by
  have hends := (method.call_keeps cfg).ends (balanced_nil_iff.2 h)
  unfold Ends at hends
  unfold Method.after
  rw [← balanced_nil_iff]
  split at hends <;> simp_all

/-- The bookkeeping is consistent after every sequence of calls. -/
theorem run_consistent (cfg : Config) (methods : List Method) :
    Consistent cfg (methods.foldl (fun m method => method.after cfg m) (.fresh cfg)) :=
  foldlRecOn methods _ fresh_consistent fun _ hm method _ => method.after_consistent hm

/-- **Free and held pages add up to the pool** after any calls; shared pages count once. -/
theorem free_add_held (cfg : Config) (methods : List Method) :
    let m := methods.foldl (fun m method => method.after cfg m) (.fresh cfg)
    m.freePages.size + (pooled m.sequences).dedup.length = cfg.numPages := by
  intro m
  have hm : Consistent cfg m := foldlRecOn methods _ fresh_consistent fun _ h method _ => method.after_consistent h
  have hheld (p : Page) : p ∈ (pooled m.sequences).dedup ↔ 0 < m.refcount p := by
    rw [mem_dedup, ← count_pos_iff, hm.refcount_eq]
  have hnodup : (m.freePages.items ++ (pooled m.sequences).dedup).Nodup := by
    refine nodup_append'.2 ⟨hm.free_nodup, nodup_dedup _, fun p hp hp' => ?_⟩
    exact ((hheld p).1 hp').ne' ((hm.free_iff p).1 hp).2
  have hperm := (perm_ext_iff_of_nodup hnodup (nodup_range (n := cfg.numPages))).2 fun p => by
    rw [mem_append, hm.free_iff, hheld, mem_range]
    grind [hm.refcount_pos p]
  rw [TensorStack.size, ← length_append, hperm.length_eq, length_range]

end Batchgen.GpuPagedKV
