import Batchgen.HostPagedKV.PageSafety
import Mathlib.Algebra.BigOperators.Group.List.Basic

/-!
# What the audited statistics show

`CollectAuditedStats` walks the table and the page owners under both mutexes and compares what it finds with the
counters.  Between the two sections of a call its pages are in no chain and not on the stack, and they are the whole
difference:

* `ActiveCounts.beginCall`, `ActiveCounts.resumeCall` — every section keeps `active_sequences` the number of live
  entries;
* `PagesHeld.total` — the pages, counted place by place;
* **`collectAuditedStats_exact`** — the delta is the number of pages in the hands of calls, in every reachable state,
  when the page ids fit and the counter of entries does.
-/

namespace Batchgen.HostPagedKV

open MachineInt Function List

variable {Pid : Type*}

/-! ### The statistics -/

/-- The counters of the region as `CollectStats` reads them. -/
structure HostPagedKVStats where
  numTotalPages : ℕ
  numFreePages : ℕ
  numUsedPages : ℕ
  numActiveSequences : ℕ
  sequenceTableCapacity : ℕ
  sequencesInserted : ℕ
  sequencesReleased : ℕ
  acquireFailures : ℕ

def collectStats (cfg : HostPagedKVConfig) (r : Region) : HostPagedKVStats where
  numTotalPages := cfg.numPages
  numFreePages := r.freeStackTop
  numUsedPages := cfg.numPages - r.freeStackTop
  numActiveSequences := r.activeSequences
  sequenceTableCapacity := cfg.sequenceCapacity
  sequencesInserted := r.sequencesInserted
  sequencesReleased := r.sequencesReleased
  acquireFailures := r.acquireFailures

structure HostPagedKVSequenceAudit where
  liveEntries : ℕ := 0
  tombstoneEntries : ℕ := 0
  emptyEntries : ℕ := 0
  liveSequencePages : ℕ := 0
  prefixResidentPages : ℕ := 0
  pageIdentityDelta : ℤ := 0

/-- One round of the walk over the table. -/
def auditEntry (r : Region) (audit : HostPagedKVSequenceAudit) (slot : ℕ) : HostPagedKVSequenceAudit :=
  let entry := r.sequenceTable slot
  if entry.sequenceId = kEmptySequenceId then { audit with emptyEntries := audit.emptyEntries + 1 }
  else if entry.sequenceId = kTombstoneSequenceId then
    { audit with tombstoneEntries := audit.tombstoneEntries + 1 }
  else
    { audit with
      liveEntries := audit.liveEntries + 1
      liveSequencePages := audit.liveSequencePages + entry.numPages }

/-- `CollectAuditedStats`, which holds both mutexes. -/
def collectAuditedStats (cfg : HostPagedKVConfig) (r : Region) : HostPagedKVStats × HostPagedKVSequenceAudit :=
  let stats := collectStats cfg r
  let audit := (List.range cfg.sequenceCapacity).foldl (auditEntry r) {}
  let resident := (List.range cfg.numPages).countP fun page : ℕ => r.pageOwners page = kPrefixResidentSequenceId
  (stats, { audit with
    prefixResidentPages := resident
    pageIdentityDelta := stats.numUsedPages - (audit.liveSequencePages + resident : ℕ) })

/-- The walk counts every slot once, and the pages of the live ones. -/
theorem auditEntry_foldl (r : Region) (slots : List ℕ) (audit : HostPagedKVSequenceAudit) :
    (slots.foldl (auditEntry r) audit).liveEntries =
        audit.liveEntries + (slots.filter fun slot => (r.sequenceTable slot).live).length ∧
      (slots.foldl (auditEntry r) audit).liveSequencePages = audit.liveSequencePages + (slots.map fun slot =>
        if (r.sequenceTable slot).live then (r.sequenceTable slot).numPages else 0).sum ∧
      (slots.foldl (auditEntry r) audit).liveEntries + (slots.foldl (auditEntry r) audit).tombstoneEntries +
          (slots.foldl (auditEntry r) audit).emptyEntries =
        audit.liveEntries + audit.tombstoneEntries + audit.emptyEntries + slots.length := by
  induction slots generalizing audit with
  | nil => simp
  | cons slot slots ih =>
    obtain ⟨hlive, hpages, htotal⟩ := ih (auditEntry r audit slot)
    rw [foldl_cons, htotal, hlive, hpages, map_cons, sum_cons, length_cons, filter_cons]
    unfold auditEntry SequenceEntry.live
    by_cases hempty : (r.sequenceTable slot).sequenceId = kEmptySequenceId
    · simp [hempty]
      omega
    · by_cases htombstone : (r.sequenceTable slot).sequenceId = kTombstoneSequenceId
      · simp [htombstone, htombstone ▸ hempty]
        omega
      · simp [hempty, htombstone]
        omega

/-! ### The count of live entries -/

section Count

variable {cfg : HostPagedKVConfig} {r r' : Region} {flight : Pid → List ℤ} {cells : Place Pid → List ℤ} {slot : ℕ}
  {sequenceId : ℤ}

theorem ActiveCounts.clearPages (h : ActiveCounts cfg r) (pages : List ℤ) : ActiveCounts cfg (clearPages r pages) := by
  rw [clearPages_rest]
  exact h

theorem pushPages_counters (pages : List ℤ) (r : Region) :
    (pushPages r pages).sequenceTable = r.sequenceTable ∧ (pushPages r pages).activeSequences = r.activeSequences := by
  induction pages generalizing r with
  | nil => exact ⟨rfl, rfl⟩
  | cons page pages ih => exact ih (pushPage r page)

theorem ActiveCounts.pushPages (h : ActiveCounts cfg r) (pages : List ℤ) : ActiveCounts cfg (pushPages r pages) := by
  obtain ⟨htable, hactive⟩ := pushPages_counters pages r
  exact h.congr hactive fun s => by rw [htable]

theorem ActiveCounts.unlinkRequested (requested : List ℤ) (slot fuel : ℕ) (previousPage page : ℤ) {r : Region}
    (h : ActiveCounts cfg r) : ActiveCounts cfg (unlinkRequested requested slot fuel previousPage page r) := by
  induction fuel generalizing previousPage page r with
  | zero => exact h
  | succ fuel ih =>
    rw [HostPagedKV.unlinkRequested]
    split
    · exact h
    split
    · refine ih _ _ (h.congr rfl fun s => live_congr ?_)
      by_cases hs : s = slot
      · simp [unlinkPage, hs]
      · simp [unlinkPage, hs]
    · exact ih _ _ h

/-- An entry that is rewritten with its id. -/
theorem ActiveCounts.setEntry (h : ActiveCounts cfg r) {entry : SequenceEntry}
    (hid : entry.sequenceId = (r.sequenceTable slot).sequenceId) (hactive : r'.activeSequences = r.activeSequences)
    (htable : r'.sequenceTable = update r.sequenceTable slot entry) : ActiveCounts cfg r' := by
  refine h.congr hactive fun s => live_congr ?_
  rw [htable]
  by_cases hs : s = slot
  · rw [hs, update_self, hid]
  · rw [update_of_ne hs]

theorem ActiveCounts.releaseSequence (h : ActiveCounts cfg r) (hheld : PagesHeld cfg r flight cells)
    (hres : isReservedSequenceId sequenceId = false) : ActiveCounts cfg (releaseSequenceDetach cfg sequenceId r).2 := by
  unfold releaseSequenceDetach
  split
  · exact h
  rename_i slot hfind
  have hslot := liveSlot_of_find hres hfind
  dsimp only
  rw [detachFront_spec (hheld.chain slot hslot).chain]
  generalize take (cfg.numPages + 1) (cells (.chain slot)) = pages
  have hcleared := h.clearPages pages
  have hlive : LiveSlot cfg (HostPagedKV.clearPages r pages) slot := by
    rw [clearPages_rest]
    exact hslot
  generalize HostPagedKV.clearPages r pages = r₁ at hcleared hlive ⊢
  have hcount := liveSlots_length_succ (r := { r₁ with
      sequenceTable := update r₁.sequenceTable slot tombstoneEntry
      activeSequences := u32Pred r₁.activeSequences
      sequencesReleased := u64 (r₁.sequencesReleased + 1) }) hlive
    (by simp [tombstoneEntry_not_live]) fun s hs => by simp [update_of_ne hs]
  rw [ActiveCounts, hcount] at hcleared
  exact (congrArg u32Pred hcleared).trans (u32Pred_u32_succ _)

theorem ActiveCounts.releasePrefixPages (h : ActiveCounts cfg r) (hheld : PagesHeld cfg r flight cells)
    (hres : isReservedSequenceId sequenceId = false) (numPages : ℕ) :
    ActiveCounts cfg (releasePrefixPagesDetach cfg sequenceId numPages r).2 := by
  unfold releasePrefixPagesDetach
  split
  · exact h
  rename_i slot hfind
  dsimp only
  split
  · exact h
  rw [detachFront_spec (hheld.chain slot (liveSlot_of_find hres hfind)).chain]
  have hcleared := h.clearPages (take numPages (cells (.chain slot)))
  dsimp only
  split
  · exact hcleared
  · exact hcleared.setEntry (by rw [clearPages_table]) rfl rfl

theorem ActiveCounts.retainPages (h : ActiveCounts cfg r) (sequenceId : ℤ) (pageIds : List ℤ) :
    ActiveCounts cfg (retainPages cfg sequenceId pageIds r).2 := by
  unfold HostPagedKV.retainPages
  split
  · exact h
  split
  · exact h
  dsimp only
  split
  · exact h
  · refine (h.unlinkRequested pageIds _ _ _ _).setEntry ?_ rfl rfl
    unfold resetEmptyEntry
    split <;> rfl

variable [DecidableEq Pid] {pid : Pid}

/-- **The first section of any call** keeps the count. -/
theorem ActiveCounts.beginCall (hfit : cfg.numPages ≤ 2 ^ 31) (h : ActiveCounts cfg r)
    (hheld : PagesHeld cfg r flight cells) (hidle : flight pid = []) (call : Call)
    (hids : NoneReserved call.sequenceIds) :
    ActiveCounts cfg (beginCall cfg r call).2 := by
  cases call with
  | acquirePages sequenceId numPages =>
    rw [HostPagedKV.beginCall]
    split
    · exact h
    split
    · exact h
    unfold popPages
    split
    · rename_i hpop
      split at hpop <;> cases hpop
      exact h
    · rename_i hpop
      split at hpop <;> cases hpop
      exact h
  | acquirePagesForSequences sequenceIds numTokens =>
    rcases hheld.beginWave hfit hidle sequenceIds numTokens hids with
      ⟨error, r', hout, -, hunchanged⟩ | ⟨allocations, r', hout, -, -, -, -, -, hcounts⟩
    · have hsame := hunchanged (h ▸ u32_lt _)
      rw [hout]
      refine h.congr hsame.active fun s => ?_
      rcases hsame.table s with heq | ⟨hdead, hdead'⟩
      · rw [heq]
      · exact iff_of_false hdead' hdead
    · rw [hout]
      exact hcounts h
  | releaseSequence sequenceId =>
    rw [HostPagedKV.beginCall, afterDetach_region]
    exact h.releaseSequence hheld (hids sequenceId mem_cons_self)
  | releasePrefixPages sequenceId numPages =>
    rw [HostPagedKV.beginCall]
    split
    · exact h
    · rw [afterDetach_region]
      exact h.releasePrefixPages hheld (hids sequenceId mem_cons_self) numPages
  | retainPages sequenceId pageIds =>
    rw [HostPagedKV.beginCall]
    split
    · exact h
    have hcounts := h.retainPages sequenceId pageIds
    split
    · rename_i hout
      rw [hout] at hcounts
      exact hcounts
    · rename_i hout
      rw [hout] at hcounts
      exact hcounts
  | releaseResidentPages pageIds =>
    rw [HostPagedKV.beginCall]
    split
    · exact h
    rw [afterDetach_region]
    unfold releaseResidentPagesClear
    split
    · exact h
    · exact h.clearPages pageIds

omit [DecidableEq Pid] in
/-- **The second section of any call** keeps the count. -/
theorem ActiveCounts.resumeCall (h : ActiveCounts cfg r) {call : CallState}
    (hids : call.IdFree) :
    ActiveCounts cfg (resumeCall cfg r call).2 := by
  cases call with
  | idle last => exact h
  | acquired sequenceId pages =>
    rw [HostPagedKV.resumeCall]
    unfold acquirePagesAttach
    cases hfind : findOrInsertSequenceEntryLocked cfg r sequenceId with
    | error e => exact h
    | ok found =>
      obtain ⟨slot, isNew, r₁⟩ := found
      obtain ⟨hactive, -, hsame⟩ := attachPages_counters sequenceId slot pages (if isNew then countInserted r₁ else r₁)
      have hr₁ : r₁.activeSequences = r.activeSequences := by
        obtain ⟨-, ⟨-, rfl, -⟩ | ⟨-, -, rfl⟩⟩ := SlotFound.cases hfind <;> rfl
      refine h.settle (hids sequenceId pages rfl) hfind (fun s => (hsame s).trans ?_) (hactive.trans ?_)
      · cases isNew <;> rfl
      · cases isNew <;> simp [countInserted, hr₁]
  | releasing pages result => exact h.pushPages pages
  | undoing pages error => exact h.pushPages pages

end Count

/-- **The run lemma**: the counter of entries is right in every reachable state. -/
theorem Reachable.activeCounts [DecidableEq Pid] {cfg : HostPagedKVConfig} {st : State Pid}
    (hfit : cfg.numPages ≤ 2 ^ 31) (h : Reachable cfg st) : ActiveCounts cfg st.region := by
  induction h with
  | refl =>
    have hnone : liveSlots cfg (constructSharedState cfg) = [] :=
      filter_eq_nil_iff.mpr fun slot _ hlive => (of_decide_eq_true hlive).1 rfl
    rw [ActiveCounts, initialState, hnone]
    rfl
  | tail hrun hstep ih =>
    have hsafe := Reachable.safe hfit hrun
    obtain ⟨cells, hheld⟩ := hsafe.held
    cases hstep with
    | beginCall pid call last hidle hids =>
      exact ih.beginCall hfit hheld (congrArg CallState.localPages hidle) call hids
    | resumeCall pid => exact ih.resumeCall (hsafe.ids pid)

/-! ### The pages -/

section Pages

variable {cfg : HostPagedKVConfig} {r : Region} {flight : Pid → List ℤ} {cells : Place Pid → List ℤ}

section

variable (h : PagesHeld cfg r flight cells)
include h

/-- The pages of the region, place by place. -/
theorem PagesHeld.total {procs : List Pid} (hprocs : procs.Nodup) (hidle : ∀ pid, pid ∉ procs → flight pid = []) :
    cfg.numPages = r.freeStackTop + ((cells .resident).length +
      (((range cfg.sequenceCapacity).map fun slot => (cells (.chain slot)).length).sum +
        (procs.map fun pid => (flight pid).length).sum)) := by
  have hchains : ((range cfg.sequenceCapacity).map (Place.chain : ℕ → Place Pid)).Nodup :=
    nodup_range.map fun _ _ heq => Place.chain.inj heq
  have hplaces : (.free :: .resident :: ((range cfg.sequenceCapacity).map Place.chain ++ procs.map Place.flight) :
      List (Place Pid)).Nodup := by
    simp [hchains, hprocs.map fun _ _ => Place.flight.inj, nodup_append]
  have hall : (allPages cfg).Nodup := nodup_range.map Int.ofNat_injective
  have hsum := h.placement.length_eq_sum hplaces (fun place hplace => ?_) hall fun page =>
    ⟨fun hmem => ?_, mem_allPages⟩
  · simpa [allPages_length, h.free, h.flight, freePages, comp_def] using hsum
  · cases place with
    | free => simp at hplace
    | resident => simp at hplace
    | chain slot => exact h.unused slot fun hlive => hplace (by simp [hlive.1])
    | flight pid => exact (h.flight pid).trans (hidle pid fun hmem => hplace (by simp [hmem]))
  · obtain ⟨n, hn, rfl⟩ := mem_map.mp hmem
    exact ⟨Int.natCast_nonneg n, Int.ofNat_lt.mpr (mem_range.mp hn)⟩

/-- The pages with the resident owner are the resident ones. -/
theorem PagesHeld.resident_count :
    (range cfg.numPages).countP (fun page : ℕ => r.pageOwners page = kPrefixResidentSequenceId) =
      (cells .resident).length := by
  rw [countP_eq_length_filter, ← length_map (f := Int.ofNat)]
  apply List.Perm.length_eq
  refine (perm_ext_iff_of_nodup ((nodup_range.filter _).map Int.ofNat_injective) (h.placement.nodup _)).mpr
    fun page => ?_
  simp only [mem_map, mem_filter, mem_range, decide_eq_true_eq]
  constructor
  · rintro ⟨n, ⟨hn, howner⟩, rfl⟩
    exact h.mem_resident ⟨Int.natCast_nonneg n, Int.ofNat_lt.mpr hn⟩ howner
  · intro hmem
    obtain ⟨hlo, hhi⟩ := h.placement.mem_univ _ page hmem
    lift page to ℕ using hlo
    exact ⟨page, ⟨Int.ofNat_lt.mp hhi, h.tagged .resident _ rfl _ hmem⟩, rfl⟩

theorem PagesHeld.chain_length {slot : ℕ} (hslot : slot < cfg.sequenceCapacity) :
    (if (r.sequenceTable slot).live then (r.sequenceTable slot).numPages else 0) = (cells (.chain slot)).length := by
  split
  · rename_i hlive
    exact (h.chain slot ⟨hslot, hlive⟩).count
  · rename_i hdead
    rw [h.unused slot fun hlive => hdead hlive.2]
    rfl

end

end Pages

/-- **The audit is exact in every reachable state**: the delta is the number of pages that calls hold between their
sections, the entries add up to the capacity, and `active_sequences` is the number of live ones. -/
theorem collectAuditedStats_exact [DecidableEq Pid] (cfg : HostPagedKVConfig) (hfit : cfg.numPages ≤ 2 ^ 31)
    (hcapacity : cfg.sequenceCapacity < 2 ^ 32) (st : State Pid) (h : Reachable cfg st) (procs : List Pid)
    (hprocs : procs.Nodup) (hidle : ∀ pid, pid ∉ procs → (st.calls pid).localPages = []) :
    let (stats, audit) := collectAuditedStats cfg st.region
    audit.pageIdentityDelta = (procs.map fun pid => (st.calls pid).localPages.length).sum ∧
      audit.liveEntries + audit.tombstoneEntries + audit.emptyEntries = cfg.sequenceCapacity ∧
      audit.liveEntries = stats.numActiveSequences := by
  obtain ⟨cells, hheld⟩ := (Reachable.safe hfit h).held
  obtain ⟨hlive, hpages, htotal⟩ := auditEntry_foldl st.region (range cfg.sequenceCapacity) {}
  refine ⟨?_, by simpa using htotal, ?_⟩
  · have hsum := hheld.total hprocs hidle
    rw [map_congr_left fun slot hslot => hheld.chain_length (mem_range.mp hslot)] at hpages
    dsimp only [collectAuditedStats, collectStats] at hpages ⊢
    rw [hpages, hheld.resident_count]
    omega
  · have hcount := Reachable.activeCounts hfit h
    have hlt : (liveSlots cfg st.region).length < 2 ^ 32 :=
      ((length_filter_le _ _).trans_eq length_range).trans_lt hcapacity
    rw [ActiveCounts, u32_of_lt hlt] at hcount
    exact (hlive.trans (Nat.zero_add _)).trans hcount.symm

/-- A region of one page, with the page in the hands of a call. -/
def pageInFlight : State ℕ :=
  (initialState ℕ oneSlot).commit 0 (beginCall oneSlot (constructSharedState oneSlot) (.acquirePages 7 1))

theorem collectAuditedStats_exact_pageInFlight :
    Reachable oneSlot pageInFlight ∧ (collectAuditedStats oneSlot pageInFlight.region).2.pageIdentityDelta = 1 := by
  have hreached : Reachable oneSlot pageInFlight := .single (.beginCall 0 (.acquirePages 7 1) none rfl (by decide))
  refine ⟨hreached, (collectAuditedStats_exact oneSlot (by decide) (by decide) pageInFlight hreached [0] (by decide)
    fun pid hpid => ?_).1.trans (by decide +kernel)⟩
  rw [mem_singleton] at hpid
  simp [pageInFlight, State.commit, hpid, initialState, CallState.localPages]

/-- In a fresh region the delta is what the stack top lost when it was stored. -/
theorem collectAuditedStats_fresh (cfg : HostPagedKVConfig) :
    (collectAuditedStats cfg (constructSharedState cfg)).2.pageIdentityDelta =
      (cfg.numPages - u32 cfg.numPages : ℕ) := by
  have hresident : (range cfg.numPages).countP
      (fun page : ℕ => (constructSharedState cfg).pageOwners page = kPrefixResidentSequenceId) = 0 :=
    countP_eq_zero.mpr fun page _ => by simp [constructSharedState, kEmptySequenceId, kPrefixResidentSequenceId]
  have hpages := (auditEntry_foldl (constructSharedState cfg) (range cfg.sequenceCapacity) {}).2.1
  dsimp only [collectAuditedStats, collectStats]
  rw [hpages, hresident]
  simp [constructSharedState, SequenceEntry.live]

/-- As many pages as the 32-bit stack top wraps at. -/
def wrappedTopConfig : HostPagedKVConfig where
  numPages := 2 ^ 32
  pageSizeTokens := 1
  sequenceTableCapacity := 1
  numPages_pos := Nat.two_pow_pos 32
  numPages_lt := by omega
  pageSizeTokens_pos := Nat.one_pos
  pageSizeTokens_lt := oneSlot.pageSizeTokens_lt
  sequenceTableCapacity_lt := oneSlot.sequenceTableCapacity_lt

/-- A fresh region that no call uses, whose stack top wrapped to zero: every page shows as leaked. -/
theorem wrappedTopConfig_delta : Reachable wrappedTopConfig (initialState ℕ wrappedTopConfig) ∧
      (initialState ℕ wrappedTopConfig).calls = (fun _ => .idle none) ∧
      (collectAuditedStats wrappedTopConfig (initialState ℕ wrappedTopConfig).region).2.pageIdentityDelta = 2 ^ 32 := by
  have hlost : wrappedTopConfig.numPages - u32 wrappedTopConfig.numPages = 2 ^ 32 := by norm_num [wrappedTopConfig, u32]
  refine ⟨.refl, rfl, ?_⟩
  rw [initialState, collectAuditedStats_fresh, hlost]
  norm_num

end Batchgen.HostPagedKV
