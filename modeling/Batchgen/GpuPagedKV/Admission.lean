import Batchgen.GpuPagedKV.SharedPrefixCharge
import Batchgen.GpuPagedKV.Methods

/-!
# Admitted rows can be allocated

Admission charges each row what nobody pays for yet, the allocator pops one page for each key that is not
mapped.  `Covered` is the invariant of the walk: the charges cover the unmapped keys of the admitted rows.

* `mem_planSharedRuns` — a run ends with a page of the sequence's own table;
* `Covered.admit` — one turn of the walk;
* `admitted_rows_fit` — what was admitted can be allocated.
-/

namespace Batchgen.GpuPagedKV

open List

variable {cfg : Config} {m : Manager} {seqId : SequenceId} {n run : ℕ} {key : PageKey}

/-! ### Shared runs -/

theorem commonPages_le_left (as bs : List PageKey) : commonPages as bs ≤ as.length := by
  induction as generalizing bs with
  | nil => simp [commonPages]
  | cons a as ih =>
    cases bs with
    | nil => simp [commonPages]
    | cons b bs =>
      rw [commonPages]
      split
      · exact Nat.succ_le_succ (ih bs)
      · exact Nat.zero_le _

theorem commonPages_comm (as bs : List PageKey) : commonPages as bs = commonPages bs as := by
  induction as generalizing bs with
  | nil => cases bs <;> rfl
  | cons a as ih =>
    cases bs with
    | nil => rfl
    | cons b bs => simp only [commonPages, ih bs, eq_comm]

theorem mem_neighbourRuns {previous : Option (List PageKey)} {rows : List (SequenceId × List PageKey)}
    (h : (seqId, key, run) ∈ neighbourRuns previous rows) :
    ∃ table, (seqId, table) ∈ rows ∧ 0 < run ∧ table[run - 1]? = some key := by
  induction rows generalizing previous with
  | nil => simp [neighbourRuns] at h
  | cons row rows ih =>
    obtain ⟨seqId', table⟩ := row
    have hrest (h : (seqId, key, run) ∈ neighbourRuns (some table) rows) :
        ∃ table', (seqId, table') ∈ (seqId', table) :: rows ∧ 0 < run ∧ table'[run - 1]? = some key := by
      obtain ⟨table', hmem, hrun⟩ := ih h
      exact ⟨table', mem_cons_of_mem _ hmem, hrun⟩
    have hlength : max (previous.elim 0 fun before => commonPages before table)
        (rows.head?.elim 0 fun after => commonPages table after.2) ≤ table.length := by
      refine max_le ?_ ?_
      · cases previous with
        | none => exact Nat.zero_le _
        | some before => exact (commonPages_comm before table).trans_le (commonPages_le_left table before)
      · cases rows.head? with
        | none => exact Nat.zero_le _
        | some after => exact commonPages_le_left table after.2
    simp only [neighbourRuns] at h
    split at h
    · exact hrest h
    rename_i n hn
    rcases mem_cons.1 h with heq | h
    · cases heq
      refine ⟨table, mem_cons_self, Nat.succ_pos n, ?_⟩
      have hlt : n < table.length := by omega
      rw [Nat.add_sub_cancel, getD_eq_getElem?_getD, getElem?_eq_getElem hlt, Option.getD_some]
    · exact hrest h

/-- A run ends with a page of the sequence's own table. -/
theorem mem_planSharedRuns {pageTables : List (SequenceId × List PageKey)}
    (h : (seqId, key, run) ∈ planSharedRuns pageTables) :
    ∃ table, (seqId, table) ∈ pageTables ∧ 0 < run ∧ table[run - 1]? = some key := by
  simp only [planSharedRuns, mem_flatMap] at h
  obtain ⟨first, -, h⟩ := h
  split at h
  · simp at h
  · obtain ⟨table, hmem, hrun⟩ := mem_neighbourRuns h
    rw [mem_insertionSort, mem_filter, mem_filter] at hmem
    exact ⟨table, hmem.1.1, hrun⟩

/-! ### Candidates -/

/-- A row on its way to the pool: its Host page table, and how much of it is compared with the other rows. -/
structure Candidate where
  id : SequenceId
  keys : List PageKey
  usable : ℕ
  keys_ne_nil : keys ≠ []
  usable_lt : usable < keys.length

variable {admitted : List Candidate} {c : Candidate}

/-- An equal page in two tables has equal pages before it. -/
def Coherent (candidates : List Candidate) : Prop :=
  ∀ c ∈ candidates, ∀ c' ∈ candidates, c.id ≠ c'.id → ∀ i j key, c.keys[i]? = some key →
    c'.keys[j]? = some key → c.keys.take i = c'.keys.take j

/-- The shared runs of the candidates, over their truncated tables. -/
def sharedRuns (candidates : List Candidate) : List (SequenceId × PageKey × ℕ) :=
  planSharedRuns (candidates.map fun c => (c.id, c.keys.take c.usable))

/-- The row of a candidate. -/
def Candidate.row (m : Manager) (runs : List (SequenceId × PageKey × ℕ)) (c : Candidate) : AdmissionRow where
  rowId := c.id
  totalPages := c.keys.length
  run := (runs.lookup c.id).map fun run => (run.1, (run.2 : ℤ))
  residentPages := m.countMappedLeadingSharedPages c.keys

/-- The keys of the rows that the pool does not map. -/
def unmappedKeys (m : Manager) (rows : List Candidate) : Finset PageKey :=
  ((rows.flatMap Candidate.keys).filter fun key => !m.isMapped key).toFinset

theorem mem_unmappedKeys {rows : List Candidate} :
    key ∈ unmappedKeys m rows ↔ (∃ c ∈ rows, key ∈ c.keys) ∧ m.isMapped key = false := by
  simp [unmappedKeys]

variable {candidates : List Candidate}

/-- The run of a candidate ends with one of its keys. -/
theorem sharedRuns_lookup (hids : (candidates.map Candidate.id).Nodup) (hc : c ∈ candidates)
    (h : (sharedRuns candidates).lookup c.id = some (key, run)) : 0 < run ∧ c.keys[run - 1]? = some key := by
  obtain ⟨before, behind, hsplit, -⟩ := lookup_eq_some_iff.1 h
  have hrun : (c.id, key, run) ∈ sharedRuns candidates := by
    rw [hsplit]
    simp
  obtain ⟨table, hmem, hpos, hkey⟩ := mem_planSharedRuns hrun
  obtain ⟨c', hc', heq⟩ := mem_map.1 hmem
  obtain ⟨hid, rfl⟩ := Prod.mk.inj heq
  obtain rfl := inj_on_of_nodup_map hids hc' hc hid
  refine ⟨hpos, ?_⟩
  rw [getElem?_take] at hkey
  split at hkey
  · exact hkey
  · cases hkey

/-- The pages before the end of a common run are in both tables. -/
theorem Coherent.mem_of_run (h : Coherent candidates) {c' : Candidate} (hc : c ∈ candidates) (hc' : c' ∈ candidates)
    (hne : c.id ≠ c'.id) {i j : ℕ} {end_ : PageKey} (hend : c.keys[i]? = some end_) (hend' : c'.keys[j]? = some end_)
    (hn : n ≤ i) (hkey : c.keys[n]? = some key) : key ∈ c'.keys := by
  rcases Nat.lt_or_eq_of_le hn with hlt | rfl
  · have htake := h c hc c' hc' hne i j end_ hend hend'
    have hmem : key ∈ c.keys.take i := mem_of_getElem? (i := n) (by rw [getElem?_take_of_lt hlt, hkey])
    exact mem_of_mem_take (htake ▸ hmem)
  · rw [hkey] at hend
    cases hend
    exact mem_of_getElem? hend'

/-! ### The walk -/

/-- The charges cover the unmapped keys of the admitted rows, and the ledger names only their runs. -/
structure Covered (m : Manager) (candidates : List Candidate) (admitted : List Candidate) (walk : Walk) : Prop where
  ids : walk.admitted = admitted.map Candidate.id
  covers : ((unmappedKeys m admitted).card : ℤ) ≤ walk.used
  fits : walk.used ≤ m.freePages.size
  runs : ∀ key, walk.ledger.isCharged key → ∃ c ∈ admitted, ∃ run, (sharedRuns candidates).lookup c.id = some (key, run)

theorem unmappedKeys_card_append {credit : ℕ}
    (hcredit : ∀ n key, n < credit → c.keys[n]? = some key → m.isMapped key = false → key ∈ unmappedKeys m admitted) :
    (unmappedKeys m (admitted ++ [c])).card ≤ (unmappedKeys m admitted).card + (c.keys.length - credit) := by
  have hsubset : unmappedKeys m (admitted ++ [c]) ⊆ unmappedKeys m admitted ∪ (c.keys.drop credit).toFinset := by
    intro key hkey
    obtain ⟨⟨c', hc', hmem⟩, hunmapped⟩ := mem_unmappedKeys.1 hkey
    rw [Finset.mem_union]
    rcases mem_append.1 hc' with hc' | hc'
    · exact .inl (mem_unmappedKeys.2 ⟨⟨c', hc', hmem⟩, hunmapped⟩)
    obtain rfl := mem_singleton.1 hc'
    obtain ⟨n, hn⟩ := mem_iff_getElem?.1 hmem
    by_cases hlt : n < credit
    · exact .inl (hcredit n key hlt hn hunmapped)
    · refine .inr (mem_toFinset.2 (mem_of_getElem? (i := n - credit) ?_))
      rw [getElem?_drop, Nat.add_sub_cancel' (by omega), hn]
  calc (unmappedKeys m (admitted ++ [c])).card
      ≤ (unmappedKeys m admitted ∪ (c.keys.drop credit).toFinset).card := Finset.card_le_card hsubset
    _ ≤ (unmappedKeys m admitted).card + (c.keys.drop credit).toFinset.card := Finset.card_union_le _ _
    _ ≤ (unmappedKeys m admitted).card + (c.keys.length - credit) := by
        have := toFinset_card_le (c.keys.drop credit)
        rw [length_drop] at this
        omega

/-- What one segment is credited. -/
theorem preview_singleton (ledger : SharedPrefixLedger) {total : ℤ} (htotal : 0 < total) (segment : SharedSegment) :
    ∃ result, ledger.preview total [segment] = .ok result ∧
      result.creditedPages = if ledger.isCharged segment.key then min (segment.pages : ℤ) (total - 1) else 0 := by
  have hpreview : ledger.preview total [segment] = .ok ⟨total - ledger.creditOf total 1 [segment],
      ledger.creditOf total 1 [segment],
      ([segment].filter fun segment => !ledger.isCharged segment.key).map SharedSegment.key⟩ := by
    rw [SharedPrefixLedger.preview, SharedPrefixLedger.compute, if_neg (by omega), if_neg (by omega)]
    rfl
  refine ⟨_, hpreview, ?_⟩
  · show ledger.creditOf total 1 [segment] = _
    rw [SharedPrefixLedger.creditOf, max_eq_right (by omega : (0 : ℤ) ≤ total - 1)]
    split
    · rename_i hcharged
      simp [hcharged]
    · rename_i hcharged
      simp only [hcharged, filter_cons_of_neg, Bool.false_eq_true, not_false_eq_true, filter_nil, map_nil, sum_nil]
      omega

/-- The credit of a candidate's row covers leading pages that the pool maps, or the pages of a run that an
admitted row pays for. -/
def Credited (m : Manager) (candidates : List Candidate) (walk : Walk) (c : Candidate) (credit : ℕ) : Prop :=
  credit ≤ m.countMappedLeadingSharedPages c.keys ∨
    ∃ key run, (sharedRuns candidates).lookup c.id = some (key, run) ∧ walk.ledger.isCharged key ∧ credit ≤ run

/-- The segments of a candidate's row are its run. -/
def RunSegments (candidates : List Candidate) (c : Candidate) (segments : List SharedSegment) : Prop :=
  segments = [] ∨ ∃ segment run, segments = [segment] ∧
    (sharedRuns candidates).lookup c.id = some (segment.key, run)

theorem creditRow_ok (hids : (candidates.map Candidate.id).Nodup) (hc : c ∈ candidates) (walk : Walk) :
    ∃ credit segments, walk.creditRow (c.row m (sharedRuns candidates)) = .ok ((credit : ℕ), segments) ∧
      credit < c.keys.length ∧ Credited m candidates walk c credit ∧ RunSegments candidates c segments := by
  have hlength := length_pos_iff.2 c.keys_ne_nil
  have hresident : min (m.countMappedLeadingSharedPages c.keys : ℤ) (max 0 ((c.keys.length : ℤ) - 1)) =
      (min (m.countMappedLeadingSharedPages c.keys) (c.keys.length - 1) : ℕ) := by omega
  rcases hlookup : (sharedRuns candidates).lookup c.id with - | ⟨key, run⟩
  · refine ⟨min (m.countMappedLeadingSharedPages c.keys) (c.keys.length - 1), [], ?_, by omega,
      .inl (min_le_left _ _), .inl rfl⟩
    simp only [Walk.creditRow, Candidate.row, hlookup, Option.map_none, hresident]
  obtain ⟨hpos, -⟩ := sharedRuns_lookup hids hc hlookup
  have hsegment : SharedSegment.make key (run : ℤ) = .ok ⟨key, run, hpos⟩ := by
    rw [SharedSegment.make, dif_neg (by omega)]
    rfl
  obtain ⟨result, hpreview, hcredited⟩ := preview_singleton walk.ledger
    (by omega : 0 < (c.keys.length : ℤ)) ⟨key, run, hpos⟩
  dsimp only at hcredited
  have hrow : walk.creditRow (c.row m (sharedRuns candidates)) =
      .ok (max (min (m.countMappedLeadingSharedPages c.keys) (c.keys.length - 1) : ℕ) result.creditedPages,
        [⟨key, run, hpos⟩]) := by
    simp only [Walk.creditRow, Candidate.row, hlookup, Option.map_some, hresident, hsegment]
    show (walk.ledger.preview (c.keys.length : ℤ) [⟨key, run, hpos⟩] >>= _) = _
    rw [hpreview]
    rfl
  have hsegments : RunSegments candidates c [⟨key, run, hpos⟩] := .inr ⟨_, run, rfl, hlookup⟩
  by_cases hcharged : walk.ledger.isCharged key
  · rw [if_pos hcharged] at hcredited
    rcases le_total (min run (c.keys.length - 1)) (min (m.countMappedLeadingSharedPages c.keys) (c.keys.length - 1))
      with hle | hle
    · refine ⟨_, _, hrow.trans ?_, by omega, .inl (min_le_left _ (c.keys.length - 1)), hsegments⟩
      rw [max_eq_left (by rw [hcredited]; omega)]
    · refine ⟨min run (c.keys.length - 1), _, hrow.trans ?_, by omega,
        .inr ⟨key, run, hlookup, hcharged, min_le_left _ _⟩, hsegments⟩
      rw [max_eq_right (by rw [hcredited]; omega), hcredited]
      congr 2
      omega
  · rw [if_neg hcharged] at hcredited
    refine ⟨_, _, hrow.trans ?_, by omega, .inl (min_le_left _ (c.keys.length - 1)), hsegments⟩
    rw [hcredited, max_eq_left (by omega)]

/-- An admitted row adds its run to the ledger. -/
theorem take_ok {row : AdmissionRow} {segments : List SharedSegment} (htotal : 0 < row.totalPages)
    (hsegments : RunSegments candidates c segments) (walk : Walk) (charge : ℤ) :
    ∃ ledger, walk.take row charge segments = .ok ⟨ledger, walk.used + charge, walk.admitted ++ [row.rowId]⟩ ∧
      ∀ key, ledger.isCharged key → walk.ledger.isCharged key ∨
        ∃ run, (sharedRuns candidates).lookup c.id = some (key, run) := by
  rcases hsegments with rfl | ⟨segment, run, rfl, hlookup⟩
  · exact ⟨walk.ledger, rfl, fun key hkey => .inl hkey⟩
  refine ⟨walk.ledger.addReader segment, ?_, fun key hkey => ?_⟩
  · rw [Walk.take, if_neg (cons_ne_nil _ _), SharedPrefixLedger.charge, SharedPrefixLedger.compute,
      if_neg (by omega), if_neg (by omega)]
    rfl
  · by_cases heq : key = segment.key
    · exact .inr ⟨run, heq ▸ hlookup⟩
    · left
      simpa [SharedPrefixLedger.isCharged, SharedPrefixLedger.addReader, AList.lookup_insert_ne heq] using hkey

theorem Manager.isMapped_of_leading {keys : List PageKey} (hn : n < m.countMappedLeadingSharedPages keys)
    (hkey : keys[n]? = some key) : m.isMapped key := by
  obtain ⟨hlt, rfl⟩ := List.getElem?_eq_some_iff.1 hkey
  rw [← ( takeWhile_prefix _).getElem hn]
  exact all_eq_true.1 all_takeWhile _ (getElem_mem hn)

/-- One turn of the walk. -/
theorem Covered.admit {walk : Walk} (h : Covered m candidates admitted walk)
    (hids : (candidates.map Candidate.id).Nodup) (hcoherent : Coherent candidates)
    (hadmitted : ∀ c ∈ admitted, c ∈ candidates) (hc : c ∈ candidates) (hnew : ∀ c' ∈ admitted, c'.id ≠ c.id) :
    ∃ walk' admitted', walk.admitRow m.freePages.size (c.row m (sharedRuns candidates)) = .ok walk' ∧
      Covered m candidates admitted' walk' ∧ (admitted' = admitted ∨ admitted' = admitted ++ [c]) := by
  obtain ⟨credit, segments, hcredit, hlt, hcredited, hsegments⟩ := creditRow_ok (m := m) hids hc walk
  have htotal : 0 < (c.row m (sharedRuns candidates)).totalPages := by
    simp only [Candidate.row]
    omega
  have hshared : ∀ n key, n < credit → c.keys[n]? = some key → m.isMapped key = false →
      key ∈ unmappedKeys m admitted := by
    intro n key hn hkey hunmapped
    rcases hcredited with hle | ⟨last, run, hlookup, hcharged, hle⟩
    · rw [Manager.isMapped_of_leading (by omega) hkey] at hunmapped
      cases hunmapped
    -- An admitted row has the same run, so it has the page as well.
    obtain ⟨c', hc', run', hlookup'⟩ := h.runs last hcharged
    obtain ⟨-, hlast⟩ := sharedRuns_lookup hids hc hlookup
    obtain ⟨-, hlast'⟩ := sharedRuns_lookup hids (hadmitted c' hc') hlookup'
    refine mem_unmappedKeys.2 ⟨⟨c', hc', ?_⟩, hunmapped⟩
    exact hcoherent.mem_of_run hc (hadmitted c' hc') (hnew c' hc').symm hlast hlast' (by omega) hkey
  have hcard := unmappedKeys_card_append hshared
  obtain ⟨ledger, htake, hledger⟩ := take_ok htotal hsegments walk ((c.keys.length : ℤ) - credit)
  have hrow : walk.admitRow m.freePages.size (c.row m (sharedRuns candidates)) =
      if (m.freePages.size : ℤ) < walk.used + ((c.keys.length : ℤ) - credit) then .ok walk
      else walk.take (c.row m (sharedRuns candidates)) ((c.keys.length : ℤ) - credit) segments := by
    rw [Walk.admitRow, if_neg (by omega), hcredit]
    rfl
  rw [htake] at hrow
  have hcovers := h.covers
  split at hrow
  · exact ⟨walk, admitted, hrow, h, .inl rfl⟩
  rename_i hfits
  refine ⟨_, admitted ++ [c], hrow, ⟨?_, ?_, ?_, fun key hkey => ?_⟩, .inr rfl⟩
  · simp [h.ids, Candidate.row]
  · dsimp only
    omega
  · dsimp only
    omega
  · rcases hledger key hkey with hold | ⟨run, hlookup⟩
    · obtain ⟨c', hc', hrun⟩ := h.runs key hold
      exact ⟨c', mem_append_left _ hc', hrun⟩
    · exact ⟨c, by simp, run, hlookup⟩

/-- The whole walk. -/
theorem walk_covered (hids : (candidates.map Candidate.id).Nodup) (hcoherent : Coherent candidates) :
    ∃ walk admitted, (candidates.map (Candidate.row m (sharedRuns candidates))).foldlM
        (Walk.admitRow m.freePages.size) ⟨.empty, 0, []⟩ = .ok walk ∧ Covered m candidates admitted walk ∧
      ∀ c ∈ admitted, c ∈ candidates := by
  -- Over the rows still to come: none of them was admitted yet.
  have hloop (rest admitted : List Candidate) (walk : Walk) (h : Covered m candidates admitted walk)
      (hadmitted : ∀ c ∈ admitted, c ∈ candidates) (hrest : ∀ c ∈ rest, c ∈ candidates)
      (hnodup : ((admitted ++ rest).map Candidate.id).Nodup) :
      ∃ walk' admitted', (rest.map (Candidate.row m (sharedRuns candidates))).foldlM
          (Walk.admitRow m.freePages.size) walk = .ok walk' ∧ Covered m candidates admitted' walk' ∧
        ∀ c ∈ admitted', c ∈ candidates := by
    induction rest generalizing admitted walk with
    | nil => exact ⟨walk, admitted, rfl, h, hadmitted⟩
    | cons c rest ih =>
      have hc := hrest c mem_cons_self
      have hnew : ∀ c' ∈ admitted, c'.id ≠ c.id := by
        intro c' hc' heq
        rw [map_append, map_cons] at hnodup
        exact (disjoint_of_nodup_append hnodup) (mem_map_of_mem hc') (heq ▸ mem_cons_self)
      obtain ⟨walk', admitted', hrow, hcovered, hgrown⟩ := h.admit hids hcoherent hadmitted hc hnew
      rw [map_cons, foldlM_cons, hrow]
      refine ih admitted' walk' hcovered ?_ (fun c' hc' => hrest c' (mem_cons_of_mem _ hc')) ?_
      · rcases hgrown with rfl | rfl
        · exact hadmitted
        · intro c' hc'
          rcases mem_append.1 hc' with hc' | hc'
          · exact hadmitted c' hc'
          · exact mem_singleton.1 hc' ▸ hc
      · rcases hgrown with rfl | rfl
        · refine hnodup.sublist (List.Sublist.map _ ?_)
          exact (List.Sublist.refl _).append (sublist_cons_self c rest)
        · simpa using hnodup
  refine hloop candidates [] ⟨.empty, 0, []⟩ ⟨rfl, by simp [unmappedKeys], by simp, fun key hkey => ?_⟩ (by simp)
    (fun _ => id) (by simpa using hids)
  simp [SharedPrefixLedger.isCharged, SharedPrefixLedger.empty] at hkey

/-- The candidates that admission accepts can be allocated with their keys: admission returns, the distinct keys
of any of the admitted rows that the pool does not map are no more than the pages charged, those are no more
than the free pages, and the keyed allocation of these rows raises nothing but a validation error. -/
theorem admitted_rows_fit (cfg : Config) (m : Manager) (hm : Consistent cfg m) (candidates : List Candidate)
    (hids : (candidates.map Candidate.id).Nodup) (hcoherent : Coherent candidates) :
    ∃ admitted used, admitByMarginalPages (candidates.map (Candidate.row m (sharedRuns candidates)))
        m.freePages.size [] = .ok (admitted, used) ∧ used ≤ m.freePages.size ∧
      ∀ rows : List Candidate, (∀ c ∈ rows, c ∈ candidates ∧ c.id ∈ admitted) →
        (((rows.map Candidate.keys).flatten.filter fun key => !m.isMapped key).dedup.length : ℤ) ≤ used ∧
        ∀ numTokens e m', allocatePagesForSequencesWithPageKeys cfg (rows.map Candidate.id) numTokens
            (rows.map Candidate.keys) m = .error e m' →
          m.normalizeSharedPageKeys cfg (rows.map Candidate.id) numTokens (rows.map Candidate.keys) = .error e := by
  obtain ⟨walk, admitted, hwalk, hcovered, hadmitted⟩ := walk_covered (m := m) hids hcoherent
  refine ⟨walk.admitted, walk.used, ?_, hcovered.fits, fun rows hrows => ?_⟩
  · show ((candidates.map (Candidate.row m (sharedRuns candidates))).foldlM (Walk.admitRow m.freePages.size)
      ⟨.empty, 0, []⟩ >>= _) = _
    rw [hwalk]
    rfl
  · have hsubset : unmappedKeys m rows ⊆ unmappedKeys m admitted := by
      intro key hkey
      obtain ⟨⟨c, hc, hmem⟩, hunmapped⟩ := mem_unmappedKeys.1 hkey
      obtain ⟨hcandidate, hid⟩ := hrows c hc
      rw [hcovered.ids] at hid
      obtain ⟨c', hc', heq⟩ := mem_map.1 hid
      obtain rfl := inj_on_of_nodup_map hids (hadmitted c' hc') hcandidate heq
      exact mem_unmappedKeys.2 ⟨⟨c', hc', hmem⟩, hunmapped⟩
    have hcount : (((rows.map Candidate.keys).flatten.filter fun key => !m.isMapped key).dedup.length : ℤ) ≤
        walk.used := by
      rw [← card_toFinset, ← flatMap_def]
      exact (Int.ofNat_le.2 (Finset.card_le_card hsubset)).trans hcovered.covers
    refine ⟨hcount, fun numTokens e m' herror => ?_⟩
    have hends := (allocatePagesForSequencesWithPageKeys_ends (balanced_nil_iff.2 hm)).of_error herror
    refine hends.2.resolve_right ?_
    rintro ⟨rows', newKeys, hok, hfull⟩
    obtain ⟨-, rfl, -⟩ := normalizeSharedPageKeys_ok hok
    have hfits := hcovered.fits
    omega

/-- Two rows of two pages that share their first page. -/
def twoReaders : List Candidate :=
  [⟨1, [10, 11], 1, by decide, by decide⟩, ⟨2, [10, 12], 1, by decide, by decide⟩]

/-- A pool of three pages of one token. -/
def threePages : Config := ⟨3, 1, Nat.one_pos⟩

theorem twoReaders_coherent : Coherent twoReaders := by
  have hkeys : ∀ c ∈ twoReaders, ∀ c' ∈ twoReaders, c.id ≠ c'.id → ∀ i < 2, ∀ j < 2,
      c.keys[i]? = c'.keys[j]? → c.keys.take i = c'.keys.take j := by decide
  have hlength : ∀ c ∈ twoReaders, c.keys.length = 2 := by decide
  intro c hc c' hc' hne i j key hi hj
  have hlt : i < 2 := hlength c hc ▸ (List.getElem?_eq_some_iff.1 hi).1
  have hlt' : j < 2 := hlength c' hc' ▸ (List.getElem?_eq_some_iff.1 hj).1
  exact hkeys c hc c' hc' hne i hlt j hlt' (hi.trans hj.symm)

/-- Both readers fit a pool of three pages and can be allocated there. -/
theorem twoReaders_fit :
    admitByMarginalPages (twoReaders.map (Candidate.row (.fresh threePages) (sharedRuns twoReaders))) 3 [] =
        .ok ([1, 2], 3) ∧
      ∀ numTokens e m', allocatePagesForSequencesWithPageKeys threePages [1, 2] numTokens [[10, 11], [10, 12]]
          (.fresh threePages) = .error e m' →
        Manager.normalizeSharedPageKeys threePages (.fresh threePages) [1, 2] numTokens [[10, 11], [10, 12]] =
          .error e := by
  obtain ⟨admitted, used, hadmit, -, hrows⟩ := admitted_rows_fit threePages (.fresh threePages) fresh_consistent
    twoReaders (by decide) twoReaders_coherent
  have heval : admitByMarginalPages (twoReaders.map (Candidate.row (.fresh threePages) (sharedRuns twoReaders))) 3 [] =
      .ok ([1, 2], 3) := by rfl
  obtain ⟨rfl, rfl⟩ := Prod.mk.inj (Except.ok.inj (heval.symm.trans hadmit))
  have hids : ∀ c ∈ twoReaders, c.id ∈ ([1, 2] : List SequenceId) := by decide
  exact ⟨heval, (hrows twoReaders fun c hc => ⟨hc, hids c hc⟩).2⟩

end Batchgen.GpuPagedKV
