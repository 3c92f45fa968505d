import Batchgen.WavePlan.Need

/-!
# The chunk loop

One round over the remaining items chooses a chunk (`PassOk`); closing it keeps the bookkeeping of
`_schedule` in step with the residents of the pool (`Scheduled`), and what the loop returns satisfies the
contract of a plan.
-/

namespace Batchgen.WavePlan

open Function List

variable {seg fuel : ℕ} {released segs : List ℕ} {chosen items seen : List PlanItem} {st last : Progress}

/-! ### One round -/

theorem forwardItems_append (xs ys : List PlanItem) : forwardItems (xs ++ ys) = forwardItems xs ++ forwardItems ys :=
  filter_append xs ys

theorem sumTokens_append (xs ys : List PlanItem) : sumTokens (xs ++ ys) = sumTokens xs + sumTokens ys := by
  simp [sumTokens]

theorem sumKeys_append (xs ys : List PlanItem) : sumKeys (xs ++ ys) = sumKeys xs + sumKeys ys := by
  simp [sumKeys]

theorem sumPages_append (pages : ℕ → ℕ) (xs ys : List ℕ) :
    sumPages pages (xs ++ ys) = sumPages pages xs + sumPages pages ys := by
  simp [sumPages]

/-- A round over what remains. -/
def Progress.pass (cfg : PlanConfig) (work : Work) (st : Progress) : Pass :=
  runPass cfg work st.doneSegments st.live st.remaining

/-- The round chooses more than loads. -/
def Pass.PlacesRow (p : Pass) : Prop := ∃ item ∈ p.chosen, item.kind ≠ .materialize

/-- What the round releases. -/
def Progress.freed (st : Progress) (p : Pass) : List ℕ := releasedBy (countOff st.pendingBelow p.chosen) p.chosen

/-- What a round has made of the items `seen` of those that remained. -/
structure PassOk (cfg : PlanConfig) (work : Work) (doneSegments : List ℕ) (live : ℤ)
    (seen : List PlanItem) (p : Pass) : Prop where
  split : (p.chosen ++ p.rest).Perm seen
  rest : p.rest.Sublist seen
  used : p.used = sumTokens (forwardItems p.chosen)
  keys : p.keys = sumKeys (forwardItems p.chosen)
  pages : p.written = sumPages work.pages (written p.chosen)
  segments : p.chosenSegments = written p.chosen
  reads : ∀ before item after, p.chosen = before ++ item :: after → ∀ seg ∈ item.prefixSegments,
    seg ∈ doneSegments ∨ (cfg.sameChunkAncestors = true ∧ seg ∈ written before)
  budget : (forwardItems p.chosen).length ≤ 1 ∨ (p.used ≤ cfg.chunkTokens ∧
    ∀ chunkKeys, cfg.chunkKeys = some chunkKeys → (p.keys : ℤ) ≤ chunkKeys)
  admitted : ∀ before item after, p.chosen = before ++ item :: after → item.kind ≠ .tail →
    live + sumPages work.pages (written before) + work.need item.ref ≤ cfg.poolPages

section

variable {cfg : PlanConfig} {work : Work} {doneSegments : List ℕ} {live : ℤ} {p : Pass} {item : PlanItem}

theorem take_chosen : (p.take work item).chosen = p.chosen ++ [item] := by
  unfold Pass.take
  cases item.kind <;> rfl

theorem take_rest : (p.take work item).rest = p.rest := by
  unfold Pass.take
  cases item.kind <;> rfl

theorem take_used : (p.take work item).used = p.used + sumTokens (forwardItems [item]) := by
  unfold Pass.take forwardItems
  cases hkind : item.kind <;> simp [hkind, sumTokens]

theorem take_keys : (p.take work item).keys = p.keys + sumKeys (forwardItems [item]) := by
  unfold Pass.take forwardItems
  cases hkind : item.kind <;> simp [hkind, sumKeys]

theorem take_written : (p.take work item).written = p.written + sumPages work.pages (written [item]) := by
  unfold Pass.take written
  cases hkind : item.kind <;> simp [hkind, sumPages, PlanItem.writes]

theorem take_segments : (p.take work item).chosenSegments = p.chosenSegments ++ written [item] := by
  unfold Pass.take written
  cases hkind : item.kind <;> simp [hkind, PlanItem.writes]

theorem PassOk.take (h : PassOk cfg work doneSegments live seen p)
    (hready : p.ready cfg doneSegments item) (hchunk : p.fitsChunk cfg item) (hpool : p.fitsPool cfg work live item) :
    PassOk cfg work doneSegments live (seen ++ [item]) (p.take work item) where
  split := by
    rw [take_chosen, take_rest, append_assoc]
    exact (List.Perm.append_left _ perm_append_comm).trans (by rw [← append_assoc]; exact h.split.append_right _)
  rest := by
    rw [take_rest]
    exact h.rest.trans (sublist_append_left _ _)
  used := by rw [take_used, take_chosen, forwardItems_append, sumTokens_append, h.used]
  keys := by rw [take_keys, take_chosen, forwardItems_append, sumKeys_append, h.keys]
  pages := by rw [take_written, take_chosen, written_append, sumPages_append, h.pages]
  segments := by rw [take_segments, take_chosen, written_append, h.segments]
  reads := by
    intro before x after hsplit seg hseg
    rw [take_chosen] at hsplit
    rcases append_singleton_split hsplit with ⟨rfl, rfl⟩ | ⟨rest, hchosen⟩
    · rw [← h.segments]
      exact hready seg hseg
    · exact h.reads before x rest hchosen seg hseg
  budget := by
    rw [take_chosen, forwardItems_append, take_used, take_keys]
    rcases hchunk with hnil | hload | ⟨htokens, hkeys⟩
    · refine Or.inl ?_
      rw [hnil]
      exact (length_filter_le _ _).trans (by simp)
    · have hnone : forwardItems [item] = [] := by simp [forwardItems, hload]
      rw [hnone, append_nil]
      exact h.budget
    · have hitem : sumTokens (forwardItems [item]) ≤ item.tokens ∧ sumKeys (forwardItems [item]) ≤ item.tokenEnd := by
        by_cases hload : item.kind = .materialize <;> simp [forwardItems, hload, sumTokens, sumKeys]
      refine Or.inr ⟨by omega, fun chunkKeys hcap => ?_⟩
      have hcapped := hkeys chunkKeys hcap
      push_cast
      omega
  admitted := by
    intro before x after hsplit hkind
    rw [take_chosen] at hsplit
    rcases append_singleton_split hsplit with ⟨rfl, rfl⟩ | ⟨rest, hchosen⟩
    · rw [← h.pages]
      exact hpool hkind
    · exact h.admitted before x rest hchosen hkind

theorem PassOk.skip (h : PassOk cfg work doneSegments live seen p) :
    PassOk cfg work doneSegments live (seen ++ [item]) { p with rest := p.rest ++ [item] } where
  split := by
    rw [← append_assoc]
    exact h.split.append_right _
  rest := h.rest.append (List.Sublist.refl _)
  used := h.used
  keys := h.keys
  pages := h.pages
  segments := h.segments
  reads := h.reads
  budget := h.budget
  admitted := h.admitted

theorem runPass_append (xs : List PlanItem) : runPass cfg work doneSegments live (xs ++ [item]) =
      (runPass cfg work doneSegments live xs).step cfg work doneSegments live item := by
  rw [runPass, foldl_append]
  rfl

theorem runPass_ok (remaining : List PlanItem) :
    PassOk cfg work doneSegments live remaining (runPass cfg work doneSegments live remaining) := by
  induction remaining using List.reverseRecOn with
  | nil =>
    refine ⟨List.Perm.refl _, List.Sublist.refl _, rfl, rfl, rfl, rfl, fun before item after hsplit => ?_,
      Or.inl (Nat.zero_le 1), fun before item after hsplit => ?_⟩
    · cases before <;> cases hsplit
    · cases before <;> cases hsplit
  | append_singleton xs item ih =>
    rw [runPass_append, Pass.step]
    split
    · rename_i hfits
      exact ih.take hfits.1 hfits.2.1 hfits.2.2
    · exact ih.skip

theorem Progress.pass_ok (cfg : PlanConfig) (work : Work) (st : Progress) :
    PassOk cfg work st.doneSegments st.live st.remaining (st.pass cfg work) :=
  runPass_ok st.remaining

theorem PassOk.mem_of_chosen (h : PassOk cfg work doneSegments live seen p) (hitem : item ∈ p.chosen) : item ∈ seen :=
  h.split.mem_iff.mp (mem_append_left _ hitem)

theorem PassOk.mem_of_rest (h : PassOk cfg work doneSegments live seen p) (hitem : item ∈ p.rest) : item ∈ seen :=
  h.rest.subset hitem

theorem PassOk.fits (h : PassOk cfg work doneSegments live seen p)
    (hneed : ∀ seg, work.pages seg ≤ work.need seg) (hlive : live ≤ cfg.poolPages) :
    live + p.written ≤ cfg.poolPages := by
  rw [h.pages]
  -- the last chosen item that writes has been admitted with room for its own pages
  have hfront : ∀ xs ys, p.chosen = xs ++ ys → live + sumPages work.pages (written xs) ≤ cfg.poolPages := by
    intro xs
    induction xs using List.reverseRecOn with
    | nil => exact fun _ _ => by simpa [written, sumPages] using hlive
    | append_singleton xs x ih =>
      intro ys hsplit
      rw [append_assoc] at hsplit
      have hbefore := ih _ hsplit
      rw [written_append, sumPages_append]
      cases hwrites : x.writes with
      | none => simpa [written, hwrites, sumPages] using hbefore
      | some seg =>
        obtain ⟨hkind, rfl⟩ := writes_eq_some.mp hwrites
        have hroom := h.admitted xs x ys hsplit hkind
        have hown := hneed x.ref
        have hsum : sumPages work.pages (written [x]) = work.pages x.ref := by
          simp [written, hwrites, sumPages]
        rw [hsum]
        push_cast
        omega
  exact hfront p.chosen [] (append_nil _).symm

end

/-! ### The readers that are left -/

theorem foldl_decrement (f : ℕ → ℤ) (segs : List ℕ) (seg : ℕ) :
    segs.foldl (fun pending seg => update pending seg (pending seg - 1)) f seg = f seg - segs.count seg := by
  induction segs generalizing f with
  | nil => simp
  | cons next segs ih =>
    rw [foldl_cons, ih, count_cons]
    rcases eq_or_ne next seg with rfl | hne
    · rw [update_self]
      simp
      omega
    · rw [update_of_ne hne.symm]
      simp [hne]

theorem countOff_eq (pending : ℕ → ℤ) (chosen : List PlanItem) (seg : ℕ) : countOff pending chosen seg =
      pending seg - (chosen.flatMap PlanItem.prefixSegments).count seg := by
  induction chosen using List.reverseRecOn with
  | nil => simp [countOff]
  | append_singleton chosen item ih =>
    rw [countOff, foldl_append, foldl_cons, foldl_nil, foldl_decrement]
    rw [countOff] at ih
    rw [ih, flatMap_append, flatMap_singleton, count_append]
    push_cast
    omega

theorem foldl_mark (f : ℕ → ℤ) (segs : List ℕ) (seg : ℕ) :
    segs.foldl (fun pending seg => update pending seg (-1)) f seg =
      if seg ∈ segs then -1 else f seg := by
  induction segs using List.reverseRecOn with
  | nil => simp
  | append_singleton segs last ih =>
    rw [foldl_append, foldl_cons, foldl_nil]
    rcases eq_or_ne seg last with rfl | hne
    · simp
    · rw [update_of_ne hne, ih]
      simp [hne]

/-! ### What a chunk releases -/

section Released

variable (pending : ℕ → ℤ)

/-- One round of the release loop. -/
def releaseStep (released : List ℕ) (item : PlanItem) : List ℕ :=
  item.prefixSegments.foldl
    (fun released seg => if pending seg = 0 ∧ seg ∉ released then released ++ [seg] else released)
    (if item.kind = .segment ∧ pending item.ref = 0 then released ++ [item.ref] else released)

theorem releasedBy_append (chosen : List PlanItem) (item : PlanItem) :
    releasedBy pending (chosen ++ [item]) = releaseStep pending (releasedBy pending chosen) item := by
  rw [releasedBy, foldl_append]
  rfl

variable {pending}

theorem mem_release_reads : seg ∈ segs.foldl
      (fun released seg => if pending seg = 0 ∧ seg ∉ released then released ++ [seg] else released)
      released ↔ seg ∈ released ∨ (pending seg = 0 ∧ seg ∈ segs) := by
  induction segs generalizing released with
  | nil => simp
  | cons next segs ih =>
    have hround : seg ∈ (if pending next = 0 ∧ next ∉ released then released ++ [next] else released) ↔
        seg ∈ released ∨ (pending seg = 0 ∧ seg = next) := by
      split
      · rename_i hnext
        rw [mem_append, mem_singleton]
        exact or_congr_right ⟨fun heq => ⟨heq ▸ hnext.1, heq⟩, And.right⟩
      · rename_i hnext
        refine (or_iff_left_of_imp ?_).symm
        rintro ⟨hzero, rfl⟩
        by_contra hnot
        exact hnext ⟨hzero, hnot⟩
    rw [foldl_cons, ih, hround, or_assoc, ← and_or_left, ← mem_cons]

theorem nodup_release_reads (h : released.Nodup) : (segs.foldl
      (fun released seg => if pending seg = 0 ∧ seg ∉ released then released ++ [seg] else released)
      released).Nodup := by
  induction segs generalizing released with
  | nil => exact h
  | cons next segs ih =>
    rw [foldl_cons]
    split
    · rename_i hnext
      refine ih (nodup_append.mpr ⟨h, nodup_singleton _, ?_⟩)
      rintro a ha b hb rfl
      exact hnext.2 (mem_singleton.mp hb ▸ ha)
    · exact ih h

theorem mem_releasedBy : seg ∈ releasedBy pending chosen ↔ pending seg = 0 ∧ ∃ item ∈ chosen,
      (item.kind = .segment ∧ item.ref = seg) ∨ seg ∈ item.prefixSegments := by
  induction chosen using List.reverseRecOn with
  | nil => simp [releasedBy]
  | append_singleton chosen item ih =>
    have hown : seg ∈ (if item.kind = .segment ∧ pending item.ref = 0 then
          releasedBy pending chosen ++ [item.ref] else releasedBy pending chosen) ↔
        seg ∈ releasedBy pending chosen ∨ (pending seg = 0 ∧ item.kind = .segment ∧ item.ref = seg) := by
      split
      · rename_i hitem
        rw [mem_append, mem_singleton]
        refine or_congr_right ⟨?_, fun hseg => hseg.2.2.symm⟩
        rintro rfl
        exact ⟨hitem.2, hitem.1, rfl⟩
      · rename_i hitem
        refine ⟨Or.inl, ?_⟩
        rintro (hin | ⟨hzero, hkind, rfl⟩)
        · exact hin
        · exact absurd ⟨hkind, hzero⟩ hitem
    rw [releasedBy_append, releaseStep, mem_release_reads, hown, ih]
    simp only [mem_append, mem_singleton, or_and_right, exists_or, exists_eq_left]
    rw [← and_or_left, ← and_or_left, or_assoc]

/-- Nothing is released twice when no item is read before it is written. -/
theorem nodup_releasedBy (h : ∀ before item after, chosen = before ++ item :: after → item.kind = .segment →
      ∀ other ∈ before, item.ref ∉ other.prefixSegments ∧ ¬ (other.kind = .segment ∧ other.ref = item.ref)) :
    (releasedBy pending chosen).Nodup := by
  induction chosen using List.reverseRecOn with
  | nil => exact nodup_nil
  | append_singleton chosen item ih =>
    have hchosen : (releasedBy pending chosen).Nodup := by
      refine ih fun before x after hsplit => h before x (after ++ [item]) ?_
      rw [hsplit, append_assoc, cons_append]
    rw [releasedBy_append]
    refine nodup_release_reads ?_
    split
    · rename_i hitem
      refine nodup_append.mpr ⟨hchosen, nodup_singleton _, ?_⟩
      rintro a ha b hb rfl
      rw [mem_singleton.mp hb] at ha
      obtain ⟨-, other, hother, hcase⟩ := mem_releasedBy.mp ha
      have hbefore := h chosen item [] rfl hitem.1 other hother
      rcases hcase with hsame | hread
      · exact hbefore.2 hsame
      · exact hbefore.1 hread
    · exact hchosen

end Released

/-! ### The loop -/

/-- The state of the loop once the items `done` are in chunks. -/
structure Scheduled (cfg : PlanConfig) (work : Work) (st : Progress) (done : List PlanItem) : Prop where
  perm : (done ++ st.remaining).Perm work.items
  remaining : st.remaining.Sublist work.items
  doneSegments : st.doneSegments = (done.filter fun item => item.kind = .segment).map PlanItem.ref
  reads : ∀ item ∈ done, ∀ seg ∈ item.prefixSegments, seg ∈ written done
  pending : ∀ seg, st.pendingBelow seg =
    if seg ∈ written done ∧ (itemTasks work.items).Over done seg then -1
    else ((st.remaining.flatMap PlanItem.prefixSegments).count seg : ℤ)
  live : st.live = sumPages work.pages ((itemTasks work.items).resident done)
  fits : st.live ≤ cfg.poolPages
  chunks : ChunksOk cfg work.pages work.items [] st.chunks
  items : chunkItems st.chunks = done
  peak : st.peak = peakPages st.chunks

theorem over_iff {done remaining : List PlanItem} (hnodup : items.Nodup) (hperm : (done ++ remaining).Perm items) :
    (itemTasks items).Over done seg ↔ ∀ item ∈ remaining, seg ∉ item.prefixSegments := by
  have hdisjoint := (nodup_append.mp (hperm.nodup_iff.mpr hnodup)).2.2
  constructor
  · intro hover item hitem hread
    have hdone := hover item (hperm.mem_iff.mp (mem_append_right _ hitem)) hread
    exact hdisjoint item hdone item hitem rfl
  · intro hnone item hitem hread
    rcases mem_append.mp (hperm.mem_iff.mpr hitem) with hdone | hrest
    · exact hdone
    · exact absurd hread (hnone item hrest)

theorem count_reads_eq_zero : (items.flatMap PlanItem.prefixSegments).count seg = 0 ↔
      ∀ item ∈ items, seg ∉ item.prefixSegments := by
  rw [count_eq_zero, mem_flatMap]
  push Not
  rfl

section Close

variable {prompts : List Tokens} {cfg : PlanConfig} {work : Work} {done : List PlanItem} {p : Pass}
  (hwork : WorkValid prompts cfg.blockTokens work) (h : Scheduled cfg work st done)
  (hp : PassOk cfg work st.doneSegments st.live st.remaining p)

include h in
theorem Scheduled.mem_doneSegments (hseg : seg ∈ st.doneSegments) : seg ∈ written done := by
  rw [h.doneSegments, mem_map] at hseg
  obtain ⟨item, hitem, rfl⟩ := hseg
  obtain ⟨hdone, hkind⟩ := mem_filter.mp hitem
  rw [decide_eq_true_eq] at hkind
  exact mem_written.mpr ⟨item, hdone, by rw [hkind]; simp, rfl⟩

include h hp in
/-- What the round does not choose is what remains. -/
theorem Scheduled.perm_after : ((done ++ p.chosen) ++ p.rest).Perm work.items := by
  rw [append_assoc]
  exact (hp.split.append_left done).trans h.perm

include h in
theorem Scheduled.reads_chosen (hp : PassOk cfg work st.doneSegments st.live seen p) :
    ReadsOk cfg.sameChunkAncestors done p.chosen := by
  intro before item after hsplit seg hseg
  exact (hp.reads before item after hsplit seg hseg).imp_left h.mem_doneSegments

include h in
theorem Scheduled.reads_after (hp : PassOk cfg work st.doneSegments st.live seen p) {item : PlanItem}
    (hitem : item ∈ done ++ p.chosen) (hseg : seg ∈ item.prefixSegments) : seg ∈ written (done ++ p.chosen) := by
  rw [written_append]
  rcases mem_append.mp hitem with hdone | hchosen
  · exact mem_append_left _ (h.reads item hdone seg hseg)
  · obtain ⟨before, after, hsplit⟩ := append_of_mem hchosen
    rcases h.reads_chosen hp before item after hsplit seg hseg with hbefore | ⟨-, hbefore⟩
    · exact mem_append_left _ hbefore
    · rw [hsplit, written_append]
      exact mem_append_right _ (mem_append_left _ hbefore)

include hwork h hp in
theorem Scheduled.written_nodup : (written done ++ written p.chosen).Nodup := by
  have hitems : (written ((done ++ p.chosen) ++ p.rest)).Nodup :=
    ((h.perm_after hp).filterMap PlanItem.writes).nodup_iff.mpr hwork.items.written_nodup
  rw [written_append, written_append] at hitems
  exact (nodup_append.mp hitems).1

include hwork h hp in
/-- What is left of `pending_below` once the chunk is counted off. -/
theorem Scheduled.pending_after (seg : ℕ) : countOff st.pendingBelow p.chosen seg =
      if seg ∈ written done ∧ (itemTasks work.items).Over done seg then -1
      else ((p.rest.flatMap PlanItem.prefixSegments).count seg : ℤ) := by
  have hcount : (st.remaining.flatMap PlanItem.prefixSegments).count seg =
      (p.chosen.flatMap PlanItem.prefixSegments).count seg + (p.rest.flatMap PlanItem.prefixSegments).count seg := by
    rw [← count_append, ← flatMap_append]
    exact ((hp.split.flatMap_right _).count_eq seg).symm
  rw [countOff_eq, h.pending seg]
  split
  · rename_i hover
    have hnone := (over_iff hwork.items.nodup h.perm).mp hover.2
    rw [count_reads_eq_zero.mpr hnone] at hcount
    omega
  · omega

include hwork h hp in
theorem Scheduled.pending_zero_iff : countOff st.pendingBelow p.chosen seg = 0 ↔
      ¬ (seg ∈ written done ∧ (itemTasks work.items).Over done seg) ∧
        (itemTasks work.items).Over (done ++ p.chosen) seg := by
  rw [h.pending_after hwork hp, over_iff hwork.items.nodup (h.perm_after hp), ← count_reads_eq_zero]
  split
  · rename_i hover
    exact ⟨fun hzero => (by omega), fun hnot => absurd hover hnot.1⟩
  · rename_i hover
    exact ⟨fun hzero => ⟨hover, by exact_mod_cast hzero⟩, fun hzero => by exact_mod_cast hzero.2⟩

include hwork h hp in
/-- The chunk releases the segments that expire with it. -/
theorem Scheduled.mem_released : seg ∈ st.freed p ↔ seg ∈ (itemTasks work.items).expired done p.chosen := by
  have hdisjoint := (nodup_append.mp (h.written_nodup hwork hp)).2.2
  rw [Progress.freed, mem_releasedBy, h.pending_zero_iff hwork hp, Tasks.mem_expired]
  constructor
  · rintro ⟨⟨hnot, hover⟩, item, hitem, hcase⟩
    refine ⟨?_, hover⟩
    have hseg : seg ∈ written (done ++ p.chosen) := by
      rcases hcase with ⟨hkind, rfl⟩ | hread
      · exact mem_written.mpr ⟨item, mem_append_right _ hitem, by rw [hkind]; simp, rfl⟩
      · exact h.reads_after hp (mem_append_right _ hitem) hread
    rw [written_append, mem_append] at hseg
    exact hseg.imp_left fun hdone => ⟨hdone, fun hno => hnot ⟨hdone, hno⟩⟩
  · rintro ⟨hseg, hover⟩
    have hnot : ¬ (seg ∈ written done ∧ (itemTasks work.items).Over done seg) := by
      rintro ⟨hdone, hno⟩
      rcases hseg with hseg | hseg
      · exact hseg.2 hno
      · exact hdisjoint seg hdone seg hseg rfl
    refine ⟨⟨hnot, hover⟩, ?_⟩
    rcases hseg with ⟨hdone, hlive⟩ | hnew
    · -- a reader is left, and it is in the chunk
      rw [over_iff hwork.items.nodup h.perm] at hlive
      push Not at hlive
      obtain ⟨item, hitem, hread⟩ := hlive
      have hchosen := hover item (h.remaining.subset hitem) hread
      rcases mem_append.mp hchosen with hin | hin
      · exact absurd rfl ((nodup_append.mp (h.perm.nodup_iff.mpr hwork.items.nodup)).2.2 item hin item hitem)
      · exact ⟨item, hin, Or.inr hread⟩
    · -- the member of a loaded segment reads it in the same chunk
      have hlt : seg < work.segments.length := by
        rw [← hwork.items.written_iff]
        obtain ⟨item, hitem, hwrites⟩ := mem_written.mp hnew
        exact mem_written.mpr ⟨item,
          (h.perm_after hp).mem_iff.mp (mem_append_left _ (mem_append_right _ hitem)), hwrites⟩
      obtain ⟨item, hitem, -, hread⟩ := hwork.items.exists_reader hwork.segments hlt
      rcases mem_append.mp (hover item hitem hread) with hin | hin
      · exact absurd rfl (hdisjoint seg (h.reads item hin seg hread) seg hnew)
      · exact ⟨item, hin, Or.inr hread⟩

include hwork h hp in
theorem Scheduled.released_perm : (st.freed p).Perm ((itemTasks work.items).expired done p.chosen) := by
  have hnodup := h.written_nodup hwork hp
  have hdisjoint := (nodup_append.mp hnodup).2.2
  have hchosen := (nodup_append.mp hnodup).2.1
  refine (perm_ext_iff_of_nodup (nodup_releasedBy ?_) ?_).mpr fun seg => h.mem_released hwork hp
  · -- what the chunk writes is neither read nor written before
    intro before item after hsplit hkind other hother
    have hwrites : item.writes = some item.ref := writes_eq_some.mpr ⟨by rw [hkind]; simp, rfl⟩
    have hitem : item.ref ∈ written p.chosen := mem_written.mpr ⟨item, by rw [hsplit]; simp, writes_eq_some.mp hwrites⟩
    have hnotBefore : item.ref ∉ written before := by
      intro hin
      rw [hsplit, written_append] at hchosen
      refine (nodup_append.mp hchosen).2.2 item.ref hin item.ref ?_ rfl
      exact mem_written.mpr ⟨item, mem_cons_self, writes_eq_some.mp hwrites⟩
    refine ⟨fun hread => ?_, fun hsame => ?_⟩
    · obtain ⟨front, back, hbefore⟩ := append_of_mem hother
      have hsplit' : p.chosen = front ++ other :: (back ++ item :: after) := by
        rw [hsplit, hbefore, append_assoc, cons_append]
      rcases h.reads_chosen hp front other _ hsplit' item.ref hread with hin | ⟨-, hin⟩
      · exact hdisjoint item.ref hin item.ref hitem rfl
      · refine hnotBefore ?_
        rw [hbefore, written_append]
        exact mem_append_left _ hin
    · exact hnotBefore (mem_written.mpr ⟨other, hother, by rw [hsame.1]; simp, hsame.2⟩)
  · refine (List.Nodup.filter _ ?_)
    exact hnodup.sublist ((filter_sublist).append (List.Sublist.refl _))

include hwork h hp in
theorem Scheduled.live_after :
    st.live + p.written - sumPages work.pages (st.freed p) =
      sumPages work.pages ((itemTasks work.items).resident (done ++ p.chosen)) := by
  have hsplit : sumPages work.pages ((itemTasks work.items).resident (done ++ p.chosen)) +
        sumPages work.pages ((itemTasks work.items).expired done p.chosen) =
      sumPages work.pages ((itemTasks work.items).resident done) + sumPages work.pages (written p.chosen) :=
    (itemTasks work.items).weight_split work.pages
  have hreleased : sumPages work.pages (st.freed p) =
      sumPages work.pages ((itemTasks work.items).expired done p.chosen) :=
    ((h.released_perm hwork hp).map work.pages).sum_eq
  rw [h.live, hp.pages, hreleased]
  omega

include hwork h hp in
theorem Scheduled.closed_pending (seg : ℕ) : (st.close work p).pendingBelow seg =
      if seg ∈ written (done ++ p.chosen) ∧ (itemTasks work.items).Over (done ++ p.chosen) seg then -1
      else ((p.rest.flatMap PlanItem.prefixSegments).count seg : ℤ) := by
  refine (foldl_mark _ (st.freed p) seg).trans ?_
  have hmono : (itemTasks work.items).Over done seg → (itemTasks work.items).Over (done ++ p.chosen) seg :=
    fun hover => hover.mono fun x _ hx => mem_append_left _ hx
  have hmem : seg ∈ written (done ++ p.chosen) ↔ seg ∈ written done ∨ seg ∈ written p.chosen := by
    rw [written_append, mem_append]
  rw [h.pending_after hwork hp]
  by_cases hreleased : seg ∈ st.freed p
  · have hexpired := (h.mem_released hwork hp).mp hreleased
    rw [Tasks.mem_expired] at hexpired
    rw [if_pos hreleased, if_pos ⟨hmem.mpr (hexpired.1.imp_left And.left), hexpired.2⟩]
  rw [if_neg hreleased]
  rw [h.mem_released hwork hp, Tasks.mem_expired] at hreleased
  refine if_congr ?_ rfl rfl
  constructor
  · exact fun hdone => ⟨hmem.mpr (Or.inl hdone.1), hmono hdone.2⟩
  · rintro ⟨hseg, hover⟩
    have hnew : seg ∉ written p.chosen := fun hin => hreleased ⟨Or.inr hin, hover⟩
    have hdone := (hmem.mp hseg).resolve_right hnew
    refine ⟨hdone, ?_⟩
    by_contra hlive
    exact hreleased ⟨Or.inl ⟨hdone, hlive⟩, hover⟩

include hwork h hp in
theorem Scheduled.chunkOk (hforward : p.PlacesRow) : ChunkOk cfg work.pages work.items done
      { items := p.chosen
        poolPagesInUse := st.live + p.written - sumPages work.pages (st.freed p) +
          sumPages work.pages (st.freed p)
        releaseAfter := (st.freed p).insertionSort (· ≤ ·) } := by
  have hnonempty : forwardItems p.chosen ≠ [] := by
    obtain ⟨item, hitem, hkind⟩ := hforward
    exact ne_nil_of_mem (mem_filter.mpr ⟨hitem, by simpa using hkind⟩)
  have hone : (forwardItems p.chosen).length ≤ 1 → (forwardItems p.chosen).length = 1 := fun hle =>
    le_antisymm hle (length_pos_iff.mpr hnonempty)
  refine ⟨hnonempty, ?_, fun chunkKeys hcap => ?_, h.reads_chosen hp, ?_, ?_, ?_⟩
  · rcases hp.budget with hle | hbound
    · exact Or.inr (hone hle)
    · exact Or.inl (hp.used ▸ hbound.1)
  · rcases hp.budget with hle | hbound
    · exact Or.inr (hone hle)
    · exact Or.inl (hp.keys ▸ hbound.2 chunkKeys hcap)
  · rw [sumPages_append, ← hp.pages]
    push_cast
    rw [← h.live]
    exact sub_add_cancel _ _
  · rw [sub_add_cancel]
    exact hp.fits hwork.pages_le_need h.fits
  · exact (perm_insertionSort _ _).trans (h.released_perm hwork hp)

include hwork h hp in
theorem Scheduled.close (hforward : p.PlacesRow) : Scheduled cfg work (st.close work p) (done ++ p.chosen) where
  perm := h.perm_after hp
  remaining := hp.rest.trans h.remaining
  doneSegments := by
    rw [filter_append, map_append, ← h.doneSegments]
    rfl
  reads := fun item hitem seg hseg => h.reads_after hp hitem hseg
  pending := h.closed_pending hwork hp
  live := h.live_after hwork hp
  fits := by
    have hroom := hp.fits hwork.pages_le_need h.fits
    exact (Int.sub_le_self _ (Int.natCast_nonneg _)).trans hroom
  chunks := by
    refine chunksOk_append.mpr ⟨h.chunks, ?_, trivial⟩
    rw [h.items]
    exact h.chunkOk hwork hp hforward
  items := by
    refine (chunkItems_append _ _).trans ?_
    rw [h.items]
    exact congrArg (done ++ ·) (append_nil _)
  peak := by
    refine Eq.trans ?_ (congrArg (fun pages => List.foldl max 0 pages) (map_append).symm)
    rw [foldl_append, ← peakPages, ← h.peak]
    exact congrArg (max st.peak) (sub_add_cancel _ _).symm

end Close

section Loop

variable {prompts : List Tokens} {cfg : PlanConfig} {work : Work}

theorem startProgress_scheduled : Scheduled cfg work (startProgress work) [] where
  perm := List.Perm.refl _
  remaining := List.Sublist.refl _
  doneSegments := rfl
  reads := fun item hitem => by cases hitem
  pending := fun seg => (if_neg fun hin => by cases hin.1).symm
  live := rfl
  fits := Int.natCast_nonneg _
  chunks := trivial
  items := rfl
  peak := rfl

/-- What every closed round keeps holds where the loop returns. -/
theorem scheduleLoop_invariant (Inv : Progress → Prop) (hstep : ∀ st, Inv st →
      (st.pass cfg work).PlacesRow → Inv (st.close work (st.pass cfg work))) (h : Inv st)
    (hloop : scheduleLoop cfg work fuel st = some last) : Inv last ∧ last.remaining = [] := by
  induction fuel generalizing st with
  | zero =>
    rw [scheduleLoop] at hloop
    split at hloop
    · cases hloop
      exact ⟨h, ‹_›⟩
    · cases hloop
  | succ fuel ih =>
    rw [scheduleLoop] at hloop
    split at hloop
    · cases hloop
      exact ⟨h, ‹_›⟩
    dsimp only at hloop
    split at hloop
    · cases hloop
    · split at hloop
      · cases hloop
      · rename_i hforward
        push Not at hforward
        exact ih (hstep st h hforward) hloop

/-- A loop that places a row in every round ends. -/
theorem scheduleLoop_isSome_of (Inv : Progress → Prop) (hround : ∀ st, Inv st → st.remaining ≠ [] →
      (st.pass cfg work).PlacesRow ∧ Inv (st.close work (st.pass cfg work))) (h : Inv st)
    (hfuel : st.remaining.length ≤ fuel) : (scheduleLoop cfg work fuel st).isSome := by
  induction fuel generalizing st with
  | zero =>
    have hnil := length_eq_zero_iff.mp (Nat.le_zero.mp hfuel)
    rw [scheduleLoop, if_pos hnil]
    rfl
  | succ fuel ih =>
    rw [scheduleLoop]
    split
    · rfl
    rename_i hremaining
    obtain ⟨⟨first, hfirst, hforward⟩, hclosed⟩ := hround st h hremaining
    have hchosen : (runPass cfg work st.doneSegments st.live st.remaining).chosen ≠ [] := ne_nil_of_mem hfirst
    dsimp only
    rw [if_neg hchosen, if_neg fun hall => hforward (hall first hfirst)]
    refine ih hclosed ?_
    have hlength := (st.pass_ok cfg work).split.length_eq
    have hpos := length_pos_of_mem hfirst
    rw [length_append] at hlength
    change (st.pass cfg work).rest.length ≤ fuel
    omega

theorem scheduleLoop_scheduled (hwork : WorkValid prompts cfg.blockTokens work)
    (hloop : scheduleLoop cfg work fuel (startProgress work) = some last) :
    ∃ done, Scheduled cfg work last done ∧ last.remaining = [] := by
  obtain ⟨⟨done, hlast⟩, hempty⟩ := scheduleLoop_invariant (fun st => ∃ done, Scheduled cfg work st done)
      (fun st ⟨_, h⟩ hforward => ⟨_, h.close hwork (st.pass_ok cfg work) hforward⟩)
      ⟨[], startProgress_scheduled⟩ hloop
  exact ⟨done, hlast, hempty⟩

end Loop

/-- A threshold that schedules gives a plan that keeps the contract. -/
theorem schedule_valid {prompts : List Tokens} {cfg : PlanConfig} {tree : Tree} {threshold : Option ℤ}
    {groups : List (ℕ × List ℕ)} {l : Layout} {plan : WavePrefixPlan} (hblock : 0 < cfg.blockTokens)
    (hlayout : layoutOf tree threshold groups = .ok l) (h : LayoutValid prompts cfg.blockTokens tree threshold l)
    (hplan : schedule cfg tree (prompts.map length) threshold groups = .ok (some plan)) :
    plan.segments = l.segments tree cfg.blockTokens ∧
      PlanValid prompts (workOf cfg tree (prompts.map length) l).items plan := by
  have hwork := workOf_valid h hblock
  rw [schedule, hlayout] at hplan
  obtain ⟨last, hloop, rfl⟩ := Option.map_eq_some_iff.mp (Except.ok.inj hplan)
  obtain ⟨done, hlast, hempty⟩ := scheduleLoop_scheduled hwork hloop
  have hperm := hlast.perm
  rw [hempty, append_nil, ← hlast.items] at hperm
  refine ⟨rfl, ?_⟩
  exact
    { block := hblock
      segments := hwork.segments
      work := hwork.items
      perm := hperm
      chunks := hlast.chunks
      promptTokens := rfl
      computed := rfl
      loaded := rfl
      peak := hlast.peak }

end Batchgen.WavePlan
