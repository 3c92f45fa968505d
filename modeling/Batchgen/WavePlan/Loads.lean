import Batchgen.WavePlan.Threshold

/-!
# Waves with loads

A load counts as resident in the chunk that loads it, but the loop never adds it to `done_segments`, so a
reader that is not placed in that chunk is never ready again.  With a pool that holds every segment at
once, and no cap on the keys, a wave is therefore planned exactly when the tails of all prompts with a hit
fit one chunk.
-/

namespace Batchgen.WavePlan

open Function List

variable {seg blockTokens : ℕ} {st : Progress} {after done before : List PlanItem} {prompts : List Tokens}
  {groups' : HitGroups} {hits : List MaterializedPrefix} {segments : List PlanSegment} {lengths : List ℕ}

/-! ### A pool with room for everything -/

theorem sumPages_le_of_subset (pages : ℕ → ℕ) {xs ys : List ℕ} (hnodup : xs.Nodup) (hsub : xs ⊆ ys) :
    sumPages pages xs ≤ sumPages pages ys := by
  obtain ⟨zs, hperm, hzs⟩ := subperm_of_subset hnodup hsub
  have heq : sumPages pages zs = sumPages pages xs := (hperm.map pages).sum_eq
  rw [← heq]
  exact sumPages_le_of_sublist pages hzs

section Room

variable {cfg : PlanConfig} {work : Work} (hwork : WorkValid prompts cfg.blockTokens work)
include hwork

/-- What is written and the deepest path of a segment still to come do not overlap. -/
theorem WorkValid.room {placed : List PlanItem} (hsub : ∀ x ∈ placed, x ∈ work.items) (hnodup : (written placed).Nodup)
    (hclosed : ∀ x ∈ placed, ∀ seg ∈ x.prefixSegments, seg ∈ written placed) {y : PlanItem} (hy : y ∈ work.items)
    (hwrites : y.writes = some seg) (hnot : seg ∉ written placed) :
    sumPages work.pages (written placed) + work.need seg ≤ sumPages work.pages (range work.segments.length) := by
  obtain ⟨below, hlinked, hneed⟩ := hwork.exists_path seg
  obtain ⟨x, hx, -, after, hbegins⟩ := hwork.path_in_tail hy hwrites hlinked
  obtain ⟨hsorted, hbehind⟩ := hlinked.sorted fun _ _ _ hup => hwork.parent_lt hup
  have hpath : (seg :: below).Nodup := nodup_cons.mpr ⟨fun hin => lt_irrefl _ (hbehind seg rfl seg hin), hsorted.nodup⟩
  have hdisjoint : ∀ u ∈ written placed, ∀ v ∈ seg :: below, u ≠ v := by
    rintro u hu v hv rfl
    rcases mem_cons.mp hv with rfl | hv
    · exact hnot hu
    · obtain ⟨z, hz, hzwrites⟩ := mem_written.mp hu
      have hread := hwork.reads_above hx hbegins (mem_append_left after hv) (hsub z hz) (writes_eq_some.mpr hzwrites)
      exact hnot (hclosed z hz seg hread)
  have hall : written placed ++ seg :: below ⊆ List.range work.segments.length := by
    intro u hu
    rw [mem_range]
    rcases mem_append.mp hu with hu | hu
    · obtain ⟨z, hz, hzwrites⟩ := mem_written.mp hu
      exact hwork.items.written_iff.mp (mem_written.mpr ⟨z, hsub z hz, hzwrites⟩)
    · refine (hwork.items.valid x hx).known u ?_
      rw [hbegins, ← cons_append]
      exact mem_append_right _ (mem_append_left _ hu)
  rw [hneed, ← sumPages_append]
  exact sumPages_le_of_subset work.pages (nodup_append.mpr ⟨hnodup, hpath, hdisjoint⟩) hall

/-- In a pool with room for everything the pool never holds an item back. -/
theorem Scheduled.fitsPool_of_total {seen : List PlanItem} {p : Pass} (h : Scheduled cfg work st done)
    (hp : PassOk cfg work st.doneSegments st.live seen p)
    (htotal : sumPages work.pages (range work.segments.length) ≤ cfg.poolPages) {y : PlanItem}
    (hremaining : st.remaining = seen ++ y :: after) : p.fitsPool cfg work st.live y := by
  intro hkind
  have hperm : ((done ++ p.chosen) ++ (p.rest ++ y :: after)).Perm work.items := by
    refine List.Perm.trans ?_ h.perm
    rw [hremaining, append_assoc, ← append_assoc p.chosen]
    exact (hp.split.append_right _).append_left _
  have hy : y ∈ work.items := hperm.mem_iff.mp (mem_append_right _ (mem_append_right _ mem_cons_self))
  have hwrites : y.writes = some y.ref := writes_eq_some.mpr ⟨hkind, rfl⟩
  have hwritten : (written ((done ++ p.chosen) ++ (p.rest ++ y :: after))).Nodup :=
    (hperm.filterMap PlanItem.writes).nodup_iff.mpr hwork.items.written_nodup
  rw [written_append] at hwritten
  obtain ⟨hnodup, -, hdisjoint⟩ := nodup_append.mp hwritten
  have hnot : y.ref ∉ written (done ++ p.chosen) := fun hin => hdisjoint y.ref hin y.ref
    (mem_written.mpr ⟨y, mem_append_right _ mem_cons_self, hkind, rfl⟩) rfl
  have hroom := hwork.room (fun x hx => hperm.mem_iff.mp (mem_append_left _ hx)) hnodup
    (fun x hx seg hseg => h.reads_after hp hx hseg) hy hwrites hnot
  have hlive : sumPages work.pages ((itemTasks work.items).resident done) ≤
      sumPages work.pages (written done) := sumPages_le_of_sublist _ filter_sublist
  rw [written_append, sumPages_append] at hroom
  rw [h.live, hp.pages]
  omega

/-- Behind the loads, the first remaining item can always be placed. -/
theorem Scheduled.head_admissible (h : Scheduled cfg work st done)
    (htotal : sumPages work.pages (range work.segments.length) ≤ cfg.poolPages)
    (hreads : ∀ x ∈ st.remaining, ∀ seg ∈ x.prefixSegments, loadedOf work.segments seg = false)
    (hremaining : st.remaining ≠ []) : st.Placeable cfg work := by
  obtain ⟨x, rest, hsplit⟩ := exists_cons_of_ne_nil hremaining
  have hx : x ∈ st.remaining := by
    rw [hsplit]
    exact mem_cons_self
  refine ⟨x, hx, fun seg hseg => ?_, fun hkind => ?_⟩
  · have hread : seg ∈ written done ∨ seg ∈ written [] := h.reads_remaining hwork hsplit hseg
    obtain ⟨y, hy, hykind, rfl⟩ := mem_written.mp (hread.resolve_right not_mem_nil)
    obtain ⟨s, hs, hloaded, -⟩ := (hwork.items.valid y (h.done_subset hy)).segment hykind
    have hnot := hreads x hx y.ref hseg
    rw [loadedOf, hs] at hnot
    have hsegment : y.kind = .segment := by
      change s.materialized = false at hnot
      rw [hnot] at hloaded
      cases hcase : y.kind with
      | segment => rfl
      | tail => exact absurd hcase hykind
      | materialize => simp [hcase] at hloaded
    rw [h.doneSegments, mem_map]
    exact ⟨y, mem_filter.mpr ⟨hy, decide_eq_true hsegment⟩, rfl⟩
  · have hempty : PassOk cfg work st.doneSegments st.live [] Pass.empty := runPass_ok []
    have hfits := h.fitsPool_of_total hwork hempty htotal (hsplit.trans (nil_append _).symm) hkind
    simpa [Pass.empty] using hfits

end Room

/-! ### The first round -/

section FirstRound

variable {cfg : PlanConfig} {work : Work} {doneSegments : List ℕ} {live : ℤ}

/-- What a round has chosen stays chosen. -/
theorem runPass_chosen_mono (xs ys : List PlanItem) :
    (runPass cfg work doneSegments live xs).chosen <+: (runPass cfg work doneSegments live (xs ++ ys)).chosen := by
  induction ys using List.reverseRecOn with
  | nil => rw [append_nil]
  | append_singleton ys y ih =>
    rw [← append_assoc, runPass_append, Pass.step]
    split
    · rw [take_chosen]
      exact ih.trans (prefix_append _ _)
    · exact ih

/-- An item that can be placed when the round comes to it is placed. -/
theorem mem_runPass_chosen {x : PlanItem}
    (hready : (runPass cfg work doneSegments live before).ready cfg doneSegments x)
    (hchunk : (runPass cfg work doneSegments live before).fitsChunk cfg x)
    (hpool : (runPass cfg work doneSegments live before).fitsPool cfg work live x) :
    x ∈ (runPass cfg work doneSegments live (before ++ x :: after)).chosen := by
  have hmono : (runPass cfg work doneSegments live (before ++ [x])).chosen <+:
      (runPass cfg work doneSegments live ((before ++ [x]) ++ after)).chosen :=
    runPass_chosen_mono _ _
  rw [append_assoc, singleton_append, runPass_append, Pass.step, if_pos ⟨hready, hchunk, hpool⟩, take_chosen] at hmono
  exact hmono.subset (mem_append_right _ mem_cons_self)

variable (hwork : WorkValid prompts cfg.blockTokens work) (hsame : cfg.sameChunkAncestors = true)
  (htotal : sumPages work.pages (List.range work.segments.length) ≤ cfg.poolPages)

include hwork hsame htotal in
/-- As long as the tokens fit the chunk, the first round takes everything. -/
theorem runPass_takes_all (hkeys : cfg.chunkKeys = none) {xs ys : List PlanItem}
    (hitems : work.items = xs ++ ys) (htokens : sumTokens (forwardItems xs) ≤ cfg.chunkTokens) :
    (runPass cfg work [] 0 xs).chosen = xs := by
  induction xs using List.reverseRecOn generalizing ys with
  | nil => rfl
  | append_singleton xs x ih =>
    rw [forwardItems_append, sumTokens_append] at htokens
    rw [append_assoc] at hitems
    have hchosen := ih hitems (by omega)
    have hok : PassOk cfg work [] 0 xs _ := runPass_ok xs
    have hready : (runPass cfg work [] 0 xs).ready cfg [] x := by
      intro seg hseg
      have hordered := hwork.ordered
      rw [hitems, singleton_append] at hordered
      refine Or.inr ⟨hsame, ?_⟩
      rw [hok.segments, hchosen]
      exact hordered.split hseg
    have hchunk : (runPass cfg work [] 0 xs).fitsChunk cfg x := by
      by_cases hload : x.kind = .materialize
      · exact Or.inr (Or.inl hload)
      refine Or.inr (Or.inr ⟨?_, fun chunkKeys hcap => ?_⟩)
      · have hx : sumTokens (forwardItems [x]) = x.tokens := by
          simp [forwardItems, hload, sumTokens]
        rw [hok.used, hchosen]
        omega
      · rw [hkeys] at hcap
        cases hcap
    have hstart : Scheduled cfg work (startProgress work) [] := startProgress_scheduled
    have hpool := hstart.fitsPool_of_total hwork hok htotal (hitems.trans (by rw [singleton_append]))
    rw [runPass_append, Pass.step, if_pos ⟨hready, hchunk, hpool⟩, take_chosen, hchosen]

include hwork htotal in
theorem load_placeable {x : PlanItem} (hsplit : work.items = before ++ x :: after) (hload : x.kind = .materialize) :
    (runPass cfg work [] 0 before).ready cfg [] x ∧ (runPass cfg work [] 0 before).fitsChunk cfg x ∧
      (runPass cfg work [] 0 before).fitsPool cfg work 0 x := by
  obtain ⟨s, hs, hloaded, -, -, hparent⟩ := (hwork.items.valid x (mem_of_split hsplit)).segment (by rw [hload]; simp)
  have hroot := (hwork.segments x.ref s hs).loaded (by simpa [hload] using hloaded)
  have hbegins : x.prefixSegments = [] := getLast?_eq_none_iff.mp (hparent.symm.trans hroot)
  have hstart : Scheduled cfg work (startProgress work) [] := startProgress_scheduled
  refine ⟨fun seg hseg => ?_, Or.inr (Or.inl hload), hstart.fitsPool_of_total hwork (runPass_ok before) htotal hsplit⟩
  rw [hbegins] at hseg
  cases hseg

include hwork htotal in
/-- Every load is placed in the first round. -/
theorem loads_chosen {x : PlanItem} (hx : x ∈ work.items) (hload : x.kind = .materialize) :
    x ∈ (runPass cfg work [] 0 work.items).chosen := by
  obtain ⟨before, after, hsplit⟩ := append_of_mem hx
  obtain ⟨hready, hchunk, hpool⟩ := load_placeable hwork htotal hsplit hload
  rw [hsplit]
  exact mem_runPass_chosen hready hchunk hpool

include hwork htotal in
/-- Behind a load, every row has to fit the chunk. -/
theorem used_le_behind_load {x : PlanItem} {xs : List PlanItem} (hitems : work.items = x :: xs)
    (hload : x.kind = .materialize) (seen : List PlanItem) :
    (runPass cfg work [] 0 (x :: seen)).chosen ≠ [] ∧ (runPass cfg work [] 0 (x :: seen)).used ≤ cfg.chunkTokens := by
  induction seen using List.reverseRecOn with
  | nil =>
    have hplace := load_placeable hwork htotal (hitems.trans (nil_append _).symm) hload
    rw [← nil_append [x], runPass_append, Pass.step, if_pos hplace, take_chosen, take_used]
    refine ⟨by simp, ?_⟩
    simp [forwardItems, hload, sumTokens, runPass, Pass.empty]
  | append_singleton seen y ih =>
    rw [← cons_append, runPass_append, Pass.step]
    split
    · rename_i hfits
      rw [take_chosen, take_used]
      refine ⟨by simp, ?_⟩
      rcases hfits.2.1 with hnil | hyload | ⟨htokens, -⟩
      · exact absurd hnil ih.1
      · simpa [forwardItems, hyload, sumTokens] using ih.2
      · refine le_trans (Nat.add_le_add_left ?_ _) htokens
        by_cases hyload : y.kind = .materialize <;> simp [forwardItems, hyload, sumTokens]
    · exact ih

/-- The reader `x` of the loaded segment `seg` has been left behind. -/
structure LeftBehind (x : PlanItem) (seg : ℕ) (st : Progress) : Prop where
  remains : x ∈ st.remaining
  gone : ∀ y ∈ st.remaining, y.writes ≠ some seg
  notDone : seg ∉ st.doneSegments

omit hwork hsame htotal in
theorem LeftBehind.close {x : PlanItem} (hread : seg ∈ x.prefixSegments) (h : LeftBehind x seg st) :
    LeftBehind x seg (st.close work (st.pass cfg work)) := by
  have hok := st.pass_ok cfg work
  have hchosen : ∀ y ∈ (st.pass cfg work).chosen, y.writes ≠ some seg := fun y hy => h.gone y (hok.mem_of_chosen hy)
  refine ⟨?_, fun y hy => h.gone y (hok.mem_of_rest hy), fun hin => ?_⟩
  · rcases mem_append.mp (hok.split.mem_iff.mpr h.remains) with hin | hin
    · obtain ⟨before, after, hsplit⟩ := append_of_mem hin
      rcases hok.reads before x after hsplit seg hread with hdone | ⟨-, hbefore⟩
      · exact absurd hdone h.notDone
      · obtain ⟨y, hy, hwrites⟩ := mem_written.mp hbefore
        refine absurd (writes_eq_some.mpr hwrites) (hchosen y ?_)
        rw [hsplit]
        exact mem_append_left _ hy
    · exact hin
  · rcases mem_append.mp hin with hin | hin
    · exact h.notDone hin
    · obtain ⟨y, hy, href⟩ := mem_map.mp hin
      obtain ⟨hy, hkind⟩ := mem_filter.mp hy
      rw [decide_eq_true_eq] at hkind
      exact hchosen y hy (writes_eq_some.mpr ⟨by rw [hkind]; simp, href⟩)

include hwork htotal in
/-- A reader that the first round leaves behind is never placed. -/
theorem scheduleLoop_eq_none_of_left {x load : PlanItem} {fuel : ℕ} (hx : x ∈ work.items)
    (hleft : x ∉ (runPass cfg work [] 0 work.items).chosen) (hread : seg ∈ x.prefixSegments) (hload : load ∈ work.items)
    (hkind : load.kind = .materialize) (href : load.ref = seg) :
    scheduleLoop cfg work fuel (startProgress work) = none := by
  have hok : PassOk cfg work [] 0 work.items _ := runPass_ok work.items
  have hwrites : load.writes = some seg := writes_eq_some.mpr ⟨by rw [hkind]; simp, href⟩
  have hchosen := loads_chosen hwork htotal hload hkind
  have hsplit : ((runPass cfg work [] 0 work.items).chosen ++ (runPass cfg work [] 0 work.items).rest).Nodup :=
    hok.split.nodup_iff.mpr hwork.items.nodup
  have hfirst : LeftBehind x seg ((startProgress work).close work (runPass cfg work [] 0 work.items)) := by
    refine ⟨?_, fun y hy hywrites => ?_, fun hin => ?_⟩
    · exact (mem_append.mp (hok.split.mem_iff.mpr hx)).resolve_left hleft
    · have heq := hwork.items.eq_of_writes hload (hok.mem_of_rest hy) hwrites hywrites
      exact (nodup_append.mp hsplit).2.2 load hchosen y hy heq
    · obtain ⟨y, hy, hyref⟩ := mem_map.mp hin
      obtain ⟨hy, hykind⟩ := mem_filter.mp hy
      rw [decide_eq_true_eq] at hykind
      have heq := hwork.items.eq_of_writes hload (hok.mem_of_chosen hy) hwrites
        (writes_eq_some.mpr ⟨by rw [hykind]; simp, hyref⟩)
      rw [heq, hykind] at hkind
      cases hkind
  cases hloop : scheduleLoop cfg work fuel (startProgress work) with
  | none => rfl
  | some last =>
    obtain ⟨hinv, hempty⟩ := scheduleLoop_invariant (fun st => st = startProgress work ∨ LeftBehind x seg st) (by
        rintro st (rfl | h) -
        · exact Or.inr hfirst
        · exact Or.inr (h.close hread))
      (Or.inl rfl) hloop
    rcases hinv with rfl | h
    · have hnil : work.items = [] := hempty
      rw [hnil] at hx
      cases hx
    · have hremains := h.remains
      rw [hempty] at hremains
      cases hremains

include hwork hsame htotal in
/-- With every load and its readers in one chunk, everything else follows. -/
theorem scheduleLoop_isSome_of_loads (hkeys : cfg.chunkKeys = none) {xs ys : List PlanItem}
    (hitems : work.items = xs ++ ys) (htokens : sumTokens (forwardItems xs) ≤ cfg.chunkTokens)
    (hxs : xs ≠ [] → ∃ x ∈ xs, x.kind ≠ .materialize) (hys : ∀ y ∈ ys, y.kind ≠ .materialize ∧
      ∀ seg ∈ y.prefixSegments, loadedOf work.segments seg = false) :
    (scheduleLoop cfg work work.items.length (startProgress work)).isSome := by
  have hstart : Scheduled cfg work (startProgress work) [] := startProgress_scheduled
  have hbehind : ∀ st, (∃ done, Scheduled cfg work st done) → (∀ y ∈ st.remaining, y ∈ ys) → st.remaining ≠ [] →
      (st.pass cfg work).PlacesRow := by
    rintro st ⟨done, h⟩ hsub hremaining
    exact exists_forward (fun item hitem => (hys item (hsub item hitem)).1)
      (h.head_admissible hwork htotal (fun x hx => (hys x (hsub x hx)).2) hremaining)
  have hok : PassOk cfg work [] 0 work.items _ := runPass_ok work.items
  have hchosen : ∀ x ∈ xs, x ∈ (runPass cfg work [] 0 work.items).chosen := by
    intro x hx
    have hall := runPass_takes_all hwork hsame htotal hkeys hitems htokens
    have hmono : (runPass cfg work [] 0 xs).chosen <+: (runPass cfg work [] 0 (xs ++ ys)).chosen :=
      runPass_chosen_mono _ _
    rw [hall, ← hitems] at hmono
    exact hmono.subset hx
  have hrest : ∀ y ∈ (runPass cfg work [] 0 work.items).rest, y ∈ ys := by
    intro y hy
    have hyitems := hok.mem_of_rest hy
    rw [hitems] at hyitems
    rcases mem_append.mp hyitems with hin | hin
    · exact absurd rfl ((nodup_append.mp (hok.split.nodup_iff.mpr hwork.items.nodup)).2.2 y (hchosen y hin) y hy)
    · exact hin
  refine scheduleLoop_isSome_of (fun st => (∃ done, Scheduled cfg work st done) ∧
      (st = startProgress work ∨ ∀ y ∈ st.remaining, y ∈ ys)) ?_
    ⟨⟨[], hstart⟩, Or.inl rfl⟩ le_rfl
  rintro st ⟨⟨done, h⟩, rfl | hsub⟩ hremaining
  · have hforward : (runPass cfg work [] 0 work.items).PlacesRow := by
      by_cases hnil : xs = []
      · refine hbehind (startProgress work) ⟨[], hstart⟩ (fun y hy => ?_) hremaining
        rw [hnil, nil_append] at hitems
        exact hitems ▸ hy
      · obtain ⟨x, hx, hkind⟩ := hxs hnil
        exact ⟨x, hchosen x hx, hkind⟩
    exact ⟨hforward, ⟨_, hstart.close hwork hok hforward⟩, Or.inr hrest⟩
  · have hforward := hbehind st ⟨done, h⟩ hsub hremaining
    have hpass := st.pass_ok cfg work
    exact ⟨hforward, ⟨_, h.close hwork hpass hforward⟩, Or.inr fun y hy => hsub y (hpass.mem_of_rest hy)⟩

include hwork htotal in
/-- When the first round places a front part that starts with a load, the rows of that part fit the chunk. -/
theorem tokens_le_of_chosen {load : PlanItem} {xs ys : List PlanItem} (hitems : work.items = load :: xs ++ ys)
    (hload : load.kind = .materialize) (hall : ∀ x ∈ load :: xs, x ∈ (runPass cfg work [] 0 work.items).chosen) :
    sumTokens (forwardItems (load :: xs)) ≤ cfg.chunkTokens := by
  have hok : PassOk cfg work [] 0 work.items _ := runPass_ok work.items
  have hused := (used_le_behind_load hwork htotal hitems hload (xs ++ ys)).2
  rw [← cons_append, ← hitems, hok.used] at hused
  have hnodup := hwork.items.nodup
  rw [hitems] at hnodup
  obtain ⟨zs, hperm, hsub⟩ := subperm_of_subset (nodup_append.mp hnodup).1 hall
  have heq : sumTokens (forwardItems zs) = sumTokens (forwardItems (load :: xs)) := ((hperm.filter _).map _).sum_eq
  rw [← heq]
  exact le_trans (((hsub.filter _).map _).sum_le_sum fun _ _ => Nat.zero_le _) hused

include hwork htotal in
/-- When the rows of the front part do not fit the chunk, one of its readers is left behind. -/
theorem scheduleLoop_eq_none_of_tokens {load : PlanItem} {xs ys : List PlanItem} {fuel : ℕ}
    (hitems : work.items = load :: xs ++ ys) (hload : load.kind = .materialize)
    (htokens : cfg.chunkTokens < sumTokens (forwardItems (load :: xs)))
    (hreaders : ∀ x ∈ load :: xs, x.kind = .materialize ∨
      ∃ y ∈ load :: xs, y.kind = .materialize ∧ y.ref ∈ x.prefixSegments) :
    scheduleLoop cfg work fuel (startProgress work) = none := by
  have hsub : ∀ x ∈ load :: xs, x ∈ work.items := fun x hx => hitems ▸ mem_append_left _ hx
  obtain ⟨x, hx, hleft⟩ : ∃ x ∈ load :: xs, x ∉ (runPass cfg work [] 0 work.items).chosen := by
    by_contra hall
    push Not at hall
    exact absurd (tokens_le_of_chosen hwork htotal hitems hload hall) (not_le.mpr htokens)
  rcases hreaders x hx with hxload | ⟨y, hy, hkind, hread⟩
  · exact absurd (loads_chosen hwork htotal (hsub x hx) hxload) hleft
  · exact scheduleLoop_eq_none_of_left hwork htotal (hsub x hx) hleft hread (hsub y hy) hkind rfl

end FirstRound

/-! ### The tails behind the hits -/

/-- What the prompts with a hit still have to compute. -/
def hitTailTokens (prompts : List Tokens) (hits : List MaterializedPrefix) : ℕ :=
  (hits.map fun hit => (prompts.getD hit.index.toNat []).length - hit.tokens.toNat).sum

def groupTailTokens (prompts : List Tokens) (groups : List (ℕ × List ℕ)) : ℕ :=
  (groups.map fun group =>
    (group.2.map fun index => (prompts.getD index []).length - group.1).sum).sum

theorem groupTailTokens_add (prompts : List Tokens) (key : ℕ × Tokens) (index : ℕ) (groups : HitGroups) :
    groupTailTokens prompts ((groups.add key index).map fun group => (group.1.1, group.2)) =
      groupTailTokens prompts (groups.map fun group => (group.1.1, group.2)) +
        ((prompts.getD index []).length - key.1) := by
  induction groups with
  | nil => simp [HitGroups.add, groupTailTokens]
  | cons first groups ih =>
    obtain ⟨other, members⟩ := first
    rw [HitGroups.add]
    simp only [groupTailTokens, map_cons, sum_cons] at ih ⊢
    split
    · rename_i heq
      simp [heq]
      omega
    · simp only [map_cons, sum_cons]
      omega

theorem groupHits_tailTokens {seen : List ℤ} {groups : HitGroups}
    (h : groupHits prompts blockTokens seen groups hits = .ok groups') :
    groupTailTokens prompts (groups'.map fun group => (group.1.1, group.2)) =
      groupTailTokens prompts (groups.map fun group => (group.1.1, group.2)) + hitTailTokens prompts hits := by
  induction hits generalizing seen groups with
  | nil =>
    cases h
    rfl
  | cons hit hits ih =>
    rw [groupHits] at h
    cases hhit : groupHit prompts blockTokens seen groups hit with
    | error e =>
      rw [hhit] at h
      cases h
    | ok next =>
      rw [hhit] at h
      obtain ⟨-, -, -, -, -, -, hnext⟩ := groupHit_ok hhit
      rw [ih h, hnext, groupTailTokens_add, hitTailTokens, hitTailTokens, map_cons, sum_cons, Nat.add_assoc]

theorem groupMaterializedPrefixes_tailTokens {groups : List (ℕ × List ℕ)}
    (h : groupMaterializedPrefixes prompts blockTokens hits = .ok groups) :
    groupTailTokens prompts groups = hitTailTokens prompts hits := by
  unfold groupMaterializedPrefixes at h
  cases hhits : groupHits prompts blockTokens [] [] hits with
  | error e =>
    rw [hhits] at h
    cases h
  | ok found =>
    rw [hhits] at h
    cases h
    rw [groupHits_tailTokens hhits]
    exact Nat.zero_add _

/-! ### The work list of a wave with loads -/

section Layout

variable {prompts : List Tokens} {cfg : PlanConfig} {tree : Tree} {threshold : Option ℤ} {l : Layout}

def loadedPart (l : Layout) (segments : List PlanSegment) (lengths : List ℕ) : List PlanItem :=
  (List.range l.groups.length).flatMap (l.loadedItems segments lengths)

def treePart (l : Layout) (segments : List PlanSegment) (lengths : List ℕ) (tree : Tree)
    (blockTokens : ℕ) : List PlanItem :=
  (l.order.flatMap fun old => l.segmentItem segments tree blockTokens old ::
    (l.tailsAt (some old)).map (l.tailItem segments lengths)) ++
      (l.tailsAt none).map (l.tailItem segments lengths)

theorem items_parts (l : Layout) (tree : Tree) (segments : List PlanSegment) (lengths : List ℕ) (blockTokens : ℕ) :
    l.items segments lengths tree blockTokens =
      loadedPart l segments lengths ++ treePart l segments lengths tree blockTokens :=
  append_assoc _ _ _

theorem loadedOf_newId {old : ℕ} (hold : old ∈ l.order) :
    loadedOf (l.segments tree cfg.blockTokens) (l.newId old) = false := by
  rw [loadedOf, LayoutValid.computed_getElem? hold]
  rfl

theorem treePart_reads (h : LayoutValid prompts cfg.blockTokens tree threshold l) {y : PlanItem}
    (hy : y ∈ treePart l (l.segments tree cfg.blockTokens) lengths tree cfg.blockTokens) :
    y.kind ≠ .materialize ∧ ∀ seg ∈ y.prefixSegments, loadedOf (l.segments tree cfg.blockTokens) seg = false := by
  have hmap : ∀ front : List ℕ, (∀ old ∈ front, old ∈ l.order) → ∀ seg ∈ front.map l.newId,
      loadedOf (l.segments tree cfg.blockTokens) seg = false := by
    intro front hfront seg hseg
    obtain ⟨old, hold, rfl⟩ := mem_map.mp hseg
    exact loadedOf_newId (hfront old hold)
  have htail (index : ℕ) : ∀ seg ∈ (l.chain index).map l.newId,
      loadedOf (l.segments tree cfg.blockTokens) seg = false :=
    hmap _ fun old hold => (h.mem_chain hold).2
  rcases mem_append.mp hy with hy | hy
  · obtain ⟨old, hold, hy⟩ := mem_flatMap.mp hy
    rcases mem_cons.mp hy with rfl | hy
    · obtain ⟨front, -, hfront, -, hbegins⟩ := h.segmentItem_prefix hold
      refine ⟨by simp [Layout.segmentItem], ?_⟩
      rw [hbegins]
      exact hmap front hfront
    · obtain ⟨index, -, rfl⟩ := mem_map.mp hy
      exact ⟨by simp [Layout.tailItem], htail index⟩
  · obtain ⟨index, -, rfl⟩ := mem_map.mp hy
    exact ⟨by simp [Layout.tailItem], htail index⟩

/-- The items in front are the loads and the tails that read them. -/
theorem loadedPart_cases {x : PlanItem} (hx : x ∈ loadedPart l segments lengths) : ∃ seg < l.groups.length,
      (x.kind = .materialize ∧ x.ref = seg) ∨ (x.kind = .tail ∧ x.prefixSegments = [seg]) := by
  obtain ⟨seg, hseg, hx⟩ := mem_flatMap.mp hx
  refine ⟨seg, mem_range.mp hseg, ?_⟩
  rcases mem_cons.mp hx with rfl | hx
  · exact Or.inl ⟨rfl, rfl⟩
  · obtain ⟨index, -, rfl⟩ := mem_map.mp hx
    exact Or.inr ⟨rfl, rfl⟩

theorem load_mem (hseg : seg < l.groups.length) : ∃ load ∈ loadedPart l segments lengths,
      load.kind = .materialize ∧ load.ref = seg :=
  ⟨_, mem_flatMap.mpr ⟨seg, mem_range.mpr hseg, mem_cons_self⟩, rfl, rfl⟩

theorem tailsAtMaterialized_perm (h : LayoutValid prompts cfg.blockTokens tree threshold l) {group : ℕ × List ℕ}
    (hgroup : l.groups[seg]? = some group) : (l.tailsAtMaterialized seg).Perm group.2 := by
  have hmem := mem_of_getElem? hgroup
  have hnodup : (l.tailsAtMaterialized seg).Nodup := nodup_range.filter _
  refine (perm_ext_iff_of_nodup hnodup ((nodup_flatMap.mp h.groups.nodup).1 group hmem)).mpr fun index => ?_
  rw [Layout.tailsAtMaterialized, mem_filter, mem_range, decide_eq_true_eq, h.readers, h.chains_length]
  constructor
  · rintro ⟨-, other, hother, hin⟩
    cases hgroup.symm.trans hother
    exact hin
  · intro hin
    obtain ⟨tokens, htokens, -⟩ := (h.groups.valid group hmem).inside index hin
    exact ⟨(List.getElem?_eq_some_iff.mp htokens).1, group, hgroup, hin⟩

theorem sumTokens_flatMap {α : Type*} (f : α → List PlanItem) (xs : List α) :
    sumTokens (forwardItems (xs.flatMap f)) = (xs.map fun x => sumTokens (forwardItems (f x))).sum := by
  induction xs with
  | nil => rfl
  | cons x xs ih =>
    rw [flatMap_cons, forwardItems_append, sumTokens_append, ih, map_cons, sum_cons]

theorem loadedPart_tokens (h : LayoutValid prompts cfg.blockTokens tree threshold l) :
    sumTokens (forwardItems (loadedPart l (l.segments tree cfg.blockTokens) (prompts.map length))) =
      groupTailTokens prompts l.groups := by
  rw [loadedPart, sumTokens_flatMap, groupTailTokens]
  congr 1
  refine ext_getElem (by simp) fun seg hseg _ => ?_
  rw [length_map, length_range] at hseg
  have hgroup := getElem?_eq_getElem hseg
  rw [getElem_map, getElem_map, getElem_range]
  have hforward : forwardItems (l.loadedItems (l.segments tree cfg.blockTokens) (prompts.map List.length) seg) =
      (l.tailsAtMaterialized seg).map fun index =>
        { kind := .tail, ref := index, prefixSegments := [seg]
          tokenStart := endOf (l.segments tree cfg.blockTokens) seg
          tokenEnd := (prompts.map List.length).getD index 0 } := by
    rw [Layout.loadedItems, forwardItems, filter_cons_of_neg (by simp)]
    refine filter_eq_self.mpr fun item hitem => ?_
    obtain ⟨index, -, rfl⟩ := mem_map.mp hitem
    simp
  have hlength : ∀ index, (prompts.map List.length).getD index 0 = (prompts.getD index []).length := by
    intro index
    rw [getD_eq_getElem?_getD, getD_eq_getElem?_getD, getElem?_map]
    cases prompts[index]? <;> rfl
  rw [hforward, sumTokens, map_map, LayoutValid.endOf_loaded hgroup, ((tailsAtMaterialized_perm h hgroup).map _).sum_eq]
  congr 1
  refine map_congr_left fun index _ => ?_
  simp only [comp_apply, PlanItem.tokens, hlength]

/-! ### The pages of a wave -/

/-- The pages of all loaded segments. -/
def loadedPages (blockTokens : ℕ) (groups : List (ℕ × List ℕ)) : ℕ :=
  (groups.map fun group => group.1 / blockTokens).sum

/-- The pages of all segments that are shared. -/
def sharedPages (tree : Tree) : ℕ :=
  ∑ seg ∈ (Finset.range tree.size).filter fun seg => 2 ≤ tree.count seg,
    (tree.endBlock seg - tree.startBlock seg)

section

variable (h : LayoutValid prompts cfg.blockTokens tree threshold l)
include h

theorem totalPages_le (hblock : 0 < cfg.blockTokens) :
    sumPages (segmentPages cfg.blockTokens (l.segments tree cfg.blockTokens))
        (range (l.segments tree cfg.blockTokens).length) ≤
      loadedPages cfg.blockTokens l.groups + sharedPages tree := by
  have hsum := sum_segments (fun s => (s.map PlanSegment.tokens).getD 0 / cfg.blockTokens)
    (l.segments tree cfg.blockTokens)
  have hloaded : ((l.groups.mapIdx Layout.loadedSegment).map fun s => s.tokens / cfg.blockTokens).sum =
      loadedPages cfg.blockTokens l.groups := by
    rw [loadedPages]
    congr 1
    refine ext_getElem (by simp) fun i hi _ => ?_
    simp [Layout.loadedSegment, PlanSegment.tokens]
  have horder : (l.order.map fun old => tree.endBlock old - tree.startBlock old).sum ≤ sharedPages tree := by
    rw [← sum_toFinset _ h.nodup]
    refine Finset.sum_le_sum_of_subset fun seg hseg => ?_
    have hmem := mem_toFinset.mp hseg
    have htwo := h.two_le_members hmem
    rw [h.members_length hmem] at htwo
    exact Finset.mem_filter.mpr ⟨Finset.mem_range.mpr ((h.mem seg).mp hmem).1, htwo⟩
  have hcomputed : ((l.order.map (l.computedSegment tree cfg.blockTokens)).map fun s =>
      s.tokens / cfg.blockTokens) = l.order.map fun old => tree.endBlock old - tree.startBlock old := by
    rw [map_map]
    refine map_congr_left fun old _ => ?_
    simp only [comp_apply, Layout.computedSegment, PlanSegment.tokens]
    rw [← Nat.sub_mul, Nat.mul_div_cancel _ hblock]
  refine (show _ = _ from hsum).le.trans ?_
  simp only [Option.map_some, Option.getD_some]
  rw [Layout.segments, map_append, sum_append, hloaded, hcomputed]
  omega

/-- One threshold: it schedules exactly when the tails behind the hits fit one chunk. -/
theorem schedule_loads (hlayout : layoutOf tree threshold l.groups = .ok l) (hblock : 0 < cfg.blockTokens)
    (hsame : cfg.sameChunkAncestors = true) (hkeys : cfg.chunkKeys = none)
    (hpool : loadedPages cfg.blockTokens l.groups + sharedPages tree ≤ cfg.poolPages) :
    (groupTailTokens prompts l.groups ≤ cfg.chunkTokens →
      ∃ plan, schedule cfg tree (prompts.map length) threshold l.groups = .ok (some plan)) ∧
    (cfg.chunkTokens < groupTailTokens prompts l.groups →
      schedule cfg tree (prompts.map length) threshold l.groups = .ok none) := by
  have hwork := workOf_valid h hblock
  have htotal := (totalPages_le h hblock).trans hpool
  have hitems := items_parts l tree (l.segments tree cfg.blockTokens) (prompts.map List.length) cfg.blockTokens
  have hloaded := loadedPart_tokens h
  have hreads := fun y => @treePart_reads (prompts.map length) prompts cfg tree threshold l h y
  rw [schedule, hlayout]
  dsimp only
  constructor
  · intro htokens
    have hsome := scheduleLoop_isSome_of_loads hwork hsame htotal hkeys hitems (hloaded.le.trans htokens) ?_ hreads
    · obtain ⟨last, hlast⟩ := Option.isSome_iff_exists.mp hsome
      rw [hlast]
      exact ⟨_, rfl⟩
    · -- the member of a loaded segment reads it in the front part
      intro hne
      obtain ⟨x, hx⟩ := exists_mem_of_ne_nil _ hne
      obtain ⟨seg, hseg, -⟩ := loadedPart_cases hx
      have hlt : seg < (l.segments tree cfg.blockTokens).length := by
        rw [LayoutValid.segments_length]
        omega
      obtain ⟨y, hy, hkind, hread⟩ := hwork.items.exists_reader hwork.segments hlt
      rw [show (workOf cfg tree (prompts.map List.length) l).items = _ from hitems] at hy
      rcases mem_append.mp hy with hy | hy
      · exact ⟨y, hy, by rw [hkind]; simp⟩
      · have hnot := (hreads y hy).2 seg hread
        rw [loadedOf, LayoutValid.loaded_getElem? (getElem?_eq_getElem hseg)] at hnot
        cases hnot
  · intro htokens
    rw [← hloaded] at htokens
    have hreaders : ∀ x ∈ loadedPart l (l.segments tree cfg.blockTokens) (prompts.map List.length),
        x.kind = .materialize ∨ ∃ y ∈ loadedPart l (l.segments tree cfg.blockTokens) (prompts.map List.length),
          y.kind = .materialize ∧ y.ref ∈ x.prefixSegments := by
      intro x hx
      obtain ⟨seg, hseg, ⟨hload, -⟩ | ⟨-, hread⟩⟩ := loadedPart_cases hx
      · exact Or.inl hload
      · obtain ⟨y, hy, hkind, rfl⟩ := load_mem hseg
        exact Or.inr ⟨y, hy, hkind, by rw [hread]; exact mem_cons_self⟩
    -- the work list starts with a load
    cases hgroups : List.range l.groups.length with
    | nil =>
      rw [loadedPart, hgroups] at htokens
      cases htokens
    | cons seg segs =>
      rw [loadedPart, hgroups, flatMap_cons, Layout.loadedItems, cons_append] at hitems htokens hreaders
      rw [scheduleLoop_eq_none_of_tokens hwork htotal hitems rfl htokens hreaders]
      rfl

end

end Layout

/-! ### The planner -/

/-- With room for every segment and no cap on the keys, a wave with loads is planned exactly when the
tails of the prompts with a hit fit one chunk together; otherwise the pool is blamed. -/
theorem planWave_loads_iff (cfg : PlanConfig) (prompts : List Tokens) (hits : List MaterializedPrefix)
    (groups : List (ℕ × List ℕ)) (hblock : 0 < cfg.blockTokens) (hchunk : 0 < cfg.chunkTokens)
    (hnonempty : ∀ tokens ∈ prompts, tokens ≠ [])
    (hgroups : groupMaterializedPrefixes prompts cfg.blockTokens hits = .ok groups)
    (hsame : cfg.sameChunkAncestors = true) (hkeys : cfg.chunkKeys = none) (hpool : loadedPages cfg.blockTokens groups +
      sharedPages (buildTree prompts cfg.blockTokens (groups.flatMap Prod.snd)) ≤ cfg.poolPages) :
    ((∃ plan, planWavePrefixSharing cfg prompts hits = .ok plan) ↔ hitTailTokens prompts hits ≤ cfg.chunkTokens) ∧
    (cfg.chunkTokens < hitTailTokens prompts hits → planWavePrefixSharing cfg prompts hits =
      .error (.poolMaterializationDoesNotFit groups.length (groups.map Prod.fst).sum cfg.poolPages)) := by
  have hplanner := planWave_eq hblock hchunk hnonempty hgroups (Or.inr hsame)
  have htokens := groupMaterializedPrefixes_tailTokens hgroups
  have hthreshold : ∀ threshold, (hitTailTokens prompts hits ≤ cfg.chunkTokens → ∃ plan,
        schedule cfg (buildTree prompts cfg.blockTokens (groups.flatMap Prod.snd))
          (prompts.map List.length) threshold groups = .ok (some plan)) ∧
      (cfg.chunkTokens < hitTailTokens prompts hits →
        schedule cfg (buildTree prompts cfg.blockTokens (groups.flatMap Prod.snd))
          (prompts.map List.length) threshold groups = .ok none) := by
    intro threshold
    obtain ⟨l, hlayout, rfl, hvalid⟩ :=
      @layoutOf_ok prompts cfg.blockTokens _ threshold groups (buildTree_valid prompts cfg.blockTokens _)
        (groupMaterializedPrefixes_valid hgroups)
    rw [← htokens]
    exact schedule_loads hvalid hlayout hblock hsame hkeys hpool
  have hfails : cfg.chunkTokens < hitTailTokens prompts hits → planWavePrefixSharing cfg prompts hits =
      .error (.poolMaterializationDoesNotFit groups.length (groups.map Prod.fst).sum cfg.poolPages) := by
    intro hlong
    have hne : groups ≠ [] := by
      rintro rfl
      rw [← htokens] at hlong
      exact absurd hlong (Nat.not_lt_zero _)
    rcases firstPlan_cases (fun t => ⟨_, (hthreshold (some t)).2 hlong⟩)
        (thresholds (buildTree prompts cfg.blockTokens (groups.flatMap Prod.snd))) with
      ⟨before, t, after, result, -, -, ht, -⟩ | ⟨-, hfirst⟩
    · rw [(hthreshold (some t)).2 hlong] at ht
      cases ht
    · rw [hplanner, planTree, hfirst, (hthreshold none).2 hlong]
      exact if_neg hne
  refine ⟨⟨?_, fun hshort => ?_⟩, hfails⟩
  · rintro ⟨plan, hplan⟩
    by_contra hlong
    rw [hfails (not_le.mp hlong)] at hplan
    cases hplan
  · have hok : ∀ t, ∃ result, schedule cfg (buildTree prompts cfg.blockTokens (groups.flatMap Prod.snd))
        (prompts.map List.length) (some t) groups = .ok result := fun t =>
      ((hthreshold (some t)).1 hshort).imp' some fun plan hplan => hplan
    rcases firstPlan_cases hok (thresholds (buildTree prompts cfg.blockTokens (groups.flatMap Prod.snd)))
      with ⟨before, t, after, result, -, -, -, hfirst⟩ | ⟨hall, -⟩
    · exact ⟨result, by rw [hplanner, planTree, hfirst]⟩
    · obtain ⟨plan, hplan⟩ := (hthreshold (some 2)).1 hshort
      rw [hall 2 (mem_thresholds.mpr (Or.inl rfl))] at hplan
      cases hplan

/-- Two prompts behind one loaded block, with room for both tails. -/
theorem planWave_loads_iff_two :
    ∃ plan, planWavePrefixSharing { blockTokens := 2, poolPages := 1, chunkTokens := 4, sameChunkAncestors := true }
      [[1, 2, 3, 4], [1, 2, 5, 6]] [⟨0, 2⟩, ⟨1, 2⟩] = .ok plan :=
  (planWave_loads_iff { blockTokens := 2, poolPages := 1, chunkTokens := 4, sameChunkAncestors := true }
    [[1, 2, 3, 4], [1, 2, 5, 6]] [⟨0, 2⟩, ⟨1, 2⟩] [(2, [0, 1])] (by decide) (by decide) (by decide)
    (by rfl) rfl rfl (by decide)).1.mpr (by decide)

/-- A third prompt behind the same block: no prompt is longer than a chunk and the pool has room to
spare, but the third tail is left behind its load. -/
theorem planWave_loads_left_behind :
    groupMaterializedPrefixes [[1, 2, 3, 4], [1, 2, 5, 6], [1, 2, 7, 8]] 2 [⟨0, 2⟩, ⟨1, 2⟩, ⟨2, 2⟩] =
        .ok [(2, [0, 1, 2])] ∧ loadedPages 2 [(2, [0, 1, 2])] +
          sharedPages (buildTree [[1, 2, 3, 4], [1, 2, 5, 6], [1, 2, 7, 8]] 2 [0, 1, 2]) ≤ 100 ∧ planWavePrefixSharing
          { blockTokens := 2, poolPages := 100, chunkTokens := 4, sameChunkAncestors := true }
          [[1, 2, 3, 4], [1, 2, 5, 6], [1, 2, 7, 8]] [⟨0, 2⟩, ⟨1, 2⟩, ⟨2, 2⟩] =
        .error (.poolMaterializationDoesNotFit 1 2 100) := by
  refine ⟨by rfl, by decide, by rfl⟩

end Batchgen.WavePlan
