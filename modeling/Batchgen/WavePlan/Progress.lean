import Batchgen.WavePlan.Accounting
import Mathlib.Algebra.Order.BigOperators.Group.List
import Mathlib.Algebra.Order.Group.Nat

/-!
# When a threshold schedules

A segment is admitted only while the deepest path below it still fits beside what is resident.  Later
admissions may come from other subtrees, but the segment admitted last of those that are resident never
loses the room for its own subtree, so its first remaining reader can always run.  Without loads the loop
therefore gets stuck only when some prompt's chain does not fit the pool at all.
-/

namespace Batchgen.WavePlan

open List

variable {x y : PlanItem} {seg fuel : ℕ} {α : Type*} {items : List PlanItem} {below : List ℕ}

/-! ### Order -/

theorem pairwise_of_split {R : α → α → Prop} {xs : List α}
    (h : ∀ before x after, xs = before ++ x :: after → ∀ y ∈ after, R x y) : xs.Pairwise R := by
  induction xs with
  | nil => exact List.Pairwise.nil
  | cons x xs ih =>
    refine pairwise_cons.mpr ⟨h [] x xs rfl, ih fun before y after hsplit => ?_⟩
    exact h (x :: before) y after (by rw [hsplit, cons_append])

theorem orderedFrom_of_split {seen : List ℕ}
    (h : ∀ before item after, items = before ++ item :: after → ∀ seg ∈ item.prefixSegments,
      seg ∈ seen ∨ seg ∈ written before) : OrderedFrom seen items := by
  induction items using List.reverseRecOn with
  | nil => trivial
  | append_singleton items item ih =>
    refine orderedFrom_append.mpr ⟨ih fun before x after hsplit => ?_, ?_, trivial⟩
    · exact h before x (after ++ [item]) (by rw [hsplit, append_assoc, cons_append])
    · exact fun seg hseg => mem_append.mpr (h items item [] rfl seg hseg)

/-- Chunk after chunk, everything is written before it is read. -/
theorem ChunksOk.ordered {cfg : PlanConfig} {pages : ℕ → ℕ} {done : List PlanItem} {chunks : List PlanChunk}
    (h : ChunksOk cfg pages items done chunks) : OrderedFrom (written done) (chunkItems chunks) := by
  induction chunks generalizing done with
  | nil => trivial
  | cons chunk chunks ih =>
    rw [chunkItems_cons, orderedFrom_append, ← written_append]
    refine ⟨orderedFrom_of_split fun before item after hsplit seg hseg => ?_, ih h.2⟩
    exact (h.1.reads before item after hsplit seg hseg).imp_right And.right

/-- No item of the work list is written behind one that reads it. -/
theorem WorkValid.pairwise {prompts : List Tokens} {blockTokens : ℕ} {work : Work}
    (h : WorkValid prompts blockTokens work) :
    work.items.Pairwise fun x y => ∀ seg, y.writes = some seg → seg ∉ x.prefixSegments := by
  refine pairwise_of_split fun before x after hsplit y hy seg hwrites hread => ?_
  have hordered := h.ordered
  rw [hsplit] at hordered
  obtain ⟨z, hz, hzwrites⟩ := mem_written.mp (hordered.split hread)
  have hnodup := h.items.nodup
  have hyitems : y ∈ work.items := by
    rw [hsplit]
    exact mem_append_right _ (mem_cons_of_mem _ hy)
  have hzitems : z ∈ work.items := by
    rw [hsplit]
    exact mem_append_left _ hz
  have heq := h.items.eq_of_writes hzitems hyitems (writes_eq_some.mpr hzwrites) hwrites
  rw [hsplit, nodup_append] at hnodup
  exact hnodup.2.2 z hz y (mem_cons_of_mem _ hy) heq

section

variable {prompts : List Tokens} {cfg : PlanConfig} {work : Work} {st : Progress} {done : List PlanItem}
  (hwork : WorkValid prompts cfg.blockTokens work) (h : Scheduled cfg work st done)
include hwork h

/-- What a remaining item reads is written, or remains in front of it. -/
theorem Scheduled.reads_remaining {before after : List PlanItem} (hsplit : st.remaining = before ++ x :: after)
    (hread : seg ∈ x.prefixSegments) : seg ∈ written done ∨ seg ∈ written before := by
  have hx : x ∈ work.items := h.remaining.subset (mem_of_split hsplit)
  have hlt := (hwork.items.valid x hx).known seg hread
  obtain ⟨y, hy, hwrites⟩ := mem_written.mp (hwork.items.written_iff.mpr hlt)
  rcases mem_append.mp (h.perm.mem_iff.mpr hy) with hdone | hremaining
  · exact Or.inl (mem_written.mpr ⟨y, hdone, hwrites⟩)
  refine Or.inr ?_
  have hpairs := hwork.pairwise.sublist h.remaining
  rw [hsplit] at hremaining hpairs
  rcases mem_append.mp hremaining with hbefore | hrest
  · exact mem_written.mpr ⟨y, hbefore, hwrites⟩
  · have hwrites' := writes_eq_some.mpr hwrites
    rcases mem_cons.mp hrest with rfl | hafter
    · exact absurd (hwork.items.prefix_lt hx hread hy hwrites') (lt_irrefl _)
    · have hno := (pairwise_cons.mp (pairwise_append.mp hpairs).2.1).1 y hafter
      exact absurd hread (hno seg hwrites')

omit hwork in
theorem Scheduled.done_subset (hx : x ∈ done) : x ∈ work.items := h.perm.mem_iff.mp (mem_append_left _ hx)

omit hwork in
theorem Scheduled.ordered_done : OrderedFrom [] done := by
  have hordered := h.chunks.ordered
  rwa [h.items] at hordered

end

/-- What hangs below a segment is a segment. -/
theorem linked_lt {segments : List PlanSegment} {up : ℕ} (h : LinkedFrom (parentOf segments) (some up) below)
    (hseg : seg ∈ below) : seg < segments.length := by
  induction below generalizing up with
  | nil => cases hseg
  | cons next below ih =>
    rcases mem_cons.mp hseg with rfl | hseg
    · exact lt_length_of_parentOf h.1
    · exact ih h.2 hseg

/-! ### Reservations -/

/-- Some remaining item can be placed beside what is resident. -/
def Progress.Placeable (cfg : PlanConfig) (work : Work) (st : Progress) : Prop :=
  ∃ x ∈ st.remaining, (∀ seg ∈ x.prefixSegments, seg ∈ st.doneSegments) ∧
    (x.kind ≠ .tail → st.live + work.need x.ref ≤ cfg.poolPages)

/-- What of `segs` is still resident once `done` is done. -/
def stillLive (items done : List PlanItem) (segs : List ℕ) : List ℕ :=
  segs.filter fun seg => ¬ (itemTasks items).Over done seg

/-- Every resident segment was admitted with room for its subtree beside what was resident then, so it
has room beside what is left of that. -/
structure Reserved (cfg : PlanConfig) (work : Work) (done : List PlanItem) : Prop where
  room : ∀ before item after, done = before ++ item :: after → item.kind ≠ .tail →
    ¬ (itemTasks work.items).Over done item.ref →
    sumPages work.pages (stillLive work.items done (written before)) + work.need item.ref ≤ cfg.poolPages
  admitted : ∀ item ∈ done, item.kind ≠ .tail → work.need item.ref ≤ cfg.poolPages

theorem sumPages_le_of_sublist (pages : ℕ → ℕ) {xs ys : List ℕ} (h : xs.Sublist ys) :
    sumPages pages xs ≤ sumPages pages ys :=
  (h.map pages).sum_le_sum fun _ _ => Nat.zero_le _

theorem stillLive_append (items done : List PlanItem) (xs ys : List ℕ) :
    stillLive items done (xs ++ ys) = stillLive items done xs ++ stillLive items done ys :=
  filter_append xs ys

/-- Doing more only takes away. -/
theorem stillLive_mono (items done more : List PlanItem) (segs : List ℕ) :
    (stillLive items (done ++ more) segs).Sublist (stillLive items done segs) := by
  refine monotone_filter_right segs fun seg hlive => ?_
  rw [decide_eq_true_eq] at hlive ⊢
  exact fun hover => hlive (hover.mono fun x _ hx => mem_append_left _ hx)

theorem append_split {xs ys before after : List α} {x : α} (h : xs ++ ys = before ++ x :: after) :
    (∃ rest, xs = before ++ x :: rest) ∨ ∃ front, before = xs ++ front ∧ ys = front ++ x :: after := by
  rcases append_eq_append_iff.mp h with ⟨front, hbefore, hys⟩ | ⟨rest, hxs, hrest⟩
  · exact Or.inr ⟨front, hbefore, hys⟩
  cases rest with
  | nil =>
    rw [append_nil] at hxs
    exact Or.inr ⟨[], by rw [hxs, append_nil], hrest.symm⟩
  | cons y rest =>
    obtain ⟨rfl, -⟩ := List.cons.inj hrest
    exact Or.inl ⟨rest, hxs⟩

section

variable {prompts : List Tokens} {cfg : PlanConfig} {work : Work} {st : Progress} {done : List PlanItem}

theorem Reserved.close {p : Pass} (h : Reserved cfg work done) (hst : Scheduled cfg work st done)
    (hp : PassOk cfg work st.doneSegments st.live st.remaining p) : Reserved cfg work (done ++ p.chosen) where
  room := by
    intro before item after hsplit hkind hlive
    rcases append_split hsplit with ⟨rest, hdone⟩ | ⟨front, rfl, hchosen⟩
    · have hroom := h.room before item rest hdone hkind fun hover =>
        hlive (hover.mono fun x _ hx => mem_append_left _ hx)
      have hless := sumPages_le_of_sublist work.pages (stillLive_mono work.items done p.chosen (written before))
      omega
    · have hroom := hp.admitted front item after hchosen hkind
      have hdone := sumPages_le_of_sublist work.pages (stillLive_mono work.items done p.chosen (written done))
      have hfront : sumPages work.pages (stillLive work.items (done ++ p.chosen) (written front)) ≤
          sumPages work.pages (written front) := sumPages_le_of_sublist _ filter_sublist
      have hresident : stillLive work.items done (written done) = (itemTasks work.items).resident done :=
        rfl
      rw [hst.live] at hroom
      rw [hresident] at hdone
      rw [written_append, stillLive_append, sumPages_append]
      omega
  admitted := by
    intro item hitem hkind
    rcases mem_append.mp hitem with hdone | hchosen
    · exact h.admitted item hdone hkind
    · obtain ⟨before, after, hsplit⟩ := append_of_mem hchosen
      have hroom := hp.admitted before item after hsplit hkind
      rw [hst.live] at hroom
      omega

variable (hwork : WorkValid prompts cfg.blockTokens work)

include hwork in
theorem WorkValid.prefix_nodup (hx : x ∈ work.items) : x.prefixSegments.Nodup :=
  ((hwork.items.valid x hx).linked.sorted fun _ _ _ hup => hwork.parent_lt hup).1.nodup

include hwork in
/-- Along what `x` reads, the item of a segment reads those before it. -/
theorem WorkValid.reads_above {z : PlanItem} {above rest : List ℕ} {u : ℕ} (hx : x ∈ work.items)
    (hbegins : x.prefixSegments = above ++ seg :: rest) (hu : u ∈ rest) (hz : z ∈ work.items)
    (hzwrites : z.writes = some u) : seg ∈ z.prefixSegments := by
  have hread : u ∈ x.prefixSegments := by
    rw [hbegins]
    exact mem_append_right _ (mem_cons_of_mem _ hu)
  obtain ⟨below, hzprefix⟩ := hwork.items.prefix_split hx hread hz hzwrites
  have hnodup := hwork.prefix_nodup hx
  have hwhole : (above ++ [seg]) ++ rest = z.prefixSegments ++ u :: below := by
    rw [← hzprefix, hbegins, append_assoc, singleton_append]
  rw [hbegins, ← singleton_append, ← append_assoc, nodup_append] at hnodup
  rcases append_split hwhole with ⟨r, hfront⟩ | ⟨front, hfront, -⟩
  · exact absurd rfl (hnodup.2.2 u (mem_of_split hfront) u hu)
  · rw [hfront]
    exact mem_append_left _ (mem_append_right _ mem_cons_self)

include hwork in
/-- A path below a segment is part of what some tail reads. -/
theorem WorkValid.path_in_tail (hy : y ∈ work.items) (hwrites : y.writes = some seg)
    (hbelow : LinkedFrom (parentOf work.segments) (some seg) below) :
    ∃ x ∈ work.items, x.kind = .tail ∧ ∃ after, x.prefixSegments = y.prefixSegments ++ seg :: (below ++ after) := by
  -- the whole chain down to the last segment of the path
  have hlinked : LinkedFrom (parentOf work.segments) none (y.prefixSegments ++ seg :: below) := by
    refine linkedFrom_append.mpr ⟨(hwork.items.valid y hy).linked, ?_, hbelow⟩
    rw [Option.or_none]
    exact hwork.items.parentOf_writes hy hwrites
  have hlast : ∃ last, (seg :: below).getLast? = some last ∧ last < work.segments.length := by
    cases below with
    | nil =>
      refine ⟨seg, rfl, ?_⟩
      exact hwork.items.written_iff.mp (mem_written.mpr ⟨y, hy, writes_eq_some.mp hwrites⟩)
    | cons next below =>
      refine ⟨_, getLast?_eq_getLast_of_ne_nil (cons_ne_nil seg (next :: below)), ?_⟩
      have hmem : (seg :: next :: below).getLast (cons_ne_nil _ _) ∈ next :: below := by
        rw [getLast_cons (cons_ne_nil next below)]
        exact getLast_mem _
      exact linked_lt hbelow hmem
  obtain ⟨last, hlast, hlt⟩ := hlast
  obtain ⟨x, hx, hkind, hread⟩ := hwork.items.exists_reader hwork.segments hlt
  obtain ⟨z, hz, hzwrites⟩ := mem_written.mp (hwork.items.written_iff.mpr hlt)
  obtain ⟨after, hsplit⟩ := hwork.items.prefix_split hx hread hz (writes_eq_some.mpr hzwrites)
  have hchain : LinkedFrom (parentOf work.segments) none (z.prefixSegments ++ [last]) := by
    have hxlinked := (hwork.items.valid x hx).linked
    rw [hsplit, ← singleton_append, ← append_assoc] at hxlinked
    exact (linkedFrom_append.mp hxlinked).1
  have heq : y.prefixSegments ++ seg :: below = z.prefixSegments ++ [last] := by
    refine hlinked.unique hchain ?_
    rw [getLast?_concat, getLast?_append, hlast]
    rfl
  refine ⟨x, hx, hkind, after, ?_⟩
  have hwhole : x.prefixSegments = (z.prefixSegments ++ [last]) ++ after := by
    rw [hsplit, append_assoc, singleton_append]
  rw [hwhole, ← heq, append_assoc, cons_append]

variable (hnoload : ∀ item ∈ work.items, item.kind ≠ .materialize) (hst : Scheduled cfg work st done)

include hnoload hst in
theorem Scheduled.mem_doneSegments_iff : seg ∈ st.doneSegments ↔ seg ∈ written done := by
  refine ⟨hst.mem_doneSegments, fun hseg => ?_⟩
  obtain ⟨item, hitem, hkind, rfl⟩ := mem_written.mp hseg
  rw [hst.doneSegments, mem_map]
  refine ⟨item, mem_filter.mpr ⟨hitem, decide_eq_true ?_⟩, rfl⟩
  have hload := hnoload item (hst.done_subset hitem)
  cases hitemKind : item.kind with
  | segment => rfl
  | tail => exact absurd hitemKind hkind
  | materialize => exact absurd hitemKind hload

/-- The segment admitted last of those that are resident. -/
theorem last_resident (hlive : (itemTasks work.items).resident done ≠ []) :
    ∃ before y after, done = before ++ y :: after ∧ y.kind ≠ .tail ∧ ¬ (itemTasks work.items).Over done y.ref ∧
      (itemTasks work.items).resident done = stillLive work.items done (written before) ++ [y.ref] := by
  -- on the last item that writes something resident
  have hlast : ∀ xs ys, done = xs ++ ys → stillLive work.items done (written xs) ≠ [] →
      ∃ before y after, xs = before ++ y :: after ∧ y.kind ≠ .tail ∧ ¬ (itemTasks work.items).Over done y.ref ∧
        stillLive work.items done (written xs) = stillLive work.items done (written before) ++ [y.ref] := by
    intro xs
    induction xs using List.reverseRecOn with
    | nil => exact fun _ _ hne => absurd rfl hne
    | append_singleton xs x ih =>
      intro ys hdone hne
      rw [written_append, stillLive_append] at hne
      by_cases hx : stillLive work.items done (written [x]) = []
      · rw [hx, append_nil] at hne
        rw [append_assoc] at hdone
        obtain ⟨before, y, after, hxs, hkind, hover, heq⟩ := ih _ hdone hne
        refine ⟨before, y, after ++ [x], ?_, hkind, hover, ?_⟩
        · rw [hxs, append_assoc, cons_append]
        · rw [written_append, stillLive_append, hx, append_nil, heq]
      · cases hwrites : x.writes with
        | none => simp [written, hwrites, stillLive] at hx
        | some seg =>
          obtain ⟨hkind, rfl⟩ := writes_eq_some.mp hwrites
          have hover : ¬ (itemTasks work.items).Over done x.ref := by
            intro hover
            simp [written, hwrites, stillLive, hover] at hx
          refine ⟨xs, x, [], rfl, hkind, hover, ?_⟩
          rw [written_append, stillLive_append]
          simp [written, hwrites, stillLive, hover]
  exact hlast done [] (append_nil _).symm hlive

include hwork hnoload hst in
/-- The first remaining reader of the segment admitted last runs. -/
theorem Reserved.exists_reader (h : Reserved cfg work done) (hlive : (itemTasks work.items).resident done ≠ []) :
    st.Placeable cfg work := by
  obtain ⟨before, y, after, hdone, hykind, hyover, hresident⟩ := last_resident hlive
  have hroom := h.room before y after hdone hykind hyover
  have hy := mem_of_split hdone
  have hywrites : y.writes = some y.ref := writes_eq_some.mpr ⟨hykind, rfl⟩
  have hyitems := hst.done_subset hy
  have hydone : y.ref ∈ written done := mem_written.mpr ⟨y, hy, hykind, rfl⟩
  -- the first of its readers that are left
  obtain ⟨x, front, back, hsplit, hread, hfirst⟩ : ∃ x front back, st.remaining = front ++ x :: back ∧
      y.ref ∈ x.prefixSegments ∧ ∀ z ∈ front, y.ref ∉ z.prefixSegments := by
    rw [over_iff hwork.items.nodup hst.perm] at hyover
    push Not at hyover
    obtain ⟨z, hz, hzread⟩ := hyover
    have hfind : (st.remaining.find? fun z => y.ref ∈ z.prefixSegments).isSome :=
      find?_isSome.mpr ⟨z, hz, decide_eq_true hzread⟩
    obtain ⟨x, hx⟩ := Option.isSome_iff_exists.mp hfind
    obtain ⟨hread, front, back, hsplit, hfirst⟩ := find?_eq_some_iff_append.mp hx
    exact ⟨x, front, back, hsplit, of_decide_eq_true hread, fun z hz => by simpa using hfirst z hz⟩
  have hxremaining := mem_of_split hsplit
  have hxitems := hst.remaining.subset hxremaining
  obtain ⟨rest, hbegins⟩ := hwork.items.prefix_split hxitems hread hyitems hywrites
  have hready : ∀ seg ∈ x.prefixSegments, seg ∈ written done := by
    intro seg hseg
    rcases hst.reads_remaining hwork hsplit hseg with hin | hin
    · exact hin
    -- its item would read the segment too, or be one of those above it
    obtain ⟨z, hz, hzwrites⟩ := mem_written.mp hin
    have hzwrites := writes_eq_some.mpr hzwrites
    have hzremaining : z ∈ st.remaining := by
      rw [hsplit]
      exact mem_append_left _ hz
    have hzitems := hst.remaining.subset hzremaining
    rw [hbegins] at hseg
    rcases mem_append.mp hseg with habove | hseg
    · exact hst.reads y hy seg habove
    · rcases mem_cons.mp hseg with rfl | hseg
      · exact hydone
      · exact absurd (hwork.reads_above hxitems hbegins hseg hzitems hzwrites) (hfirst z hz)
  refine ⟨x, hxremaining, fun seg hseg => (hst.mem_doneSegments_iff hnoload).mpr (hready seg hseg), ?_⟩
  intro hxkind
  have hxwrites : x.writes = some x.ref := writes_eq_some.mpr ⟨hxkind, rfl⟩
  have hparent : parentOf work.segments x.ref = some y.ref := by
    rw [hwork.items.parentOf_writes hxitems hxwrites, hbegins]
    cases hrest : rest.getLast? with
    | none => rw [getLast?_eq_none_iff.mp hrest, getLast?_concat]
    | some u =>
      -- a segment between would be resident and admitted later
      exfalso
      have hurest := mem_of_getLast? hrest
      have hu : u ∈ x.prefixSegments := by
        rw [hbegins]
        exact mem_append_right _ (mem_cons_of_mem _ hurest)
      have hulive : u ∈ (itemTasks work.items).resident done := by
        refine (Tasks.mem_resident _).mpr ⟨hready u hu, ?_⟩
        rw [over_iff hwork.items.nodup hst.perm]
        exact fun hnone => hnone x hxremaining hu
      have hne : u ≠ y.ref := by
        rintro rfl
        have hnodup := hwork.prefix_nodup hxitems
        rw [hbegins, nodup_append] at hnodup
        exact (nodup_cons.mp hnodup.2.1).1 hurest
      rw [hresident, mem_append, mem_singleton] at hulive
      obtain ⟨z, hz, hzwrites⟩ := mem_written.mp (mem_filter.mp (hulive.resolve_right hne)).1
      have hzdone : z ∈ done := by
        rw [hdone]
        exact mem_append_left _ hz
      have hzread := hwork.reads_above hxitems hbegins hurest (hst.done_subset hzdone) (writes_eq_some.mpr hzwrites)
      obtain ⟨first, behind, hbefore⟩ := append_of_mem hz
      have hordered := hst.ordered_done
      rw [hdone, hbefore, append_assoc] at hordered
      obtain ⟨w, hw, hwwrites⟩ := mem_written.mp (hordered.split hzread)
      have hwbefore : w ∈ before := by
        rw [hbefore]
        exact mem_append_left _ hw
      have hwdone : w ∈ done := by
        rw [hdone]
        exact mem_append_left _ hwbefore
      have heq := hwork.items.eq_of_writes (hst.done_subset hwdone) hyitems (writes_eq_some.mpr hwwrites) hywrites
      have hnodup := (nodup_append.mp (hst.perm.nodup_iff.mpr hwork.items.nodup)).1
      rw [hdone, nodup_append] at hnodup
      exact hnodup.2.2 w hwbefore y mem_cons_self heq
  have hchild := hwork.need_child hparent
  rw [hst.live, hresident, sumPages_append]
  have hown : sumPages work.pages [y.ref] = work.pages y.ref := by simp [sumPages]
  rw [hown]
  push_cast
  omega

/-- Every tail's chain fits the pool. -/
def ChainsFit (cfg : PlanConfig) (work : Work) : Prop :=
  ∀ item ∈ work.items, item.kind = .tail → sumPages work.pages item.prefixSegments ≤ cfg.poolPages

include hwork in
theorem WorkValid.need_le (hfit : ChainsFit cfg work) (hy : y ∈ work.items)
    (hwrites : y.writes = some seg) : work.need seg ≤ cfg.poolPages := by
  obtain ⟨below, hlinked, hneed⟩ := hwork.exists_path seg
  obtain ⟨x, hx, hkind, after, hbegins⟩ := hwork.path_in_tail hy hwrites hlinked
  have hsub : (seg :: below).Sublist x.prefixSegments := by
    rw [hbegins, ← cons_append]
    exact (sublist_append_left _ _).trans (sublist_append_right _ _)
  rw [hneed]
  exact (sumPages_le_of_sublist work.pages hsub).trans (hfit x hx hkind)

include hwork hnoload hst in
/-- While items remain, one of them can be placed. -/
theorem Reserved.exists_admissible (h : Reserved cfg work done) (hfit : ChainsFit cfg work)
    (hremaining : st.remaining ≠ []) : st.Placeable cfg work := by
  by_cases hlive : (itemTasks work.items).resident done = []
  · obtain ⟨x, rest, hsplit⟩ := exists_cons_of_ne_nil hremaining
    have hx : x ∈ st.remaining := by
      rw [hsplit]
      exact mem_cons_self
    refine ⟨x, hx, fun seg hseg => ?_, fun hkind => ?_⟩
    · rw [hst.mem_doneSegments_iff hnoload]
      have hread : seg ∈ written done ∨ seg ∈ written [] := hst.reads_remaining hwork hsplit hseg
      exact hread.resolve_right not_mem_nil
    · have hneed := hwork.need_le hfit (hst.remaining.subset hx) (writes_eq_some.mpr ⟨hkind, rfl⟩)
      rw [hst.live, hlive]
      simpa [sumPages] using hneed
  · exact h.exists_reader hwork hnoload hst hlive

omit hwork hnoload hst in
/-- A round with a placeable item places something. -/
theorem runPass_chosen_ne_nil {doneSegments : List ℕ} {live : ℤ} {remaining : List PlanItem} (hx : x ∈ remaining)
    (hready : ∀ seg ∈ x.prefixSegments, seg ∈ doneSegments)
    (hpool : x.kind ≠ .tail → live + work.need x.ref ≤ cfg.poolPages) :
    (runPass cfg work doneSegments live remaining).chosen ≠ [] := by
  induction remaining using List.reverseRecOn with
  | nil => cases hx
  | append_singleton remaining last ih =>
    have hok : PassOk cfg work doneSegments live remaining _ := runPass_ok remaining
    rw [runPass_append, Pass.step]
    by_cases hchosen : (runPass cfg work doneSegments live remaining).chosen = []
    · -- nothing yet, so `x` is the last item
      have hlast : x = last := by
        rcases mem_append.mp hx with hin | hin
        · exact absurd hchosen (ih hin)
        · exact mem_singleton.mp hin
      subst hlast
      have hwritten : (runPass cfg work doneSegments live remaining).written = 0 := by
        rw [hok.pages, hchosen]
        rfl
      have hfits : (runPass cfg work doneSegments live remaining).fitsPool cfg work live x := by
        intro hkind
        rw [hwritten]
        simpa using hpool hkind
      rw [if_pos ⟨fun seg hseg => Or.inl (hready seg hseg), Or.inl hchosen, hfits⟩, take_chosen]
      simp
    · split
      · rw [take_chosen]
        simp
      · exact hchosen

omit hwork hnoload hst in
theorem reserved_nil : Reserved cfg work [] where
  room := fun before item after hsplit => by cases before <;> cases hsplit
  admitted := fun item hitem => by cases hitem

include hwork in
/-- What has been scheduled was admitted. -/
theorem scheduleLoop_reserved {last : Progress} (hloop : scheduleLoop cfg work fuel (startProgress work) = some last) :
    ∃ done, done.Perm work.items ∧ Reserved cfg work done := by
  obtain ⟨⟨done, hst, h⟩, hempty⟩ :=
    scheduleLoop_invariant (fun st => ∃ done, Scheduled cfg work st done ∧ Reserved cfg work done)
      (fun st ⟨_, hst, h⟩ hforward =>
        ⟨_, hst.close hwork (st.pass_ok cfg work) hforward, h.close hst (st.pass_ok cfg work)⟩)
      ⟨[], startProgress_scheduled, reserved_nil⟩ hloop
  have hall := hst.perm
  rw [hempty, append_nil] at hall
  exact ⟨done, hall, h⟩

include hwork in
/-- A chain that does not fit is never admitted. -/
theorem chainsFit_of_isSome
    (hloop : (scheduleLoop cfg work fuel (startProgress work)).isSome) : ChainsFit cfg work := by
  obtain ⟨last, hlast⟩ := Option.isSome_iff_exists.mp hloop
  obtain ⟨done, hall, hreserved⟩ := scheduleLoop_reserved hwork hlast
  intro x hx _
  cases hbegins : x.prefixSegments with
  | nil => exact Nat.zero_le _
  | cons seg below =>
    have hvalid := hwork.items.valid x hx
    have hlinked := hvalid.linked
    rw [hbegins] at hlinked
    have hlt := hvalid.known seg (by rw [hbegins]; exact mem_cons_self)
    obtain ⟨y, hy, hkind, rfl⟩ := mem_written.mp (hwork.items.written_iff.mpr hlt)
    exact (hwork.path_le_need hlinked.2).trans (hreserved.admitted y (hall.mem_iff.mpr hy) hkind)

omit hnoload in
/-- A round with a placeable item and no loads places a row. -/
theorem exists_forward (hnoload : ∀ item ∈ st.remaining, item.kind ≠ .materialize)
    (hadmissible : st.Placeable cfg work) : (st.pass cfg work).PlacesRow := by
  obtain ⟨x, hx, hready, hpool⟩ := hadmissible
  obtain ⟨first, hfirst⟩ := exists_mem_of_ne_nil _ (runPass_chosen_ne_nil hx hready hpool)
  exact ⟨first, hfirst, hnoload first ((st.pass_ok cfg work).mem_of_chosen hfirst)⟩

include hwork hnoload in
/-- Enough rounds place everything. -/
theorem scheduleLoop_isSome (hfit : ChainsFit cfg work) :
    (scheduleLoop cfg work work.items.length (startProgress work)).isSome := by
  refine scheduleLoop_isSome_of (fun st => ∃ done, Scheduled cfg work st done ∧ Reserved cfg work done)
    ?_ ⟨[], startProgress_scheduled, reserved_nil⟩ le_rfl
  rintro st ⟨done, hst, h⟩ hremaining
  have hforward := exists_forward (fun item hitem => hnoload item (hst.remaining.subset hitem))
    (h.exists_admissible hwork hnoload hst hfit hremaining)
  have hpass := st.pass_ok cfg work
  exact ⟨hforward, _, hst.close hwork hpass hforward, h.close hst hpass⟩

include hwork hnoload in
theorem scheduleLoop_eq_none_iff :
    scheduleLoop cfg work work.items.length (startProgress work) = none ↔ ¬ ChainsFit cfg work := by
  rw [← Option.not_isSome_iff_eq_none, not_iff_not]
  exact ⟨chainsFit_of_isSome hwork, scheduleLoop_isSome hwork hnoload⟩

end

end Batchgen.WavePlan
