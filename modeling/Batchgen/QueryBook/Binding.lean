import Batchgen.QueryBook.Pages

/-!
# Binding and releasing

`can_reserve_batch` makes the splits of the allocator on a copy of the extents, so a batch that passes it is
bound without a raise, and `bind` and `bind_batch` change nothing when they raise.
-/

namespace Batchgen.QueryBook

open Outcome Extents Function List

variable {cfg : Config} {b b' : Book} {α : Type} {a : α} {pages start : ℕ} {left extents : List Extent} {tokens : ℤ}
  (r : Reservation)

/-- The slots are new, with nothing in them, and the rest of the book is as it was. -/
structure Binds (b : Book) (slots : List ℕ) (b' : Book) : Prop where
  storage : b'.storage = b.storage
  nodup : slots.Nodup
  unused : ∀ slot ∈ slots, b.entries slot = none
  fresh : ∀ slot ∈ slots, ∃ r : Reservation, b'.entries slot = some (r.entry slot)
  other : ∀ slot, slot ∉ slots → b'.entries slot = b.entries slot

theorem Binds.nil (hstorage : b'.storage = b.storage) (hentries : b'.entries = b.entries) : Binds b [] b' where
  storage := hstorage
  nodup := nodup_nil
  unused slot hslot := absurd hslot not_mem_nil
  fresh slot hslot := absurd hslot not_mem_nil
  other slot _ := by rw [hentries]

/-! ### Publishing -/

section

variable {pending : List Reservation} (h : Layout cfg pending b)

include h

theorem Layout.addEntry_entries : (b.nextFree.2.addEntry b.nextFree.1 r).entries =
      update b.entries b.nextFree.1 (some (r.entry b.nextFree.1)) := by
  rw [Book.addEntry, h.nextFree_ok.2.1]

theorem Layout.addEntry_seqToSlot : (b.nextFree.2.addEntry b.nextFree.1 r).seqToSlot =
      update b.seqToSlot r.sequenceId (some b.nextFree.1) := by
  rw [Book.addEntry, h.nextFree_ok.2.2.1]

/-- The first of several new slots. -/
theorem Binds.cons {r : Reservation} {slots : List ℕ} (hrest : Binds (b.nextFree.2.addEntry b.nextFree.1 r) slots b') :
    Binds b (b.nextFree.1 :: slots) b' := by
  have hentries := h.addEntry_entries r
  have hunused := h.nextFree_ok.1
  have hnotMem : b.nextFree.1 ∉ slots := by
    intro hin
    have hnone := hrest.unused _ hin
    rw [hentries, update_self] at hnone
    cases hnone
  refine ⟨hrest.storage.trans h.nextFree_ok.2.2.2.2.1, nodup_cons.mpr ⟨hnotMem, hrest.nodup⟩,
    fun slot hslot => ?_, fun slot hslot => ?_, fun slot hslot => ?_⟩
  · rcases mem_cons.mp hslot with rfl | hslot
    · exact hunused
    · have hnone := hrest.unused slot hslot
      have hne : slot ≠ b.nextFree.1 := fun heq => hnotMem (heq ▸ hslot)
      rwa [hentries, update_of_ne hne] at hnone
  · rcases mem_cons.mp hslot with rfl | hslot
    · refine ⟨r, ?_⟩
      rw [hrest.other _ hnotMem, hentries, update_self]
    · exact hrest.fresh slot hslot
  · obtain ⟨hne, hslot⟩ := ne_and_not_mem_of_not_mem_cons hslot
    rw [hrest.other slot hslot, hentries, update_of_ne hne]

end

/-- Reservations under fresh and different names all get a slot. -/
theorem publishAll_ok {rs : List Reservation} (h : Layout cfg rs b)
    (hfresh : ∀ r ∈ rs, b.seqToSlot r.sequenceId = none) (hnodup : (rs.map Reservation.sequenceId).Nodup) :
    ∃ slots b', rs.mapM publish b = .ok slots b' ∧ Layout cfg [] b' ∧ Binds b slots b' := by
  induction rs generalizing b with
  | nil => exact ⟨[], b, rfl, h, Binds.nil rfl rfl⟩
  | cons r rs ih =>
    obtain ⟨hnotMem, hnodup⟩ := nodup_cons.mp hnodup
    have hnext := h.publish (hfresh r mem_cons_self)
    have hseq := h.addEntry_seqToSlot r
    obtain ⟨slots, b', hrun, hlayout, hbinds⟩ := ih hnext (fun r' hr' => by
      have hne : r'.sequenceId ≠ r.sequenceId := fun heq => hnotMem (heq ▸ mem_map_of_mem hr')
      rw [hseq, update_of_ne hne]
      exact hfresh r' (mem_cons_of_mem _ hr')) hnodup
    refine ⟨b.nextFree.1 :: slots, b', ?_, hlayout, hbinds.cons h⟩
    have hfirst : publish r b = .ok b.nextFree.1 (b.nextFree.2.addEntry b.nextFree.1 r) := rfl
    rw [mapM_cons, bind_ok hfirst, bind_ok hrun]
    rfl

/-! ### Reserving -/

theorem liftExcept_ok {x : Except PyError α} (hx : x = .ok a) : liftExcept x b = .ok a b := by
  rw [hx]
  rfl

theorem takeExtent_ok (h : takeFirst pages b.freeExtents = some (start, left)) :
    takeExtent pages b = .ok start { b with freeExtents := left } := by
  rw [takeExtent, get_bind, h]
  rfl

theorem reserve_ok {sequenceId : String} {maxTokens : ℕ} (hmax : positiveInt tokens "max_tokens" = .ok maxTokens)
    (hpages : pagesFor cfg tokens = .ok pages) (htake : takeFirst pages b.freeExtents = some (start, left)) :
    reserve cfg sequenceId tokens b = .ok ⟨sequenceId, start, pages, maxTokens⟩ { b with freeExtents := left } := by
  rw [reserve, bind_ok (liftExcept_ok hmax), bind_ok (liftExcept_ok hpages), bind_ok (takeExtent_ok htake)]
  rfl

theorem onRaise_ok {x : Call α} {handler : Call PUnit} (h : x b = .ok a b') : onRaise x handler b = .ok a b' := by
  rw [onRaise, h]

/-- One turn of the preview: the size is valid and there is an extent for it. -/
theorem reserveFrom_cons {rest : List ℤ} (h : reserveFrom cfg extents (tokens :: rest) = .ok true) :
    ∃ pages start left, pagesFor cfg tokens = .ok pages ∧ takeFirst pages extents = some (start, left) ∧
      reserveFrom cfg left rest = .ok true := by
  rw [reserveFrom] at h
  obtain ⟨pages, hpages, h⟩ := except_bind_ok h
  cases htake : takeFirst pages extents with
  | none =>
    rw [htake] at h
    cases h
  | some taken =>
    rw [htake] at h
    exact ⟨pages, taken.1, taken.2, hpages, htake, h⟩

/-- Chains of one size fit as often as the extents can be cut into such chains. -/
theorem reserveFrom_replicate (h : pagesFor cfg tokens = .ok pages) (count : ℕ) :
    reserveFrom cfg extents (replicate count tokens) =
      .ok (decide (count ≤ (extents.map fun e => e.2 / pages).sum)) := by
  obtain ⟨-, -, hpos, -⟩ := pagesFor_ok h
  induction count generalizing extents with
  | zero => rw [decide_eq_true (Nat.zero_le _)]; rfl
  | succ count ih =>
    rw [replicate_succ, reserveFrom, h]
    dsimp only [Bind.bind, Except.bind]
    cases htake : takeFirst pages extents with
    | none =>
      have hsmall : ∀ e ∈ extents, e.2 / pages = 0 := by
        intro e he
        refine Nat.div_eq_of_lt (not_le.mp fun hle => ?_)
        simpa [htake] using takeFirst_isSome.mpr ⟨e, he, hle⟩
      simp [map_congr_left hsmall, pure, Except.pure]
    | some taken =>
      obtain ⟨front, e, rest, rfl, hfits, rfl⟩ := takeFirst_split htake
      -- the chain comes off one extent, which can then be cut once less
      have hcut := Nat.div_eq_sub_div hpos hfits
      dsimp only
      rw [ih]
      congr 2
      split <;> simp_all <;> omega

/-- **`reservation_free_count` is exact**: so many chains of the size fit into one batch, and no more. -/
theorem canReserveBatch_replicate (cfg : Config) (b : Book) (tokens : ℤ) (count : ℕ) :
    canReserveBatch cfg b (replicate (count + 1) tokens) =
      (reservationFreeCount cfg b tokens).map fun free => decide (count + 1 ≤ free) := by
  rw [reservationFreeCount]
  cases h : pagesFor cfg tokens with
  | error e =>
    rw [canReserveBatch, replicate_succ, reserveFrom, h]
    rfl
  | ok pages => exact reserveFrom_replicate h (count + 1)

/-- The preview of the batch looks at every size. -/
theorem mapM_pagesFor_of_reserveFrom {maxTokens : List ℤ} (h : reserveFrom cfg extents maxTokens = .ok true) :
    ∃ pages, maxTokens.mapM (pagesFor cfg) = .ok pages := by
  induction maxTokens generalizing extents with
  | nil => exact ⟨[], rfl⟩
  | cons tokens rest ih =>
    obtain ⟨pages, start, left, hpages, -, hrest⟩ := reserveFrom_cons h
    obtain ⟨more, hmore⟩ := ih hrest
    refine ⟨pages :: more, ?_⟩
    rw [mapM_cons, hpages, hmore]
    rfl

/-- **The loop of the batch follows its preview.** -/
theorem reserveChains_ok {items : List (String × ℤ)} {pending : List Reservation} (h : Layout cfg pending b)
    (hpreview : reserveFrom cfg b.freeExtents (items.map Prod.snd) = .ok true) :
    ∃ rs left, reserveChains cfg items pending b = .ok (pending ++ rs) { b with freeExtents := left } ∧
      Layout cfg (pending ++ rs) { b with freeExtents := left } ∧
      rs.map Reservation.sequenceId = items.map Prod.fst := by
  induction items generalizing b pending with
  | nil =>
    refine ⟨[], b.freeExtents, ?_, ?_, rfl⟩
    · rw [append_nil]
      rfl
    · rw [append_nil]
      exact h
  | cons item items ih =>
    obtain ⟨sequenceId, tokens⟩ := item
    obtain ⟨pages, start, left, hpages, htake, hrest⟩ := reserveFrom_cons hpreview
    obtain ⟨maxTokens, hmax, hpos, hroom⟩ := pagesFor_ok hpages
    have hlayout := h.take (r := ⟨sequenceId, start, pages, maxTokens⟩) htake rfl rfl hpos hroom
    obtain ⟨rs, final, hrun, hfinal, hnames⟩ := ih hlayout hrest
    refine ⟨⟨sequenceId, start, pages, maxTokens⟩ :: rs, final, ?_, ?_, ?_⟩
    · rw [reserveChains, bind_ok (onRaise_ok (reserve_ok hmax hpages htake)), hrun, append_assoc]
      rfl
    · rw [append_assoc] at hfinal
      exact hfinal
    · rw [map_cons, hnames]
      rfl

/-! ### The calls -/

/-- What the batch checks before it looks at the pages. -/
structure BatchNames (b : Book) (sequenceIds : List String) (maxTokens : List ℤ) : Prop where
  length : sequenceIds.length = maxTokens.length
  nodup : sequenceIds.Nodup
  nonempty : ∀ sequenceId ∈ sequenceIds, sequenceId ≠ ""
  fresh : ∀ sequenceId ∈ sequenceIds, b.seqToSlot sequenceId = none

theorem bindBatch_ok {sequenceIds : List String} {maxTokens : List ℤ} (h : Layout cfg [] b)
    (hnames : BatchNames b sequenceIds maxTokens) (hfits : canReserveBatch cfg b maxTokens = .ok true) :
    ∃ slots b', bindBatch cfg sequenceIds maxTokens b = .ok slots b' ∧ Layout cfg [] b' ∧ Binds b slots b' := by
  have hpreview : reserveFrom cfg b.freeExtents ((sequenceIds.zip maxTokens).map Prod.snd) = .ok true := by
    rw [map_snd_zip hnames.length.ge]
    exact hfits
  obtain ⟨pages, hpages⟩ := mapM_pagesFor_of_reserveFrom hfits
  obtain ⟨rs, left, hrun, hlayout, hids⟩ := reserveChains_ok h hpreview
  rw [map_fst_zip hnames.length.le] at hids
  rw [nil_append] at hrun hlayout
  obtain ⟨slots, b', hpublish, hfinal, hbinds⟩ := publishAll_ok hlayout
    (fun r hr => hnames.fresh _ (by rw [← hids]; exact mem_map_of_mem hr)) (by rw [hids]; exact hnames.nodup)
  refine ⟨slots, b', ?_, hfinal, { hbinds with }⟩
  rw [bindBatch, bind_ok (check_ok hnames.length), bind_ok (check_ok hnames.nodup),
    bind_ok (check_ok hnames.nonempty), get_bind, bind_ok (check_ok hnames.fresh),
    bind_ok (liftExcept_ok hpages), bind_ok (liftExcept_ok hfits), bind_ok (check_ok rfl), bind_ok hrun,
    hpublish]

/-- A batch is bound, or nothing changes and the batch does not fit or its names are refused. -/
theorem bindBatch_ends (h : Layout cfg [] b) (sequenceIds : List String) (maxTokens : List ℤ) :
    Ends (bindBatch cfg sequenceIds maxTokens) b
      (fun slots b' => canReserveBatch cfg b maxTokens = .ok true ∧ Layout cfg [] b' ∧ Binds b slots b')
      (fun _ b' => b' = b) := by
  by_cases hok : BatchNames b sequenceIds maxTokens ∧ canReserveBatch cfg b maxTokens = .ok true
  · obtain ⟨slots, b', hrun, hlayout, hbinds⟩ := bindBatch_ok h hok.1 hok.2
    unfold Ends
    rw [hrun]
    exact ⟨hok.2, hlayout, hbinds⟩
  · rw [bindBatch]
    simp only [ends_bind, ends_check, ends_get, ends_liftExcept, implies_true, and_true]
    intro hlength hnodup hnonempty hfresh pages _ fits hfits htrue
    exact absurd ⟨⟨hlength, hnodup, hnonempty, hfresh⟩, htrue ▸ hfits⟩ hok

theorem le_largest {n : ℕ} (hpos : 0 < n) (h : n ≤ (extents.map Prod.snd).foldl max 0) : ∃ e ∈ extents, n ≤ e.2 := by
  rw [foldl_max] at h
  cases hmax : (extents.map Prod.snd).max? with
  | none =>
    rw [hmax] at h
    exact absurd h (not_le.mpr hpos)
  | some m =>
    rw [hmax] at h
    obtain ⟨e, he, rfl⟩ := mem_map.mp (max?_mem hmax)
    exact ⟨e, he, by simpa using h⟩

theorem bind_ends (h : Layout cfg [] b) (sequenceId : String) (maxTokens : ℤ) :
    Ends (QueryBook.bind cfg sequenceId maxTokens) b
      (fun slot b' => Layout cfg [] b' ∧ Binds b [slot] b') (fun _ b' => b' = b) := by
  rw [QueryBook.bind]
  simp only [ends_bind, ends_check, ends_get, ends_liftExcept, implies_true, and_true]
  intro _ hfresh pages hpages hfits
  obtain ⟨m, hmax, hpos, hroom⟩ := pagesFor_ok hpages
  obtain ⟨taken, htaken⟩ := Option.isSome_iff_exists.mp (takeFirst_isSome.mpr (le_largest hpos hfits))
  have hlayout := h.take (r := ⟨sequenceId, taken.1, pages, m⟩) htaken rfl rfl hpos hroom
  have hbinds := (@Binds.nil ({ b with freeExtents := taken.2 }.nextFree.2.addEntry _
    ⟨sequenceId, taken.1, pages, m⟩) _ rfl rfl).cons hlayout
  unfold Ends
  rw [reserve_ok hmax hpages htaken]
  exact ⟨hlayout.publish hfresh, { hbinds with }⟩

theorem release_ends (h : Layout cfg [] b) (slot : ℕ) : Ends (QueryBook.release slot) b
      (fun _ b' => Layout cfg [] b' ∧ ∃ e, b.entries slot = some e ∧ b'.storage = b.storage ∧
        b'.entries = update b.entries slot none) (fun _ b' => b' = b) := by
  rw [QueryBook.release]
  simp only [ends_bind, ends_activeEntry, implies_true, and_true]
  intro e he
  rw [returnExtent, if_neg (h.entry slot e he).pages.ne', ends_modify, ends_modify]
  exact ⟨h.release he rfl rfl rfl rfl rfl, e, he, rfl, rfl⟩

end Batchgen.QueryBook
