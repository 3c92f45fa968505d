import Batchgen.HostPagedKV.SalvageRelease
import Batchgen.HostPagedKV.SalvageWave
import Batchgen.HostPagedKV.PageSafety

/-!
# ReleaseAllSequences heals the region

From any region in which no page is in two places, `ReleaseAllSequences` ends without an exception,
writes inside the free stack, and leaves a fresh region without the resident pages:

* `releaseSequence_ok` — one release finds its entry and puts what is left of the chain on the stack;
* `releaseSequences_ok` — after all releases no entry is live;
* `rebuildFreeState_ok` — the rebuild writes the layout of a fresh region;
* `releaseAllSequences_ok` — the call.

Every careful run keeps the invariant (`KilledRun.sound`), which gives the theorem about runs.
-/

namespace Batchgen.HostPagedKV

open MachineInt LinkedChain CrashWrites Function List

variable {Pid : Type*} {cfg : HostPagedKVConfig} {r r' before : Region} {held : Pid → List ℤ} {spot : ℤ → Place Pid}
  {chain : ℕ → List ℤ} {slot top fuel : ℕ} {part : CallSection} {page sequenceId : ℤ} {sequenceIds : List ℤ}
  {owners : ℤ → ℤ}

/-! ### Releasing the sequences -/

/-- The run gives `out`, or it had less fuel than it needs. -/
def Fuelled {β : Type*} (need fuel : ℕ) (out : β) (run : Option β) : Prop :=
  run = some out ∨ run = none ∧ fuel < need

/-- The loop of `ReleaseSequence` ends: it clears each link it follows. -/
theorem detachChain_fuelled {r : Region} {cells : List ℤ} (h : IsChain kInvalidPageIndex r.pageLinks page cells) :
    Fuelled cells.length fuel cells (detachChain fuel page r) := by
  induction cells generalizing fuel page r with
  | nil =>
    cases fuel with
    | zero => exact .inl (if_pos h)
    | succ fuel => exact .inl (if_pos h)
  | cons c cs ih =>
    have hrest := fun fuel => @ih fuel (r.pageLinks c) (clearPage r c) h.remove_head
    obtain ⟨rfl, hc, -⟩ := h
    cases fuel with
    | zero => exact .inr ⟨if_neg hc, Nat.succ_pos _⟩
    | succ fuel =>
      rw [detachChain, if_neg hc]
      rcases hrest fuel with hrest | ⟨hrest, hless⟩
      · rw [hrest]
        exact .inl rfl
      · rw [hrest]
        exact .inr ⟨rfl, Nat.succ_lt_succ hless⟩

/-- The writes of one release that takes `pages` off the chain of `slot`. -/
def chainReleaseWrites (slot : ℕ) (pages : List ℤ) (r : Region) : List Write :=
  (detachWrites pages ++
    (tombstoneWrites slot ++
      [.activeSequences (u32Pred r.activeSequences),
        .sequencesReleased (u64 (r.sequencesReleased + 1))])) ++
    if pages = [] then [] else pushWrites r.freeStackTop pages

theorem releaseSequence_fuelled {pages : List ℤ} (hfind : findSequenceEntryLocked cfg r sequenceId = some slot)
    (hchain : IsChain kInvalidPageIndex r.pageLinks (r.sequenceTable slot).headPage pages)
    (hlength : pages.length ≤ cfg.numPages) :
    Fuelled cfg.numPages fuel (.ok (), chainReleaseWrites slot pages r) (releaseSequence cfg fuel sequenceId r) := by
  simp only [releaseSequence, hfind]
  rcases detachChain_fuelled hchain with hpages | ⟨hpages, hless⟩
  · rw [hpages]
    exact .inl rfl
  · rw [hpages]
    exact .inr ⟨rfl, hless.trans_le hlength⟩

/-- The pages are pushed onto a region in which they have left the chain and its slot is a tombstone. -/
theorem chainReleaseWrites_spec (slot : ℕ) (pages : List ℤ) (r : Region) :
    ∃ detached, applyAll store r (chainReleaseWrites slot pages r) = pushPages detached pages ∧
      freePages detached = freePages r ∧ detached.pageOwners = (clearPages r pages).pageOwners ∧
      detached.pageLinks = (clearPages r pages).pageLinks ∧
      detached.sequenceTable = update r.sequenceTable slot tombstoneEntry := by
  refine ⟨{ setEntry (clearPages r pages) slot tombstoneEntry with
    activeSequences := u32Pred r.activeSequences
    sequencesReleased := u64 (r.sequencesReleased + 1) }, ?_, ?_, rfl, rfl, ?_⟩
  · rw [chainReleaseWrites, applyAll_append, applyAll_append, applyAll_append, detachWrites_spec, tombstoneWrites_spec]
    split
    · rename_i hnil
      rw [hnil]
      rfl
    · rw [pushWrites_spec]
      simp [store, setEntry]
  · simp [freePages, stackSlice, setEntry]
  · simp [setEntry]

/-- What releases write: nothing outside the stack, and no resident page. -/
structure Released (cfg : HostPagedKVConfig) (r : Region) (writes : List Write) : Prop where
  bounds : ∀ index page, .freeStack index page ∈ writes → index < cfg.numPages
  resident : ∀ page, InRange cfg page →
    ((applyAll store r writes).pageOwners page = kPrefixResidentSequenceId ↔
      r.pageOwners page = kPrefixResidentSequenceId)

theorem Released.append {ws vs : List Write} (h : Released cfg r ws)
    (h' : Released cfg (applyAll store r ws) vs) : Released cfg r (ws ++ vs) where
  bounds := fun index page hmem =>
    (mem_append.mp hmem).elim (h.bounds index page) (h'.bounds index page)
  resident := fun page hrange => by
    rw [applyAll_append]
    exact (h'.resident page hrange).trans (h.resident page hrange)

/-- The place, whoever holds the page. -/
def Place.forget : Place Pid → Place Unit
  | .free => .free
  | .flight _ => .flight ()
  | .chain slot => .chain slot
  | .resident => .resident

/-- While nobody holds a page, it does not matter who could. -/
theorem Salvageable.forget (h : Salvageable cfg r (fun _ : Pid => [])) : Salvageable cfg r (fun _ : Unit => []) := by
  obtain ⟨spot, chain, h⟩ := h
  refine ⟨fun page => (spot page).forget, chain, h.table, h.stack, fun page hp => ?_, fun _ => nodup_nil,
    fun _ _ hp => (by cases hp), h.linked, fun s hs page hp => ?_, fun page hrange hp => ?_⟩
  · exact ⟨(h.free page hp).1, congrArg Place.forget (h.free page hp).2⟩
  · exact ⟨(h.chained s hs page hp).1, congrArg Place.forget (h.chained s hs page hp).2⟩
  · exact congrArg Place.forget (h.resident page hrange hp)

/-- **One release** finds its entry, ends, and puts what is left of the chain on the stack. -/
theorem Salvage.releaseSequence_ok {spot : ℤ → Place Unit} (h : Salvage cfg r (fun _ => []) spot chain)
    (hfit : cfg.numPages ≤ 2 ^ 31) (hslot : LiveSlot cfg r slot) :
    ∃ writes, (∀ fuel, Fuelled cfg.numPages fuel (.ok (), writes)
        (HostPagedKV.releaseSequence cfg fuel (r.sequenceTable slot).sequenceId r)) ∧ Released cfg r writes ∧
      Salvageable cfg (applyAll store r writes) (fun _ : Unit => []) ∧ (applyAll store r writes).sequenceTable =
        update r.sequenceTable slot tombstoneEntry := by
  have hfind := h.table.find_live hslot.1 hslot.2
  have hchain := h.linked slot hslot
  have hcells := h.chained slot hslot
  have hroom := h.push_fits hchain.nodup fun page hpage =>
    ⟨(hcells page hpage).1, by simp [(hcells page hpage).2]⟩
  obtain ⟨detached, hregion, hfree, howners, hlinks, htable⟩ := chainReleaseWrites_spec slot (chain slot) r
  obtain ⟨spot', chain', h'⟩ := h.releaseEntry () hslot hfree howners hlinks htable
  have hlength : detached.freeStackTop = r.freeStackTop := by simpa [freePages] using congrArg length hfree
  obtain ⟨-, howners', -, htable'⟩ := pushPages_spec (chain slot) detached (by omega)
  rw [← hregion, howners] at howners'
  rw [← hregion, htable] at htable'
  refine ⟨chainReleaseWrites slot (chain slot) r,
    fun fuel => releaseSequence_fuelled hfind hchain (h.chain_length_le hslot), ⟨?_, ?_⟩,
    hregion ▸ (h'.push rfl hfit).2, htable'⟩
  · intro index page hmem
    rcases mem_append.mp hmem with hmem | hmem
    · simp [detachWrites, tombstoneWrites] at hmem
    · split at hmem
      · cases hmem
      · exact (pushWrites_index_lt (by omega) hmem).trans_le hroom
  · intro page hrange
    rw [howners', clearPages_owners]
    split
    · rename_i hmem
      -- a chained page is not resident
      refine iff_of_false (by decide) fun hresident => ?_
      have hplace := h.resident page hrange hresident
      rw [(hcells page hmem).2] at hplace
      cases hplace
    · exact Iff.rfl

/-- The ids still to be released are those of the live entries, each once. -/
structure Unreleased (cfg : HostPagedKVConfig) (r : Region) (sequenceIds : List ℤ) : Prop where
  nodup : sequenceIds.Nodup
  mem : ∀ sequenceId, sequenceId ∈ sequenceIds ↔
    ∃ slot, LiveSlot cfg r slot ∧ (r.sequenceTable slot).sequenceId = sequenceId

theorem liveSequenceIds_eq (cfg : HostPagedKVConfig) (r : Region) :
    liveSequenceIds cfg r = ((range cfg.sequenceCapacity).filter fun slot => (r.sequenceTable slot).live).map
        fun slot => (r.sequenceTable slot).sequenceId := by
  rw [liveSequenceIds, tableEntries, filter_map, map_map]
  rfl

theorem TableValid.unreleased (h : TableValid cfg r) : Unreleased cfg r (liveSequenceIds cfg r) := by
  rw [liveSequenceIds_eq]
  refine ⟨List.Nodup.map_on ?_ (nodup_range.filter _), fun sequenceId => ?_⟩
  · intro slot hslot slot' hslot' hid
    simp only [mem_filter, mem_range, decide_eq_true_eq] at hslot hslot'
    exact h.slot_unique hslot'.1 hslot.1 hslot'.2 hid
  · simp only [mem_map, mem_filter, mem_range, decide_eq_true_eq]
    exact Iff.rfl

/-- Releasing the first id leaves the others. -/
theorem Unreleased.tail (h : Unreleased cfg r (sequenceId :: sequenceIds)) (hvalid : TableValid cfg r)
    (hslot : LiveSlot cfg r slot) (hid : (r.sequenceTable slot).sequenceId = sequenceId)
    (htable : r'.sequenceTable = update r.sequenceTable slot tombstoneEntry) : Unreleased cfg r' sequenceIds := by
  have hnodup := nodup_cons.mp h.nodup
  have hself : ¬ LiveSlot cfg r' slot := not_liveSlot_of_tombstone (by rw [htable, update_self])
  have hother : ∀ s, s ≠ slot → r'.sequenceTable s = r.sequenceTable s := by
    intro s hs
    rw [htable, update_of_ne hs]
  refine ⟨hnodup.2, fun other => ⟨fun hmem => ?_, ?_⟩⟩
  · obtain ⟨s, hs, hsid⟩ := (h.mem other).mp (mem_cons_of_mem _ hmem)
    have hne : s ≠ slot := by
      rintro rfl
      exact hnodup.1 (hid ▸ hsid ▸ hmem)
    exact ⟨s, (LiveSlot.congr (hother s hne)).mpr hs, by rw [hother s hne, hsid]⟩
  · rintro ⟨s, hs, hsid⟩
    have hne : s ≠ slot := by
      rintro rfl
      exact hself hs
    have hs' := (LiveSlot.congr (hother s hne)).mp hs
    rw [hother s hne] at hsid
    refine (mem_cons.mp ((h.mem other).mpr ⟨s, hs', hsid⟩)).resolve_left ?_
    intro heq
    exact hne (hvalid.slot_unique hslot.1 hs'.1 hslot.2 (by rw [hsid, hid, heq]))

/-- **The release loop** ends without an exception and leaves no live entry. -/
theorem Salvageable.releaseSequences_ok (hfit : cfg.numPages ≤ 2 ^ 31) (h : Salvageable cfg r (fun _ : Unit => []))
    (hids : Unreleased cfg r sequenceIds) :
    ∃ writes, (∀ fuel, Fuelled cfg.numPages fuel (.ok (), writes) (releaseSequences cfg fuel sequenceIds r)) ∧
      Released cfg r writes ∧ ∀ slot, ¬ LiveSlot cfg (applyAll store r writes) slot := by
  -- on the ids; each release keeps the invariant and what is still to be released
  induction sequenceIds generalizing r with
  | nil =>
    refine ⟨[], fun fuel => .inl rfl, ⟨fun _ _ hmem => (by cases hmem), fun _ _ => Iff.rfl⟩, ?_⟩
    intro slot hslot
    have hmem := (hids.mem _).mpr ⟨slot, hslot, rfl⟩
    cases hmem
  | cons sequenceId sequenceIds ih =>
    obtain ⟨spot, chain, hsalvage⟩ := h
    obtain ⟨slot, hslot, hid⟩ := (hids.mem sequenceId).mp mem_cons_self
    obtain ⟨ws, hrun, hreleased, hnext, htable⟩ := hsalvage.releaseSequence_ok hfit hslot
    rw [hid] at hrun
    obtain ⟨vs, hrest, hreleased', hdead⟩ := ih hnext (hids.tail hsalvage.table hslot hid htable)
    refine ⟨ws ++ vs, fun fuel => ?_, hreleased.append hreleased', ?_⟩
    · rw [releaseSequences]
      rcases hrun fuel with hone | ⟨hone, hless⟩
      · rcases hrest fuel with hall | ⟨hall, hless⟩
        · simp only [hone, hall]
          exact .inl rfl
        · simp only [hone, hall]
          exact .inr ⟨rfl, hless⟩
      · rw [hone]
        exact .inr ⟨rfl, hless⟩
    · rwa [applyAll_append]

/-! ### The rebuild -/

/-- The pages the rebuild puts on the stack. -/
def rebuiltPages (pageOwners : ℤ → ℤ) (pages : List ℕ) : List ℕ :=
  pages.filter fun page => pageOwners page ≠ kPrefixResidentSequenceId

theorem rebuiltPages_cons {page : ℕ} {pages : List ℕ} :
    rebuiltPages owners (page :: pages) = if owners page = kPrefixResidentSequenceId then rebuiltPages owners pages
      else page :: rebuiltPages owners pages := by
  simp [rebuiltPages, filter_cons]

theorem clearPages_freeStack (pages : List ℤ) (r : Region) (stack : ℕ → ℤ) :
    clearPages { r with freeStack := stack } pages = { clearPages r pages with freeStack := stack } := by
  induction pages generalizing r with
  | nil => rfl
  | cons page pages ih => exact ih (clearPage r page)

/-- **The page loop** clears the pages that are not resident and pushes them from `top` on. -/
theorem rebuildPages_region {pages : List ℕ} (r : Region) (hroom : top + (rebuiltPages owners pages).length < 2 ^ 32) :
    store (applyAll store r (rebuildPages owners top pages).1) (.freeStackTop (rebuildPages owners top pages).2) =
      pushPages { clearPages r ((rebuiltPages owners pages).map Int.ofNat) with freeStackTop := top }
        ((rebuiltPages owners pages).map fun page => i32 page) := by
  induction pages generalizing top r with
  | nil => rfl
  | cons page pages ih =>
    by_cases hresident : owners page = kPrefixResidentSequenceId
    · rw [rebuiltPages_cons, if_pos hresident] at hroom ⊢
      rw [rebuildPages, if_pos hresident]
      exact ih r hroom
    rw [rebuiltPages_cons, if_neg hresident] at hroom ⊢
    rw [length_cons] at hroom
    have htop : u32 (top + 1) = top + 1 := u32_of_lt (by omega)
    rw [rebuildPages, if_neg hresident, htop]
    -- the three writes of this round
    have hround := @ih (top + 1) { clearPage r page with freeStack := update r.freeStack top (i32 page) } (by omega)
    rw [clearPages_freeStack] at hround
    have hpush : pushPage { clearPages (clearPage r page)
          ((rebuiltPages owners pages).map Int.ofNat) with freeStackTop := top } (i32 page) =
        { clearPages (clearPage r page) ((rebuiltPages owners pages).map Int.ofNat) with
          freeStack := update r.freeStack top (i32 page)
          freeStackTop := top + 1 } := by
      simp only [pushPage, htop, clearPages_stack]
      rfl
    rw [← hpush] at hround
    exact hround

theorem rebuildPages_index_lt {pages : List ℕ} {index : ℕ} {value : ℤ}
    (hroom : top + (rebuiltPages owners pages).length < 2 ^ 32)
    (hmem : .freeStack index value ∈ (rebuildPages owners top pages).1) :
    index < top + (rebuiltPages owners pages).length := by
  induction pages generalizing top with
  | nil => cases hmem
  | cons page pages ih =>
    by_cases hresident : owners page = kPrefixResidentSequenceId
    · rw [rebuiltPages_cons, if_pos hresident] at hroom ⊢
      rw [rebuildPages, if_pos hresident] at hmem
      exact ih hroom hmem
    rw [rebuiltPages_cons, if_neg hresident, length_cons] at hroom ⊢
    rw [rebuildPages, if_neg hresident, u32_of_lt (by omega)] at hmem
    simp only [mem_cons, reduceCtorEq, Write.freeStack.injEq, false_or] at hmem
    rcases hmem with ⟨rfl, -⟩ | hmem
    · omega
    · have hlt := ih (by omega) hmem
      omega

theorem resetTable_spec (count : ℕ) (r : Region) : applyAll store r ((range count).map fun slot => .entry slot {}) =
      { r with sequenceTable := fun slot => if slot < count then {} else r.sequenceTable slot } := by
  induction count with
  | zero => simp
  | succ count ih =>
    rw [range_succ, map_append, applyAll_append, ih]
    simp only [map_cons, map_nil, applyAll_cons, applyAll_nil, store, setEntry]
    congr 1
    funext slot
    by_cases hslot : slot = count
    · simp [hslot]
    · rw [update_of_ne hslot]
      by_cases hlt : slot < count
      · rw [if_pos hlt, if_pos (by omega)]
      · rw [if_neg hlt, if_neg (by omega)]

/-- **A fresh region without the pages that were resident before.** -/
structure Restored (cfg : HostPagedKVConfig) (before after : Region) : Prop where
  stack : freePages after = (freePages (constructSharedState cfg)).filter fun page =>
    before.pageOwners page ≠ kPrefixResidentSequenceId
  owners : ∀ page, InRange cfg page → after.pageOwners page =
    if before.pageOwners page = kPrefixResidentSequenceId then kPrefixResidentSequenceId
    else (constructSharedState cfg).pageOwners page
  links : ∀ page, InRange cfg page → before.pageOwners page ≠ kPrefixResidentSequenceId →
    after.pageLinks page = (constructSharedState cfg).pageLinks page
  table : ∀ slot, slot < cfg.sequenceCapacity →
    after.sequenceTable slot = (constructSharedState cfg).sequenceTable slot
  activeSequences : after.activeSequences = (constructSharedState cfg).activeSequences

theorem mem_descendingPages {page : ℕ} : page ∈ descendingPages cfg ↔ page < cfg.numPages := by
  simp only [descendingPages, mem_map, mem_range]
  constructor
  · rintro ⟨i, hi, rfl⟩
    omega
  · intro hpage
    exact ⟨cfg.numPages - 1 - page, by omega, by omega⟩

theorem rebuiltPages_length_le (owners : ℤ → ℤ) :
    (rebuiltPages owners (descendingPages cfg)).length ≤ cfg.numPages := by
  refine (length_filter_le _ _).trans ?_
  simp [descendingPages]

theorem mem_rebuiltPages (hrange : InRange cfg page) :
    page ∈ (rebuiltPages owners (descendingPages cfg)).map Int.ofNat ↔ owners page ≠ kPrefixResidentSequenceId := by
  obtain ⟨hlo, hhi⟩ := hrange
  obtain ⟨n, rfl⟩ := Int.eq_ofNat_of_zero_le hlo
  have hn : n < cfg.numPages := by omega
  simp [rebuiltPages, mem_descendingPages, hn]

section

variable (hfit : cfg.numPages ≤ 2 ^ 31)
include hfit

/-- The fresh stack, page by page. -/
theorem freePages_fresh : freePages (constructSharedState cfg) = (descendingPages cfg).map fun page => i32 page := by
  rw [freePages, stackSlice, freeStackTop_fresh hfit, descendingPages, map_map]
  apply map_congr_left
  intro i _
  rw [Nat.zero_add, constructSharedState_freeStack, comp_apply]

/-- The rebuilt stack is the fresh one without the resident pages. -/
theorem rebuiltPages_fresh (owners : ℤ → ℤ) :
    (rebuiltPages owners (descendingPages cfg)).map (fun page => i32 page) =
      (freePages (constructSharedState cfg)).filter fun page => owners page ≠ kPrefixResidentSequenceId := by
  rw [freePages_fresh hfit, filter_map, rebuiltPages]
  refine congrArg (List.map _) (filter_congr fun page hpage => ?_)
  have hlt := mem_descendingPages.mp hpage
  simp only [comp_apply, i32_of_lt (show page < 2 ^ 31 by omega)]

/-- The layout the rebuild writes is the one of a fresh region. -/
theorem Restored.of_rebuilt (hstack : freePages r' =
      (rebuiltPages r.pageOwners (descendingPages cfg)).map fun page => i32 page) (howners : r'.pageOwners =
      (clearPages r ((rebuiltPages r.pageOwners (descendingPages cfg)).map Int.ofNat)).pageOwners)
    (hlinks : r'.pageLinks = (clearPages r ((rebuiltPages r.pageOwners (descendingPages cfg)).map Int.ofNat)).pageLinks)
    (htable : ∀ slot, slot < cfg.sequenceCapacity → r'.sequenceTable slot = {})
    (hactive : r'.activeSequences = 0) : Restored cfg r r' where
  stack := hstack.trans (rebuiltPages_fresh hfit r.pageOwners)
  owners := by
    intro page hrange
    rw [howners, clearPages_owners]
    by_cases hresident : r.pageOwners page = kPrefixResidentSequenceId
    · rw [if_pos hresident, if_neg fun hmem => (mem_rebuiltPages hrange).mp hmem hresident, hresident]
    · rw [if_neg hresident, if_pos ((mem_rebuiltPages hrange).mpr hresident)]
      rfl
  links := by
    intro page hrange hfree
    rw [hlinks, clearPages_links, if_pos ((mem_rebuiltPages hrange).mpr hfree)]
    rfl
  table := htable
  activeSequences := hactive

/-- **The rebuild** of a region without live entries. -/
theorem rebuildFreeState_ok (hdead : ∀ slot, ¬ LiveSlot cfg r slot) :
    ∃ writes, rebuildFreeState cfg r = (.ok (), writes) ∧
      (∀ index page, .freeStack index page ∈ writes → index < cfg.numPages) ∧
      Restored cfg r (applyAll store r writes) := by
  have hnone : (tableEntries cfg r).find? (fun entry => entry.live) = none := by
    rw [find?_eq_none]
    intro entry hentry
    obtain ⟨slot, hslot, rfl⟩ := mem_map.mp hentry
    simpa using fun hlive => hdead slot ⟨mem_range.mp hslot, hlive⟩
  have hlength : (rebuiltPages r.pageOwners (descendingPages cfg)).length ≤ cfg.numPages :=
    rebuiltPages_length_le r.pageOwners
  have hroom : 0 + (rebuiltPages r.pageOwners (descendingPages cfg)).length < 2 ^ 32 := by omega
  refine ⟨_, by rw [rebuildFreeState, hnone], ?_, ?_⟩
  · intro index page hmem
    rcases mem_append.mp hmem with hmem | hmem
    · have hlt := rebuildPages_index_lt hroom hmem
      omega
    · simp at hmem
  · have hpages := rebuildPages_region r hroom
    obtain ⟨hstack, howners, hlinks, -⟩ := pushPages_spec
      ((rebuiltPages r.pageOwners (descendingPages cfg)).map fun page => i32 page)
      { clearPages r ((rebuiltPages r.pageOwners (descendingPages cfg)).map Int.ofNat) with
        freeStackTop := 0 } (by rw [length_map]; exact hroom)
    rw [← hpages] at hstack howners hlinks
    rw [applyAll_append, applyAll_append, resetTable_spec]
    exact .of_rebuilt hfit hstack howners hlinks (fun slot hslot => if_pos hslot) rfl

/-- Only the resident pages before it matter to what is restored. -/
theorem Restored.of_resident {before' after : Region} (h : Restored cfg before' after)
    (hsame : ∀ page, InRange cfg page → (before'.pageOwners page = kPrefixResidentSequenceId ↔
      before.pageOwners page = kPrefixResidentSequenceId)) : Restored cfg before after where
  stack := by
    rw [h.stack]
    refine filter_congr fun page hpage => ?_
    exact decide_eq_decide.mpr (not_congr (hsame page ((mem_freePages_fresh hfit).mp hpage)))
  owners := fun page hrange => by
    rw [h.owners page hrange]
    simp only [hsame page hrange]
  links := fun page hrange hfree => h.links page hrange (mt (hsame page hrange).mp hfree)
  table := h.table
  activeSequences := h.activeSequences

/-! ### The recovery call -/

/-- **ReleaseAllSequences heals the region.** -/
theorem Salvageable.releaseAllSequences_ok (h : Salvageable cfg r (fun _ : Pid => [])) :
    ∃ writes, (∀ fuel, Fuelled cfg.numPages fuel (.ok (), writes) (releaseAllSequences cfg fuel r)) ∧
      (∀ index page, .freeStack index page ∈ writes → index < cfg.numPages) ∧
      Restored cfg r (applyAll store r writes) := by
  have hids : Unreleased cfg r (liveSequenceIds cfg r) := by
    obtain ⟨spot, chain, hsalvage⟩ := h
    exact hsalvage.table.unreleased
  obtain ⟨ws, hrun, hreleased, hdead⟩ := h.forget.releaseSequences_ok hfit hids
  obtain ⟨vs, hrebuild, hbounds, hrestored⟩ := rebuildFreeState_ok hfit hdead
  refine ⟨ws ++ vs, fun fuel => ?_, fun index page hmem => ?_, ?_⟩
  · rw [releaseAllSequences]
    rcases hrun fuel with hall | ⟨hall, hless⟩
    · simp only [hall, hrebuild]
      exact .inl rfl
    · rw [hall]
      exact .inr ⟨rfl, hless⟩
  · exact (mem_append.mp hmem).elim (hreleased.bounds index page) (hbounds index page)
  · rw [applyAll_append]
    exact hrestored.of_resident hfit hreleased.resident

/-- A restored region is salvageable again. -/
theorem Restored.salvageable (h : Restored cfg before r) : Salvageable cfg r (fun _ : Pid => []) := by
  have hdead : ∀ slot, ¬ LiveSlot cfg r slot := by
    rintro slot ⟨hslot, hlive, -⟩
    rw [h.table slot hslot] at hlive
    exact hlive rfl
  refine ⟨fun page => if before.pageOwners page = kPrefixResidentSequenceId then .resident else .free,
    fun _ => [], ?_, ?_, ?_, fun _ => nodup_nil, fun _ _ hpage => (by cases hpage),
    fun slot hslot => absurd hslot (hdead slot), fun slot hslot => absurd hslot (hdead slot), ?_⟩
  · exact tableValid_of_dead fun slot hslot hlive => hdead slot ⟨hslot, hlive⟩
  · rw [h.stack]
    exact (nodup_freePages_fresh hfit).filter _
  · intro page hpage
    rw [h.stack, mem_filter] at hpage
    exact ⟨(mem_freePages_fresh hfit).mp hpage.1, if_neg (by simpa using hpage.2)⟩
  · intro page hrange howner
    rw [h.owners page hrange] at howner
    split at howner
    · rename_i hresident
      exact if_pos hresident
    · have hempty : kEmptySequenceId ≠ kPrefixResidentSequenceId := by decide
      exact absurd howner hempty

end

/-- A fresh region has no resident pages. -/
theorem restored_fresh (cfg : HostPagedKVConfig) :
    Restored cfg (constructSharedState cfg) (constructSharedState cfg) where
  stack := by
    refine (filter_eq_self.mpr fun page _ => ?_).symm
    rfl
  owners := fun page _ => (if_neg (by decide : kEmptySequenceId ≠ kPrefixResidentSequenceId)).symm
  links := fun _ _ _ => rfl
  table := fun _ _ => rfl
  activeSequences := rfl

/-! ### Runs -/

section Runs

variable [DecidableEq Pid] {st st' : State Pid} {pid : Pid}

/-- **The invariant of a state**: no page is in two places, and a call between its sections was started
with an id that is not reserved. -/
structure Sound (cfg : HostPagedKVConfig) (st : State Pid) : Prop where
  pages : Salvageable cfg st.region (fun pid => (st.calls pid).localPages)
  ids : ∀ pid sequenceId pages, st.calls pid = .acquired sequenceId pages →
    isReservedSequenceId sequenceId = false

/-- Storing what a section of one process did. -/
theorem Sound.commit (h : Sound cfg st) {out : CallState × Region} (hout : Salvageable cfg out.2 (update
      (update (fun pid => (st.calls pid).localPages) pid []) pid out.1.localPages))
    (hids : out.1.IdFree) : Sound cfg (st.commit pid out) := by
  refine ⟨?_, State.commit_idFree h.ids hids⟩
  rw [update_idem] at hout
  rw [State.commit_localPages]
  exact hout

theorem runSection_idFree : (runSection cfg r part).1.IdFree := by
  cases part with
  | first call => exact fun _ _ => beginCall_acquired
  | later state => exact fun _ _ h => absurd h resumeCall_not_acquired

omit [DecidableEq Pid] in
/-- Once no call is running, all hands are empty. -/
theorem AllIdle.hands (hidle : AllIdle st) : (fun pid => (st.calls pid).localPages) = fun _ => [] := by
  funext pid
  obtain ⟨last, hlast⟩ := hidle pid
  rw [hlast]
  rfl

omit [DecidableEq Pid] in
theorem Sound.recovery (h : Sound cfg st) (hidle : AllIdle st) : Salvageable cfg st.region (fun _ : Pid => []) :=
  hidle.hands ▸ h.pages

/-- Its own hands and those of the others. -/
theorem State.hands (st : State Pid) (pid : Pid) : update (update (fun pid => (st.calls pid).localPages) pid []) pid
    (st.calls pid).localPages = fun pid => (st.calls pid).localPages := by
  rw [update_idem, update_eq_self]

section

variable (hfit : cfg.numPages ≤ 2 ^ 31)
include hfit

omit [DecidableEq Pid] in
theorem initialState_sound : Sound cfg (initialState Pid cfg) := by
  exact ⟨(restored_fresh cfg).salvageable hfit, fun _ _ _ hcall => by cases hcall⟩

/-- **The first section of any call** survives being killed. -/
theorem Salvage.beginCall (h : Salvage cfg r held spot chain) (hidle : held pid = []) (call : Call)
    (hids : NoneReserved call.sequenceIds)
    (htails : TailsInPlace cfg r ((CallSection.first call).extended)) : Begun cfg held pid r call := by
  cases call with
  | acquirePages sequenceId numPages => exact h.acquirePop hidle hfit sequenceId numPages
  | acquirePagesForSequences sequenceIds numTokens =>
    exact h.acquirePagesForSequences hidle hfit sequenceIds numTokens hids htails
  | releaseSequence sequenceId => exact h.releaseSequence hidle (hids sequenceId mem_cons_self)
  | releasePrefixPages sequenceId numPages =>
    exact h.releasePrefixPages hidle (hids sequenceId mem_cons_self) numPages
  | retainPages sequenceId pageIds =>
    exact h.retainPages hidle (hids sequenceId mem_cons_self) pageIds
  | releaseResidentPages pageIds => exact h.releaseResidentPages hidle pageIds

/-- **The later section of any call** survives being killed. -/
theorem Salvage.resumeCall {state : CallState} (h : Salvage cfg r (update held pid state.localPages) spot chain)
    (hidle : held pid = []) (hids : state.IdFree)
    (htails : TailsInPlace cfg r ((CallSection.later state).extended)) :
    Outlived cfg held pid r (resumeWrites cfg r state) (HostPagedKV.resumeCall cfg r state) := by
  cases state with
  | idle last => exact ⟨trivial, h.salvageable⟩
  | acquired sequenceId pages => exact h.acquireAttach hidle (hids sequenceId pages rfl) htails
  | releasing pages result =>
    obtain ⟨hsurvived, hend⟩ := h.push hidle hfit
    exact hsurvived.outlived hidle rfl hend
  | undoing pages error =>
    have hheld : Salvage cfg r (update held pid pages) spot chain := h
    obtain ⟨hsurvived, spot', chain', hend⟩ := hheld.push hidle hfit
    have hcount : Salvage cfg (acquirePagesUndo pages r) held spot' chain' := hend.congr rfl rfl rfl rfl rfl
    refine Survived.outlived hidle (hsurvived.append ⟨Or.inr ?_, trivial⟩) rfl hcount.salvageable
    rw [pushWrites_spec]
    exact hcount.salvageable

/-- Any section of any process, in a state whose tails it needs are in place. -/
theorem Sound.section (h : Sound cfg st) (hcan : CanRun st pid part)
    (htails : TailsInPlace cfg st.region part.extended) :
    Outlived cfg (update (fun pid => (st.calls pid).localPages) pid []) pid st.region
      (sectionWrites cfg st.region part) (runSection cfg st.region part) := by
  obtain ⟨spot, chain, hpages⟩ := h.pages
  have hhands := st.hands pid
  cases part with
  | first call =>
    obtain ⟨⟨last, hlast⟩, hids⟩ := hcan
    have hempty : (st.calls pid).localPages = [] := by rw [hlast]; rfl
    rw [hempty] at hhands
    rw [update_idem] at hhands
    rw [← hhands] at hpages
    exact hpages.beginCall hfit (update_self ..) call hids htails
  | later state =>
    have hstate : st.calls pid = state := hcan
    rw [← hhands, hstate] at hpages
    exact hpages.resumeCall hfit (update_self ..) (hstate ▸ h.ids pid) htails

/-- **The step lemma.** -/
theorem KilledStep.sound (h : Sound cfg st) {event : Event Pid}
    (hcareful : Careful cfg st event) (hstep : KilledStep cfg st event st') : Sound cfg st' := by
  cases hstep with
  | run pid part hcan =>
    exact h.commit (h.section hfit hcan hcareful).2 runSection_idFree
  | kill pid part count hcan =>
    obtain ⟨htails, hstop⟩ := hcareful
    have hsurvived := (h.section hfit hcan htails).1
    refine h.commit ?_ fun _ _ hcall => by cases hcall
    show Salvageable cfg _ (update _ pid [])
    rw [update_idem]
    refine Survives.stop ?_ hsurvived hstop
    obtain ⟨spot, chain, hpages⟩ := h.pages
    rw [← st.hands pid] at hpages
    exact hpages.killed (update_self ..)
  | releaseAll fuel hidle hout =>
    obtain ⟨writes, hrun, -, hrestored⟩ := (h.recovery hidle).releaseAllSequences_ok hfit
    have hfuelled := hrun fuel
    rw [hout] at hfuelled
    rcases hfuelled with hsame | ⟨hnone, -⟩
    · cases hsame
      refine ⟨?_, h.ids⟩
      rw [hidle.hands]
      exact hrestored.salvageable hfit
    · cases hnone

/-- **The run lemma**: whoever is killed, no page gets into two places. -/
theorem KilledRun.sound (h : KilledRun cfg (Careful cfg) st) : Sound cfg st := by
  induction h with
  | fresh => exact initialState_sound hfit
  | step _ hcareful hstep ih => exact hstep.sound hfit ih hcareful

end

/-- **ReleaseAllSequences after any careful run** ends without an exception, writes inside the free
stack, and leaves a fresh region without the resident pages. -/
theorem releaseAllSequences_restores (cfg : HostPagedKVConfig) (hfit : cfg.numPages ≤ 2 ^ 31)
    (hrun : KilledRun cfg (Careful cfg) st) (hidle : AllIdle st) :
    ∃ writes, (∀ fuel, cfg.numPages ≤ fuel → releaseAllSequences cfg fuel st.region = some (.ok (), writes)) ∧
      (∀ index page, .freeStack index page ∈ writes → index < cfg.numPages) ∧
      Restored cfg st.region (applyAll store st.region writes) := by
  obtain ⟨writes, hruns, hrestored⟩ := ((hrun.sound hfit).recovery hidle).releaseAllSequences_ok hfit
  refine ⟨writes, fun fuel hfuel => ?_, hrestored⟩
  rcases hruns fuel with hdone | ⟨-, hless⟩
  · exact hdone
  · exact absurd hfuel hless.not_ge

end Runs

/-- Two pages and two table slots. -/
def twoPageConfig : HostPagedKVConfig where
  numPages := 2
  pageSizeTokens := 4
  sequenceTableCapacity := 0
  numPages_pos := by decide
  numPages_lt := twoSlots.sequenceTableCapacity_lt
  pageSizeTokens_pos := by decide
  pageSizeTokens_lt := by decide
  sequenceTableCapacity_lt := by decide

/-- The only process runs a section. -/
def State.ran (st : State Unit) (part : CallSection) : State Unit :=
  st.commit () (runSection twoPageConfig st.region part)

/-- The only process is killed in the later section of its call, after `count` writes. -/
def State.killed (st : State Unit) (count : ℕ) : State Unit :=
  st.commit () (.idle none, applyAll store st.region
    ((sectionWrites twoPageConfig st.region (.later (st.calls ()))).take count))

/-- `AcquirePages` has taken a page and is about to attach it. -/
def acquiredState : State Unit :=
  (initialState Unit twoPageConfig).ran (.first (.acquirePages 0 1))

/-- A process dies with its page owned but in no chain, and its sequence counted. -/
theorem releaseAllSequences_restores_acquired :
    ∃ st : State Unit, KilledRun twoPageConfig (Careful twoPageConfig) st ∧ AllIdle st ∧ freePages st.region = [1] ∧
      ∃ writes, (∀ fuel, twoPageConfig.numPages ≤ fuel →
          releaseAllSequences twoPageConfig fuel st.region = some (.ok (), writes)) ∧
        (∀ index page, .freeStack index page ∈ writes → index < twoPageConfig.numPages) ∧
        Restored twoPageConfig st.region (applyAll store st.region writes) := by
  have hbegin : Careful twoPageConfig (initialState Unit twoPageConfig)
      (.run () (.first (.acquirePages 0 1))) := fun _ _ hmem => by cases hmem
  have hacquired : KilledRun twoPageConfig (Careful twoPageConfig) acquiredState :=
    KilledRun.fresh.step hbegin (.run () (.first (.acquirePages 0 1)) ⟨⟨none, rfl⟩, by decide⟩)
  have hkill : Careful twoPageConfig acquiredState (.kill () (.later (acquiredState.calls ())) 6) := by
    constructor
    · have hslots : ∀ slot < twoPageConfig.sequenceCapacity, (acquiredState.region.sequenceTable slot).sequenceId ∉
            (CallSection.later (acquiredState.calls ())).extended := by decide +kernel
      exact fun slot hslot hmem => absurd hmem (hslots slot hslot)
    · intro before w htake
      have hlast : ((sectionWrites twoPageConfig acquiredState.region
          (.later (acquiredState.calls ()))).take 6).getLast? = some (.pageLink 0 (-1)) := by
        decide +kernel
      rw [htake, getLast?_append] at hlast
      cases hlast
      rintro ⟨slot, hentry, -⟩
      cases hentry
  have hkilled : KilledRun twoPageConfig (Careful twoPageConfig) (acquiredState.killed 6) :=
    hacquired.step hkill (.kill () (.later (acquiredState.calls ())) 6 rfl)
  have hidle : AllIdle (acquiredState.killed 6) := fun _ => ⟨none, rfl⟩
  exact ⟨_, hkilled, hidle, by decide +kernel, releaseAllSequences_restores twoPageConfig (by decide) hkilled hidle⟩

/-- Sequences 0 and 1 have a page each; the slot of 1 is behind that of 0. -/
def pairState : State Unit :=
  (initialState Unit twoPageConfig).ran (.first (.acquirePagesForSequences [0, 1] [1, 1]))

/-- Sequence 0 is a tombstone. -/
def releasedState : State Unit :=
  (pairState.ran (.first (.releaseSequence 0))).ran (.later (.releasing [1] .returned))

/-- Sequence 3 is about to reuse the tombstone. -/
def reusingState : State Unit := releasedState.ran (.first (.acquirePages 3 1))

/-- **A kill between the reset of a tombstone and the store of the new id** leaves an empty slot in
front of a live entry, and `ReleaseAllSequences` cannot find a sequence it collected. -/
theorem releaseAllSequences_throws_after_torn_reuse :
    ∃ st : State Unit, KilledRun twoPageConfig (fun _ _ => True) st ∧ AllIdle st ∧
      ∀ fuel, releaseAllSequences twoPageConfig fuel st.region = some (.error (.sequenceNotFound .release 1), []) := by
  have hpair : KilledRun twoPageConfig (fun _ _ => True) pairState :=
    .step .fresh trivial (.run () _ ⟨⟨none, rfl⟩, by decide⟩)
  have hpaired : pairState.calls () = .idle (some (.allocations [[1], [0]])) := by decide +kernel
  have hreleasing : KilledRun twoPageConfig (fun _ _ => True) (pairState.ran (.first (.releaseSequence 0))) :=
    hpair.step trivial (.run () _ ⟨⟨_, hpaired⟩, by decide⟩)
  have hreleased : KilledRun twoPageConfig (fun _ _ => True) releasedState :=
    hreleasing.step trivial (.run () (.later (.releasing [1] .returned)) (by show _ = _; decide +kernel))
  have hreusing : KilledRun twoPageConfig (fun _ _ => True) reusingState :=
    hreleased.step trivial (.run () _ ⟨⟨some .returned, rfl⟩, by decide⟩)
  refine ⟨reusingState.killed 1, hreusing.step trivial (.kill () _ 1 rfl), fun _ => ⟨none, rfl⟩, fun fuel => ?_⟩
  have hids : liveSequenceIds twoPageConfig (reusingState.killed 1).region = [1] := by
    decide +kernel
  have hfind : findSequenceEntryLocked twoPageConfig (reusingState.killed 1).region 1 = none := by
    decide +kernel
  simp only [releaseAllSequences, hids, releaseSequences, releaseSequence, hfind]

end Batchgen.HostPagedKV
