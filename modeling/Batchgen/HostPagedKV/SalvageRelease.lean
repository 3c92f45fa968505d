import Batchgen.HostPagedKV.SalvageSections

/-!
# The release and retain paths survive being killed

The release paths lose pages on their way and only collect them at the end of a section, so a kill
inside a section is covered by the rules for losing pages.  `RetainPages` moves one page after the other
from its chain into the resident set; between the two a page is nowhere.
-/

namespace Batchgen.HostPagedKV

open MachineInt LinkedChain CrashWrites Function List

variable {Pid : Type*} [DecidableEq Pid] {cfg : HostPagedKVConfig} {r r' : Region} {held : Pid → List ℤ}
  {spot : ℤ → Place Pid} {chain : ℕ → List ℤ} {slot : ℕ} {pid : Pid} {page c sequenceId : ℤ} {kept cs : List ℤ}

/-- After the sequence section of a release path the detached pages are in the call's hands. -/
theorem Outlived.afterDetach {writes : List Write} (result : List ℤ → CallResult)
    {out : Except BackendError (List ℤ) × Region} (hsurvived : Survived cfg held r writes)
    (hidle : held pid = []) (herror : ∀ e, out.1 = .error e → Salvageable cfg out.2 held)
    (hok : ∀ pages, out.1 = .ok pages → Salvageable cfg out.2 (update held pid pages)) :
    Outlived cfg held pid r writes (afterDetach result out) := by
  obtain ⟨e | pages, r'⟩ := out
  · exact hsurvived.outlived hidle rfl (herror e rfl)
  · cases pages with
    | nil => exact ⟨hsurvived, hok [] rfl⟩
    | cons page pages => exact ⟨hsurvived, hok (page :: pages) rfl⟩

/-! ### ReleaseSequence -/

variable (h : Salvage cfg r held spot chain) (hidle : held pid = []) (hres : isReservedSequenceId sequenceId = false)

include h in
/-- Once its entry is a tombstone, the whole chain can be in the call's hands. -/
theorem Salvage.releaseEntry (pid : Pid) (hslot : LiveSlot cfg r slot) (hstack : freePages r' = freePages r)
    (howners : r'.pageOwners = (clearPages r (chain slot)).pageOwners)
    (hlinks : r'.pageLinks = (clearPages r (chain slot)).pageLinks)
    (htable : r'.sequenceTable = update r.sequenceTable slot tombstoneEntry) :
    Salvageable cfg r' (update held pid (chain slot)) := by
  have hdead : ¬ LiveSlot cfg r' slot := not_liveSlot_of_tombstone (by rw [htable, update_self])
  obtain ⟨spot', h'⟩ := h.detach pid hslot (chain slot).length (h.table.tombstone rfl htable) hstack
    (by rwa [take_length]) (by rwa [take_length]) (fun s hs => by rw [htable, update_of_ne hs])
    fun hlive => absurd hlive hdead
  rw [take_length] at h'
  exact ⟨spot', _, h'⟩

include h hidle hres in
/-- **The sequence section of `ReleaseSequence`.** -/
theorem Salvage.releaseSequence : Begun cfg held pid r (.releaseSequence sequenceId) := by
  rw [Begun, beginWrites, beginCall]
  unfold releaseSequenceWrites releaseSequenceDetach
  cases hfind : findSequenceEntryLocked cfg r sequenceId with
  | none => exact h.stopped hidle _
  | some slot =>
    have hslot := liveSlot_of_find hres hfind
    have hlen := h.chain_length_le hslot
    have hdetach : detachFront (cfg.numPages + 1) _ r = _ := detachFront_spec (h.linked slot hslot)
    rw [take_of_length_le (by omega)] at hdetach
    dsimp only
    rw [hdetach]
    refine Outlived.afterDetach _ ?_ hidle (by simp) ?_
    · exact (h.salvageable.survives (forall_mem_append.mpr ⟨detachWrites_harmless (chain slot),
        forall_mem_append.mpr ⟨tombstoneWrites_harmless slot, by simp [Write.Harmless]⟩⟩)).1
    · rintro pages hpages
      cases hpages
      refine h.releaseEntry pid hslot ?_ rfl rfl ?_
      · simp [freePages, stackSlice]
      · simp

/-! ### ReleasePrefixPages -/

include h in
/-- Once its head is behind the detached pages, they can be in the call's hands. -/
theorem Salvage.shortenEntry (pid : Pid) (hslot : LiveSlot cfg r slot) (count : ℕ) :
    ∃ spot', Salvage cfg (store (clearPages r ((chain slot).take count))
        (.headPage slot (((chain slot).drop count).headD kInvalidPageIndex)))
      (update held pid ((chain slot).take count)) spot' (update chain slot ((chain slot).drop count)) := by
  have hclear : TableValid cfg (clearPages r ((chain slot).take count)) := h.table.congr fun s => by simp
  refine h.detach pid hslot count (hclear.setEntry rfl) ?_ rfl rfl (fun s hs => ?_) fun _ => ?_
  · simp [store, setEntry, freePages, stackSlice]
  · simp [store, setEntry_of_ne _ _ hs]
  · simp [store]

include h hidle hres in
/-- **The sequence section of `ReleasePrefixPages`.** -/
theorem Salvage.releasePrefixPages (numPages : ℕ) :
    Begun cfg held pid r (.releasePrefixPages sequenceId numPages) := by
  simp only [Begun, beginWrites, beginCall]
  split
  · exact h.stopped hidle _
  unfold releasePrefixWrites releasePrefixPagesDetach
  cases hfind : findSequenceEntryLocked cfg r sequenceId with
  | none => exact h.stopped hidle _
  | some slot =>
    have hslot := liveSlot_of_find hres hfind
    have hdetach : detachFront numPages _ r = _ := detachFront_spec (h.linked slot hslot)
    obtain ⟨h₁, hs₁⟩ := h.salvageable.survives (detachWrites_harmless ((chain slot).take numPages))
    dsimp only
    rw [hdetach]
    dsimp only
    split
    · exact h.stopped hidle _
    split
    · -- a chain that ends early: the pages it had are lost
      rw [detachWrites_spec] at hs₁
      exact Survived.outlived hidle h₁ rfl hs₁
    rename_i hlong hshort
    obtain ⟨spot', h'⟩ := h.shortenEntry pid hslot numPages
    have h₂ := h'.numPages slot ((r.sequenceTable slot).numPages - u32 numPages)
    have h₃ := h₂.tailPage slot kInvalidPageIndex
    refine Outlived.afterDetach _ (h₁.append ?_) hidle (by simp) ?_
    · rw [detachWrites_spec]
      refine ⟨Or.inr (h'.killed hidle), Or.inr (h₂.killed hidle), ?_⟩
      split
      · exact ⟨Or.inr (h₃.killed hidle), trivial⟩
      · exact trivial
    · rintro pages hpages
      cases hpages
      by_cases hnone : (r.sequenceTable slot).numPages - u32 numPages = 0
      · have h₄ := h₃.salvageable
        simp only [store, setEntry_setEntry, setEntry_self] at h₄
        simpa [hnone, setEntry] using h₄
      · have h₄ := h₂.salvageable
        simp only [store, setEntry_setEntry, setEntry_self] at h₄
        simpa [hnone, setEntry] using h₄

/-! ### RetainPages -/

/-- A page in the hands of a call becomes resident. -/
theorem Salvage.retainPage (h : Salvage cfg r (update held pid [page]) spot chain) (hidle : held pid = []) :
    ∃ spot', Salvage cfg (store r (.pageOwner page kPrefixResidentSequenceId)) held spot' chain := by
  rw [← append_nil [page]] at h
  rw [← update_eq_self pid held, hidle]
  have hstack : (freePages (store r (.pageOwner page kPrefixResidentSequenceId))).Nodup := h.stack
  refine h.fromHands hstack h.table h.linked .resident (fun _ hp => .inr hp) (fun _ hs _ hp => .inr ⟨hs, hp⟩) ?_
  intro p hp
  change update r.pageOwners page kPrefixResidentSequenceId p = kPrefixResidentSequenceId at hp
  by_cases heq : p = page
  · exact .inl ⟨mem_singleton.mpr heq, rfl⟩
  · exact .inr (by rwa [update_of_ne heq] at hp)

/-- The writes behind the one that takes the page out of its chain. -/
theorem Salvage.residentWrites (slot count : ℕ) (h : Salvage cfg r (update held pid [page]) spot chain)
    (hidle : held pid = []) :
    Survived cfg held r [.pageLink page kInvalidPageIndex,
        .pageOwner page kPrefixResidentSequenceId, .numPages slot count] ∧
      ∃ spot', Salvage cfg (applyAll store r [.pageLink page kInvalidPageIndex,
        .pageOwner page kPrefixResidentSequenceId, .numPages slot count]) held spot' chain := by
  have hout : ∀ s, LiveSlot cfg r s → page ∉ chain s := by
    intro s hs hmem
    cases h.place_eq hs hmem (h.inHands.2 page mem_cons_self).2
  have h₁ := h.link_of_not_mem kInvalidPageIndex hout
  obtain ⟨spot', h₂⟩ := h₁.retainPage hidle
  have h₃ := h₂.numPages slot count
  exact ⟨⟨Or.inr (h₁.killed hidle), Or.inr h₂.salvageable, Or.inr h₃.salvageable, trivial⟩, spot', h₃⟩

include h in
/-- The write that takes a page out of its chain, behind the kept pages. -/
theorem Salvage.unlinkWrite (pid : Pid) (hslot : LiveSlot cfg r slot) (hcells : chain slot = kept ++ c :: cs) :
    ∃ spot', Salvage cfg (store r (if lastCell kInvalidPageIndex kept = kInvalidPageIndex then
          .headPage slot (r.pageLinks c) else .pageLink (lastCell kInvalidPageIndex kept) (r.pageLinks c)))
      (update held pid [c]) spot' (update chain slot (kept ++ cs)) := by
  have hchain := h.linked slot hslot
  have hnodup := hchain.nodup
  rw [hcells] at hchain hnodup
  have hmem : ∀ page ∈ [c], page ∈ chain slot := by
    intro page hpage
    rw [mem_singleton.mp hpage, hcells]
    simp
  have hrest : ∀ page ∈ kept ++ cs, page ∈ chain slot ∧ page ∉ [c] := by
    intro page hpage
    refine ⟨?_, fun hpc => ?_⟩
    · rw [hcells]
      simp only [mem_append, mem_cons] at hpage ⊢
      tauto
    · rw [mem_singleton.mp hpc] at hpage
      exact (nodup_cons.mp (nodup_middle.mp hnodup)).1 hpage
  by_cases hkept : kept = []
  · subst hkept
    rw [lastCell_nil, if_pos rfl]
    refine h.takeOff pid hslot (h.table.setEntry rfl) rfl (fun _ hp => hp) (by simp) hmem hrest
      (fun _ => ?_) (fun s hs => setEntry_of_ne r _ hs) fun _ _ => rfl
    simp only [store, setEntry_self]
    exact hchain.2.2
  · have hlast : lastCell kInvalidPageIndex kept ∈ kept := lastCell_mem hkept
    have hstop : lastCell kInvalidPageIndex kept ≠ kInvalidPageIndex := fun heq =>
      hchain.not_mem_stop (mem_append_left _ (heq ▸ hlast))
    rw [if_neg hstop]
    refine h.takeOff pid hslot h.table rfl (fun _ hp => hp) (by simp) hmem hrest (fun _ => ?_)
      (fun _ _ => rfl) fun page hpage => ?_
    · have hcut := hchain.remove_inner
        (v := update r.pageLinks (lastCell kInvalidPageIndex kept) (r.pageLinks c) c) hkept
      rwa [update_eq_self] at hcut
    · refine update_of_ne (fun heq => hpage ?_) _ _
      rw [hcells, heq]
      exact mem_append_left _ hlast

/-- The tail only moves when the page was the last one. -/
theorem Salvage.tailWrites {pages : List ℤ} (p : Prop) [Decidable p] (slot : ℕ) (page : ℤ)
    (h : Salvage cfg r (update held pid pages) spot chain) (hidle : held pid = []) :
    Survived cfg held r (if p then [.tailPage slot page] else []) ∧
      Salvage cfg (applyAll store r (if p then [.tailPage slot page] else [])) (update held pid pages) spot chain := by
  split
  · have h' := h.tailPage slot page
    exact ⟨⟨Or.inr (h'.killed hidle), trivial⟩, h'⟩
  · exact ⟨trivial, h⟩

include h hidle in
/-- **One page of the unlink loop.** -/
theorem Salvage.unlinkPage (hslot : LiveSlot cfg r slot) (hcells : chain slot = kept ++ c :: cs) :
    Survived cfg held r (unlinkPageWrites slot (lastCell kInvalidPageIndex kept) c r) ∧
      ∃ spot', Salvage cfg (HostPagedKV.unlinkPage slot (lastCell kInvalidPageIndex kept) c r)
        held spot' (update chain slot (kept ++ cs)) := by
  rw [← unlinkPageWrites_spec]
  obtain ⟨spot₁, h₁⟩ := h.unlinkWrite pid hslot hcells
  unfold unlinkPageWrites
  have htail := h₁.tailWrites ((r.sequenceTable slot).tailPage = c) slot (lastCell kInvalidPageIndex kept) hidle
  obtain ⟨hrest, spot', h'⟩ := htail.2.residentWrites slot (u32Pred (r.sequenceTable slot).numPages) hidle
  refine ⟨⟨Or.inr (h₁.killed hidle), htail.1.append hrest⟩, spot', ?_⟩
  rw [applyAll_cons, applyAll_append]
  exact h'

/-- **The unlink loop**, past `kept` and through `rest`. -/
theorem Salvage.unlinkLoop (requested kept : List ℤ) (hidle : held pid = []) {rest : List ℤ} :
    ∀ {fuel : ℕ} {r : Region} {spot : ℤ → Place Pid} {chain : ℕ → List ℤ},
      Salvage cfg r held spot chain → LiveSlot cfg r slot → chain slot = kept ++ rest → rest.length ≤ fuel →
      Weathered cfg held r
        (unlinkWrites requested slot fuel (lastCell kInvalidPageIndex kept) (rest.headD kInvalidPageIndex) r) := by
  induction rest generalizing kept with
  | nil =>
    intro fuel r spot chain h _ _ _
    rw [headD_nil]
    cases fuel with
    | zero => exact ⟨trivial, h.salvageable⟩
    | succ fuel =>
      rw [unlinkWrites, if_pos rfl]
      exact ⟨trivial, h.salvageable⟩
  | cons c cs ih =>
    intro fuel r spot chain h hslot hcells hfuel
    obtain ⟨fuel, rfl⟩ : ∃ n, fuel = n + 1 := ⟨fuel - 1, by rw [length_cons] at hfuel; omega⟩
    have hfuel' : cs.length ≤ fuel := by rw [length_cons] at hfuel; omega
    have hchain := h.linked slot hslot
    rw [hcells] at hchain
    have hstop : c ≠ kInvalidPageIndex := hchain.suffix.2.1
    have hnext : r.pageLinks c = cs.headD kInvalidPageIndex := hchain.suffix.2.2.head_eq
    rw [headD_cons, unlinkWrites, if_neg hstop]
    by_cases hreq : c ∈ requested
    · obtain ⟨hone, spot', h'⟩ := h.unlinkPage hidle hslot hcells
      have hslot' : LiveSlot cfg (HostPagedKV.unlinkPage slot (lastCell kInvalidPageIndex kept) c r) slot := by
        refine ⟨hslot.1, ?_⟩
        simp only [HostPagedKV.unlinkPage, update_self]
        exact hslot.2
      have hcut := unlinkPageWrites_spec slot (lastCell kInvalidPageIndex kept) c r
      rw [if_pos hreq, hnext]
      exact Weathered.append ⟨hone, hcut ▸ h'.salvageable⟩ hcut (ih kept h' hslot' (update_self ..) hfuel')
    · rw [if_neg hreq, hnext]
      have hrec := ih (kept ++ [c]) h hslot (by simp [hcells]) hfuel'
      rwa [lastCell_append_singleton] at hrec

theorem resetEmptyWrites_harmless (slot : ℕ) (entry : SequenceEntry) :
    ∀ w ∈ resetEmptyWrites slot entry, w.Harmless := by
  unfold resetEmptyWrites
  split <;> simp [Write.Harmless]

include h hidle hres in
/-- **The section of `RetainPages`.** -/
theorem Salvage.retainPages (pageIds : List ℤ) : Begun cfg held pid r (.retainPages sequenceId pageIds) := by
  have hwrites : Weathered cfg held r (retainWrites cfg sequenceId pageIds r) := by
    unfold HostPagedKV.retainWrites
    cases hfind : findSequenceEntryLocked cfg r sequenceId with
    | none => exact ⟨trivial, h.salvageable⟩
    | some slot =>
      dsimp only
      cases checkPageList cfg .retained sequenceId (.notSequenceOwned · sequenceId) r [] pageIds with
      | error e => exact ⟨trivial, h.salvageable⟩
      | ok _ =>
        dsimp only
        split
        · exact ⟨trivial, h.salvageable⟩
        have hslot := liveSlot_of_find hres hfind
        have hlen := h.chain_length_le hslot
        have hloop := Salvage.unlinkLoop pageIds [] hidle h hslot rfl (Nat.le_succ_of_le hlen)
        rw [lastCell_nil, ← (h.linked slot hslot).head_eq] at hloop
        exact hloop.append rfl (hloop.2.survives (resetEmptyWrites_harmless slot _))
  simp only [Begun, beginWrites, beginCall]
  split
  · exact h.stopped hidle _
  · have hregion := retainWrites_spec cfg sequenceId pageIds r
    rcases hout : HostPagedKV.retainPages cfg sequenceId pageIds r with ⟨e | pages, r'⟩
    all_goals
      rw [hout] at hregion
      exact hwrites.1.outlived hidle rfl (hregion ▸ hwrites.2)

/-! ### ReleaseResidentPages -/

include h hidle in
/-- **The sequence section of `ReleaseResidentPages`.** -/
theorem Salvage.releaseResidentPages (pageIds : List ℤ) : Begun cfg held pid r (.releaseResidentPages pageIds) := by
  simp only [Begun, beginWrites, beginCall]
  split
  · exact h.stopped hidle _
  unfold releaseResidentWrites releaseResidentPagesClear
  cases hcheck : checkPageList cfg .resident kPrefixResidentSequenceId .notPrefixResident r [] pageIds with
  | error e => exact h.stopped hidle _
  | ok _ =>
    obtain ⟨hnodup, hchecked⟩ := checkPageList_ok hcheck
    have hspot : ∀ page ∈ pageIds, InRange cfg page ∧ spot page = .resident := fun page hpage =>
      ⟨(hchecked page hpage).2.1, h.resident page (hchecked page hpage).2.1 (hchecked page hpage).2.2⟩
    refine Outlived.afterDetach _ (h.salvageable.survives (clearWrites_harmless pageIds)).1 hidle (by simp) ?_
    rintro pages hpages
    cases hpages
    have hfree : freePages (clearPages r pageIds) = freePages r := by simp [freePages, stackSlice]
    have hlive : ∀ s, LiveSlot cfg (clearPages r pageIds) s → LiveSlot cfg r s := fun s hs =>
      (LiveSlot.congr (by simp)).mp hs
    refine Exists.imp (fun _ h' => ⟨chain, h'⟩) (h.intoHands (hfree ▸ h.stack) (h.table.congr fun s => by simp)
      ?_ pid hnodup hspot (by simp) (fun p hp => ⟨hfree ▸ hp, by simp⟩)
      (fun s hs p hp => ⟨⟨hlive s hs, hp⟩, by simp⟩) ?_)
    · intro s hs
      rw [clearPages_table]
      refine (h.linked s (hlive s hs)).congr fun p hp => ?_
      rw [clearPages_links, if_neg]
      intro hmem
      cases h.place_eq (hlive s hs) hp (hspot p hmem).2
    · intro p hp
      obtain ⟨hresident, hmem⟩ := resident_of_clearPages hp
      exact ⟨hresident, fun _ => hmem⟩

end Batchgen.HostPagedKV
