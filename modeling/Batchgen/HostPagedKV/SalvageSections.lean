import Batchgen.HostPagedKV.Salvage
import Batchgen.HostPagedKV.SectionsHeld

/-!
# Every section survives being killed

For each section of the backend: after any prefix of its writes no page is in two places, and when it
runs to its end the pages it keeps are in its hands.  `held` are the pages in the hands of the other
calls, so `held pid = []` for the process that runs the section, and `update held pid pages`
are the hands of all while it holds `pages`.
-/

namespace Batchgen.HostPagedKV

open MachineInt LinkedChain CrashWrites Function List

variable {Pid : Type*} {cfg : HostPagedKVConfig} {r r' : Region} {held : Pid → List ℤ}
  {spot : ℤ → Place Pid} {chain : ℕ → List ℤ} {slot : ℕ} {pid : Pid} {pages rest : List ℤ} {writes : List Write}
  {page sequenceId : ℤ}

/-- After every write at which a process may be killed no page is in two places, its own hands
empty. -/
def Survived (cfg : HostPagedKVConfig) (held : Pid → List ℤ) (r : Region) (writes : List Write) :
    Prop :=
  Survives store (HidesEntry cfg) (fun s => Salvageable cfg s held) r writes

theorem Survived.append {ws vs : List Write} (h : Survived cfg held r ws)
    (h' : Survived cfg held (applyAll store r ws) vs) : Survived cfg held r (ws ++ vs) :=
  Survives.append h h'

/-- The writes survive being cut off, and nothing is in two places behind them. -/
def Weathered (cfg : HostPagedKVConfig) (held : Pid → List ℤ) (r : Region) (writes : List Write) : Prop :=
  Survived cfg held r writes ∧ Salvageable cfg (applyAll store r writes) held

theorem Weathered.append {ws vs : List Write} (h : Weathered cfg held r ws) (hr' : applyAll store r ws = r')
    (h' : Weathered cfg held r' vs) : Weathered cfg held r (ws ++ vs) := by
  subst hr'
  refine ⟨h.1.append h'.1, ?_⟩
  rw [applyAll_append]
  exact h'.2

/-- The tails of the entries that a section attaches pages to are in place. -/
theorem TailInPlace.eq_lastCell (htail : TailInPlace r slot) (h : Salvage cfg r held spot chain)
    (hslot : LiveSlot cfg r slot) : (r.sequenceTable slot).tailPage = lastCell kInvalidPageIndex (chain slot) := by
  obtain ⟨cells, hchain, heq⟩ := htail
  rw [heq, hchain.unique (h.linked slot hslot)]

/-! ### Writes that lose pages -/

/-- A write that loses pages at most: a link or a head is cut, a page loses its owner, an entry dies, a count or a
tail changes. -/
def Write.Harmless : Write → Prop
  | .pageLink _ page | .headPage _ page => page = kInvalidPageIndex
  | .pageOwner _ owner => owner ≠ kPrefixResidentSequenceId
  | .sequenceId _ sequenceId => sequenceId = kTombstoneSequenceId
  | .freeStack .. | .freeStackTop _ | .entry .. => False
  | _ => True

theorem Salvageable.harmless (h : Salvageable cfg r held) {w : Write} (hw : w.Harmless) :
    Salvageable cfg (store r w) held := by
  obtain ⟨spot, chain, h⟩ := h
  cases w with
  | pageLink page next =>
    cases hw
    exact ⟨spot, h.truncate page⟩
  | pageOwner page owner => exact (h.owner page hw).salvageable
  | sequenceId slot sequenceId =>
    exact (h.entry_of_tombstone slot { r.sequenceTable slot with sequenceId := sequenceId } hw).salvageable
  | headPage slot page =>
    exact (h.entry_of_no_head slot { r.sequenceTable slot with headPage := page } rfl hw).salvageable
  | numPages slot count => exact (h.numPages slot count).salvageable
  | tailPage slot page => exact (h.tailPage slot page).salvageable
  | activeSequences | sequencesInserted | sequencesReleased | acquireFailures =>
    exact ⟨spot, chain, h.congr rfl rfl rfl rfl rfl⟩
  | freeStack | freeStackTop | entry => exact hw.elim

theorem Salvageable.survives (h : Salvageable cfg r held) (hwrites : ∀ w ∈ writes, w.Harmless) :
    Weathered cfg held r writes :=
  Survives.of_keeps (fun w hw _ hs => hs.harmless (hwrites w hw)) h

theorem detachWrites_harmless (pages : List ℤ) : ∀ w ∈ detachWrites pages, w.Harmless := by
  intro w hw
  obtain ⟨page, -, hw⟩ := mem_flatMap.mp hw
  rcases mem_pair.mp hw with rfl | rfl
  · exact rfl
  · exact (by decide : kEmptySequenceId ≠ kPrefixResidentSequenceId)

theorem clearWrites_harmless (pages : List ℤ) : ∀ w ∈ clearWrites pages, w.Harmless := by
  intro w hw
  obtain ⟨page, hpage, hw⟩ := mem_flatMap.mp hw
  exact detachWrites_harmless pages w (mem_flatMap.mpr ⟨page, hpage, mem_pair.mpr (mem_pair.mp hw).symm⟩)

theorem tombstoneWrites_harmless (slot : ℕ) : ∀ w ∈ tombstoneWrites slot, w.Harmless := by
  simp [tombstoneWrites, Write.Harmless]

/-! ### Between the stack and the hands of a call -/

variable [DecidableEq Pid] (h : Salvage cfg r (update held pid pages) spot chain) (hidle : held pid = [])
  (hres : isReservedSequenceId sequenceId = false)

section

include h

include hidle in
/-- A killed process takes what it held with it. -/
theorem Salvage.emptyHands : Salvage cfg r held spot chain := by
  apply h.drop
  intro other
  by_cases hother : other = pid
  · rw [hother, hidle]
    exact nil_sublist _
  · rw [update_of_ne hother]

include hidle in
theorem Salvage.killed : Salvageable cfg r held := (h.emptyHands hidle).salvageable

theorem Salvage.inHands : pages.Nodup ∧ ∀ page ∈ pages, InRange cfg page ∧ spot page = .flight pid := by
  have hhands := h.hands pid
  have hheld := h.held pid
  rw [update_self] at hhands hheld
  exact ⟨hhands, hheld⟩

end

/-- Lowering the top by `count` pages that the call keeps. -/
theorem Salvage.pop (h : Salvage cfg r held spot chain) (pid : Pid) (count : ℕ) (hcount : count ≤ r.freeStackTop) :
    Salvageable cfg (store r (.freeStackTop (r.freeStackTop - count)))
      (update held pid (stackSlice r (r.freeStackTop - count) count)) := by
  have hsplit := freePages_lower (Nat.sub_le r.freeStackTop count)
  rw [Nat.sub_sub_self hcount] at hsplit
  have hnodup := h.stack
  rw [hsplit, nodup_append] at hnodup
  refine Exists.imp (fun _ h' => ⟨chain, h'⟩) (h.intoHands hnodup.1 h.table h.linked pid hnodup.2.1 (fun page hpage =>
    h.free page (hsplit ▸ mem_append_right _ hpage)) (by simp) (fun p hp => ?_)
    (fun s hs p hp => ⟨⟨hs, hp⟩, nofun⟩) fun p hp => ⟨hp, nofun⟩)
  exact ⟨hsplit ▸ mem_append_left _ hp, fun _ hmem => hnodup.2.2 p hp p hmem rfl⟩

/-- The push loop without the wrap of its counter. -/
theorem pushWrites_eq : ∀ (pages : List ℤ) (top : ℕ), top + pages.length < 2 ^ 32 → pushWrites top pages =
      (pages.zipIdx top).map (fun entry => .freeStack entry.2 entry.1) ++ [.freeStackTop (top + pages.length)]
  | [], _, _ => rfl
  | page :: pages, top, h => by
      rw [length_cons] at h
      rw [pushWrites, u32_of_lt (by omega), pushWrites_eq pages _ (by omega), zipIdx_cons,
        map_cons, cons_append, length_cons, Nat.add_right_comm, Nat.add_assoc]

/-- The push loop writes at the top and above it. -/
theorem pushWrites_index_lt {top index : ℕ} (hlt : top + pages.length < 2 ^ 32)
    (hmem : .freeStack index page ∈ pushWrites top pages) : index < top + pages.length := by
  rw [pushWrites_eq pages top hlt, mem_append, mem_map] at hmem
  rcases hmem with ⟨⟨p, i⟩, hmem, hw⟩ | hmem
  · cases hw
    exact (mem_zipIdx hmem).2.1
  · simp at hmem

include h hidle in
/-- **The push loop** puts the call's pages on the stack, inside its bounds. -/
theorem Salvage.push (hfit : cfg.numPages ≤ 2 ^ 31) :
    Survived cfg held r (pushWrites r.freeStackTop pages) ∧ Salvageable cfg (pushPages r pages) held := by
  obtain ⟨hnodup, hpages⟩ := h.inHands
  have hroom := h.push_fits hnodup fun page hpage =>
    ⟨(hpages page hpage).1, by simp [(hpages page hpage).2]⟩
  have heq := pushWrites_eq pages r.freeStackTop (by omega)
  have hspec := pushWrites_spec pages r.freeStackTop r
  obtain ⟨hfree, howners, hlinks, htable⟩ := pushPages_spec pages r (by omega)
  have hend : Salvageable cfg (pushPages r pages) held := by
    rw [← append_nil pages] at h
    rw [← update_eq_self pid held, hidle]
    refine Exists.imp (fun _ h' => ⟨chain, h'⟩) (h.fromHands ?_ (h.table.congr fun s => by rw [htable]) ?_ .free ?_
      (fun s hs p hp => .inr ⟨(LiveSlot.congr (congrFun htable s)).mp hs, hp⟩) fun p hp => .inr (howners ▸ hp))
    · rw [hfree, nodup_append]
      refine ⟨h.stack, hnodup, ?_⟩
      rintro p hp q hq rfl
      have hplace := (h.free p hp).2
      rw [(hpages p hq).2] at hplace
      cases hplace
    · intro s hs
      rw [hlinks, htable]
      exact h.linked s ((LiveSlot.congr (congrFun htable s)).mp hs)
    · intro p hp
      rw [hfree] at hp
      exact (mem_append.mp hp).symm.imp_left fun hp => ⟨hp, rfl⟩
  refine ⟨?_, hend⟩
  rw [heq] at hspec ⊢
  -- the loop only writes above the top, which it has not stored yet
  have hloop : ∀ w ∈ (pages.zipIdx r.freeStackTop).map (fun entry => Write.freeStack entry.2 entry.1), ∀ s,
      Salvageable cfg s held ∧ s.freeStackTop = r.freeStackTop →
        Salvageable cfg (store s w) held ∧ (store s w).freeStackTop = r.freeStackTop := by
    rintro w hw s ⟨⟨spot, chain, hs⟩, htop⟩
    obtain ⟨⟨page, index⟩, hmem, rfl⟩ := mem_map.mp hw
    have hle := (mem_zipIdx hmem).1
    exact ⟨(hs.stack_above page (htop ▸ hle)).salvageable, htop⟩
  have hsurvived : Survives store (HidesEntry cfg) _ r _ ∧ _ :=
    Survives.of_keeps hloop ⟨(h.killed hidle), rfl⟩
  refine Survived.append (hsurvived.1.mono fun s hs => hs.1) ⟨Or.inr ?_, trivial⟩
  rw [applyAll_append] at hspec
  have hlast : store _ (.freeStackTop (r.freeStackTop + pages.length)) = pushPages r pages := hspec
  rw [hlast]
  exact hend

/-! ### Attaching -/

section

variable (hin : Salvage cfg r (update held pid (page :: rest)) spot chain)
include hin

/-- **One page is appended to a chain**, by whatever single write links it there. -/
theorem Salvage.append (hids : ∀ s, (r'.sequenceTable s).sequenceId = (r.sequenceTable s).sequenceId)
    (hstack : freePages r' = freePages r) (howners : r'.pageOwners = r.pageOwners)
    (hslot : IsChain kInvalidPageIndex r'.pageLinks (r'.sequenceTable slot).headPage (chain slot ++ [page]))
    (hothers : ∀ s, s ≠ slot → LiveSlot cfg r s →
      IsChain kInvalidPageIndex r'.pageLinks (r'.sequenceTable s).headPage (chain s)) :
    ∃ spot', Salvage cfg r' (update held pid rest) spot' (update chain slot (chain slot ++ [page])) := by
  have hlive : ∀ s, LiveSlot cfg r' s ↔ LiveSlot cfg r s := by
    intro s
    unfold LiveSlot SequenceEntry.live
    rw [hids]
  rw [← singleton_append] at hin
  refine hin.fromHands (hstack ▸ hin.stack) (hin.table.congr hids) ?_ (.chain slot) (fun p hp => .inr (hstack ▸ hp)) ?_
    fun p hp => .inr (howners ▸ hp)
  · intro s hs
    by_cases hne : s = slot
    · rw [hne, update_self]
      exact hslot
    · rw [update_of_ne hne]
      exact hothers s hne ((hlive s).mp hs)
  · intro s hs p hp
    have hs' := (hlive s).mp hs
    by_cases hne : s = slot
    · subst hne
      rw [update_self] at hp
      exact (mem_append.mp hp).symm.imp (fun hp => ⟨hp, rfl⟩) fun hp => ⟨hs', hp⟩
    · rw [update_of_ne hne] at hp
      exact .inr ⟨hs', hp⟩

include hidle in
/-- **One round of the attach loop.** -/
theorem Salvage.attachPage (hslot : LiveSlot cfg r slot) (hid : sequenceId ≠ kPrefixResidentSequenceId)
    (htail : (r.sequenceTable slot).tailPage = lastCell kInvalidPageIndex (chain slot)) :
    Survived cfg held r (attachPageWrites sequenceId slot r page) ∧
      ∃ spot', Salvage cfg (HostPagedKV.attachPage sequenceId slot r page)
        (update held pid rest) spot' (update chain slot (chain slot ++ [page])) := by
  obtain ⟨-, hpages⟩ := hin.inHands
  obtain ⟨hrange, hspot⟩ := hpages page mem_cons_self
  have hout : ∀ s, LiveSlot cfg r s → page ∉ chain s := by
    intro s hs hmem
    cases hin.place_eq hs hmem hspot
  have hchain := hin.linked slot hslot
  -- the two writes that prepare the page
  have h₁ := hin.owner page hid
  have h₂ := h₁.link_of_not_mem kInvalidPageIndex hout
  rw [← attachPageWrites_spec]
  generalize hr₂ : store (store r (.pageOwner page sequenceId)) (.pageLink page kInvalidPageIndex) = r₂
    at h₂
  have hlinks₂ : r₂.pageLinks = update r.pageLinks page kInvalidPageIndex := by
    rw [← hr₂]; rfl
  have htable₂ : r₂.sequenceTable = r.sequenceTable := by rw [← hr₂]; rfl
  -- the write that links it
  have h₃ : ∀ w, w = (if (r.sequenceTable slot).headPage = kInvalidPageIndex then
        Write.headPage slot page else .pageLink (r.sequenceTable slot).tailPage page) →
      ∃ spot', Salvage cfg (store r₂ w) (update held pid rest) spot' (update chain slot (chain slot ++ [page])) := by
    rintro w rfl
    by_cases hhead : (r.sequenceTable slot).headPage = kInvalidPageIndex
    · have hnil : chain slot = [] := hchain.unique (LinkedChain.isChain_nil.mpr hhead)
      rw [if_pos hhead]
      refine h₂.append (setEntry_sequenceId rfl) rfl rfl ?_ ?_
      · rw [hnil]
        simp only [store, setEntry_self, nil_append]
        refine ⟨rfl, inRange_ne_invalid hrange, ?_⟩
        show r₂.pageLinks page = kInvalidPageIndex
        rw [hlinks₂, update_self]
      · intro s hs hlive
        simp only [store, setEntry_of_ne _ _ hs]
        exact h₂.linked s hlive
    · have hne : chain slot ≠ [] := by
        intro hnil
        rw [hnil] at hchain
        exact hhead hchain
      have hchain₂ := h₂.linked slot (by rwa [LiveSlot, htable₂])
      have htail_mem : lastCell kInvalidPageIndex (chain slot) ∈ chain slot := lastCell_mem hne
      rw [if_neg hhead]
      refine h₂.append (fun _ => rfl) rfl rfl ?_ ?_
      · show IsChain _ (update r₂.pageLinks (r.sequenceTable slot).tailPage page) _ _
        rw [htail]
        refine hchain₂.snoc hne (inRange_ne_invalid hrange) (hout slot hslot) ?_
        rw [hlinks₂, update_self]
      · intro s hs hlive
        refine (h₂.linked s hlive).update_of_not_mem fun hmem => hs ?_
        -- the old tail is in the chain of `slot` and in no other
        rw [htail] at hmem
        cases h₂.place_eq hlive hmem (hin.chained slot hslot _ htail_mem).2
        rfl
  obtain ⟨spot', h₃⟩ := h₃ _ rfl
  -- the tail and the count
  have h₄ := h₃.tailPage slot page
  have h₅ := h₄.numPages slot (u32 ((r.sequenceTable slot).numPages + 1))
  refine ⟨⟨Or.inr (h₁.killed hidle), Or.inr ?_, Or.inr ?_, Or.inr ?_, Or.inr ?_, trivial⟩, spot', ?_⟩
  · rw [hr₂]
    exact h₂.killed hidle
  · rw [hr₂]
    exact h₃.killed hidle
  · rw [hr₂]
    exact h₄.killed hidle
  · rw [hr₂]
    exact h₅.killed hidle
  · simp only [attachPageWrites, applyAll_cons, applyAll_nil]
    rw [hr₂]
    exact h₅

end

/-- **The attach loop.** -/
theorem Salvage.attachPages (rest : List ℤ) (hidle : held pid = []) (hid : sequenceId ≠ kPrefixResidentSequenceId) :
    ∀ {pages : List ℤ} {r : Region} {spot : ℤ → Place Pid} {chain : ℕ → List ℤ},
      Salvage cfg r (update held pid (pages ++ rest)) spot chain → LiveSlot cfg r slot →
      (r.sequenceTable slot).tailPage = lastCell kInvalidPageIndex (chain slot) →
      Survived cfg held r (attachWrites sequenceId slot pages r) ∧
        ∃ spot', Salvage cfg (HostPagedKV.attachPages sequenceId slot r pages) (update held pid rest) spot'
          (update chain slot (chain slot ++ pages)) := by
  intro pages
  induction pages with
  | nil =>
    intro r spot chain h _ _
    rw [append_nil, update_eq_self]
    exact ⟨trivial, spot, h⟩
  | cons page pages ih =>
    intro r spot chain h hslot htail
    obtain ⟨hone, spot₁, h₁⟩ := h.attachPage hidle hslot hid htail
    have hslot₁ : LiveSlot cfg (HostPagedKV.attachPage sequenceId slot r page) slot := by
      unfold LiveSlot SequenceEntry.live
      rw [attachPage_sequenceId]
      exact hslot
    obtain ⟨hrest, spot₂, h₂⟩ := ih h₁ hslot₁ (by
      rw [attachPage_tail, update_self, lastCell_append_singleton])
    refine ⟨hone.append ?_, spot₂, ?_⟩
    · rw [attachPageWrites_spec]
      exact hrest
    · rw [update_idem, update_self, append_assoc, singleton_append] at h₂
      exact h₂

include h hidle hres in
/-- **Claiming a slot.**  The process must not be killed while a reused tombstone has no id yet and hides an entry. -/
theorem Salvage.claim (hfind : SlotFound cfg r sequenceId slot true r') :
    Survived cfg held r (claimWrites slot sequenceId) ∧
      Salvage cfg r' (update held pid pages) spot (update chain slot []) ∧
      LiveSlot cfg r' slot ∧ (r'.sequenceTable slot).tailPage = kInvalidPageIndex := by
  have hid := not_marker_of_not_reserved hres
  obtain ⟨hfresh, hreached⟩ := findOrInsert_settled h.table hid hfind rfl
  obtain ⟨hslot, ⟨hnew, -, -⟩ | ⟨-, -, hr'⟩⟩ := hfind.cases
  · cases hnew
  have hfinal : Salvage cfg (setEntry r slot { sequenceId := sequenceId })
      (update held pid pages) spot (update chain slot []) :=
    h.entry_rewritten [] (h.table.claimed hid hfresh hreached rfl rfl) fun _ _ => ⟨rfl, by simp⟩
  have hr' : r' = setEntry r slot { sequenceId := sequenceId } := hr'
  have hsecond : store (store r (.entry slot {})) (.sequenceId slot sequenceId) = r' := by
    rw [hr', ← claimWrites_spec]
    rfl
  rw [← hr'] at hfinal
  refine ⟨⟨?_, Or.inr ?_, trivial⟩, hfinal, ?_, by rw [hr', setEntry_self]⟩
  · by_cases hhides : HidesEntry cfg r (.entry slot {})
    · exact Or.inl hhides
    · exact Or.inr ((h.emptyHands hidle).entry_rewritten [] (h.table.cleared hhides) fun _ hlive =>
        absurd rfl hlive.1).salvageable
  · rw [hsecond]
    exact hfinal.killed hidle
  · rw [hr']
    exact setEntry_liveSlot_self.mpr ⟨hslot, hid⟩

/-! ### The sections of AcquirePages -/

/-- A section survives being killed, and at its end its call holds what it keeps. -/
def Outlived (cfg : HostPagedKVConfig) (held : Pid → List ℤ) (pid : Pid) (r : Region)
    (writes : List Write) (out : CallState × Region) : Prop :=
  Survived cfg held r writes ∧
    Salvageable cfg out.2 (update held pid out.1.localPages)

/-- The first section of the call survives. -/
def Begun (cfg : HostPagedKVConfig) (held : Pid → List ℤ) (pid : Pid) (r : Region) (call : Call) : Prop :=
  Outlived cfg held pid r (beginWrites cfg r call) (beginCall cfg r call)

include hidle in
/-- A section that ends its call, or fails, with empty hands. -/
theorem Survived.outlived {out : CallState × Region} (h : Survived cfg held r writes)
    (hlocal : out.1.localPages = []) (hend : Salvageable cfg out.2 held) : Outlived cfg held pid r writes out := by
  refine ⟨h, ?_⟩
  rw [hlocal, ← hidle, update_eq_self]
  exact hend

include hidle in
/-- A section that stops before its first write. -/
theorem Salvage.stopped (h : Salvage cfg r held spot chain) (last : Option CallResult) :
    Outlived cfg held pid r [] (.idle last, r) :=
  Survived.outlived hidle trivial rfl h.salvageable

include h hidle hres in
/-- **The slot of a sequence**, found or claimed, with its tail in place. -/
theorem Salvage.settle {isNew : Bool} (htails : TailsInPlace cfg r [sequenceId])
    (hfind : SlotFound cfg r sequenceId slot isNew r') :
    Survived cfg held r (if isNew then claimWrites slot sequenceId else []) ∧
      applyAll store r (if isNew then claimWrites slot sequenceId else []) = r' ∧
      LiveSlot cfg r' slot ∧ (r'.sequenceTable slot).sequenceId = sequenceId ∧ TailInPlace r' slot ∧
      ∃ chain', Salvage cfg r' (update held pid pages) spot chain' := by
  have hid := not_marker_of_not_reserved hres
  cases isNew with
  | false =>
    obtain ⟨hslot, ⟨-, rfl, hslotId⟩ | ⟨hnew, -, -⟩⟩ := hfind.cases
    · exact ⟨trivial, rfl, ⟨hslot, hslotId ▸ hid.1, hslotId ▸ hid.2⟩, hslotId,
        htails slot hslot (hslotId ▸ mem_singleton_self _), chain, h⟩
    · cases hnew
  | true =>
    obtain ⟨hclaim, h₁, hlive, htail⟩ := h.claim hidle hres hfind
    obtain ⟨hnew, -⟩ | ⟨-, rfl⟩ := findOrInsert_claimed hfind
    · cases hnew
    · have hhead := h₁.linked slot hlive
      rw [update_self] at hhead
      refine ⟨hclaim, rfl, hlive, ?_, ⟨[], hhead, htail⟩, _, h₁⟩
      rw [claimWrites_spec, setEntry_self]

include h hidle hres in
/-- **The sequence section of `AcquirePages`.** -/
theorem Salvage.acquireAttach (htails : TailsInPlace cfg r [sequenceId]) :
    Outlived cfg held pid r (resumeWrites cfg r (.acquired sequenceId pages))
      (resumeCall cfg r (.acquired sequenceId pages)) := by
  have hnot : sequenceId ≠ kPrefixResidentSequenceId := by
    rintro rfl
    exact absurd hres (by decide)
  simp only [resumeWrites, resumeCall, acquireAttachWrites, acquirePagesAttach]
  cases hfind : findOrInsertSequenceEntryLocked cfg r sequenceId with
  | error e => exact ⟨trivial, h.salvageable⟩
  | ok out =>
    obtain ⟨slot, isNew, r'⟩ := out
    obtain ⟨hclaim, hr', hlive, -, htail, chain', h₁⟩ := h.settle hidle hres htails hfind
    have hlast := htail.eq_lastCell h₁ hlive
    rw [← append_nil pages] at h₁
    cases isNew with
    | false =>
      obtain ⟨hsurvived, spot', hend⟩ := Salvage.attachPages [] hidle hnot h₁ hlive hlast
      cases hr'
      exact ⟨hsurvived, spot', _, hend⟩
    | true =>
      have h₂ : Salvage cfg (countInserted r') _ spot chain' := h₁.congr rfl rfl rfl rfl rfl
      obtain ⟨hsurvived, spot', hend⟩ := Salvage.attachPages [] hidle hnot h₂ hlive hlast
      have hcounted : applyAll store r' [.activeSequences (u32 (r.activeSequences + 1)),
          .sequencesInserted (u64 (r.sequencesInserted + 1))] = countInserted r' := by
        rw [← hr', if_pos rfl, claimWrites_spec]
        rfl
      rw [if_pos rfl] at hclaim hr'
      refine ⟨hclaim.append ?_, spot', _, hend⟩
      rw [hr']
      refine Survived.append ?_ (hcounted ▸ hsurvived)
      exact ((h₁.killed hidle).survives (by simp [Write.Harmless])).1

include hidle in
/-- The allocation section of `AcquirePages`. -/
theorem Salvage.acquirePop (h : Salvage cfg r held spot chain)
    (hfit : cfg.numPages ≤ 2 ^ 31) (sequenceId : ℤ) (numPages : ℕ) :
    Begun cfg held pid r (.acquirePages sequenceId numPages) := by
  simp only [Begun, beginWrites, beginCall]
  split
  · exact h.stopped hidle _
  split
  · exact h.stopped hidle _
  unfold popWrites popPages
  split
  · have hend := h.salvageable.harmless (w := .acquireFailures (u64 (r.acquireFailures + 1))) trivial
    exact Survived.outlived hidle ⟨Or.inr hend, trivial⟩ rfl hend
  rename_i henough
  have htop : r.freeStackTop ≤ cfg.numPages := by
    simpa using h.push_fits (nodup_nil : ([] : List ℤ).Nodup) (by simp)
  have hcount : u32 numPages = numPages := u32_of_lt (by omega)
  have hlow := h.stack_lower (Nat.sub_le r.freeStackTop (u32 numPages))
  refine ⟨⟨Or.inr hlow.salvageable, trivial⟩, ?_⟩
  have hpop := h.pop pid numPages (by omega)
  rw [hcount]
  exact hpop

/-! ### From a chain into the hands of a call -/

/-- **Pages leave a chain.**  The section may write the links of these pages and the entry of their
slot; what is left of the chain has none of them. -/
theorem Salvage.takeOff (h : Salvage cfg r held spot chain) (pid : Pid) (hslot : LiveSlot cfg r slot)
    (htable : TableValid cfg r') (hstack : freePages r' = freePages r)
    (howners : ∀ page, r'.pageOwners page = kPrefixResidentSequenceId → r.pageOwners page = kPrefixResidentSequenceId)
    (hpages : pages.Nodup) (hsub : ∀ page ∈ pages, page ∈ chain slot)
    (hrest : ∀ page ∈ rest, page ∈ chain slot ∧ page ∉ pages) (hentry : LiveSlot cfg r' slot →
      IsChain kInvalidPageIndex r'.pageLinks (r'.sequenceTable slot).headPage rest)
    (hothers : ∀ s, s ≠ slot → r'.sequenceTable s = r.sequenceTable s)
    (hlinks : ∀ page, page ∉ chain slot → r'.pageLinks page = r.pageLinks page) :
    ∃ spot', Salvage cfg r' (update held pid pages) spot' (update chain slot rest) := by
  have hlive : ∀ s, s ≠ slot → (LiveSlot cfg r' s ↔ LiveSlot cfg r s) := fun s hs =>
    LiveSlot.congr (hothers s hs)
  refine h.intoHands (hstack ▸ h.stack) htable ?_ pid hpages
    (fun page hpage => h.chained slot hslot page (hsub page hpage)) (by simp)
    (fun p hp => ⟨hstack ▸ hp, nofun⟩) ?_ fun p hp => ⟨howners p hp, nofun⟩
  · intro s hs
    by_cases hne : s = slot
    · subst hne
      rw [update_self]
      exact hentry hs
    have hs' := (hlive s hne).mp hs
    rw [update_of_ne hne, hothers s hne]
    refine (h.linked s hs').congr fun p hp => hlinks p fun hmem => hne ?_
    cases h.place_eq hs' hp (h.chained slot hslot p hmem).2
    rfl
  · intro s hs p hp
    by_cases hne : s = slot
    · subst hne
      rw [update_self] at hp
      exact ⟨⟨hslot, (hrest p hp).1⟩, fun _ => (hrest p hp).2⟩
    · rw [update_of_ne hne] at hp
      exact ⟨⟨(hlive s hne).mp hs, hp⟩, fun heq => absurd (Place.chain.inj heq).symm hne⟩

omit [DecidableEq Pid] in
theorem resident_of_clearPages (h : (clearPages r pages).pageOwners page = kPrefixResidentSequenceId) :
    r.pageOwners page = kPrefixResidentSequenceId ∧ page ∉ pages := by
  rw [clearPages_owners] at h
  split at h
  · exact absurd h (by decide)
  · next hmem => exact ⟨h, hmem⟩

/-- **Taking a front segment off a chain**; the section may write anything else into the entry that
keeps the rest. -/
theorem Salvage.detach (h : Salvage cfg r held spot chain) (pid : Pid) (hslot : LiveSlot cfg r slot)
    (count : ℕ) (htable : TableValid cfg r') (hstack : freePages r' = freePages r)
    (howners : r'.pageOwners = (clearPages r ((chain slot).take count)).pageOwners)
    (hlinks : r'.pageLinks = (clearPages r ((chain slot).take count)).pageLinks)
    (hothers : ∀ s, s ≠ slot → r'.sequenceTable s = r.sequenceTable s) (hhead : LiveSlot cfg r' slot →
      (r'.sequenceTable slot).headPage = ((chain slot).drop count).headD kInvalidPageIndex) :
    ∃ spot', Salvage cfg r' (update held pid ((chain slot).take count)) spot'
      (update chain slot ((chain slot).drop count)) := by
  have hchain := h.linked slot hslot
  have hnodup := hchain.nodup
  have hapart : ∀ page ∈ (chain slot).drop count, page ∉ (chain slot).take count := fun page hd ht =>
    disjoint_take_drop hnodup le_rfl ht hd
  refine h.takeOff pid hslot htable hstack (fun page hpage => (resident_of_clearPages (howners ▸ hpage)).1)
    (hnodup.sublist (take_sublist _ _)) (fun page hpage => mem_of_mem_take hpage)
    (fun page hpage => ⟨mem_of_mem_drop hpage, hapart page hpage⟩) ?_ hothers ?_
  · intro hlive
    rw [hhead hlive]
    have hrest : IsChain kInvalidPageIndex r.pageLinks
        (((chain slot).drop count).headD kInvalidPageIndex) ((chain slot).drop count) := by
      rw [← take_append_drop count (chain slot)] at hchain
      exact hchain.drop
    refine hrest.congr fun page hpage => ?_
    rw [hlinks, clearPages_links, if_neg (hapart page hpage)]
  · intro page hpage
    rw [hlinks, clearPages_links, if_neg fun hmem => hpage (mem_of_mem_take hmem)]

end Batchgen.HostPagedKV
