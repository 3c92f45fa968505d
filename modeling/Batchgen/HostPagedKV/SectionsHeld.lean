import Batchgen.HostPagedKV.PagePartition

/-!
# Every section keeps the pages where they belong

For each mutex section of the backend this file shows that the invariant `PagesHeld` survives it, with
the pages the section hands to its call, or takes from it, in that call's hands.  A proof here is always
the same two steps: what the section's loop does to one chain, and one exchange rule.

The page ids have to fit the signed 32-bit type the arrays store, which the section variable `hfit`
says; the wrap of an entry's page counter and of the stack top is then out of reach.
-/

namespace Batchgen.HostPagedKV

open MachineInt LinkedChain Function List

variable {Pid : Type*} {cfg : HostPagedKVConfig} {r r' : Region} {flight : Pid → List ℤ} {cells : Place Pid → List ℤ}
  {pid : Pid} {entry : SequenceEntry} {chain pages : List ℤ} {sequenceId : ℤ} {count slot : ℕ}

variable [DecidableEq Pid]

theorem live_of_not_reserved (hid : entry.sequenceId = sequenceId) (hres : isReservedSequenceId sequenceId = false) :
    entry.live ∧ entry.sequenceId ≠ kPrefixResidentSequenceId := by
  simp only [isReservedSequenceId, Bool.or_eq_false_iff, decide_eq_false_iff_not] at hres
  rw [SequenceEntry.live, hid]
  exact ⟨hres.1, hres.2⟩

/-! ### The allocation sections -/

/-- The stack is what a pop leaves, with the popped slice on top. -/
theorem freePages_pop (hcount : count ≤ r.freeStackTop) :
    freePages r = stackSlice r 0 (r.freeStackTop - count) ++ stackSlice r (r.freeStackTop - count) count := by
  have happ := stackSlice_append r 0 (r.freeStackTop - count) count
  rw [Nat.sub_add_cancel hcount, Nat.zero_add] at happ
  exact happ

variable (hfit : cfg.numPages ≤ 2 ^ 31) (h : PagesHeld cfg r flight cells)
  (hres : isReservedSequenceId sequenceId = false) (hidle : flight pid = [])

section

include h

include hidle in
/-- Popping `count` pages puts the top of the stack into the call's hands. -/
theorem PagesHeld.pop (hcount : count ≤ r.freeStackTop) :
    ∃ cells', PagesHeld cfg { r with freeStackTop := r.freeStackTop - count }
      (update flight pid (stackSlice r (r.freeStackTop - count) count)) cells' ∧
      ∀ slot, cells' (.chain slot) = cells (.chain slot) := by
  refine ⟨_, h.restack pid ?_ rfl rfl rfl, fun slot => reassign_other (by simp) (by simp) _ _⟩
  rw [hidle, append_nil, freePages_pop hcount]
  exact List.Perm.refl _

include hfit in
/-- Pushing the call's pages back empties its hands. -/
theorem PagesHeld.push (hpages : flight pid = pages) :
    ∃ cells', PagesHeld cfg (pushPages r pages) (update flight pid []) cells' := by
  have hlen := h.length_le (p := .free) (q := .flight pid) (by simp)
  rw [h.free, h.flight, hpages, freePages, stackSlice_length] at hlen
  obtain ⟨hstack, howners, hlinks, htable⟩ := pushPages_spec pages r (by omega)
  refine ⟨_, h.restack pid ?_ howners hlinks htable⟩
  rw [hstack, hpages, append_nil]

/-! ### Attaching -/

include hfit in
/-- Attaching the first of the call's pages to a slot in use moves them into its chain and leaves its id. -/
theorem PagesHeld.attach {rest : List ℤ}
    (hslot : LiveSlot cfg r slot) (hid : (r.sequenceTable slot).sequenceId = sequenceId)
    (hpages : flight pid = pages ++ rest) :
    PagesHeld cfg (attachPages sequenceId slot r pages) (update flight pid rest)
      (reassign cells (.chain slot) (.flight pid) (cells (.chain slot) ++ pages) rest) := by
  have hne : (Place.chain slot : Place Pid) ≠ .flight pid := by simp
  have hcells : cells (.flight pid) = pages ++ rest := (h.flight pid).trans hpages
  have hnodup := h.placement.nodup_append hne
  have hlen := h.length_le hne
  rw [hcells, ← append_assoc] at hnodup
  rw [hcells, length_append] at hlen
  have hchain := attachPages_chain (h.chain slot hslot) hid (nodup_append.mp hnodup).1
    (fun page hp => h.ne_invalid (hcells ▸ mem_append_left rest hp)) (by omega)
  have hframe := (attachPages_frame sequenceId slot pages r).mono ((h.chain slot hslot).attachTouched_subset pages)
  have hsame := (attachPages_counters sequenceId slot pages r).2.2 slot
  refine h.rechain (.flight pid) rest (by simp) (by simp) hframe ?_ ?_ (.inl ⟨⟨hslot.1, ?_⟩, hchain, ?_⟩) ?_ ?_
  · rw [hcells, ← append_assoc]
    exact subset_append_left _ _
  · rw [hcells, append_assoc]
  · rw [SequenceEntry.live, hsame]
    exact hslot.2
  · rw [hsame]
    exact h.ids slot hslot
  · intro tag htag page hpage
    -- the pages still in the call's hands are outside what the loop touched
    have hout : page ∉ cells (.chain slot) ++ pages := fun hmem =>
      (nodup_append.mp hnodup).2.2 page hmem page hpage rfl
    rw [hframe.owners page hout]
    exact h.tagged (.flight pid) tag htag page (hcells ▸ mem_append_right pages hpage)
  · exact h.flight_reassign (by simp) _ _

include hres in
/-- Claiming a slot gives it an empty chain. -/
theorem PagesHeld.claim (hcap : slot < cfg.sequenceCapacity)
    (hdead : ¬ (r.sequenceTable slot).live) (hr' : r' = { r with
      sequenceTable := update r.sequenceTable slot { sequenceId := sequenceId } }) :
    PagesHeld cfg r' flight cells := by
  have hslot : (r'.sequenceTable slot) = { sequenceId := sequenceId } := by
    rw [hr']
    exact update_self ..
  have hempty : cells (.chain slot) = [] := h.unused slot fun hlive => hdead hlive.2
  have hlive := live_of_not_reserved (congrArg SequenceEntry.sequenceId hslot) hres
  have hframe : SlotFrame r r' slot [] := by
    rw [hr']
    exact ⟨rfl, rfl, fun s hs => update_of_ne hs _ _, fun _ _ => rfl, fun _ _ => rfl⟩
  have hsame : reassign cells (.chain slot) .resident [] (cells .resident) = cells := by
    rw [reassign, ← hempty, update_eq_self, update_eq_self]
  rw [← hsame]
  refine h.rechain .resident _ (by simp) (by simp) hframe (nil_subset _) ?_
    (.inl ⟨⟨hcap, hlive.1⟩, ?_, hlive.2⟩) ?_ ?_
  · rw [hempty]
  · refine ⟨?_, ?_, ?_, by simp⟩ <;> rw [hslot] <;> rfl
  · intro tag htag page hpage
    rw [hframe.owners page (by simp)]
    exact h.tagged .resident tag htag page hpage
  · intro other
    rw [hsame]
    exact h.flight other

include hres in
/-- **Find or insert** keeps the pages in place and returns a slot in use with the id. -/
theorem PagesHeld.findOrInsert {isNew : Bool} (hfind : SlotFound cfg r sequenceId slot isNew r') :
    PagesHeld cfg r' flight cells ∧ LiveSlot cfg r' slot ∧ (r'.sequenceTable slot).sequenceId = sequenceId := by
  obtain ⟨hcap, ⟨-, rfl, hid⟩ | ⟨-, hdead, hr'⟩⟩ := hfind.cases
  · exact ⟨h, ⟨hcap, (live_of_not_reserved hid hres).1⟩, hid⟩
  · have hid : (r'.sequenceTable slot).sequenceId = sequenceId := by
      rw [hr']
      simp
    exact ⟨h.claim hres hcap hdead hr', ⟨hcap, (live_of_not_reserved hid hres).1⟩, hid⟩

include hfit hres in
/-- The sequence section of `AcquirePages`: on success the pages are in the chain, on failure they are
still in the call's hands and the region is unchanged. -/
theorem PagesHeld.acquirePagesAttach (hpages : flight pid = pages) :
    (∃ e, acquirePagesAttach cfg sequenceId pages r = (.error e, r)) ∨
      ∃ r', acquirePagesAttach cfg sequenceId pages r = (.ok (), r') ∧
        ∃ cells', PagesHeld cfg r' (update flight pid []) cells' := by
  unfold HostPagedKV.acquirePagesAttach
  split
  · exact Or.inl ⟨_, rfl⟩
  rename_i slot isNew r₁ hfind
  obtain ⟨h₁, hslot, hid⟩ := h.findOrInsert hres hfind
  have hpages' : flight pid = pages ++ [] := by rw [hpages, append_nil]
  -- counting a new entry changes nothing the invariant reads
  have hcounted : PagesHeld cfg (if isNew then countInserted r₁ else r₁) flight cells ∧
      LiveSlot cfg (if isNew then countInserted r₁ else r₁) slot ∧
      ((if isNew then countInserted r₁ else r₁).sequenceTable slot).sequenceId = sequenceId := by
    cases isNew with
    | false => exact ⟨h₁, hslot, hid⟩
    | true => exact ⟨h₁.congr rfl rfl rfl rfl rfl, hslot, hid⟩
  exact Or.inr ⟨_, rfl, _, hcounted.1.attach hfit hcounted.2.1 hcounted.2.2 hpages'⟩

end

/-! ### The release paths -/

include hres in
/-- A found slot of an id that is not reserved is in use. -/
theorem liveSlot_of_find (hfind : findSequenceEntryLocked cfg r sequenceId = some slot) : LiveSlot cfg r slot := by
  obtain ⟨hcap, hid⟩ := findSequenceEntryLocked_some hfind
  exact ⟨hcap, (live_of_not_reserved hid hres).1⟩

include h in
omit [DecidableEq Pid] in
/-- A chain fits the loop bound of the release and retain paths. -/
theorem PagesHeld.chain_length_le (slot : ℕ) : (cells (.chain slot)).length ≤ cfg.numPages := by
  have hlen := h.length_le (p := .chain slot) (q := .free) (by simp)
  omega

include h in
/-- Taking a front segment off a chain into the empty hands of a call; the section may write
anything into the slot that owns the rest. -/
theorem PagesHeld.detach (slot count : ℕ) (hidle : flight pid = [])
    (hstack : r'.freeStack = r.freeStack) (htop : r'.freeStackTop = r.freeStackTop)
    (howners : r'.pageOwners = (clearPages r ((cells (.chain slot)).take count)).pageOwners)
    (hlinks : r'.pageLinks = (clearPages r ((cells (.chain slot)).take count)).pageLinks)
    (htable : ∀ s, s ≠ slot → r'.sequenceTable s = r.sequenceTable s)
    (hmine : SlotHeld cfg r' slot ((cells (.chain slot)).drop count)) :
    ∃ cells', PagesHeld cfg r' (update flight pid ((cells (.chain slot)).take count)) cells' := by
  have hframe : SlotFrame r r' slot ((cells (.chain slot)).take count) := by
    refine ⟨hstack, htop, htable, fun page hp => ?_, fun page hp => ?_⟩
    · rw [howners, clearPages_owners, if_neg hp]
    · rw [hlinks, clearPages_links, if_neg hp]
  refine ⟨_, h.rechain (.flight pid) ((cells (.chain slot)).take count) (by simp) (by simp) hframe
    ?_ ?_ hmine ?_ ?_⟩
  · exact fun page hp => mem_append_left _ (mem_of_mem_take hp)
  · rw [h.flight, hidle, append_nil]
    refine perm_append_comm.trans ?_
    rw [take_append_drop]
  · intro tag htag page hpage
    rw [howners, clearPages_owners, if_pos hpage]
    exact Option.some.inj htag
  · exact h.flight_reassign (by simp) _ _

omit [DecidableEq Pid] in
theorem not_liveSlot_of_tombstone (h : r.sequenceTable slot = tombstoneEntry) : ¬ LiveSlot cfg r slot := by
  rintro ⟨-, -, hlive⟩
  rw [h] at hlive
  exact hlive rfl

/-- The section fails and changes nothing, or it puts pages into the call's hands. -/
def Detached (cfg : HostPagedKVConfig) (r : Region) (flight : Pid → List ℤ) (pid : Pid)
    (out : Except BackendError (List ℤ) × Region) : Prop :=
  (∃ e, out = (.error e, r)) ∨
    ∃ pages r', out = (.ok pages, r') ∧ ∃ cells, PagesHeld cfg r' (update flight pid pages) cells

include h hidle hres in
/-- **The sequence section of `ReleaseSequence`** puts the whole chain into the call's hands. -/
theorem PagesHeld.releaseSequenceDetach : Detached cfg r flight pid (releaseSequenceDetach cfg sequenceId r) := by
  unfold HostPagedKV.releaseSequenceDetach
  split
  · exact Or.inl ⟨_, rfl⟩
  rename_i slot hfind
  have hslot := liveSlot_of_find hres hfind
  have hlen := h.chain_length_le slot
  have hdrop : (cells (.chain slot)).drop (cfg.numPages + 1) = [] := drop_of_length_le (by omega)
  rw [detachFront_spec (h.chain slot hslot).chain]
  refine Or.inr ⟨_, _, rfl, h.detach slot (cfg.numPages + 1) hidle ?_ ?_ rfl rfl ?_ (.inr ⟨?_, hdrop⟩)⟩
  · exact clearPages_stack _ r
  · exact clearPages_top _ r
  · intro s hs
    rw [clearPages_table]
    exact update_of_ne hs _ _
  · exact not_liveSlot_of_tombstone (update_self ..)

/-- The entry `ReleasePrefixPages` leaves behind owns the rest of the chain. -/
theorem SlotChain.drop (h : SlotChain r slot chain) (hentry : entry =
      { r.sequenceTable slot with
        headPage := (chain.drop count).headD kInvalidPageIndex
        numPages := (r.sequenceTable slot).numPages - count
        tailPage := if (r.sequenceTable slot).numPages - count = 0 then kInvalidPageIndex
          else (r.sequenceTable slot).tailPage }) (hslot : r'.sequenceTable slot = entry)
    (howners : r'.pageOwners = (clearPages r (chain.take count)).pageOwners)
    (hlinks : r'.pageLinks = (clearPages r (chain.take count)).pageLinks) :
    SlotChain r' slot (chain.drop count) := by
  have hsplit : chain.take count ++ chain.drop count = chain := take_append_drop count chain
  have hlen : (r.sequenceTable slot).numPages - count = (chain.drop count).length := by
    rw [h.count, length_drop]
  have hout : ∀ page ∈ chain.drop count, page ∉ chain.take count := by
    intro page hdrop htake
    have hnodup := h.chain.nodup
    rw [← hsplit] at hnodup
    exact (nodup_append.mp hnodup).2.2 page htake page hdrop rfl
  refine ⟨?_, ?_, ?_, ?_⟩
  · have hchain := h.chain
    rw [← hsplit] at hchain
    rw [hslot, hentry]
    apply hchain.drop.congr
    intro page hpage
    rw [hlinks, clearPages_links, if_neg (hout page hpage)]
  · rw [hslot, hentry]
    exact hlen
  · rw [hslot, hentry]
    show (if (r.sequenceTable slot).numPages - count = 0 then kInvalidPageIndex
      else (r.sequenceTable slot).tailPage) = _
    rw [hlen]
    by_cases hempty : chain.drop count = []
    · rw [hempty]
      rfl
    · have hlast : lastCell kInvalidPageIndex (chain.take count ++ chain.drop count) =
          lastCell kInvalidPageIndex (chain.drop count) := lastCell_append_of_ne_nil hempty
      rw [if_neg (fun hzero => hempty (length_eq_zero_iff.mp hzero)), h.tail, ← hlast, hsplit]
  · intro page hpage
    rw [howners, clearPages_owners, if_neg (hout page hpage), hslot, hentry]
    exact h.owned page (mem_of_mem_drop hpage)

include hfit h hidle hres in
/-- **The sequence section of `ReleasePrefixPages`** puts the first pages of the chain into the call's
hands; the corrupt-chain error is out of reach. -/
theorem PagesHeld.releasePrefixPagesDetach {numPages : ℕ} :
    Detached cfg r flight pid (releasePrefixPagesDetach cfg sequenceId numPages r) := by
  unfold HostPagedKV.releasePrefixPagesDetach
  split
  · exact Or.inl ⟨_, rfl⟩
  rename_i slot hfind
  have hslot := liveSlot_of_find hres hfind
  have hchain := h.chain slot hslot
  have hlen := h.chain_length_le slot
  dsimp only
  split
  · exact Or.inl ⟨_, rfl⟩
  rename_i hnum
  rw [hchain.count, not_lt] at hnum
  have hu32 : u32 numPages = numPages := u32_of_lt (by omega)
  rw [detachFront_spec hchain.chain, hu32]
  dsimp only
  rw [if_neg (by rw [length_take]; omega)]
  refine Or.inr ⟨_, _, rfl, h.detach slot numPages hidle ?_ ?_ rfl rfl ?_
    (.inl ⟨⟨hslot.1, ?_⟩, hchain.drop rfl (update_self ..) rfl rfl, ?_⟩)⟩
  · exact clearPages_stack _ r
  · exact clearPages_top _ r
  · intro s hs
    rw [clearPages_table]
    exact update_of_ne hs _ _
  · simp only [update_self]
    exact hslot.2
  · simp only [update_self]
    exact h.ids slot hslot

/-! ### Retained and resident pages -/

/-- An entry without pages already has no head and no tail. -/
theorem SlotChain.resetEmptyEntry_eq (h : SlotChain r slot chain) :
    resetEmptyEntry (r.sequenceTable slot) = r.sequenceTable slot := by
  unfold resetEmptyEntry
  split
  · rename_i hzero
    have hnil : chain = [] := length_eq_zero_iff.mp (h.count.symm.trans hzero)
    have hhead := h.chain
    have htail := h.tail
    rw [hnil] at hhead htail
    rw [LinkedChain.isChain_nil] at hhead
    rw [lastCell_nil] at htail
    exact SequenceEntry.ext rfl rfl hhead.symm htail.symm
  · rfl

include h hres in
/-- **The section of `RetainPages`** moves the requested pages of the chain into the resident set. -/
theorem PagesHeld.retainPages (pageIds : List ℤ) : (∃ e, retainPages cfg sequenceId pageIds r = (.error e, r)) ∨
      ∃ r', retainPages cfg sequenceId pageIds r = (.ok pageIds, r') ∧ ∃ cells', PagesHeld cfg r' flight cells' := by
  unfold HostPagedKV.retainPages
  split
  · exact Or.inl ⟨_, rfl⟩
  rename_i slot hfind
  split
  · exact Or.inl ⟨_, rfl⟩
  dsimp only
  split
  · exact Or.inl ⟨_, rfl⟩
  have hslot := liveSlot_of_find hres hfind
  have hchain := h.chain slot hslot
  have hlen := h.chain_length_le slot
  have hun : Unlinked pageIds slot [] (cells (.chain slot)) r
      (unlinkRequested pageIds slot (cfg.numPages + 1) kInvalidPageIndex (r.sequenceTable slot).headPage r) := by
    rw [hchain.chain.head_eq]
    exact unlinkRequested_spec hchain (by omega)
  rw [hun.chain.resetEmptyEntry_eq, update_eq_self]
  refine Or.inr ⟨_, rfl, _, h.rechain .resident
    ((cells (.chain slot)).filter (· ∈ pageIds) ++ cells .resident) (by simp) (by simp)
    hun.frame (subset_append_left _ _) ?_ (.inl ⟨⟨hslot.1, ?_⟩, hun.chain, ?_⟩) ?_ ?_⟩
  · rw [nil_append, ← append_assoc]
    refine List.Perm.append_right _ (perm_append_comm.trans ?_)
    have hsplit := filter_append_perm (fun page => decide (page ∈ pageIds)) (cells (.chain slot))
    simpa using hsplit
  · rw [SequenceEntry.live, hun.sequenceId]
    exact hslot.2
  · rw [hun.sequenceId]
    exact h.ids slot hslot
  · intro tag htag page hpage
    rcases mem_append.mp hpage with hpage | hpage
    · rw [mem_filter, decide_eq_true_iff] at hpage
      rw [hun.resident page hpage.1 hpage.2]
      exact Option.some.inj htag
    have hout : page ∉ [] ++ cells (.chain slot) := by
      intro hmem
      have hsame := h.placement.disjoint _ _ page hpage hmem
      simp at hsame
    rw [hun.frame.owners page hout]
    exact h.tagged .resident tag htag page hpage
  · intro other
    rw [reassign_other (by simp) (by simp)]
    exact h.flight other

/-- A page list that passes the checks has no duplicates, and every page is in range and owned as the
call requires. -/
theorem checkPageList_ok {call : PageListCall} {owner : ℤ} {notOwned : ℤ → BackendError} :
    ∀ {pages seen : List ℤ}, checkPageList cfg call owner notOwned r seen pages = .ok () → pages.Nodup ∧
        ∀ page ∈ pages, page ∉ seen ∧ InRange cfg page ∧ r.pageOwners page = owner := by
  intro pages
  induction pages with
  | nil =>
    intro seen _
    simp
  | cons page pages ih =>
    intro seen h
    rw [checkPageList] at h
    split at h
    · cases h
    rename_i hrange
    split at h
    · cases h
    rename_i hseen
    split at h
    · cases h
    rename_i howner
    obtain ⟨hnodup, hall⟩ := ih h
    refine ⟨nodup_cons.mpr ⟨fun hmem => ?_, hnodup⟩, ?_⟩
    · exact (hall page hmem).1 mem_cons_self
    · intro p hp
      rcases mem_cons.mp hp with rfl | hp
      · exact ⟨hseen, not_not.mp hrange, not_not.mp howner⟩
      · obtain ⟨hout, hin⟩ := hall p hp
        exact ⟨fun hmem => hout (mem_cons_of_mem page hmem), hin⟩

include h in
omit [DecidableEq Pid] in
/-- The owner tag tells the resident pages: no other place carries it. -/
theorem PagesHeld.mem_resident {page : ℤ}
    (hrange : InRange cfg page) (howner : r.pageOwners page = kPrefixResidentSequenceId) : page ∈ cells .resident := by
  have hne : kEmptySequenceId ≠ kPrefixResidentSequenceId := by decide
  obtain ⟨place, hplace⟩ := h.placement.cover page hrange
  cases place with
  | free => exact absurd ((h.tagged .free _ rfl page hplace).symm.trans howner) hne
  | flight pid => exact absurd ((h.tagged (.flight pid) _ rfl page hplace).symm.trans howner) hne
  | resident => exact hplace
  | chain slot =>
    by_cases hslot : LiveSlot cfg r slot
    · have hid := (h.chain slot hslot).owned page hplace
      exact absurd (hid.symm.trans howner) (h.ids slot hslot)
    · rw [h.unused slot hslot] at hplace
      simp at hplace

include h hidle in
/-- **The sequence section of `ReleaseResidentPages`** takes resident pages into the call's hands. -/
theorem PagesHeld.releaseResidentPagesClear (pageIds : List ℤ) :
    Detached cfg r flight pid (releaseResidentPagesClear cfg pageIds r) := by
  unfold HostPagedKV.releaseResidentPagesClear
  split
  · exact Or.inl ⟨_, rfl⟩
  · rename_i hcheck
    obtain ⟨hnodup, hall⟩ := checkPageList_ok hcheck
    exact Or.inr ⟨_, _, rfl, _, h.clearResident hidle hnodup fun page hp =>
      h.mem_resident (hall page hp).2.1 (hall page hp).2.2⟩

end Batchgen.HostPagedKV
