import Batchgen.HostPagedKV.SlotChain
import Batchgen.Library.Placement

/-!
# Where the pages of a region are

`PagesHeld cfg r flight cells` is the allocator's invariant: the lists `cells`, one per place, hold
every page of the region exactly once, and they are what the region and the running calls say they are.
A place is the free stack, the chain of a table slot, the prefix-resident set, or the hands of a call.

Each section of a call exchanges pages between two places.  The exchange rules of this file are all the
later proofs use:

* `PagesHeld.restack` — between the free stack and a call;
* `PagesHeld.rechain` — between a chain and a call, or a chain and the resident set;
* `PagesHeld.clearResident` — from the resident set into a call.
-/

namespace Batchgen.HostPagedKV

open MachineInt Function List

variable {Pid : Type*} {page : ℤ} {flight : Pid → List ℤ} {chain pages : List ℤ} {cfg : HostPagedKVConfig} {r : Region}
  {slot : ℕ}

inductive Place (Pid : Type*) where
  | free
  | chain (slot : ℕ)
  | resident
  | flight (pid : Pid)
  deriving DecidableEq

/-- The owner id a page carries in a place; in a chain it is the entry's id. -/
def Place.tag : Place Pid → Option ℤ
  | .free => some kEmptySequenceId
  | .chain _ => none
  | .resident => some kPrefixResidentSequenceId
  | .flight _ => some kEmptySequenceId

/-- The pages on the free stack, lowest position first. -/
def freePages (r : Region) : List ℤ := stackSlice r 0 r.freeStackTop

/-- A table slot in use. -/
def LiveSlot (cfg : HostPagedKVConfig) (r : Region) (slot : ℕ) : Prop :=
  slot < cfg.sequenceCapacity ∧ (r.sequenceTable slot).live

structure PagesHeld (cfg : HostPagedKVConfig) (r : Region) (flight : Pid → List ℤ)
    (cells : Place Pid → List ℤ) : Prop where
  placement : Placement (InRange cfg) cells
  free : cells .free = freePages r
  flight : ∀ pid, cells (.flight pid) = flight pid
  chain : ∀ slot, LiveSlot cfg r slot → SlotChain r slot (cells (.chain slot))
  unused : ∀ slot, ¬ LiveSlot cfg r slot → cells (.chain slot) = []
  ids : ∀ slot, LiveSlot cfg r slot → (r.sequenceTable slot).sequenceId ≠ kPrefixResidentSequenceId
  tagged : ∀ place tag, place.tag = some tag → ∀ page ∈ cells place, r.pageOwners page = tag

/-! ### Counting -/

/-- Every page id of the region. -/
def allPages (cfg : HostPagedKVConfig) : List ℤ := (List.range cfg.numPages).map Int.ofNat

theorem mem_allPages (h : InRange cfg page) : page ∈ allPages cfg := by
  obtain ⟨hlo, hhi⟩ := h
  have hlt : page.toNat < cfg.numPages := by omega
  exact mem_map.mpr ⟨page.toNat, mem_range.mpr hlt, Int.toNat_of_nonneg hlo⟩

theorem allPages_length (cfg : HostPagedKVConfig) : (allPages cfg).length = cfg.numPages := by
  simp [allPages]

/-- Two places together hold at most `num_pages` pages. -/
theorem PagesHeld.length_le {cells : Place Pid → List ℤ} (h : PagesHeld cfg r flight cells) {p q : Place Pid}
    (hpq : p ≠ q) : (cells p).length + (cells q).length ≤ cfg.numPages := by
  rw [← allPages_length cfg]
  exact h.placement.length_append_le hpq fun page hp => mem_allPages hp

theorem PagesHeld.ne_invalid {cells : Place Pid → List ℤ} (h : PagesHeld cfg r flight cells) {p : Place Pid}
    (hp : page ∈ cells p) : page ≠ kInvalidPageIndex := by
  have hrange := (h.placement.mem_univ p page hp).1
  unfold kInvalidPageIndex
  omega

/-! ### The free stack -/

@[simp] theorem stackSlice_length (r : Region) (start count : ℕ) : (stackSlice r start count).length = count := by
  simp [stackSlice]

theorem stackSlice_append (r : Region) (start m n : ℕ) :
    stackSlice r start (m + n) = stackSlice r start m ++ stackSlice r (start + m) n := by
  simp only [stackSlice, range_add, map_append, map_map]
  congr 1
  apply map_congr_left
  intro i _
  simp [Nat.add_assoc]

/-- One push puts the page on top. -/
theorem freePages_pushPage (page : ℤ) (h : r.freeStackTop + 1 < 2 ^ 32) :
    freePages (pushPage r page) = freePages r ++ [page] := by
  simp only [freePages, pushPage]
  rw [u32_of_lt h, stackSlice_append, Nat.zero_add]
  congr 1
  · apply map_congr_left
    intro i hi
    rw [mem_range] at hi
    exact update_of_ne (by omega) _ _
  · simp [stackSlice]

/-- **The push loop** puts the pages on top in order and writes only the stack. -/
theorem pushPages_spec (pages : List ℤ) (r : Region) (h : r.freeStackTop + pages.length < 2 ^ 32) :
    freePages (pushPages r pages) = freePages r ++ pages ∧ (pushPages r pages).pageOwners = r.pageOwners ∧
      (pushPages r pages).pageLinks = r.pageLinks ∧ (pushPages r pages).sequenceTable = r.sequenceTable := by
  induction pages generalizing r with
  | nil => simp [pushPages]
  | cons page pages ih =>
    rw [length_cons] at h
    have htop : (pushPage r page).freeStackTop = r.freeStackTop + 1 := u32_of_lt (by omega)
    have hrec := ih (pushPage r page) (by rw [htop]; omega)
    rw [freePages_pushPage page (by omega), append_assoc, singleton_append] at hrec
    exact hrec

/-! ### Chains that stay -/

section

variable {r' : Region} {cells : Place Pid → List ℤ}

/-- Only the table decides which slots are in use. -/
theorem LiveSlot.congr (h : r'.sequenceTable slot = r.sequenceTable slot) :
    LiveSlot cfg r' slot ↔ LiveSlot cfg r slot := by
  unfold LiveSlot
  rw [h]

theorem SlotChain.congr (h : SlotChain r slot chain) (howners : r'.pageOwners = r.pageOwners)
    (hlinks : r'.pageLinks = r.pageLinks) (htable : r'.sequenceTable = r.sequenceTable) : SlotChain r' slot chain :=
  h.of_eq (congrFun htable slot) (fun page _ => congrFun hlinks page) fun page _ => congrFun howners page

/-- A slot is back to what it was, or was unused before and is unused again. -/
def SlotRestored (r cur : Region) (slot : ℕ) : Prop :=
  cur.sequenceTable slot = r.sequenceTable slot ∨
    (¬ (r.sequenceTable slot).live ∧ ¬ (cur.sequenceTable slot).live)

theorem SlotRestored.liveSlot_iff (h : SlotRestored r r' slot) : LiveSlot cfg r' slot ↔ LiveSlot cfg r slot := by
  rcases h with heq | ⟨hdead, hdead'⟩
  · exact LiveSlot.congr heq
  · exact iff_of_false (fun hlive => hdead' hlive.2) fun hlive => hdead hlive.2

theorem SlotRestored.entry_eq (h : SlotRestored r r' slot) (hlive : LiveSlot cfg r' slot) :
    r'.sequenceTable slot = r.sequenceTable slot := by
  rcases h with heq | ⟨-, hdead⟩
  · exact heq
  · exact absurd hlive.2 hdead

variable (h : PagesHeld cfg r flight cells)
include h

/-- **Where no chain changes**: the slots are as they were, and so are the links and owners of the chained pages. -/
theorem PagesHeld.of_chains {flight' : Pid → List ℤ} {cells' : Place Pid → List ℤ}
    (hslots : ∀ slot, SlotRestored r r' slot) (hcells : ∀ slot, cells' (.chain slot) = cells (.chain slot))
    (hlinks : ∀ slot, ∀ page ∈ cells (.chain slot), r'.pageLinks page = r.pageLinks page)
    (howners : ∀ slot, ∀ page ∈ cells (.chain slot), r'.pageOwners page = r.pageOwners page)
    (hplacement : Placement (InRange cfg) cells') (hfree : cells' .free = freePages r')
    (hflight : ∀ pid, cells' (.flight pid) = flight' pid)
    (htagged : ∀ place tag, place.tag = some tag → ∀ page ∈ cells' place, r'.pageOwners page = tag) :
    PagesHeld cfg r' flight' cells' := by
  refine ⟨hplacement, hfree, hflight, fun slot hslot => ?_, fun slot hslot => ?_, fun slot hslot => ?_, htagged⟩
  · rw [hcells]
    exact (h.chain slot ((hslots slot).liveSlot_iff.mp hslot)).of_eq ((hslots slot).entry_eq hslot) (hlinks slot)
      (howners slot)
  · rw [hcells]
    exact h.unused slot fun hslot' => hslot ((hslots slot).liveSlot_iff.mpr hslot')
  · rw [(hslots slot).entry_eq hslot]
    exact h.ids slot ((hslots slot).liveSlot_iff.mp hslot)

/-- A region in which every slot is restored, and no owner and no link of a chain differs, holds the
same pages. -/
theorem PagesHeld.restored (hstack : r'.freeStack = r.freeStack) (htop : r'.freeStackTop = r.freeStackTop)
    (howners : r'.pageOwners = r.pageOwners)
    (hlinks : ∀ slot, ∀ page ∈ cells (.chain slot), r'.pageLinks page = r.pageLinks page)
    (htable : ∀ slot, SlotRestored r r' slot) : PagesHeld cfg r' flight cells := by
  refine h.of_chains htable (fun _ => rfl) hlinks (fun _ page _ => congrFun howners page) h.placement ?_ h.flight ?_
  · rw [h.free, freePages, freePages, htop]
    simp only [stackSlice, hstack]
  · rw [howners]
    exact h.tagged

/-- Counters are not part of the invariant. -/
theorem PagesHeld.congr (hstack : r'.freeStack = r.freeStack) (htop : r'.freeStackTop = r.freeStackTop)
    (howners : r'.pageOwners = r.pageOwners) (hlinks : r'.pageLinks = r.pageLinks)
    (htable : r'.sequenceTable = r.sequenceTable) : PagesHeld cfg r' flight cells :=
  h.restored hstack htop howners (fun _ page _ => congrFun hlinks page) fun slot => Or.inl (congrFun htable slot)

end

/-! ### The exchange rules -/

/-- A slot in use owns `chain`, and an unused one no pages. -/
def SlotHeld (cfg : HostPagedKVConfig) (r : Region) (slot : ℕ) (chain : List ℤ) : Prop :=
  LiveSlot cfg r slot ∧ SlotChain r slot chain ∧ (r.sequenceTable slot).sequenceId ≠ kPrefixResidentSequenceId ∨
    ¬ LiveSlot cfg r slot ∧ chain = []

section Exchange

variable [DecidableEq Pid] {r' : Region} {cells : Place Pid → List ℤ}

/-- Give two places new lists. -/
def reassign (cells : Place Pid → List ℤ) (p q : Place Pid) (ps qs : List ℤ) :
    Place Pid → List ℤ :=
  update (update cells p ps) q qs

@[simp] theorem reassign_right (p q : Place Pid) (ps qs : List ℤ) : reassign cells p q ps qs q = qs := update_self ..

theorem reassign_left {p q : Place Pid} (hpq : p ≠ q) (ps qs : List ℤ) : reassign cells p q ps qs p = ps := by
  rw [reassign, update_of_ne hpq, update_self]

theorem reassign_other {p q place : Place Pid} (hp : place ≠ p) (hq : place ≠ q)
    (ps qs : List ℤ) : reassign cells p q ps qs place = cells place := by
  rw [reassign, update_of_ne hq, update_of_ne hp]

theorem Placement.reassign {p q : Place Pid} {ps qs : List ℤ} (h : Placement (InRange cfg) cells) (hpq : p ≠ q)
    (hperm : (ps ++ qs).Perm (cells p ++ cells q)) :
    Placement (InRange cfg) (HostPagedKV.reassign cells p q ps qs) := by
  refine h.move hpq ?_ fun place hp hq => reassign_other hp hq ps qs
  rw [reassign_left hpq, reassign_right]
  exact hperm

section

variable (h : PagesHeld cfg r flight cells)
include h

/-- The pages a call has in its hands after a section that gave it `pages`. -/
theorem PagesHeld.flight_reassign {place : Place Pid} (hplace : ∀ other, .flight other ≠ place) (rest pages : List ℤ)
    (other : Pid) : reassign cells place (.flight pid) rest pages (.flight other) = update flight pid pages other := by
  by_cases hpid : other = pid
  · rw [hpid, reassign_right, update_self]
  · rw [reassign_other (hplace other) (by simp [hpid]), update_of_ne hpid]
    exact h.flight other

/-- **Between the free stack and a call.**  A section that only moves pages across the top of the
stack keeps the invariant. -/
theorem PagesHeld.restack (pid : Pid) (hperm : (freePages r' ++ pages).Perm (freePages r ++ flight pid))
    (howners : r'.pageOwners = r.pageOwners) (hlinks : r'.pageLinks = r.pageLinks)
    (htable : r'.sequenceTable = r.sequenceTable) :
    PagesHeld cfg r' (update flight pid pages) (reassign cells .free (.flight pid) (freePages r') pages) := by
  have hne : (Place.free : Place Pid) ≠ .flight pid := by simp
  refine h.of_chains (fun slot => Or.inl (congrFun htable slot)) (fun _ => reassign_other (by simp) (by simp) _ _)
    (fun _ page _ => congrFun hlinks page) (fun _ page _ => congrFun howners page) ?_ (reassign_left hne _ _)
    (h.flight_reassign (by simp) _ _) ?_
  · apply Placement.reassign h.placement hne
    rw [h.free, h.flight]
    exact hperm
  · intro place tag htag page hpage
    rw [howners]
    -- a page of either place was on the stack or in the call's hands, and both carry the empty tag
    have hempty : page ∈ freePages r' ++ pages → r.pageOwners page = kEmptySequenceId := by
      intro hmem
      rcases mem_append.mp (hperm.mem_iff.mp hmem) with hmem | hmem
      · exact h.tagged .free _ rfl page (h.free ▸ hmem)
      · exact h.tagged (.flight pid) _ rfl page (h.flight pid ▸ hmem)
    by_cases hfree : place = .free
    · subst hfree
      rw [reassign_left hne] at hpage
      exact (hempty (mem_append_left _ hpage)).trans (Option.some.inj htag)
    by_cases hfl : place = .flight pid
    · subst hfl
      rw [reassign_right] at hpage
      exact (hempty (mem_append_right _ hpage)).trans (Option.some.inj htag)
    · rw [reassign_other hfree hfl] at hpage
      exact h.tagged place tag htag page hpage

/-- **Between a chain and another place.**  A section that rewrites one slot, and touches only pages of
its chain and of the place it exchanges them with, keeps the invariant. -/
theorem PagesHeld.rechain (place : Place Pid) (others : List ℤ) {flight' : Pid → List ℤ} {touched : List ℤ}
    (hplace : ∀ s, place ≠ .chain s) (hfree : place ≠ .free) (hframe : SlotFrame r r' slot touched)
    (htouched : touched ⊆ cells (.chain slot) ++ cells place)
    (hperm : (chain ++ others).Perm (cells (.chain slot) ++ cells place))
    (hmine : SlotHeld cfg r' slot chain)
    (htag : ∀ tag, place.tag = some tag → ∀ page ∈ others, r'.pageOwners page = tag)
    (hflight : ∀ pid, reassign cells (.chain slot) place chain others (.flight pid) = flight' pid) :
    PagesHeld cfg r' flight' (reassign cells (.chain slot) place chain others) := by
  have hne : Place.chain slot ≠ place := (hplace slot).symm
  have hlive : ∀ s, s ≠ slot → (LiveSlot cfg r' s ↔ LiveSlot cfg r s) := fun s hs =>
    LiveSlot.congr (hframe.table s hs)
  have hother : ∀ s, s ≠ slot →
      reassign cells (.chain slot) place chain others (.chain s) = cells (.chain s) := fun s hs =>
    reassign_other (by simp [hs]) (hplace s).symm _ _
  -- pages of a third place are outside what the section touches
  have hfar : ∀ q, q ≠ .chain slot → q ≠ place → ∀ page ∈ cells q, page ∉ touched := by
    intro q hq hq' page hpage hmem
    rcases mem_append.mp (htouched hmem) with hmem | hmem
    · exact hq (h.placement.disjoint q _ page hpage hmem)
    · exact hq' (h.placement.disjoint q _ page hpage hmem)
  refine ⟨Placement.reassign h.placement hne hperm, ?_, hflight, ?_, ?_, ?_, ?_⟩
  · rw [reassign_other (by simp) hfree.symm, h.free, freePages, freePages, hframe.top]
    simp only [stackSlice, hframe.stack]
  · intro s hs
    by_cases hslot : s = slot
    · subst hslot
      rw [reassign_left hne]
      exact (hmine.resolve_right fun hdead => hdead.1 hs).2.1
    · rw [hother s hslot]
      exact (h.chain s ((hlive s hslot).mp hs)).frame hframe hslot (hfar (.chain s) (by simp [hslot]) (hplace s).symm)
  · intro s hs
    by_cases hslot : s = slot
    · subst hslot
      rw [reassign_left hne]
      exact (hmine.resolve_left fun hlive => hs hlive.1).2
    · rw [hother s hslot]
      exact h.unused s fun hs' => hs ((hlive s hslot).mpr hs')
  · intro s hs
    by_cases hslot : s = slot
    · subst hslot
      exact (hmine.resolve_right fun hdead => hdead.1 hs).2.2
    · rw [hframe.table s hslot]
      exact h.ids s ((hlive s hslot).mp hs)
  · intro q tag hqtag page hpage
    by_cases hq : q = .chain slot
    · subst hq
      cases hqtag
    by_cases hq' : q = place
    · subst hq'
      rw [reassign_right] at hpage
      exact htag tag hqtag page hpage
    · rw [reassign_other hq hq'] at hpage
      rw [hframe.owners page (hfar q hq hq' page hpage)]
      exact h.tagged q tag hqtag page hpage

/-- **From the resident set into a call**: the pages are cleared on the way. -/
theorem PagesHeld.clearResident {pid : Pid} (hflight : flight pid = []) (hnodup : pages.Nodup)
    (hpages : ∀ page ∈ pages, page ∈ cells .resident) :
    PagesHeld cfg (clearPages r pages) (update flight pid pages) (reassign cells .resident (.flight pid)
        ((cells .resident).filter (· ∉ pages)) pages) := by
  have hne : (Place.resident : Place Pid) ≠ .flight pid := by simp
  have hfar : ∀ q, q ≠ .resident → ∀ page ∈ cells q, page ∉ pages := fun q hq page hpage hmem =>
    hq (h.placement.disjoint q _ page hpage (hpages page hmem))
  refine h.of_chains (fun slot => Or.inl (congrFun (clearPages_table pages r) slot))
    (fun _ => reassign_other (by simp) (by simp) _ _) (fun slot page hpage => ?_) (fun slot page hpage => ?_) ?_ ?_
    (h.flight_reassign (by simp) _ _) ?_
  · rw [clearPages_links, if_neg (hfar (.chain slot) (by simp) page hpage)]
  · rw [clearPages_owners, if_neg (hfar (.chain slot) (by simp) page hpage)]
  · apply Placement.reassign h.placement hne
    rw [h.flight, hflight, append_nil]
    have hpick : ((cells .resident).filter (· ∈ pages)).Perm pages := by
      rw [perm_ext_iff_of_nodup ((h.placement.nodup _).filter _) hnodup]
      intro page
      rw [mem_filter, decide_eq_true_iff]
      exact ⟨fun hmem => hmem.2, fun hmem => ⟨hpages page hmem, hmem⟩⟩
    have hsplit := filter_append_perm (fun page => decide (page ∈ pages)) (cells .resident)
    refine (perm_append_comm.trans (List.Perm.append hpick.symm ?_)).trans hsplit
    simp
  · rw [reassign_other (by simp) (by simp), h.free, clearPages_rest]
    rfl
  · intro q tag htag page hpage
    rw [clearPages_owners]
    by_cases hq : q = .flight pid
    · subst hq
      rw [reassign_right] at hpage
      rw [if_pos hpage]
      exact Option.some.inj htag
    · by_cases hq' : q = .resident
      · subst hq'
        rw [reassign_left hne, mem_filter, decide_eq_true_iff] at hpage
        rw [if_neg hpage.2]
        exact h.tagged _ tag htag page hpage.1
      · rw [reassign_other hq' hq] at hpage
        rw [if_neg (hfar q hq' page hpage)]
        exact h.tagged q tag htag page hpage

end

end Exchange

end Batchgen.HostPagedKV
