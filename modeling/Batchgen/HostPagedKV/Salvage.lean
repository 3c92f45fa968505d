import Batchgen.HostPagedKV.Killed
import Batchgen.HostPagedKV.PagePartition

/-!
# What a killed process cannot break

`Salvage cfg r held spot chain` is what is left of the page partition once processes can be killed at
any write: a page may be nowhere, but it is never in two places.  `spot` gives every page at most one
place, and the free stack, the hands of the running calls, the chains behind the heads of live entries
and the resident pages all agree with it.  Nothing is said about counts, tails or owners of chained
pages, and a chain may have lost pages.

Losing pages needs no argument (`Salvage.lose`), so most writes keep the invariant for free:

* `Salvage.entry_rewritten` — a table entry is rewritten and keeps a part of its chain;
* `Salvage.link` — a link is rewritten and every chain keeps a part of itself;
* `Salvage.move` — pages change their place; the only rule that looks at where they were.
-/

namespace Batchgen.LinkedChain

variable {α : Type*} [DecidableEq α] {stop : α} {links : α → α}

/-- **Cutting a link** leaves every walk a front part of what it was. -/
theorem IsChain.truncate {head c : α} {cells : List α} (h : IsChain stop links head cells) :
    ∃ kept, IsChain stop (Function.update links c stop) head kept ∧ kept ⊆ cells := by
  induction cells generalizing head with
  | nil => exact ⟨[], h, List.Subset.refl _⟩
  | cons d ds ih =>
    by_cases hd : d = c
    · refine ⟨[d], ⟨h.1, h.2.1, ?_⟩, by simp⟩
      rw [hd, Function.update_self]
      rfl
    · obtain ⟨kept, hkept, hsub⟩ := ih h.2.2
      refine ⟨d :: kept, ⟨h.1, h.2.1, ?_⟩, List.cons_subset_cons d hsub⟩
      rw [Function.update_of_ne hd]
      exact hkept

end Batchgen.LinkedChain

namespace Batchgen.HostPagedKV

open LinkedChain Function List

variable {Pid : Type*} {cfg : HostPagedKVConfig} {r r' : Region} {held held' : Pid → List ℤ} {spot : ℤ → Place Pid}
  {chain chain' : ℕ → List ℤ} {slot top : ℕ} {page : ℤ} {pages : List ℤ}

/-- **No page is in two places.** -/
structure Salvage (cfg : HostPagedKVConfig) (r : Region) (held : Pid → List ℤ)
    (spot : ℤ → Place Pid) (chain : ℕ → List ℤ) : Prop where
  table : TableValid cfg r
  stack : (freePages r).Nodup
  free : ∀ page ∈ freePages r, InRange cfg page ∧ spot page = .free
  hands : ∀ pid, (held pid).Nodup
  held : ∀ pid, ∀ page ∈ held pid, InRange cfg page ∧ spot page = .flight pid
  linked : ∀ slot, LiveSlot cfg r slot →
    IsChain kInvalidPageIndex r.pageLinks (r.sequenceTable slot).headPage (chain slot)
  chained : ∀ slot, LiveSlot cfg r slot → ∀ page ∈ chain slot,
    InRange cfg page ∧ spot page = .chain slot
  resident : ∀ page, InRange cfg page → r.pageOwners page = kPrefixResidentSequenceId →
    spot page = .resident

def Salvageable (cfg : HostPagedKVConfig) (r : Region) (held : Pid → List ℤ) : Prop :=
  ∃ spot chain, Salvage cfg r held spot chain

theorem Salvage.salvageable (h : Salvage cfg r held spot chain) : Salvageable cfg r held := ⟨spot, chain, h⟩

/-- A page of a chain has no other place. -/
theorem Salvage.place_eq (h : Salvage cfg r held spot chain) {place : Place Pid} (hslot : LiveSlot cfg r slot)
    (hpage : page ∈ chain slot) (hspot : spot page = place) : place = .chain slot :=
  hspot.symm.trans (h.chained slot hslot page hpage).2

theorem inRange_ne_invalid (h : InRange cfg page) : page ≠ kInvalidPageIndex := by
  have hlo := h.1
  unfold kInvalidPageIndex
  omega

/-! ### The rules -/

/-- A page stands where it stood, or came with the `moved` ones, which all left `source` for `place`. -/
theorem Salvage.stands {moved : List ℤ} {source place here : Place Pid} {was : Prop}
    (hmoved : ∀ page ∈ moved, InRange cfg page ∧ spot page = source) (hwas : was → InRange cfg page ∧ spot page = here)
    (hpage : page ∈ moved ∧ place = here ∨ was ∧ (source = here → page ∉ moved)) :
    InRange cfg page ∧ (if page ∈ moved then place else spot page) = here := by
  rcases hpage with ⟨hm, hp⟩ | ⟨hw, hleft⟩
  · exact ⟨(hmoved page hm).1, (if_pos hm).trans hp⟩
  · obtain ⟨hrange, hspot⟩ := hwas hw
    exact ⟨hrange, (if_neg fun hm => hleft ((hmoved page hm).2.symm.trans hspot) hm).trans hspot⟩

section Moves

variable (h : Salvage cfg r held spot chain) (hstack : (freePages r').Nodup) (htable : TableValid cfg r')
  (hlinked : ∀ slot, LiveSlot cfg r' slot →
    IsChain kInvalidPageIndex r'.pageLinks (r'.sequenceTable slot).headPage (chain' slot))
include h hstack htable hlinked

/-- **Moving pages.**  The pages `moved` go from `source` to `place`, and every other page that is in a place
was there before. -/
theorem Salvage.move (moved : List ℤ) (source place : Place Pid)
    (hmoved : ∀ page ∈ moved, InRange cfg page ∧ spot page = source)
    (hhands : ∀ pid, (held' pid).Nodup) (hfree : ∀ page ∈ freePages r',
      page ∈ moved ∧ place = .free ∨ page ∈ freePages r ∧ (source = .free → page ∉ moved))
    (hheld : ∀ pid, ∀ page ∈ held' pid,
      page ∈ moved ∧ place = .flight pid ∨ page ∈ held pid ∧ (source = .flight pid → page ∉ moved))
    (hchained : ∀ slot, LiveSlot cfg r' slot → ∀ page ∈ chain' slot, page ∈ moved ∧ place = .chain slot ∨
      (LiveSlot cfg r slot ∧ page ∈ chain slot) ∧ (source = .chain slot → page ∉ moved))
    (hresident : ∀ page, r'.pageOwners page = kPrefixResidentSequenceId → page ∈ moved ∧ place = .resident ∨
      r.pageOwners page = kPrefixResidentSequenceId ∧ (source = .resident → page ∉ moved)) :
    Salvage cfg r' held' (fun page => if page ∈ moved then place else spot page) chain' where
  table := htable
  stack := hstack
  hands := hhands
  linked := hlinked
  free := fun page hpage => Salvage.stands hmoved (h.free page) (hfree page hpage)
  held := fun pid page hpage => Salvage.stands hmoved (h.held pid page) (hheld pid page hpage)
  chained := fun s hs page hpage =>
    Salvage.stands hmoved (fun hold => h.chained s hold.1 page hold.2) (hchained s hs page hpage)
  resident := fun page hrange hpage =>
    (Salvage.stands hmoved (fun hold => ⟨hrange, h.resident page hrange hold⟩) (hresident page hpage)).2

/-- **Pages come into the hands of a call**, from a place that is not one. -/
theorem Salvage.intoHands [DecidableEq Pid] (pid : Pid) {source : Place Pid} (hpages : pages.Nodup)
    (hmoved : ∀ page ∈ pages, InRange cfg page ∧ spot page = source) (hsource : ∀ other, source ≠ .flight other)
    (hfree : ∀ page ∈ freePages r', page ∈ freePages r ∧ (source = .free → page ∉ pages))
    (hchained : ∀ slot, LiveSlot cfg r' slot → ∀ page ∈ chain' slot,
      (LiveSlot cfg r slot ∧ page ∈ chain slot) ∧ (source = .chain slot → page ∉ pages))
    (hresident : ∀ page, r'.pageOwners page = kPrefixResidentSequenceId →
      r.pageOwners page = kPrefixResidentSequenceId ∧ (source = .resident → page ∉ pages)) :
    ∃ spot', Salvage cfg r' (update held pid pages) spot' chain' := by
  refine ⟨_, h.move hstack htable hlinked pages source (.flight pid) hmoved (fun other => ?_)
    (fun page hp => .inr (hfree page hp)) (fun other page hp => ?_)
    (fun s hs page hp => .inr (hchained s hs page hp)) fun page hp => .inr (hresident page hp)⟩
  · by_cases hother : other = pid
    · rwa [hother, update_self]
    · rw [update_of_ne hother]
      exact h.hands other
  · by_cases hother : other = pid
    · rw [hother, update_self] at hp
      exact .inl ⟨hp, by rw [hother]⟩
    · rw [update_of_ne hother] at hp
      exact .inr ⟨hp, fun heq => absurd heq (hsource other)⟩

omit h in
/-- **Pages leave the hands of a call.** -/
theorem Salvage.fromHands [DecidableEq Pid] {pid : Pid} {rest : List ℤ}
    (h : Salvage cfg r (update held pid (pages ++ rest)) spot chain) (place : Place Pid)
    (hfree : ∀ page ∈ freePages r', page ∈ pages ∧ place = .free ∨ page ∈ freePages r)
    (hchained : ∀ slot, LiveSlot cfg r' slot → ∀ page ∈ chain' slot,
      page ∈ pages ∧ place = .chain slot ∨ LiveSlot cfg r slot ∧ page ∈ chain slot)
    (hresident : ∀ page, r'.pageOwners page = kPrefixResidentSequenceId →
      page ∈ pages ∧ place = .resident ∨ r.pageOwners page = kPrefixResidentSequenceId) :
    ∃ spot', Salvage cfg r' (update held pid rest) spot' chain' := by
  have hnodup := h.hands pid
  have hheld := h.held pid
  rw [update_self] at hnodup hheld
  rw [nodup_append] at hnodup
  refine ⟨_, h.move hstack htable hlinked pages (.flight pid) place
    (fun page hp => hheld page (mem_append_left _ hp)) (fun other => ?_)
    (fun page hp => (hfree page hp).imp_right fun hold => ⟨hold, nofun⟩) (fun other page hp => .inr ?_)
    (fun s hs page hp => (hchained s hs page hp).imp_right fun hold => ⟨hold, nofun⟩) fun page hp =>
      (hresident page hp).imp_right fun hold => ⟨hold, nofun⟩⟩
  · by_cases hother : other = pid
    · rw [hother, update_self]
      exact hnodup.2.1
    · have hhands := h.hands other
      rwa [update_of_ne hother] at hhands ⊢
  · by_cases hother : other = pid
    · rw [hother, update_self] at hp ⊢
      exact ⟨mem_append_right _ hp, fun _ hmem => hnodup.2.2 page hmem page hp rfl⟩
    · rw [update_of_ne hother] at hp ⊢
      exact ⟨hp, fun heq => absurd (Place.flight.inj heq).symm hother⟩

end Moves

section

variable (h : Salvage cfg r held spot chain)
include h

/-- **Losing pages.**  Whatever is in a place afterwards was there before. -/
theorem Salvage.lose (htable : TableValid cfg r') (hstack : (freePages r').Sublist (freePages r))
    (hheld : ∀ pid, (held' pid).Sublist (held pid)) (hslots : ∀ slot, LiveSlot cfg r' slot → LiveSlot cfg r slot ∧
      IsChain kInvalidPageIndex r'.pageLinks (r'.sequenceTable slot).headPage (chain' slot) ∧ chain' slot ⊆ chain slot)
    (hresident : ∀ page, r'.pageOwners page = kPrefixResidentSequenceId →
      r.pageOwners page = kPrefixResidentSequenceId) : Salvage cfg r' held' spot chain' where
  table := htable
  stack := h.stack.sublist hstack
  hands := fun pid => (h.hands pid).sublist (hheld pid)
  free := fun page hpage => h.free page (hstack.subset hpage)
  held := fun pid page hpage => h.held pid page ((hheld pid).subset hpage)
  linked := fun slot hslot => (hslots slot hslot).2.1
  chained := fun slot hslot page hpage =>
    h.chained slot (hslots slot hslot).1 page ((hslots slot hslot).2.2 hpage)
  resident := fun page hrange hpage => h.resident page hrange (hresident page hpage)

/-- Hands may lose pages. -/
theorem Salvage.drop (hheld : ∀ pid, (held' pid).Sublist (held pid)) : Salvage cfg r held' spot chain :=
  h.lose h.table (List.Sublist.refl _) hheld
    (fun slot hslot => ⟨hslot, h.linked slot hslot, List.Subset.refl _⟩) fun _ hpage => hpage

/-- Counters are not part of the invariant. -/
theorem Salvage.congr (hstack : r'.freeStack = r.freeStack) (htop : r'.freeStackTop = r.freeStackTop)
    (howners : r'.pageOwners = r.pageOwners) (hlinks : r'.pageLinks = r.pageLinks)
    (htable : r'.sequenceTable = r.sequenceTable) : Salvage cfg r' held spot chain := by
  have hfree : freePages r' = freePages r := by
    simp only [freePages, stackSlice, hstack, htop]
  refine h.lose (h.table.congr fun s => by rw [htable]) (hfree ▸ List.Sublist.refl _)
    (fun _ => List.Sublist.refl _) ?_ ?_
  · intro s hs
    have hlive : LiveSlot cfg r s := (LiveSlot.congr (congrFun htable s)).mp hs
    refine ⟨hlive, ?_, List.Subset.refl _⟩
    rw [hlinks, htable]
    exact h.linked s hlive
  · intro page hpage
    rwa [howners] at hpage

end

section Entry

variable {entry : SequenceEntry}

theorem setEntry_liveSlot_ne {s : ℕ} (hs : s ≠ slot) : LiveSlot cfg (setEntry r slot entry) s ↔ LiveSlot cfg r s :=
  LiveSlot.congr (setEntry_of_ne r entry hs)

theorem setEntry_liveSlot_self :
    LiveSlot cfg (setEntry r slot entry) slot ↔ slot < cfg.sequenceCapacity ∧ entry.live := by
  rw [LiveSlot, setEntry_self]

theorem setEntry_setEntry (e e' : SequenceEntry) : setEntry (setEntry r slot e) slot e' = setEntry r slot e' := by
  simp [setEntry]

theorem setEntry_sequenceId (hid : entry.sequenceId = (r.sequenceTable slot).sequenceId) (s : ℕ) :
    ((setEntry r slot entry).sequenceTable s).sequenceId = (r.sequenceTable s).sequenceId := by
  by_cases hne : s = slot
  · rw [hne, setEntry_self, hid]
  · rw [setEntry_of_ne r entry hne]

/-- An entry that keeps its id leaves the table searchable. -/
theorem TableValid.setEntry (h : TableValid cfg r) (hid : entry.sequenceId = (r.sequenceTable slot).sequenceId) :
    TableValid cfg (setEntry r slot entry) :=
  h.congr (setEntry_sequenceId hid)

theorem TableValid.cleared (h : TableValid cfg r) (hhides : ¬ HidesEntry cfg r (.entry slot {})) :
    TableValid cfg (store r (.entry slot {})) := by
  have hold : ∀ {key s}, slotKinds (store r (.entry slot {})) s = .live key → slotKinds r s = .live key := by
    intro key s hs
    rw [slotKinds_update {} rfl] at hs
    exact ((OpenAddressing.update_eq_live_iff.mp hs).resolve_left nofun).2
  refine ⟨h.mem_probes, fun key s t hs ht hks hkt => h.unique key s t hs ht (hold hks) (hold hkt), ?_⟩
  intro key s hs hks
  obtain ⟨hlive, rfl⟩ := kind_eq_live_iff.mp (hold hks)
  by_contra hnot
  exact hhides ⟨slot, rfl, s, hs, hlive, hnot⟩

section

variable (h : Salvage cfg r held spot chain)
include h

/-- **A rewritten entry** whose chain consists of pages that were its own. -/
theorem Salvage.entry_rewritten (cells : List ℤ) (htable : TableValid cfg (setEntry r slot entry))
    (hcells : slot < cfg.sequenceCapacity → entry.live → IsChain kInvalidPageIndex r.pageLinks entry.headPage cells ∧
        ∀ page ∈ cells, InRange cfg page ∧ spot page = .chain slot) :
    Salvage cfg (setEntry r slot entry) held spot (update chain slot cells) where
  table := htable
  stack := h.stack
  free := h.free
  hands := h.hands
  held := h.held
  resident := h.resident
  linked := by
    intro s hs
    by_cases hne : s = slot
    · subst hne
      have hself := setEntry_liveSlot_self.mp hs
      rw [update_self, setEntry_self]
      exact (hcells hself.1 hself.2).1
    · rw [update_of_ne hne, setEntry_of_ne r entry hne]
      exact h.linked s ((setEntry_liveSlot_ne hne).mp hs)
  chained := by
    intro s hs page hpage
    by_cases hne : s = slot
    · subst hne
      have hself := setEntry_liveSlot_self.mp hs
      rw [update_self] at hpage
      exact (hcells hself.1 hself.2).2 page hpage
    · rw [update_of_ne hne] at hpage
      exact h.chained s ((setEntry_liveSlot_ne hne).mp hs) page hpage

variable (slot) (entry)

/-- A slot that becomes a tombstone. -/
theorem Salvage.entry_of_tombstone (hid : entry.sequenceId = kTombstoneSequenceId) :
    Salvage cfg (setEntry r slot entry) held spot (update chain slot []) :=
  h.entry_rewritten [] (h.table.tombstone hid rfl) fun _ hlive => absurd hid hlive.2

section

variable (hid : entry.sequenceId = (r.sequenceTable slot).sequenceId)
include hid

/-- An entry that keeps its id and its head keeps its chain; its count and its tail do not matter. -/
theorem Salvage.entry_of_head (hhead : entry.headPage = (r.sequenceTable slot).headPage) :
    Salvage cfg (setEntry r slot entry) held spot chain := by
  have hkeep := h.entry_rewritten (chain slot) (h.table.setEntry hid) fun hslot hlive => by
    have hold : LiveSlot cfg r slot := ⟨hslot, by
      unfold SequenceEntry.live at hlive ⊢
      rwa [hid] at hlive⟩
    exact ⟨hhead ▸ h.linked slot hold, h.chained slot hold⟩
  rwa [update_eq_self] at hkeep

/-- An entry that keeps its id and forgets its head. -/
theorem Salvage.entry_of_no_head (hhead : entry.headPage = kInvalidPageIndex) :
    Salvage cfg (setEntry r slot entry) held spot (update chain slot []) := by
  exact h.entry_rewritten [] (h.table.setEntry hid) fun _ _ => ⟨hhead, by simp⟩

/-- An entry that keeps its id, and its head unless it forgets it. -/
theorem Salvage.entry_restored (hhead : entry.headPage = kInvalidPageIndex ∨
      entry.headPage = (r.sequenceTable slot).headPage) : Salvageable cfg (setEntry r slot entry) held := by
  rcases hhead with hhead | hhead
  · exact (h.entry_of_no_head slot entry hid hhead).salvageable
  · exact (h.entry_of_head slot entry hid hhead).salvageable

end

variable {slot}

theorem Salvage.numPages (slot count : ℕ) : Salvage cfg (store r (.numPages slot count)) held spot chain :=
  h.entry_of_head slot { r.sequenceTable slot with numPages := count } rfl rfl

variable (slot)

theorem Salvage.tailPage (page : ℤ) : Salvage cfg (store r (.tailPage slot page)) held spot chain :=
  h.entry_of_head slot { r.sequenceTable slot with tailPage := page } rfl rfl

variable {slot}

end

end Entry

section

variable (h : Salvage cfg r held spot chain)
include h

/-- **A rewritten link** behind which every chain keeps a part of itself. -/
theorem Salvage.link {next : ℤ} (hchains : ∀ slot, LiveSlot cfg r slot →
      IsChain kInvalidPageIndex (update r.pageLinks page next)
          (r.sequenceTable slot).headPage (chain' slot) ∧ chain' slot ⊆ chain slot) :
    Salvage cfg (store r (.pageLink page next)) held spot chain' :=
  h.lose h.table (List.Sublist.refl _) (fun _ => List.Sublist.refl _)
    (fun slot hslot => ⟨hslot, hchains slot hslot⟩) fun _ hpage => hpage

/-- The link of a page that is in no chain. -/
theorem Salvage.link_of_not_mem (next : ℤ) (hpage : ∀ slot, LiveSlot cfg r slot → page ∉ chain slot) :
    Salvage cfg (store r (.pageLink page next)) held spot chain :=
  h.link fun slot hslot =>
    ⟨(h.linked slot hslot).update_of_not_mem (hpage slot hslot), List.Subset.refl _⟩

/-- Cutting a link loses the pages behind it. -/
theorem Salvage.truncate (page : ℤ) :
    ∃ chain', Salvage cfg (store r (.pageLink page kInvalidPageIndex)) held spot chain' := by
  have hcut : ∀ slot, ∃ kept, LiveSlot cfg r slot →
      IsChain kInvalidPageIndex (update r.pageLinks page kInvalidPageIndex)
        (r.sequenceTable slot).headPage kept ∧ kept ⊆ chain slot := by
    intro slot
    by_cases hslot : LiveSlot cfg r slot
    · obtain ⟨kept, hkept⟩ := (h.linked slot hslot).truncate (c := page)
      exact ⟨kept, fun _ => hkept⟩
    · exact ⟨[], fun hlive => absurd hlive hslot⟩
  choose chain' hchain' using hcut
  exact ⟨chain', h.link hchain'⟩

/-- An owner that is not the resident marker. -/
theorem Salvage.owner (page : ℤ) {owner : ℤ} (howner : owner ≠ kPrefixResidentSequenceId) :
    Salvage cfg (store r (.pageOwner page owner)) held spot chain := by
  refine h.lose h.table (List.Sublist.refl _) (fun _ => List.Sublist.refl _)
    (fun slot hslot => ⟨hslot, h.linked slot hslot, List.Subset.refl _⟩) ?_
  intro p hp
  change update r.pageOwners page owner p = kPrefixResidentSequenceId at hp
  by_cases heq : p = page
  · rw [heq, update_self] at hp
    exact absurd hp howner
  · rwa [update_of_ne heq] at hp

/-! ### The free stack -/

/-- Writing above the top does not touch the stack. -/
theorem Salvage.stack_above {index : ℕ} (page : ℤ)
    (hindex : r.freeStackTop ≤ index) : Salvage cfg (store r (.freeStack index page)) held spot chain := by
  have hfree : freePages (store r (.freeStack index page)) = freePages r := by
    apply map_congr_left
    intro i hi
    have hi' : i < r.freeStackTop := mem_range.mp hi
    exact update_of_ne (by omega) _ _
  exact h.lose h.table (hfree ▸ List.Sublist.refl _) (fun _ => List.Sublist.refl _)
    (fun slot hslot => ⟨hslot, h.linked slot hslot, List.Subset.refl _⟩) fun _ hpage => hpage

omit h in
theorem freePages_lower (htop : top ≤ r.freeStackTop) :
    freePages r = freePages (store r (.freeStackTop top)) ++ stackSlice r top (r.freeStackTop - top) := by
  have hsplit := stackSlice_append r 0 top (r.freeStackTop - top)
  rw [Nat.zero_add, Nat.add_sub_of_le htop] at hsplit
  exact hsplit

/-- Lowering the top loses pages. -/
theorem Salvage.stack_lower (htop : top ≤ r.freeStackTop) :
    Salvage cfg (store r (.freeStackTop top)) held spot chain := by
  refine h.lose h.table ?_ (fun _ => List.Sublist.refl _)
    (fun slot hslot => ⟨hslot, h.linked slot hslot, List.Subset.refl _⟩) fun _ hpage => hpage
  rw [freePages_lower htop]
  exact sublist_append_left _ _

/-! ### Counting -/

omit h in
/-- Distinct page ids are at most as many as there are pages. -/
theorem length_le_numPages (hnodup : pages.Nodup)
    (hrange : ∀ page ∈ pages, InRange cfg page) : pages.length ≤ cfg.numPages := by
  rw [← allPages_length cfg]
  exact (hnodup.subperm fun page hpage => mem_allPages (hrange page hpage)).length_le

/-- Pages outside the stack still fit on it. -/
theorem Salvage.push_fits (hnodup : pages.Nodup) (hrange : ∀ page ∈ pages, InRange cfg page ∧ spot page ≠ .free) :
    r.freeStackTop + pages.length ≤ cfg.numPages := by
  have hall : (freePages r ++ pages).Nodup := by
    rw [nodup_append]
    refine ⟨h.stack, hnodup, ?_⟩
    rintro page hfree other hother rfl
    exact (hrange page hother).2 (h.free page hfree).2
  have hlen : (freePages r ++ pages).length ≤ cfg.numPages := by
    refine length_le_numPages hall fun page hpage => ?_
    rcases mem_append.mp hpage with hpage | hpage
    · exact (h.free page hpage).1
    · exact (hrange page hpage).1
  simpa [freePages] using hlen

theorem Salvage.chain_length_le (hslot : LiveSlot cfg r slot) : (chain slot).length ≤ cfg.numPages :=
  length_le_numPages (h.linked slot hslot).nodup fun page hpage =>
    (h.chained slot hslot page hpage).1

end

end Batchgen.HostPagedKV
