import Batchgen.HostPagedKV.Sections

/-!
# What the loops of the backend do to one sequence's chain

`SlotChain r slot cells` says that the entry in `slot` owns exactly the pages `cells`, in link order:
the links from the head visit them, the entry counts them, its tail is the last of them and every one
carries the entry's id.  Each loop of the sections is then described by the chain it leaves behind and
by a frame, `SlotFrame`, that names the only pages and the only slot it writes:

* `attachPages_chain`, `attachPages_frame` — the pages are appended;
* `detachFront_spec` — the first pages are taken off and cleared;
* `unlinkRequested_spec` — the requested pages are cut out wherever they are.
-/

namespace Batchgen.HostPagedKV

open MachineInt LinkedChain Function List

variable {slot : ℕ} {touched cells kept cs requested pages : List ℤ} {r r' : Region} {sequenceId page c p : ℤ}

/-- The entry in `slot` owns exactly `cells`, in link order. -/
structure SlotChain (r : Region) (slot : ℕ) (cells : List ℤ) : Prop where
  chain : IsChain kInvalidPageIndex r.pageLinks (r.sequenceTable slot).headPage cells
  count : (r.sequenceTable slot).numPages = cells.length
  tail : (r.sequenceTable slot).tailPage = lastCell kInvalidPageIndex cells
  owned : ∀ page ∈ cells, r.pageOwners page = (r.sequenceTable slot).sequenceId

/-- `r'` differs from `r` at most in `slot`, in the owners and links of `touched`, and in counters. -/
structure SlotFrame (r r' : Region) (slot : ℕ) (touched : List ℤ) : Prop where
  stack : r'.freeStack = r.freeStack
  top : r'.freeStackTop = r.freeStackTop
  table : ∀ s, s ≠ slot → r'.sequenceTable s = r.sequenceTable s
  owners : ∀ page, page ∉ touched → r'.pageOwners page = r.pageOwners page
  links : ∀ page, page ∉ touched → r'.pageLinks page = r.pageLinks page

theorem SlotFrame.refl (r : Region) (slot : ℕ) (touched : List ℤ) : SlotFrame r r slot touched :=
  ⟨rfl, rfl, fun _ _ => rfl, fun _ _ => rfl, fun _ _ => rfl⟩

theorem SlotFrame.trans {r₁ r₂ r₃ : Region} (h : SlotFrame r₁ r₂ slot touched) (h' : SlotFrame r₂ r₃ slot touched) :
    SlotFrame r₁ r₃ slot touched where
  stack := h'.stack.trans h.stack
  top := h'.top.trans h.top
  table := fun s hs => (h'.table s hs).trans (h.table s hs)
  owners := fun page hp => (h'.owners page hp).trans (h.owners page hp)
  links := fun page hp => (h'.links page hp).trans (h.links page hp)

theorem SlotFrame.mono {touched' : List ℤ} (h : SlotFrame r r' slot touched) (hsub : touched ⊆ touched') :
    SlotFrame r r' slot touched' where
  stack := h.stack
  top := h.top
  table := h.table
  owners := fun page hp => h.owners page fun hmem => hp (hsub hmem)
  links := fun page hp => h.links page fun hmem => hp (hsub hmem)

/-- A chain is read from its entry and from the links and owners of its pages. -/
theorem SlotChain.of_eq (h : SlotChain r slot cells) (htable : r'.sequenceTable slot = r.sequenceTable slot)
    (hlinks : ∀ page ∈ cells, r'.pageLinks page = r.pageLinks page)
    (howners : ∀ page ∈ cells, r'.pageOwners page = r.pageOwners page) : SlotChain r' slot cells := by
  constructor <;> rw [htable]
  · exact h.chain.congr hlinks
  · exact h.count
  · exact h.tail
  · intro page hp
    rw [howners page hp]
    exact h.owned page hp

/-- A chain none of whose pages is touched survives in every other slot. -/
theorem SlotChain.frame {s : ℕ} (h : SlotChain r s cells) (hf : SlotFrame r r' slot touched) (hs : s ≠ slot)
    (hdisj : ∀ page ∈ cells, page ∉ touched) : SlotChain r' s cells :=
  h.of_eq (hf.table s hs) (fun page hp => hf.links page (hdisj page hp)) fun page hp => hf.owners page (hdisj page hp)

/-- Finding or claiming a slot writes nothing but that slot. -/
theorem findOrInsert_frame {cfg : HostPagedKVConfig} {isNew : Bool}
    (h : SlotFound cfg r sequenceId slot isNew r') : SlotFrame r r' slot [] := by
  obtain ⟨-, ⟨-, rfl, -⟩ | ⟨-, -, rfl⟩⟩ := h.cases
  · exact SlotFrame.refl _ _ _
  · exact ⟨rfl, rfl, fun s hs => update_of_ne hs _ _, fun _ _ => rfl, fun _ _ => rfl⟩

/-! ### Attaching -/

@[simp] theorem attachPage_sequenceId (sequenceId : ℤ) (slot : ℕ) (r : Region) (page : ℤ) :
    ((attachPage sequenceId slot r page).sequenceTable slot).sequenceId = (r.sequenceTable slot).sequenceId := by
  dsimp only [attachPage]
  split <;> simp

@[simp] theorem attachPage_tail (sequenceId : ℤ) (slot : ℕ) (r : Region) (page : ℤ) :
    ((attachPage sequenceId slot r page).sequenceTable slot).tailPage = page := by
  dsimp only [attachPage]
  split <;> simp

/-- The pages that attaching writes to: the attached ones, and the old tail of a chain that is not empty. -/
def attachTouched (r : Region) (slot : ℕ) (pages : List ℤ) : List ℤ :=
  if (r.sequenceTable slot).headPage = kInvalidPageIndex then pages else (r.sequenceTable slot).tailPage :: pages

theorem attachPage_frame (sequenceId : ℤ) (slot : ℕ) (r : Region) (page : ℤ) :
    SlotFrame r (attachPage sequenceId slot r page) slot (attachTouched r slot [page]) := by
  dsimp only [attachPage, attachTouched]
  split
  · refine ⟨rfl, rfl, fun s hs => update_of_ne hs _ _, fun p hp => ?_, fun p hp => ?_⟩
    · exact update_of_ne (mt mem_singleton.mpr hp) _ _
    · exact update_of_ne (mt mem_singleton.mpr hp) _ _
  · refine ⟨rfl, rfl, fun s hs => update_of_ne hs _ _, fun p hp => ?_, fun p hp => ?_⟩
    · rw [mem_pair, not_or] at hp
      exact update_of_ne hp.2 _ _
    · rw [mem_pair, not_or] at hp
      show update (update r.pageLinks page kInvalidPageIndex) (r.sequenceTable slot).tailPage page p = r.pageLinks p
      rw [update_of_ne hp.1, update_of_ne hp.2]

/-- The attach loop writes to no other page: behind its first round the tail is an attached page. -/
theorem attachPages_frame (sequenceId : ℤ) (slot : ℕ) (pages : List ℤ) (r : Region) :
    SlotFrame r (attachPages sequenceId slot r pages) slot (attachTouched r slot pages) := by
  induction pages generalizing r with
  | nil => exact SlotFrame.refl _ _ _
  | cons page pages ih =>
    have hrest := ih (attachPage sequenceId slot r page)
    refine ((attachPage_frame sequenceId slot r page).mono ?_).trans (hrest.mono ?_)
    · unfold attachTouched
      split <;> simp
    · unfold attachTouched
      rw [attachPage_tail]
      split <;> split <;> simp

/-- A chain that is not empty has its tail. -/
theorem SlotChain.attachTouched_subset (h : SlotChain r slot cells) (pages : List ℤ) :
    attachTouched r slot pages ⊆ cells ++ pages := by
  unfold attachTouched
  split
  · exact subset_append_right _ _
  · rename_i hhead
    have hcells : cells ≠ [] := by
      rintro rfl
      exact hhead h.chain
    rw [h.tail]
    exact cons_subset.mpr ⟨mem_append_left _ (lastCell_mem hcells), subset_append_right _ _⟩

/-- One round of the attach loop appends the page to the chain. -/
theorem attachPage_chain (h : SlotChain r slot cells) (hid : (r.sequenceTable slot).sequenceId = sequenceId)
    (hpage : page ≠ kInvalidPageIndex) (hfresh : page ∉ cells) (hlen : cells.length + 1 < 2 ^ 32) :
    SlotChain (attachPage sequenceId slot r page) slot (cells ++ [page]) := by
  have hcount : u32 ((r.sequenceTable slot).numPages + 1) = (cells ++ [page]).length := by
    rw [h.count, u32_of_lt hlen, length_append, length_singleton]
  have howned : ∀ p ∈ cells ++ [page], update r.pageOwners page sequenceId p = (r.sequenceTable slot).sequenceId := by
    intro p hp
    by_cases heq : p = page
    · rw [heq, update_self, hid]
    · rw [update_of_ne heq]
      refine h.owned p ?_
      rcases mem_append.mp hp with hp | hp
      · exact hp
      · exact absurd (mem_singleton.mp hp) heq
  dsimp only [attachPage]
  by_cases hhead : (r.sequenceTable slot).headPage = kInvalidPageIndex
  · have hcells : cells = [] := h.chain.unique (LinkedChain.isChain_nil.mpr hhead)
    subst hcells
    simp only [if_pos hhead]
    refine ⟨?_, ?_, ?_, ?_⟩
    · simp [hpage]
    · simpa using hcount
    · simp [lastCell]
    · simpa using howned
  · have hcells : cells ≠ [] := by
      rintro rfl
      exact hhead h.chain
    simp only [if_neg hhead]
    refine ⟨?_, ?_, ?_, ?_⟩
    · simp only [update_self]
      rw [h.tail]
      exact (h.chain.update_of_not_mem hfresh).snoc hcells hpage hfresh (update_self ..)
    · simpa using hcount
    · simp
    · simpa using howned

/-- The loop tags the attached pages and no others. -/
theorem attachPages_owners (hp : p ∉ pages) : (attachPages sequenceId slot r pages).pageOwners p = r.pageOwners p := by
  induction pages generalizing r with
  | nil => rfl
  | cons page pages ih =>
    rw [mem_cons, not_or] at hp
    have hstep : (attachPage sequenceId slot r page).pageOwners p = r.pageOwners p := by
      dsimp only [attachPage]
      split
      · exact update_of_ne hp.1 _ _
      · exact update_of_ne hp.1 _ _
    exact (ih (r := attachPage sequenceId slot r page) hp.2).trans hstep

/-- Attaching pages leaves the ids of the table and the counters of entries. -/
theorem attachPages_counters (sequenceId : ℤ) (slot : ℕ) (pages : List ℤ) (r : Region) :
    (attachPages sequenceId slot r pages).activeSequences = r.activeSequences ∧
      (attachPages sequenceId slot r pages).sequencesInserted = r.sequencesInserted ∧
      ∀ s, ((attachPages sequenceId slot r pages).sequenceTable s).sequenceId = (r.sequenceTable s).sequenceId := by
  induction pages generalizing r with
  | nil => exact ⟨rfl, rfl, fun _ => rfl⟩
  | cons page pages ih =>
    obtain ⟨hactive, hinserted, hids⟩ := ih (attachPage sequenceId slot r page)
    refine ⟨hactive.trans ?_, hinserted.trans ?_, fun s => (hids s).trans ?_⟩
    · dsimp only [attachPage]
      split <;> rfl
    · dsimp only [attachPage]
      split <;> rfl
    · by_cases hs : s = slot
      · rw [hs, attachPage_sequenceId]
      · rw [(attachPage_frame sequenceId slot r page).table s hs]

/-- Of the links outside the attached pages, the loop writes at most the one behind the old tail. -/
theorem attachPages_links (hp : p ∉ pages) (htail : p ≠ (r.sequenceTable slot).tailPage) :
    (attachPages sequenceId slot r pages).pageLinks p = r.pageLinks p := by
  refine (attachPages_frame sequenceId slot pages r).links p ?_
  unfold attachTouched
  split <;> simp [hp, htail]

/-- **The attach loop appends the pages to the chain.** -/
theorem attachPages_chain : ∀ {pages : List ℤ} {r : Region} {cells : List ℤ}, SlotChain r slot cells →
      (r.sequenceTable slot).sequenceId = sequenceId → (cells ++ pages).Nodup →
      (∀ page ∈ pages, page ≠ kInvalidPageIndex) → cells.length + pages.length < 2 ^ 32 →
      SlotChain (attachPages sequenceId slot r pages) slot (cells ++ pages) := by
  intro pages
  induction pages with
  | nil =>
    intro r cells h _ _ _ _
    rw [append_nil]
    exact h
  | cons page pages ih =>
    intro r cells h hid hnodup hvalid hlen
    rw [length_cons] at hlen
    have happ : cells ++ page :: pages = cells ++ [page] ++ pages := by simp
    have hfresh : page ∉ cells := fun hmem =>
      (nodup_append.mp hnodup).2.2 page hmem page mem_cons_self rfl
    have hstep := attachPage_chain h hid (hvalid page mem_cons_self) hfresh (by omega)
    rw [happ] at hnodup ⊢
    exact ih hstep ((attachPage_sequenceId sequenceId slot r page).trans hid) hnodup
      (fun p hp => hvalid p (mem_cons_of_mem page hp)) (by simp; omega)

/-! ### Clearing and detaching -/

theorem clearPages_owners (pages : List ℤ) (r : Region) (page : ℤ) : (clearPages r pages).pageOwners page =
      if page ∈ pages then kEmptySequenceId else r.pageOwners page := by
  induction pages generalizing r with
  | nil => rfl
  | cons p ps ih =>
    show (clearPages (clearPage r p) ps).pageOwners page = _
    rw [ih]
    by_cases hps : page ∈ ps
    · simp [hps]
    · by_cases hp : page = p
      · simp [hp, clearPage]
      · simp [hps, hp, clearPage]

theorem clearPages_links (pages : List ℤ) (r : Region) (page : ℤ) : (clearPages r pages).pageLinks page =
      if page ∈ pages then kInvalidPageIndex else r.pageLinks page := by
  induction pages generalizing r with
  | nil => rfl
  | cons p ps ih =>
    show (clearPages (clearPage r p) ps).pageLinks page = _
    rw [ih]
    by_cases hps : page ∈ ps
    · simp [hps]
    · by_cases hp : page = p
      · simp [hp, clearPage]
      · simp [hps, hp, clearPage]

/-- Clearing writes no slot, no stack cell and no counter. -/
theorem clearPages_rest (pages : List ℤ) (r : Region) : clearPages r pages = { r with
        pageOwners := (clearPages r pages).pageOwners
        pageLinks := (clearPages r pages).pageLinks } := by
  induction pages generalizing r with
  | nil => rfl
  | cons p ps ih =>
    show clearPages (clearPage r p) ps = _
    rw [ih]
    rfl

@[simp] theorem clearPages_table (pages : List ℤ) (r : Region) :
    (clearPages r pages).sequenceTable = r.sequenceTable := by
  rw [clearPages_rest]

@[simp] theorem clearPages_stack (pages : List ℤ) (r : Region) : (clearPages r pages).freeStack = r.freeStack := by
  rw [clearPages_rest]

@[simp] theorem clearPages_top (pages : List ℤ) (r : Region) : (clearPages r pages).freeStackTop = r.freeStackTop := by
  rw [clearPages_rest]

/-- **The detach loop** takes the first pages off the chain, clears them, and stops at the page behind
them, or at the end of a shorter chain. -/
theorem detachFront_spec {fuel : ℕ} (h : IsChain kInvalidPageIndex r.pageLinks page cells) : detachFront fuel page r =
      (cells.take fuel, (cells.drop fuel).headD kInvalidPageIndex, clearPages r (cells.take fuel)) := by
  induction fuel generalizing page r cells with
  | zero =>
    cases cells with
    | nil => simp [detachFront, clearPages, LinkedChain.isChain_nil.mp h]
    | cons c cs => simp [detachFront, clearPages, h.1]
  | succ fuel ih =>
    cases cells with
    | nil => simp [detachFront, clearPages, LinkedChain.isChain_nil.mp h]
    | cons c cs =>
      have hrest := ih (r := clearPage r c) h.remove_head
      obtain ⟨rfl, hc, _⟩ := h
      rw [detachFront, if_neg hc]
      simp only [hrest, take_succ_cons, drop_succ_cons]
      rfl

/-! ### Unlinking requested pages -/

/-- Cutting one page out of the chain, behind the kept pages. -/
theorem unlinkPage_chain (h : SlotChain r slot (kept ++ c :: cs)) :
    SlotChain (unlinkPage slot (lastCell kInvalidPageIndex kept) c r) slot (kept ++ cs) := by
  have hfresh : c ∉ kept ++ cs := (nodup_cons.mp (nodup_middle.mp h.chain.nodup)).1
  have hkeptStop : kept ≠ [] → lastCell kInvalidPageIndex kept ≠ kInvalidPageIndex := by
    intro hne heq
    exact h.chain.not_mem_stop (mem_append_left _ (heq ▸ lastCell_mem hne))
  refine ⟨?_, ?_, ?_, ?_⟩
  · dsimp only [unlinkPage]
    rw [update_self]
    cases hkept : kept with
    | nil =>
      rw [hkept] at h
      simpa using h.chain.remove_head
    | cons k ks =>
      have hne : kept ≠ [] := by simp [hkept]
      rw [← hkept, if_neg (hkeptStop hne), if_neg (hkeptStop hne)]
      exact h.chain.remove_inner hne
  · have hcount := h.count
    simp only [length_append, length_cons] at hcount
    simp only [unlinkPage, update_self, hcount, length_append]
    rw [← Nat.add_assoc, u32Pred_succ]
  · simp only [unlinkPage, update_self, h.tail]
    cases hcs : cs with
    | nil => simp
    | cons d ds =>
      have hlast : lastCell kInvalidPageIndex (kept ++ c :: cs) =
          lastCell kInvalidPageIndex cs := by
        rw [lastCell_append_of_ne_nil (by simp), hcs, lastCell_cons_cons]
      have hne : lastCell kInvalidPageIndex cs ≠ c := by
        intro heq
        exact hfresh (mem_append_right _ (heq ▸ lastCell_mem (by simp [hcs])))
      rw [← hcs, hlast, if_neg hne, lastCell_append_of_ne_nil (by simp [hcs])]
  · intro page hpage
    have hne : page ≠ c := by
      rintro rfl
      exact hfresh hpage
    simp only [unlinkPage, update_self, update_of_ne hne]
    apply h.owned
    simp only [mem_append, mem_cons] at hpage ⊢
    tauto

theorem unlinkPage_frame :
    SlotFrame r (unlinkPage slot (lastCell kInvalidPageIndex kept) c r) slot (kept ++ c :: cs) := by
  have hc : ∀ p, p ∉ kept ++ c :: cs → p ≠ c := fun p hp heq => hp (by simp [heq])
  refine ⟨rfl, rfl, fun s hs => ?_, fun p hp => ?_, fun p hp => ?_⟩
  · exact update_of_ne hs _ _
  · exact update_of_ne (hc p hp) _ _
  · dsimp only [unlinkPage]
    rw [update_of_ne (hc p hp)]
    split
    · rfl
    rename_i hprev
    have hkept : kept ≠ [] := by
      rintro rfl
      exact hprev rfl
    have hne : p ≠ lastCell kInvalidPageIndex kept := fun heq =>
      hp (mem_append_left _ (heq ▸ lastCell_mem hkept))
    exact update_of_ne hne _ _

/-- What the unlink loop has done once it went from `r` to `r'` past `kept` and through `rest`. -/
structure Unlinked (requested : List ℤ) (slot : ℕ) (kept rest : List ℤ) (r r' : Region) :
    Prop where
  chain : SlotChain r' slot (kept ++ rest.filter (· ∉ requested))
  sequenceId : (r'.sequenceTable slot).sequenceId = (r.sequenceTable slot).sequenceId
  frame : SlotFrame r r' slot (kept ++ rest)
  resident : ∀ page ∈ rest, page ∈ requested → r'.pageOwners page = kPrefixResidentSequenceId

theorem Unlinked.cut (h : SlotChain r slot (kept ++ c :: cs)) (hreq : c ∈ requested)
    (hrec : Unlinked requested slot kept cs (unlinkPage slot (lastCell kInvalidPageIndex kept) c r) r') :
    Unlinked requested slot kept (c :: cs) r r' := by
  have hfresh : c ∉ kept ++ cs := (nodup_cons.mp (nodup_middle.mp h.chain.nodup)).1
  have hsub : kept ++ cs ⊆ kept ++ c :: cs := by
    intro p hp
    simp only [mem_append, mem_cons] at hp ⊢
    tauto
  refine ⟨?_, ?_, unlinkPage_frame.trans (hrec.frame.mono hsub), ?_⟩
  · rw [filter_cons_of_neg (by simpa using hreq)]
    exact hrec.chain
  · rw [hrec.sequenceId]
    simp [unlinkPage]
  · intro page hpage hpreq
    rcases mem_cons.mp hpage with rfl | hpage
    · rw [hrec.frame.owners page hfresh]
      simp [unlinkPage]
    · exact hrec.resident page hpage hpreq

theorem Unlinked.keep (hreq : c ∉ requested) (hrec : Unlinked requested slot (kept ++ [c]) cs r r') :
    Unlinked requested slot kept (c :: cs) r r' := by
  have happ : ∀ ds : List ℤ, kept ++ [c] ++ ds = kept ++ c :: ds := by simp
  refine ⟨?_, hrec.sequenceId, ?_, ?_⟩
  · rw [filter_cons_of_pos (by simpa using hreq), ← happ]
    exact hrec.chain
  · rw [← happ]
    exact hrec.frame
  · intro page hpage hpreq
    rcases mem_cons.mp hpage with rfl | hpage
    · exact absurd hpreq hreq
    · exact hrec.resident page hpage hpreq

/-- **The unlink loop** cuts every requested page out of the rest of the chain and makes it
prefix-resident; `kept` are the pages the loop has already passed. -/
theorem unlinkRequested_spec : ∀ {rest kept : List ℤ} {fuel : ℕ} {r : Region}, SlotChain r slot (kept ++ rest) →
      rest.length ≤ fuel →
      Unlinked requested slot kept rest r (unlinkRequested requested slot fuel (lastCell kInvalidPageIndex kept)
          (rest.headD kInvalidPageIndex) r) := by
  intro rest
  induction rest with
  | nil =>
    intro kept fuel r h _
    have hend : unlinkRequested requested slot fuel (lastCell kInvalidPageIndex kept) kInvalidPageIndex r = r := by
      cases fuel with
      | zero => rfl
      | succ fuel => rw [unlinkRequested, if_pos rfl]
    rw [headD_nil, hend]
    exact ⟨h, rfl, SlotFrame.refl _ _ _, by simp⟩
  | cons c cs ih =>
    intro kept fuel r h hfuel
    obtain ⟨fuel, rfl⟩ : ∃ n, fuel = n + 1 := ⟨fuel - 1, by rw [length_cons] at hfuel; omega⟩
    have hfuel' : cs.length ≤ fuel := by rw [length_cons] at hfuel; omega
    have hstop : c ≠ kInvalidPageIndex := h.chain.suffix.2.1
    have hnext : r.pageLinks c = cs.headD kInvalidPageIndex := h.chain.suffix.2.2.head_eq
    rw [headD_cons, unlinkRequested, if_neg hstop, hnext]
    by_cases hreq : c ∈ requested
    · rw [if_pos hreq]
      exact Unlinked.cut h hreq (ih (unlinkPage_chain h) hfuel')
    rw [if_neg hreq]
    have h' : SlotChain r slot (kept ++ [c] ++ cs) := by
      rw [append_assoc, singleton_append]
      exact h
    have hrec := ih h' hfuel'
    rw [lastCell_append_singleton] at hrec
    exact Unlinked.keep hreq hrec

end Batchgen.HostPagedKV
