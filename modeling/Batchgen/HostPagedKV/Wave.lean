import Batchgen.HostPagedKV.ProbeTable
import Batchgen.HostPagedKV.SectionsHeld

/-!
# A wave of allocations and its rollback

`AcquirePagesForSequences` pops the pages of a whole wave, attaches them sequence by sequence, and on a
full table undoes what it did.  The undo needs no argument about the order of the records: every record
holds what the region held *before the wave*, so a cell is restored as soon as one record for it has
been applied, and stays restored.

* `Recorded` — a record holds the values of the region before the wave;
* `Pending` — a cell that differs from the region before the wave still has a record to be applied;
* `attachWave_spec` — the attach loop makes such records, and on success leaves the pages in chains;
* `undoWave_restores` — applying the records leaves nothing pending;
* `PagesHeld.acquirePagesForSequences` — **the call keeps the pages in place, whatever its outcome**: it
  leaves everything as it was, `Unchanged`, or puts the pages behind the chains, `Appended`.
-/

namespace Batchgen.HostPagedKV

open MachineInt LinkedChain Function List

variable {Pid : Type*} [DecidableEq Pid] {cfg : HostPagedKVConfig} {r r' r₁ cur : Region} {flight : Pid → List ℤ}
  {cells : Place Pid → List ℤ} {pid : Pid} {ids sequenceIds pages : List ℤ} {sequenceId : ℤ} {isNew : Bool}
  {undos : List WaveUndo} {slot : ℕ} {counts : List ℕ}

/-- An undo record of a wave over the sequences `ids` holds what `r` held. -/
structure Recorded (cfg : HostPagedKVConfig) (r : Region) (ids : List ℤ) (undo : WaveUndo) :
    Prop where
  slot_lt : undo.slot < cfg.sequenceCapacity
  entry : undo.newlyInserted = false → undo.previousEntry = r.sequenceTable undo.slot
  id_mem : undo.newlyInserted = false → undo.previousEntry.sequenceId ∈ ids
  link : undo.newlyInserted = false → undo.previousEntry.tailPage ≠ kInvalidPageIndex →
    undo.previousTailLink = r.pageLinks undo.previousEntry.tailPage
  dead : undo.newlyInserted = true → ¬ (r.sequenceTable undo.slot).live

/-- Apart from the pages of the wave, `cur` differs from `r` only where a record is still to be
applied. -/
structure Pending (r cur : Region) (pages : List ℤ) (undos : List WaveUndo) : Prop where
  stack : cur.freeStack = r.freeStack
  top : cur.freeStackTop = r.freeStackTop
  owners : ∀ page, page ∉ pages → cur.pageOwners page = r.pageOwners page
  links : ∀ page, page ∉ pages → page ≠ kInvalidPageIndex →
    cur.pageLinks page = r.pageLinks page ∨
      ∃ undo ∈ undos, undo.newlyInserted = false ∧ undo.previousEntry.tailPage = page
  table : ∀ slot, SlotRestored r cur slot ∨ ∃ undo ∈ undos, undo.slot = slot

theorem Pending.refl (r : Region) (pages : List ℤ) : Pending r r pages [] :=
  ⟨rfl, rfl, fun _ _ => rfl, fun _ _ _ => Or.inl rfl, fun _ => Or.inl (Or.inl rfl)⟩

/-! ### Undoing -/

theorem tombstoneEntry_not_live : ¬ tombstoneEntry.live := fun hlive => hlive.2 rfl

/-- Applying one record restores its slot and the link behind its old tail. -/
theorem Pending.undo {undo : WaveUndo} (h : Pending r cur pages (undo :: undos))
    (hrec : Recorded cfg r ids undo) : Pending r (undoWave cur undo) pages undos := by
  have htable : ∀ slot, slot ≠ undo.slot → SlotRestored r cur slot ∨ ∃ u ∈ undos, u.slot = slot := by
    intro slot hslot
    refine (h.table slot).imp_right fun hu => (or_exists_of_exists_mem_cons hu).resolve_left ?_
    exact fun heq => hslot heq.symm
  unfold undoWave
  cases hnew : undo.newlyInserted with
  | true =>
    simp only [if_true]
    refine ⟨h.stack, h.top, h.owners, ?_, ?_⟩
    · intro page hpage hvalid
      refine (h.links page hpage hvalid).imp_right fun hu => (or_exists_of_exists_mem_cons hu).resolve_left ?_
      simp [hnew]
    · intro slot
      by_cases hslot : slot = undo.slot
      · subst hslot
        refine Or.inl (Or.inr ⟨hrec.dead hnew, ?_⟩)
        simp only [update_self]
        exact tombstoneEntry_not_live
      · simp only [SlotRestored, update_of_ne hslot]
        exact htable slot hslot
  | false =>
    simp only [Bool.false_eq_true, if_false]
    refine ⟨h.stack, h.top, h.owners, ?_, ?_⟩
    · intro page hpage hvalid
      dsimp only
      by_cases htail : undo.previousEntry.tailPage = page
      · left
        rw [htail, if_neg hvalid, update_self, ← htail]
        exact hrec.link hnew (htail ▸ hvalid)
      have hsame : (if undo.previousEntry.tailPage = kInvalidPageIndex then cur.pageLinks
          else update cur.pageLinks undo.previousEntry.tailPage undo.previousTailLink) page = cur.pageLinks page := by
        split
        · rfl
        · exact update_of_ne (fun heq => htail heq.symm) _ _
      rw [hsame]
      refine (h.links page hpage hvalid).imp_right fun hu => (or_exists_of_exists_mem_cons hu).resolve_left ?_
      exact fun hlast => htail hlast.2
    · intro slot
      by_cases hslot : slot = undo.slot
      · subst hslot
        refine Or.inl (Or.inl ?_)
        simp only [update_self]
        exact hrec.entry hnew
      · simp only [SlotRestored, update_of_ne hslot]
        exact htable slot hslot

/-- **Applying all records** leaves nothing pending. -/
theorem undoWave_restores (h : Pending r cur pages undos) (hrec : ∀ undo ∈ undos, Recorded cfg r ids undo) :
    Pending r (undos.foldl undoWave cur) pages [] := by
  induction undos generalizing cur with
  | nil => exact h
  | cons undo undos ih =>
    exact ih (h.undo (hrec undo mem_cons_self)) fun u hu =>
      hrec u (mem_cons_of_mem undo hu)

/-! ### Attaching the wave -/

/-- The pages of a wave, in the order they were popped. -/
def wavePages (wave : List (ℤ × List ℤ)) : List ℤ := (wave.map Prod.snd).flatten

@[simp] theorem wavePages_cons (sequenceId : ℤ) (pages : List ℤ) (wave : List (ℤ × List ℤ)) :
    wavePages ((sequenceId, pages) :: wave) = pages ++ wavePages wave := rfl

/-- Counting the entry is all `attachSequence` does besides attaching. -/
theorem attachSequence_eq (sequenceId : ℤ) (slot : ℕ) (isNew : Bool) (pages : List ℤ) (r : Region) :
    attachSequence sequenceId slot isNew pages r = { attachPages sequenceId slot r pages with
        activeSequences := (attachSequence sequenceId slot isNew pages r).activeSequences } := by
  cases isNew <;> rfl

/-- **One sequence of the wave**: its pages are in its chain. -/
theorem PagesHeld.attachSequence (hfit : cfg.numPages ≤ 2 ^ 31) (h : PagesHeld cfg r flight cells) (isNew : Bool)
    {rest : List ℤ} (hslot : LiveSlot cfg r slot) (hid : (r.sequenceTable slot).sequenceId = sequenceId)
    (hpages : flight pid = pages ++ rest) :
    PagesHeld cfg (attachSequence sequenceId slot isNew pages r) (update flight pid rest)
      (reassign cells (.chain slot) (.flight pid) (cells (.chain slot) ++ pages) rest) := by
  rw [attachSequence_eq]
  exact (h.attach hfit hslot hid hpages).congr rfl rfl rfl rfl rfl

/-- What the attach loop leaves to the rollback: records of the region before the wave, and nothing
changed without one. -/
structure WaveTrace (cfg : HostPagedKVConfig) (r : Region) (wave : List (ℤ × List ℤ))
    (out : List WaveUndo × Option BackendError × Region) : Prop where
  recorded : ∀ undo ∈ out.1, Recorded cfg r (wave.map Prod.fst) undo
  pending : Pending r out.2.2 (wavePages wave) out.1

/-- What a wave that goes through does to the chains: the pages of each sequence stand behind the chain of its slot,
or in a slot that was unused when it had none, and the other slots in use keep their entries and chains. -/
structure Appended (cfg : HostPagedKVConfig) (r r' : Region) (chains : ℕ → List ℤ) (wave : List (ℤ × List ℤ)) :
    Prop where
  behind : ∀ request ∈ wave, ∃ slot, LiveSlot cfg r' slot ∧ (r'.sequenceTable slot).sequenceId = request.1 ∧
    ((r.sequenceTable slot).live → (r.sequenceTable slot).sequenceId = request.1) ∧
    (∀ s, LiveSlot cfg r s → (r.sequenceTable s).sequenceId = request.1 → s = slot) ∧
    SlotChain r' slot (chains slot ++ request.2)
  other : ∀ slot, LiveSlot cfg r slot → (r.sequenceTable slot).sequenceId ∉ wave.map Prod.fst →
    r'.sequenceTable slot = r.sequenceTable slot ∧ SlotChain r' slot (chains slot)

section OneSequence

-- the region before a sequence of the wave, after its slot was found, and after its pages are attached
variable {r₂ : Region} {s : ℕ} {page : ℤ} {wave : List (ℤ × List ℤ)}

theorem attachPage_head (hhead : (r.sequenceTable slot).headPage ≠ kInvalidPageIndex) :
    ((attachPage sequenceId slot r page).sequenceTable slot).headPage = (r.sequenceTable slot).headPage := by
  dsimp only [attachPage]
  rw [if_neg hhead]
  simp

/-- A head that is there stays. -/
theorem attachPages_head (pages : List ℤ) : ∀ {r : Region}, (r.sequenceTable slot).headPage ≠ kInvalidPageIndex →
      ((attachPages sequenceId slot r pages).sequenceTable slot).headPage = (r.sequenceTable slot).headPage := by
  induction pages with
  | nil => exact fun _ => rfl
  | cons page pages ih =>
    intro r hhead
    have hone : ((attachPage sequenceId slot r page).sequenceTable slot).headPage = _ := attachPage_head hhead
    exact (ih (r := attachPage sequenceId slot r page) (hone ▸ hhead)).trans hone

/-- The region after one sequence of the wave, and what the rollback will need. -/
structure Attached (cfg : HostPagedKVConfig) (sequenceId : ℤ) (slot : ℕ) (pages : List ℤ)
    (r₁ r₂ : Region) : Prop where
  live : LiveSlot cfg r₁ slot
  sequenceId₁ : (r₁.sequenceTable slot).sequenceId = sequenceId
  sequenceId₂ : (r₂.sequenceTable slot).sequenceId = sequenceId
  frame : SlotFrame r₁ r₂ slot ((r₁.sequenceTable slot).tailPage :: pages)
  owners : ∀ page, page ∉ pages → r₂.pageOwners page = r₁.pageOwners page
  links : ∀ page, page ∉ pages → page ≠ (r₁.sequenceTable slot).tailPage →
    r₂.pageLinks page = r₁.pageLinks page
  head : (r₁.sequenceTable slot).headPage ≠ kInvalidPageIndex →
    (r₂.sequenceTable slot).headPage = (r₁.sequenceTable slot).headPage

theorem attachSequence_attached (isNew : Bool) (pages : List ℤ) (hlive : LiveSlot cfg r₁ slot)
    (hid : (r₁.sequenceTable slot).sequenceId = sequenceId) :
    Attached cfg sequenceId slot pages r₁ (attachSequence sequenceId slot isNew pages r₁) := by
  have hframe : SlotFrame r₁ _ slot ((r₁.sequenceTable slot).tailPage :: pages) :=
    (attachPages_frame sequenceId slot pages r₁).mono (by unfold attachTouched; split <;> simp)
  rw [attachSequence_eq]
  exact ⟨hlive, hid, ((attachPages_counters sequenceId slot pages r₁).2.2 slot).trans hid,
    { hframe with }, fun page hp => attachPages_owners hp, fun page hp htail => attachPages_links hp htail,
    fun hhead => attachPages_head pages hhead⟩

variable (hfind : SlotFound cfg r sequenceId slot isNew r₁) (hattached : Attached cfg sequenceId slot pages r₁ r₂)
include hfind hattached

omit hfind in
theorem Attached.live₂ : LiveSlot cfg r₂ slot := by
  refine ⟨hattached.live.1, ?_⟩
  rw [SequenceEntry.live, hattached.sequenceId₂, ← hattached.sequenceId₁]
  exact hattached.live.2

theorem Attached.table (hs : s ≠ slot) : r₂.sequenceTable s = r.sequenceTable s :=
  (hattached.frame.table s hs).trans ((findOrInsert_frame hfind).table s hs)

theorem Attached.link (hpage : page ∉ pages) (htail : page ≠ (r₁.sequenceTable slot).tailPage) :
    r₂.pageLinks page = r.pageLinks page :=
  (hattached.links page hpage htail).trans ((findOrInsert_frame hfind).links page (by simp))

omit hattached in
/-- The record made for a sequence holds what the region held before. -/
theorem recordUndo_recorded : Recorded cfg r (sequenceId :: wave.map Prod.fst) (recordUndo slot isNew r₁) := by
  obtain ⟨hcap, ⟨rfl, rfl, hid⟩ | ⟨rfl, hdead, -⟩⟩ := hfind.cases
  · refine ⟨hcap, fun _ => rfl, fun _ => ?_, fun _ htail => if_neg htail, fun hnew => by cases hnew⟩
    show (r₁.sequenceTable slot).sequenceId ∈ _
    rw [hid]
    exact mem_cons_self
  · exact ⟨hcap, (by rintro ⟨⟩), (by rintro ⟨⟩), (by rintro ⟨⟩), fun _ => hdead⟩

omit hfind in
/-- A record of a later sequence is about another slot. -/
theorem Recorded.slot_ne {undo : WaveUndo} (h : Recorded cfg r₂ (wave.map Prod.fst) undo)
    (hfresh : sequenceId ∉ wave.map Prod.fst) :
    undo.slot ≠ slot := by
  intro heq
  cases hnew : undo.newlyInserted with
  | true => exact h.dead hnew (heq ▸ hattached.live₂.2)
  | false =>
    have hmem := h.id_mem hnew
    rw [h.entry hnew, heq, hattached.sequenceId₂] at hmem
    exact hfresh hmem

omit hfind hattached in
/-- A record of a later sequence also holds what the region held before this one. -/
theorem Recorded.earlier {undo : WaveUndo} (h : Recorded cfg r₂ (wave.map Prod.fst) undo)
    (hslot : undo.slot ≠ slot) (htable : ∀ s, s ≠ slot → r₂.sequenceTable s = r.sequenceTable s)
    (hlink : undo.newlyInserted = false → undo.previousEntry.tailPage ≠ kInvalidPageIndex →
      r₂.pageLinks undo.previousEntry.tailPage = r.pageLinks undo.previousEntry.tailPage) :
    Recorded cfg r (sequenceId :: wave.map Prod.fst) undo where
  slot_lt := h.slot_lt
  entry := fun hnew => (h.entry hnew).trans (htable _ hslot)
  id_mem := fun hnew => mem_cons_of_mem _ (h.id_mem hnew)
  link := fun hnew hvalid => (h.link hnew hvalid).trans (hlink hnew hvalid)
  dead := fun hnew => htable _ hslot ▸ h.dead hnew

/-- What is pending after the later sequences is pending after this one too, with one more record. -/
theorem Pending.earlier (h : Pending r₂ cur (wavePages wave) undos) :
    Pending r cur (wavePages ((sequenceId, pages) :: wave)) (recordUndo slot isNew r₁ :: undos) := by
  have hclaim := findOrInsert_frame hfind
  refine ⟨?_, ?_, ?_, ?_, ?_⟩
  · rw [h.stack, hattached.frame.stack, hclaim.stack]
  · rw [h.top, hattached.frame.top, hclaim.top]
  · intro page hpage
    rw [wavePages_cons, mem_append, not_or] at hpage
    rw [h.owners page hpage.2, hattached.owners page hpage.1, hclaim.owners page (by simp)]
  · intro page hpage hvalid
    rw [wavePages_cons, mem_append, not_or] at hpage
    rcases h.links page hpage.2 hvalid with hlink | ⟨undo, hmem, hrest⟩
    · by_cases htail : page = (r₁.sequenceTable slot).tailPage
      · refine Or.inr ⟨_, mem_cons_self, ?_, htail.symm⟩
        -- a claimed slot has no tail yet, so this one was in use before
        obtain ⟨-, ⟨rfl, -, -⟩ | ⟨-, -, rfl⟩⟩ := hfind.cases
        · rfl
        · simp only [update_self] at htail
          exact absurd htail hvalid
      · left
        rw [hlink, hattached.link hfind hpage.1 htail]
    · exact Or.inr ⟨undo, mem_cons_of_mem _ hmem, hrest⟩
  · intro s
    by_cases hs : s = slot
    · exact Or.inr ⟨_, mem_cons_self, hs.symm⟩
    · rcases h.table s with hrestored | ⟨undo, hmem, hslot⟩
      · left
        rw [SlotRestored, hattached.table hfind hs] at hrestored
        exact hrestored
      · exact Or.inr ⟨undo, mem_cons_of_mem _ hmem, hslot⟩

/-- **One record more** for the rollback, once the sequence has left alone the links that the later records hold. -/
theorem WaveTrace.cons {out : List WaveUndo × Option BackendError × Region} (h : WaveTrace cfg r₂ wave out)
    (hslots : ∀ undo ∈ out.1, undo.slot ≠ slot)
    (hlinks : ∀ undo ∈ out.1, undo.newlyInserted = false → undo.previousEntry.tailPage ≠ kInvalidPageIndex →
      r₂.pageLinks undo.previousEntry.tailPage = r.pageLinks undo.previousEntry.tailPage) :
    WaveTrace cfg r ((sequenceId, pages) :: wave) (recordUndo slot isNew r₁ :: out.1, out.2) := by
  refine ⟨fun undo hundo => ?_, h.pending.earlier hfind hattached⟩
  rcases mem_cons.mp hundo with rfl | hundo
  · exact recordUndo_recorded hfind
  · exact (h.recorded undo hundo).earlier (hslots undo hundo) (fun s hs => hattached.table hfind hs)
      (hlinks undo hundo)

omit hattached in
/-- The slot of another live sequence is not the one that is found or claimed. -/
theorem findOrInsert_other
    (hlive : (r.sequenceTable s).live) (hid : (r.sequenceTable s).sequenceId ≠ sequenceId) : s ≠ slot := by
  rintro rfl
  obtain ⟨-, ⟨-, rfl, hsame⟩ | ⟨-, hdead, -⟩⟩ := hfind.cases
  · exact hid hsame
  · exact hdead hlive

/-- The ids are those of the insertion, so the table stays searchable. -/
theorem Attached.tableValid (hres : isReservedSequenceId sequenceId = false) (hvalid : TableValid cfg r) :
    TableValid cfg r₂ := by
  refine (hvalid.findOrInsert hres hfind).1.congr fun s => ?_
  by_cases hs : s = slot
  · rw [hs, hattached.sequenceId₁, hattached.sequenceId₂]
  · rw [hattached.frame.table s hs]

/-- **One sequence more.**  Its slot is live with an id that the rest of the wave does not have, so the rest keeps
the chain it got. -/
theorem Appended.cons {chains chains₂ : ℕ → List ℤ} (h : Appended cfg r₂ cur chains₂ wave) (hvalid : TableValid cfg r)
    (hres : isReservedSequenceId sequenceId = false) (hfresh : sequenceId ∉ wave.map Prod.fst)
    (hmine : chains₂ slot = chains slot ++ pages) (hother : ∀ s, s ≠ slot → chains₂ s = chains s) :
    Appended cfg r cur chains ((sequenceId, pages) :: wave) := by
  have hslot := hattached.live₂
  have hid₂ := hattached.sequenceId₂
  have htable : ∀ s, s ≠ slot → r₂.sequenceTable s = r.sequenceTable s := fun s hs => hattached.table hfind hs
  refine ⟨fun request hrequest => ?_, fun s hs hout => ?_⟩
  · rcases mem_cons.mp hrequest with rfl | hrequest
    · obtain ⟨hentry, hchain⟩ := h.other slot hslot (hid₂ ▸ hfresh)
      refine ⟨slot, (LiveSlot.congr hentry).mpr hslot, hentry ▸ hid₂, fun hlive => ?_,
        fun s hs => (hvalid.findOrInsert hres hfind).2 s hs.1, hmine ▸ hchain⟩
      by_contra hne
      exact findOrInsert_other hfind hlive hne rfl
    · obtain ⟨s, hlive, hsid, hold, hfound, hchain⟩ := h.behind request hrequest
      have hmem : request.1 ∈ wave.map Prod.fst := mem_map_of_mem hrequest
      have hne : s ≠ slot := by
        rintro rfl
        rw [← hold hslot.2, hid₂] at hmem
        exact hfresh hmem
      refine ⟨s, hlive, hsid, htable s hne ▸ hold, fun s' hs' heq => ?_, hother s hne ▸ hchain⟩
      have hne' : s' ≠ slot := findOrInsert_other hfind hs'.2 fun hsame => hfresh (hsame ▸ heq ▸ hmem)
      exact hfound s' ((LiveSlot.congr (htable s' hne')).mpr hs') (htable s' hne' ▸ heq)
  · rw [map_cons, mem_cons, not_or] at hout
    have hne := findOrInsert_other hfind hs.2 hout.1
    have hsame := htable s hne
    obtain ⟨hentry, hchain⟩ := h.other s ((LiveSlot.congr hsame).mpr hs) (hsame ▸ hout.2)
    exact ⟨hentry.trans hsame, hother s hne ▸ hchain⟩

end OneSequence

omit [DecidableEq Pid] in
/-- The tail of a slot in use is a page of its chain. -/
theorem PagesHeld.tail_mem (h : PagesHeld cfg r flight cells) (hslot : LiveSlot cfg r slot)
    (hvalid : (r.sequenceTable slot).tailPage ≠ kInvalidPageIndex) :
    (r.sequenceTable slot).tailPage ∈ cells (.chain slot) := by
  have htail := (h.chain slot hslot).tail
  rw [htail] at hvalid ⊢
  apply lastCell_mem
  intro hnil
  rw [hnil] at hvalid
  exact hvalid rfl

/-- **The attach loop of the wave.**  Whatever its outcome it can be undone, and when it goes through,
the wave's pages have left the call's hands. -/
theorem attachWave_spec (hfit : cfg.numPages ≤ 2 ^ 31) :
    ∀ (wave : List (ℤ × List ℤ)) {r : Region} {flight : Pid → List ℤ}
      {cells : Place Pid → List ℤ} {rest : List ℤ}, PagesHeld cfg r flight cells → (wave.map Prod.fst).Nodup →
      NoneReserved (wave.map Prod.fst) →
      flight pid = wavePages wave ++ rest → WaveTrace cfg r wave (attachWave cfg wave r) ∧
        ((attachWave cfg wave r).2.1 = none →
          (∃ cells', PagesHeld cfg (attachWave cfg wave r).2.2 (update flight pid rest) cells') ∧
            (TableValid cfg r →
              Appended cfg r (attachWave cfg wave r).2.2 (fun slot => cells (.chain slot)) wave)) := by
  intro wave
  induction wave with
  | nil =>
    intro r flight cells rest h _ _ hflight
    refine ⟨⟨by simp [attachWave], Pending.refl r _⟩, fun _ => ⟨⟨cells, ?_⟩, ?_⟩⟩
    · have hrest : flight pid = rest := hflight
      rw [← hrest, update_eq_self]
      exact h
    · exact fun _ => ⟨by simp, fun slot hslot _ => ⟨rfl, h.chain slot hslot⟩⟩
  | cons head wave ih =>
    obtain ⟨sequenceId, pages⟩ := head
    intro r flight cells rest h hnodup hres hflight
    rw [map_cons, nodup_cons] at hnodup
    rw [attachWave]
    split
    · exact ⟨⟨by simp, Pending.refl r _⟩, by simp⟩
    rename_i slot isNew r₁ hfind
    obtain ⟨h₁, hslot, hid⟩ := h.findOrInsert (hres sequenceId mem_cons_self) hfind
    rw [wavePages_cons, append_assoc] at hflight
    have h₂ := h₁.attachSequence hfit isNew hslot hid hflight
    have hattached := attachSequence_attached isNew pages hslot hid
    have hres' : NoneReserved (wave.map Prod.fst) := fun i hi =>
      hres i (mem_cons_of_mem _ hi)
    obtain ⟨htrace, hdone⟩ := ih h₂ hnodup.2 hres' (update_self ..)
    have hslots := fun undo hundo => (htrace.recorded undo hundo).slot_ne hattached hnodup.1
    refine ⟨htrace.cons hfind hattached hslots fun undo hundo hnew hvalid => ?_, fun hnone => ?_⟩
    · -- the old tail is in the chain of another slot, which this sequence did not touch
      have hrec := htrace.recorded undo hundo
      have hne := hslots undo hundo
      have hentry := hrec.entry hnew
      have hlive : LiveSlot cfg (HostPagedKV.attachSequence sequenceId slot isNew pages r₁) undo.slot :=
        ⟨hrec.slot_lt, (live_of_not_reserved (congrArg SequenceEntry.sequenceId hentry.symm)
          (hres' _ (hrec.id_mem hnew))).1⟩
      have hmem := h₂.tail_mem hlive (hentry ▸ hvalid)
      rw [← hentry, reassign_other (by simp [hne]) (by simp)] at hmem
      refine hattached.link hfind (fun hin => ?_) fun htail => ?_
      · have hfl : undo.previousEntry.tailPage ∈ cells (.flight pid) := by
          rw [h₁.flight, hflight]
          exact mem_append_left _ hin
        cases h₁.placement.disjoint _ _ _ hmem hfl
      · rw [htail] at hmem hvalid
        exact hne (Place.chain.inj (h₁.placement.disjoint _ _ _ hmem (h₁.tail_mem hslot hvalid)))
    · obtain ⟨⟨cells', hheld⟩, happended⟩ := hdone hnone
      rw [update_idem] at hheld
      have hfree := hres sequenceId mem_cons_self
      refine ⟨⟨cells', hheld⟩, fun hvalid => ?_⟩
      exact (happended (hattached.tableValid hfind hfree hvalid)).cons hfind hattached hvalid hfree hnodup.1
        (reassign_left (by simp) _ _) fun s hs => reassign_other (by simp [hs]) (by simp) _ _

/-! ### The counters -/

/-- Since `r`, the region has counted `count` entries as active and none as inserted. -/
structure Counted (r cur : Region) (count : ℕ) : Prop where
  active : cur.activeSequences = u32 (r.activeSequences + count)
  inserted : cur.sequencesInserted = r.sequencesInserted

theorem Counted.refl (h : r.activeSequences < 2 ^ 32) : Counted r r 0 := ⟨(u32_of_lt h).symm, rfl⟩

theorem Counted.trans {r₂ : Region} {m n : ℕ} (h : Counted r r₁ m) (h' : Counted r₁ r₂ n) : Counted r r₂ (n + m) := by
  refine ⟨?_, h'.inserted.trans h.inserted⟩
  rw [h'.active, h.active, u32_u32_add, Nat.add_assoc, Nat.add_comm m]

/-- A sequence of the wave is counted as active when its entry is new. -/
theorem attachSequence_counted (pages : List ℤ) (h : r.activeSequences < 2 ^ 32)
    (hfind : SlotFound cfg r sequenceId slot isNew r₁) :
    Counted r (attachSequence sequenceId slot isNew pages r₁) (if isNew then 1 else 0) := by
  obtain ⟨hactive, hinserted, -⟩ := attachPages_counters sequenceId slot pages r₁
  obtain ⟨-, ⟨rfl, rfl, -⟩ | ⟨rfl, -, rfl⟩⟩ := hfind.cases
  · exact ⟨hactive.trans (u32_of_lt h).symm, hinserted⟩
  · exact ⟨congrArg (fun active => u32 (active + 1)) hactive, hinserted⟩

variable (cfg)

/-- The attach loop counts the entries it records as new. -/
theorem attachWave_counted (wave : List (ℤ × List ℤ)) {r : Region} (h : r.activeSequences < 2 ^ 32) :
    Counted r (attachWave cfg wave r).2.2 ((attachWave cfg wave r).1.countP (·.newlyInserted)) := by
  induction wave generalizing r with
  | nil => exact Counted.refl h
  | cons head wave ih =>
    obtain ⟨sequenceId, pages⟩ := head
    rw [attachWave]
    split
    · exact Counted.refl h
    rename_i slot isNew r₁ hfind
    have hstep := attachSequence_counted pages h hfind
    rw [countP_cons]
    exact hstep.trans (ih (hstep.active ▸ u32_lt _))

/-- The slots in use. -/
def liveSlots (r : Region) : List ℕ :=
  (List.range cfg.sequenceCapacity).filter fun slot => (r.sequenceTable slot).live

/-- `active_sequences` counts the slots in use, in 32 bits. -/
def ActiveCounts (r : Region) : Prop := r.activeSequences = u32 (liveSlots cfg r).length

variable {cfg}

theorem mem_liveSlots : slot ∈ liveSlots cfg r ↔ LiveSlot cfg r slot := by
  simp [liveSlots, LiveSlot]

theorem ActiveCounts.congr (h : ActiveCounts cfg r) (hactive : r'.activeSequences = r.activeSequences)
    (hlive : ∀ s, (r'.sequenceTable s).live ↔ (r.sequenceTable s).live) : ActiveCounts cfg r' := by
  unfold ActiveCounts liveSlots
  simp only [hlive, hactive]
  exact h

theorem live_congr {entry entry' : SequenceEntry} (h : entry'.sequenceId = entry.sequenceId) :
    entry'.live ↔ entry.live := by
  unfold SequenceEntry.live
  rw [h]

/-- A slot that comes into use is one more. -/
theorem liveSlots_length_succ (hslot : LiveSlot cfg r' slot) (hdead : ¬ (r.sequenceTable slot).live)
    (hother : ∀ s, s ≠ slot → ((r'.sequenceTable s).live ↔ (r.sequenceTable s).live)) :
    (liveSlots cfg r').length = (liveSlots cfg r).length + 1 := by
  have hnot : slot ∉ liveSlots cfg r := fun hmem => hdead (mem_liveSlots.mp hmem).2
  have hperm : (liveSlots cfg r').Perm (slot :: liveSlots cfg r) := by
    refine (perm_ext_iff_of_nodup (nodup_range.filter _) (nodup_cons.mpr ⟨hnot, nodup_range.filter _⟩)).mpr fun s => ?_
    show s ∈ liveSlots cfg r' ↔ _
    rw [mem_cons, mem_liveSlots, mem_liveSlots]
    by_cases hs : s = slot
    · simp [hs, hslot]
    · simp [hs, LiveSlot, hother s hs]
  exact hperm.length_eq

/-- Finding or claiming a slot, and counting it when it is new, keeps the count. -/
theorem ActiveCounts.settle (h : ActiveCounts cfg r) (hres : isReservedSequenceId sequenceId = false)
    (hfind : SlotFound cfg r sequenceId slot isNew r₁)
    (hids : ∀ s, (r'.sequenceTable s).sequenceId = (r₁.sequenceTable s).sequenceId)
    (hactive : r'.activeSequences = if isNew then u32 (r.activeSequences + 1) else r.activeSequences) :
    ActiveCounts cfg r' := by
  obtain ⟨hcap, ⟨rfl, rfl, -⟩ | ⟨rfl, hdead, rfl⟩⟩ := hfind.cases
  · exact h.congr hactive fun s => live_congr (hids s)
  · have hlive : LiveSlot cfg r' slot := ⟨hcap, (live_of_not_reserved ((hids slot).trans (by simp)) hres).1⟩
    have hcount := liveSlots_length_succ hlive hdead fun s hs =>
      live_congr ((hids s).trans (by simp [update_of_ne hs]))
    rw [ActiveCounts, hactive, hcount, if_pos rfl, h, u32_u32_add]

theorem ActiveCounts.attachWave (wave : List (ℤ × List ℤ)) {r : Region} (h : ActiveCounts cfg r)
    (hres : NoneReserved (wave.map Prod.fst)) :
    ActiveCounts cfg (attachWave cfg wave r).2.2 := by
  induction wave generalizing r with
  | nil => exact h
  | cons head wave ih =>
    obtain ⟨sequenceId, pages⟩ := head
    rw [HostPagedKV.attachWave]
    split
    · exact h
    rename_i slot isNew r₁ hfind
    obtain ⟨-, -, hids⟩ := attachPages_counters sequenceId slot pages r₁
    refine ih (h.settle (hres sequenceId mem_cons_self) hfind ?_ ?_) fun i hi => hres i (mem_cons_of_mem _ hi)
    · rw [attachSequence_eq]
      exact hids
    · have hcounted := attachSequence_counted pages (h ▸ u32_lt _) hfind
      rw [hcounted.active]
      cases isNew with
      | false => exact u32_of_lt (h ▸ u32_lt _)
      | true => rfl

/-- The rollback takes every one of them back. -/
theorem Counted.undo (h : Counted r cur (undos.countP (·.newlyInserted))) : Counted r (undos.foldl undoWave cur) 0 := by
  induction undos generalizing cur with
  | nil => exact h
  | cons undo undos ih =>
    apply ih
    rw [countP_cons] at h
    cases hnew : undo.newlyInserted with
    | true =>
      rw [if_pos hnew] at h
      rw [undoWave, if_pos hnew]
      exact ⟨(congrArg u32Pred h.active).trans (u32Pred_u32_succ _), h.inserted⟩
    | false =>
      rw [hnew] at h
      rw [undoWave, hnew]
      exact ⟨h.active, h.inserted⟩

/-! ### The call -/

/-- Counts that pass the checks belong to distinct sequences, one count each, as `size_t` computes it. -/
theorem requiredPages_ok : ∀ {requests : List (ℤ × ℕ)} {seen : List ℤ} {total : ℕ} {counts : List ℕ},
      requiredPages cfg seen total requests = .ok counts →
      counts = requests.map (fun request => u64 (request.2 + cfg.pageSizeTokens - 1) / cfg.pageSizeTokens) ∧
        (requests.map Prod.fst).Nodup ∧ ∀ sequenceId ∈ requests.map Prod.fst, sequenceId ∉ seen := by
  intro requests
  induction requests with
  | nil =>
    intro seen total counts h
    rw [requiredPages] at h
    split at h
    · cases h
    · cases h
      simp
  | cons request requests ih =>
    obtain ⟨sequenceId, numTokens⟩ := request
    intro seen total counts h
    rw [requiredPages] at h
    split at h
    · cases h
    rename_i hseen
    split at h
    · cases h
    dsimp only at h
    split at h
    · cases h
    cases hrest : requiredPages cfg (sequenceId :: seen)
        (total + u64 (numTokens + cfg.pageSizeTokens - 1) / cfg.pageSizeTokens)
        requests with
    | error e =>
      rw [hrest] at h
      cases h
    | ok rest =>
      rw [hrest] at h
      cases h
      obtain ⟨rfl, hnodup, hout⟩ := ih hrest
      refine ⟨rfl, ?_, ?_⟩
      · rw [map_cons, nodup_cons]
        exact ⟨fun hmem => hout _ hmem mem_cons_self, hnodup⟩
      · intro i hi
        rcases mem_cons.mp hi with rfl | hi
        · exact hseen
        · exact fun hmem => hout i hi (mem_cons_of_mem _ hmem)

theorem splitAllocations_length (counts : List ℕ) (pages : List ℤ) :
    (splitAllocations counts pages).length = counts.length := by
  induction counts generalizing pages with
  | nil => rfl
  | cons count counts ih => simp [splitAllocations, ih]

/-- Nothing is lost when the popped slice is cut up, and each part has its count. -/
theorem splitAllocations_parts (h : pages.length = counts.sum) :
    (splitAllocations counts pages).flatten = pages ∧ (splitAllocations counts pages).map length = counts := by
  induction counts generalizing pages with
  | nil =>
    rw [sum_nil] at h
    rw [length_eq_zero_iff.mp h]
    exact ⟨rfl, rfl⟩
  | cons count counts ih =>
    rw [sum_cons] at h
    have hdrop : (pages.drop count).length = counts.sum := by rw [length_drop]; omega
    obtain ⟨hflat, hparts⟩ := ih hdrop
    rw [splitAllocations, flatten_cons, map_cons, hflat, hparts, take_append_drop, length_take,
      Nat.min_eq_left (by omega)]
    exact ⟨rfl, rfl⟩

/-- The wave has the sequences and the pages it is made of. -/
theorem wave_parts (hlen : counts.length = sequenceIds.length) (h : pages.length = counts.sum) :
    (sequenceIds.zip (splitAllocations counts pages)).map Prod.fst = sequenceIds ∧
      wavePages (sequenceIds.zip (splitAllocations counts pages)) = pages := by
  have hsplit := splitAllocations_length counts pages
  rw [wavePages, map_fst_zip (by omega), map_snd_zip (by omega), (splitAllocations_parts h).1]
  exact ⟨rfl, rfl⟩

/-- What a call that throws leaves as it was: the stack, the slots with the chains of those in use, and the two
counters of table entries. -/
structure Unchanged (cfg : HostPagedKVConfig) (r r' : Region) (chains : ℕ → List ℤ) : Prop where
  stack : r'.freeStack = r.freeStack
  top : r'.freeStackTop = r.freeStackTop
  table : ∀ slot, SlotRestored r r' slot
  chain : ∀ slot, LiveSlot cfg r slot → SlotChain r' slot (chains slot)
  active : r'.activeSequences = r.activeSequences
  inserted : r'.sequencesInserted = r.sequencesInserted

omit [DecidableEq Pid] in
theorem PagesHeld.unchanged (h : PagesHeld cfg r flight cells) (hstack : r'.freeStack = r.freeStack)
    (htop : r'.freeStackTop = r.freeStackTop) (htable : r'.sequenceTable = r.sequenceTable)
    (howners : r'.pageOwners = r.pageOwners) (hlinks : r'.pageLinks = r.pageLinks)
    (hactive : r'.activeSequences = r.activeSequences) (hinserted : r'.sequencesInserted = r.sequencesInserted) :
    Unchanged cfg r r' fun slot => cells (.chain slot) :=
  ⟨hstack, htop, fun slot => Or.inl (congrFun htable slot),
    fun slot hslot => (h.chain slot hslot).congr howners hlinks htable, hactive, hinserted⟩

omit [DecidableEq Pid] in
/-- **The rollback.**  Once no record is pending, clearing the popped pages and putting the top back gives the
region before the call, up to slots that were unused before and are unused again. -/
theorem PagesHeld.rollback (h : PagesHeld cfg r flight cells) {top failures : ℕ}
    (hfree : ∀ page ∈ pages, page ∈ cells .free) (hback : Pending { r with freeStackTop := top } cur pages [])
    (hr' : r' = { clearPages cur pages with freeStackTop := r.freeStackTop, acquireFailures := failures }) :
    PagesHeld cfg r' flight cells ∧ (Counted { r with freeStackTop := top } cur 0 → r.activeSequences < 2 ^ 32 →
        Unchanged cfg r r' fun slot => cells (.chain slot)) := by
  have hstack : r'.freeStack = r.freeStack := by
    rw [hr']
    exact (clearPages_stack _ _).trans hback.stack
  have htop : r'.freeStackTop = r.freeStackTop := by rw [hr']
  have htable : ∀ slot, SlotRestored r r' slot := by
    intro slot
    rcases hback.table slot with hslot | ⟨undo, hundo, -⟩
    · rw [hr', SlotRestored]
      simp only [clearPages_table]
      exact hslot
    · cases hundo
  have hheld : PagesHeld cfg r' flight cells := by
    refine h.restored hstack htop ?_ ?_ htable
    · funext page
      rw [hr']
      show (clearPages cur pages).pageOwners page = r.pageOwners page
      rw [clearPages_owners]
      split
      -- the popped pages were free, so clearing them gives them the owner they had
      · rename_i hpage
        exact (h.tagged .free _ rfl page (hfree page hpage)).symm
      · rename_i hpage
        exact hback.owners page hpage
    · intro slot page hpage
      have hout : page ∉ pages := by
        intro hmem
        have hsame := h.placement.disjoint _ _ page hpage (hfree page hmem)
        cases hsame
      rw [hr']
      show (clearPages cur pages).pageLinks page = r.pageLinks page
      rw [clearPages_links, if_neg hout]
      rcases hback.links page hout (h.ne_invalid hpage) with hlink | ⟨undo, hundo, -⟩
      · exact hlink
      · cases hundo
  refine ⟨hheld, fun hcounted hactive => ⟨hstack, htop, htable, fun slot hslot => hheld.chain slot ?_, ?_, ?_⟩⟩
  · exact (htable slot).liveSlot_iff.mpr hslot
  · rw [hr', clearPages_rest]
    exact hcounted.active.trans (u32_of_lt hactive)
  · rw [hr', clearPages_rest]
    exact hcounted.inserted

/-- **`AcquirePagesForSequences` keeps the pages in place**: on success the top of the stack is behind the chains
of the wave's sequences, on any failure everything is as it was. -/
theorem PagesHeld.acquirePagesForSequences (hfit : cfg.numPages ≤ 2 ^ 31) (h : PagesHeld cfg r flight cells)
    (hidle : flight pid = []) (hnodup : sequenceIds.Nodup)
    (hres : NoneReserved sequenceIds)
    (hlen : counts.length = sequenceIds.length) :
    (∃ error r', acquirePagesForSequences cfg sequenceIds counts r = (.error error, r') ∧
        PagesHeld cfg r' flight cells ∧
        (r.activeSequences < 2 ^ 32 → Unchanged cfg r r' fun slot => cells (.chain slot))) ∨
      ∃ allocations r', acquirePagesForSequences cfg sequenceIds counts r = (.ok allocations, r') ∧
        (∃ cells', PagesHeld cfg r' flight cells') ∧ allocations.map length = counts ∧
        freePages r = freePages r' ++ allocations.flatten ∧
        (TableValid cfg r → Appended cfg r r' (fun slot => cells (.chain slot)) (sequenceIds.zip allocations)) ∧
        (ActiveCounts cfg r → ActiveCounts cfg r') := by
  unfold HostPagedKV.acquirePagesForSequences
  dsimp only
  split
  · exact Or.inl ⟨_, _, rfl, h.congr rfl rfl rfl rfl rfl, fun _ => h.unchanged rfl rfl rfl rfl rfl rfl rfl⟩
  rename_i htotal
  rw [not_lt] at htotal
  have htop := h.length_le (p := .free) (q := .resident) (by simp)
  rw [h.free, freePages, stackSlice_length] at htop
  have hu32 : u32 counts.sum = counts.sum := u32_of_lt (by omega)
  rw [hu32]
  have hsplit := freePages_pop htotal
  obtain ⟨cells₀, h₀, hchains⟩ := h.pop hidle htotal
  have hlength := stackSlice_length r (r.freeStackTop - counts.sum) counts.sum
  generalize stackSlice r (r.freeStackTop - counts.sum) counts.sum = popped at *
  obtain ⟨hflat, hparts⟩ := splitAllocations_parts hlength
  obtain ⟨hzip, hwave⟩ := wave_parts hlen hlength
  have hhands : update flight pid popped pid = wavePages (sequenceIds.zip (splitAllocations counts popped)) ++ [] := by
    rw [update_self, hwave, append_nil]
  obtain ⟨htrace, hdone⟩ := attachWave_spec hfit _ h₀ (by rw [hzip]; exact hnodup) (by rw [hzip]; exact hres) hhands
  have hcounted := attachWave_counted cfg (sequenceIds.zip (splitAllocations counts popped))
    (r := { r with freeStackTop := r.freeStackTop - counts.sum })
  split
  · rename_i undos r' hout
    rw [hout] at hdone htrace
    obtain ⟨⟨cells', hheld⟩, happended⟩ := hdone rfl
    rw [update_idem, ← hidle, update_eq_self] at hheld
    refine Or.inr ⟨_, _, rfl, ⟨cells', hheld.congr rfl rfl rfl rfl rfl⟩, hparts, ?_, ?_, fun hcounts => ?_⟩
    · rw [hsplit, hflat, freePages, stackSlice, stackSlice]
      show _ = map (fun i => r'.freeStack (0 + i)) (range r'.freeStackTop) ++ popped
      rw [htrace.pending.top, htrace.pending.stack]
    · intro hvalid
      refine ⟨fun request hrequest => ?_, fun slot hslot hother => ?_⟩
      · obtain ⟨slot, hlive, hid, hold, hfound, hchain⟩ := (happended hvalid).behind request hrequest
        rw [hchains] at hchain
        exact ⟨slot, hlive, hid, hold, hfound, hchain.congr rfl rfl rfl⟩
      · obtain ⟨hentry, hchain⟩ := (happended hvalid).other slot hslot hother
        rw [hchains] at hchain
        exact ⟨hentry, hchain.congr rfl rfl rfl⟩
    · have hend := ActiveCounts.attachWave (r := { r with freeStackTop := r.freeStackTop - counts.sum })
        (sequenceIds.zip (splitAllocations counts popped)) hcounts (by rw [hzip]; exact hres)
      rw [hout] at hend
      exact hend
  · rename_i undos error r' hout
    rw [hout] at htrace hcounted
    have hback := undoWave_restores htrace.pending htrace.recorded
    rw [hwave] at hback
    rw [hflat]
    have hfree : ∀ page ∈ popped, page ∈ cells .free := by
      intro page hpage
      rw [h.free, hsplit]
      exact mem_append_right _ hpage
    obtain ⟨hheld, hunchanged⟩ := h.rollback hfree hback rfl
    exact Or.inl ⟨_, _, rfl, hheld, fun hactive => hunchanged (hcounted hactive).undo hactive⟩

end Batchgen.HostPagedKV
