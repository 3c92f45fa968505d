import Batchgen.HostPagedKV.SalvageSections
import Batchgen.HostPagedKV.Wave

/-!
# A wave of allocations survives being killed

`AcquirePagesForSequences` attaches the pages of a whole wave and undoes what it did when the table is
full.  While it attaches, every page is in its hands or in the chain of its sequence.  While it undoes,
pages are lost until the last store but one puts the old top of the stack back: at that point every
slot is what it was before the wave (`Pending`), so the popped pages are in no chain.
-/

namespace Batchgen.HostPagedKV

open MachineInt LinkedChain CrashWrites Function List

variable {Pid : Type*} {cfg : HostPagedKVConfig} {r r' r₁ cur r₂ : Region} {held : Pid → List ℤ} {spot : ℤ → Place Pid}
  {chain : ℕ → List ℤ} {slot s : ℕ} {pid : Pid} {undos : List WaveUndo} {sequenceId page : ℤ} {pages : List ℤ}
  {isNew : Bool} {undo : WaveUndo}

/-! ### One sequence of the wave -/

/-- **One sequence of the wave.** -/
theorem Salvage.attachSequence [DecidableEq Pid] {rest : List ℤ}
    (h : Salvage cfg r (update held pid (pages ++ rest)) spot chain)
    (hidle : held pid = []) (hres : isReservedSequenceId sequenceId = false) (htails : TailsInPlace cfg r [sequenceId])
    (hfind : SlotFound cfg r sequenceId slot isNew r₁) :
    Survived cfg held r (attachSequenceWrites sequenceId slot isNew pages r₁) ∧
      Salvageable cfg (HostPagedKV.attachSequence sequenceId slot isNew pages r₁) (update held pid rest) ∧
      Attached cfg sequenceId slot pages r₁ (HostPagedKV.attachSequence sequenceId slot isNew pages r₁) ∧
      TailInPlace r₁ slot := by
  have hnot : sequenceId ≠ kPrefixResidentSequenceId := by
    rintro rfl
    exact absurd hres (by decide)
  obtain ⟨hclaim, hr₁, hlive, hslotId, htail, chain', h₁⟩ := h.settle hidle hres htails hfind
  obtain ⟨hsurvived, spot', hend⟩ := Salvage.attachPages rest hidle hnot h₁ hlive (htail.eq_lastCell h₁ hlive)
  have hattached := attachSequence_attached isNew pages hlive hslotId
  cases isNew with
  | false =>
    cases hr₁
    exact ⟨hsurvived, hend.salvageable, hattached, htail⟩
  | true =>
    refine ⟨?_, hend.salvageable.harmless (w := .activeSequences _) trivial, hattached, htail⟩
    rw [if_pos rfl] at hclaim hr₁
    refine Survived.append hclaim (Survived.append ?_ ?_)
    · rw [hr₁]
      exact hsurvived
    · rw [hr₁, attachWrites_spec]
      exact ⟨Or.inr ((hend.killed hidle).harmless trivial), trivial⟩

/-! ### The rollback -/

/-- A record that the rollback can apply to `cur` and lose nothing but pages. -/
structure Undoable (cur : Region) (undo : WaveUndo) : Prop where
  link : undo.newlyInserted = false → undo.previousTailLink = kInvalidPageIndex
  sequenceId : undo.newlyInserted = false →
    undo.previousEntry.sequenceId = (cur.sequenceTable undo.slot).sequenceId
  head : undo.newlyInserted = false → undo.previousEntry.headPage = kInvalidPageIndex ∨
    undo.previousEntry.headPage = (cur.sequenceTable undo.slot).headPage

theorem Undoable.congr {cur' : Region} (h : Undoable cur undo)
    (hsame : cur'.sequenceTable undo.slot = cur.sequenceTable undo.slot) : Undoable cur' undo := by
  refine ⟨h.link, ?_, ?_⟩
  · rw [hsame]
    exact h.sequenceId
  · rw [hsame]
    exact h.head

/-- Applying one record. -/
theorem Salvageable.undoWave (h : Salvageable cfg cur held) (hundo : Undoable cur undo) :
    Weathered cfg held cur (undoWaveWrites cur undo) := by
  unfold undoWaveWrites
  cases hnew : undo.newlyInserted with
  | true =>
    rw [if_pos rfl]
    exact h.survives (forall_mem_append.mpr ⟨tombstoneWrites_harmless undo.slot, by simp [Write.Harmless]⟩)
  | false =>
    rw [if_neg (by simp), hundo.link hnew]
    -- the link behind the old tail is cut, whatever hangs there now
    generalize hws : (if undo.previousEntry.tailPage = kInvalidPageIndex then []
      else [.pageLink undo.previousEntry.tailPage kInvalidPageIndex] : List Write) = ws
    have hcut : Weathered cfg held cur ws := h.survives (by
      rw [← hws]
      split <;> simp [Write.Harmless])
    obtain ⟨spot, chain, hs⟩ := hcut.2
    have htable : (applyAll store cur ws).sequenceTable = cur.sequenceTable := by
      rw [← hws]
      split <;> rfl
    have hid := hundo.sequenceId hnew
    rw [← htable] at hid
    have hhead := hundo.head hnew
    rw [← htable] at hhead
    have hback := hs.entry_restored undo.slot undo.previousEntry hid hhead
    exact hcut.append rfl ⟨⟨Or.inr hback, trivial⟩, hback⟩

theorem undoWave_table_ne (hslot : slot ≠ undo.slot) :
    (HostPagedKV.undoWave cur undo).sequenceTable slot = cur.sequenceTable slot := by
  unfold HostPagedKV.undoWave
  split
  · exact update_of_ne hslot _ _
  · exact update_of_ne hslot _ _

/-- **Applying all records.** -/
theorem Salvageable.undoWaves :
    ∀ {cur : Region}, Salvageable cfg cur held → (∀ undo ∈ undos, Undoable cur undo) →
      undos.Pairwise (fun a b => a.slot ≠ b.slot) → Weathered cfg held cur (undoWavesWrites undos cur) := by
  induction undos with
  | nil => exact fun h _ _ => ⟨trivial, h⟩
  | cons undo undos ih =>
    intro cur h hundo hslots
    rw [pairwise_cons] at hslots
    have hone := h.undoWave (hundo undo mem_cons_self)
    have hspec := undoWaveWrites_spec cur undo
    exact hone.append hspec (ih (hspec ▸ hone.2) (fun u hu => (hundo u (mem_cons_of_mem undo hu)).congr
      (undoWave_table_ne (hslots.1 u hu).symm)) hslots.2)

/-! ### The wave -/

/-- What the attach loop of the wave leaves behind. -/
structure WaveSurvived [DecidableEq Pid] (cfg : HostPagedKVConfig) (held : Pid → List ℤ) (pid : Pid) (rest : List ℤ)
    (r : Region) (wave : List (ℤ × List ℤ)) : Prop where
  survived : Survived cfg held r (waveWrites cfg wave r)
  trace : WaveTrace cfg r wave (attachWave cfg wave r)
  undoable : ∀ undo ∈ (attachWave cfg wave r).1, Undoable (attachWave cfg wave r).2.2 undo
  slots : (attachWave cfg wave r).1.Pairwise fun a b => a.slot ≠ b.slot
  salvageable : Salvageable cfg (attachWave cfg wave r).2.2 held
  attached : (attachWave cfg wave r).2.1 = none →
    Salvageable cfg (attachWave cfg wave r).2.2 (update held pid rest)

/-- The record made for a sequence whose tail is in place. -/
theorem recordUndo_undoable (hattached : Attached cfg sequenceId slot pages r₁ r₂) (htail : TailInPlace r₁ slot)
    (hsame : cur.sequenceTable slot = r₂.sequenceTable slot) : Undoable cur (recordUndo slot isNew r₁) := by
  obtain ⟨cells, hchain, hlast⟩ := htail
  refine ⟨fun _ => ?_, fun _ => ?_, fun _ => ?_⟩
  · show (if (r₁.sequenceTable slot).tailPage = kInvalidPageIndex then kInvalidPageIndex
      else r₁.pageLinks (r₁.sequenceTable slot).tailPage) = kInvalidPageIndex
    split
    · rfl
    · rename_i hvalid
      rw [hlast] at hvalid ⊢
      refine hchain.link_lastCell fun hnil => hvalid ?_
      rw [hnil, lastCell_nil]
  · show (r₁.sequenceTable slot).sequenceId = (cur.sequenceTable slot).sequenceId
    rw [hsame, hattached.sequenceId₁, hattached.sequenceId₂]
  · show (r₁.sequenceTable slot).headPage = kInvalidPageIndex ∨
      (r₁.sequenceTable slot).headPage = (cur.sequenceTable slot).headPage
    by_cases hhead : (r₁.sequenceTable slot).headPage = kInvalidPageIndex
    · exact Or.inl hhead
    · rw [hsame, hattached.head hhead]
      exact Or.inr rfl

section

variable (h : Salvage cfg r held spot chain) (hfind : SlotFound cfg r sequenceId slot isNew r₁)
  (hattached : Attached cfg sequenceId slot pages r₁ r₂)
include h hfind hattached

omit hattached in
/-- The tail of the slot a sequence of the wave is attached to is in the slot's own chain. -/
theorem Salvage.tail_apart (hlive : LiveSlot cfg r₁ slot)
    (htail : TailInPlace r₁ slot) (hs : s ≠ slot) (hslot : LiveSlot cfg r s) (hpage : page ∈ chain s) :
    page ≠ (r₁.sequenceTable slot).tailPage := by
  obtain ⟨hrange, hspot⟩ := h.chained s hslot page hpage
  have hvalid := inRange_ne_invalid hrange
  obtain ⟨-, ⟨-, rfl, -⟩ | ⟨-, -, rfl⟩⟩ := hfind.cases
  · rw [htail.eq_lastCell h hlive]
    rintro rfl
    by_cases hnil : chain slot = []
    · rw [hnil] at hvalid
      exact hvalid rfl
    · have hmem : lastCell kInvalidPageIndex (chain slot) ∈ chain slot := lastCell_mem hnil
      exact hs (Place.chain.inj (h.place_eq hlive hmem hspot))
  · simpa using hvalid

/-- A page of the chain of another slot keeps its link while a sequence of the wave is attached. -/
theorem Attached.link_kept (htail : TailInPlace r₁ slot)
    (hpages : ∀ p ∈ pages, spot p = .flight pid) (hs : s ≠ slot) (hlive : LiveSlot cfg r s)
    (hpage : page ∈ chain s) : r₂.pageLinks page = r.pageLinks page := by
  have hout : page ∉ pages := by
    intro hmem
    cases h.place_eq hlive hpage (hpages page hmem)
  exact hattached.link hfind hout (h.tail_apart hfind hattached.live htail hs hlive hpage)

/-- The tail of another entry stays in place meanwhile. -/
theorem TailInPlace.attached (htail : TailInPlace r s) (htail₁ : TailInPlace r₁ slot)
    (hpages : ∀ p ∈ pages, spot p = .flight pid) (hs : s ≠ slot) (hlive : LiveSlot cfg r s) : TailInPlace r₂ s := by
  have hentry := hattached.table hfind hs
  obtain ⟨cells, hchain, hlast⟩ := htail
  refine ⟨cells, ?_, by rw [hentry, hlast]⟩
  rw [hentry]
  refine hchain.congr fun page hpage => ?_
  rw [hchain.unique (h.linked s hlive)] at hpage
  exact hattached.link_kept h hfind htail₁ hpages hs hlive hpage

/-- So do the links that the records of the later sequences hold. -/
theorem Recorded.link_kept {wave : List (ℤ × List ℤ)} (hrec : Recorded cfg r₂ (wave.map Prod.fst) undo)
    (htail₁ : TailInPlace r₁ slot) (hpages : ∀ p ∈ pages, spot p = .flight pid) (hslot : undo.slot ≠ slot)
    (hres : NoneReserved (wave.map Prod.fst)) (htails : TailsInPlace cfg r (wave.map Prod.fst))
    (hnew : undo.newlyInserted = false) (hvalid : undo.previousEntry.tailPage ≠ kInvalidPageIndex) :
    r₂.pageLinks undo.previousEntry.tailPage = r.pageLinks undo.previousEntry.tailPage := by
  -- the old tail is in the chain of its own slot, which this sequence did not touch
  have hentry := (hrec.entry hnew).trans (hattached.table hfind hslot)
  have hid := hrec.id_mem hnew
  rw [hentry] at hid hvalid ⊢
  have hlive : LiveSlot cfg r undo.slot := ⟨hrec.slot_lt, not_marker_of_not_reserved (hres _ hid)⟩
  have htail := (htails undo.slot hrec.slot_lt hid).eq_lastCell h hlive
  refine hattached.link_kept h hfind htail₁ hpages hslot hlive ?_
  rw [htail] at hvalid ⊢
  refine lastCell_mem fun hnil => hvalid ?_
  rw [hnil, lastCell_nil]

end

/-- **The attach loop of the wave.** -/
theorem Salvage.attachWave [DecidableEq Pid] (hidle : held pid = []) (rest : List ℤ) :
    ∀ (wave : List (ℤ × List ℤ)) {r : Region} {spot : ℤ → Place Pid} {chain : ℕ → List ℤ},
      Salvage cfg r (update held pid (wavePages wave ++ rest)) spot chain → (wave.map Prod.fst).Nodup →
      NoneReserved (wave.map Prod.fst) → TailsInPlace cfg r (wave.map Prod.fst) →
      WaveSurvived cfg held pid rest r wave := by
  intro wave
  induction wave with
  | nil =>
    intro r spot chain h _ _ _
    refine ⟨trivial, ⟨by simp [HostPagedKV.attachWave], Pending.refl r _⟩, ?_, ?_,
      (h.killed hidle), fun _ => h.salvageable⟩
    · simp [HostPagedKV.attachWave]
    · simp [HostPagedKV.attachWave]
  | cons head wave ih =>
    obtain ⟨sequenceId, pages⟩ := head
    intro r spot chain h hnodup hres htails
    rw [map_cons, nodup_cons] at hnodup
    rw [wavePages_cons, append_assoc] at h
    cases hfind : findOrInsertSequenceEntryLocked cfg r sequenceId with
    | error e =>
      have hout : HostPagedKV.attachWave cfg ((sequenceId, pages) :: wave) r = ([], some e, r) := by
        rw [HostPagedKV.attachWave, hfind]
      have hwrites : waveWrites cfg ((sequenceId, pages) :: wave) r = [] := by
        rw [waveWrites, hfind]
      refine ⟨hwrites ▸ trivial, ?_, ?_, ?_, ?_, ?_⟩ <;> rw [hout]
      · exact ⟨by simp, Pending.refl r _⟩
      · simp
      · simp
      · exact h.killed hidle
      · simp
    | ok out =>
      obtain ⟨slot, isNew, r₁⟩ := out
      have hres₀ := hres sequenceId mem_cons_self
      have hres' : NoneReserved (wave.map Prod.fst) := fun i hi =>
        hres i (mem_cons_of_mem _ hi)
      obtain ⟨hone, ⟨spot₂, chain₂, h₂⟩, hattached, htail₁⟩ := h.attachSequence hidle hres₀
          (fun s hs hid => htails s hs (mem_singleton.mp hid ▸ mem_cons_self)) hfind
      generalize hr₂ : HostPagedKV.attachSequence sequenceId slot isNew pages r₁ = r₂ at h₂ hattached
      have hpages : ∀ p ∈ pages, spot p = .flight pid := fun p hp =>
        (h.inHands.2 p (mem_append_left _ hp)).2
      have hne : ∀ s, (r₂.sequenceTable s).sequenceId ∈ wave.map Prod.fst → s ≠ slot := by
        rintro s hs rfl
        rw [hattached.sequenceId₂] at hs
        exact hnodup.1 hs
      have hrec := ih h₂ hnodup.2 hres' fun s hs hid => by
        have hs' := hne s hid
        rw [hattached.table hfind hs'] at hid
        have hlive : LiveSlot cfg r s := ⟨hs, not_marker_of_not_reserved (hres' _ hid)⟩
        exact (htails s hs (mem_cons_of_mem _ hid)).attached h hfind hattached htail₁ hpages hs' hlive
      have hout : HostPagedKV.attachWave cfg ((sequenceId, pages) :: wave) r =
          (recordUndo slot isNew r₁ :: (HostPagedKV.attachWave cfg wave r₂).1,
            (HostPagedKV.attachWave cfg wave r₂).2) := by
        rw [HostPagedKV.attachWave, hfind, ← hr₂]
      have hslots : ∀ undo ∈ (HostPagedKV.attachWave cfg wave r₂).1, undo.slot ≠ slot := fun undo hundo =>
        (hrec.trace.recorded undo hundo).slot_ne hattached hnodup.1
      have hsame : (HostPagedKV.attachWave cfg wave r₂).2.2.sequenceTable slot = r₂.sequenceTable slot := by
        rcases hrec.trace.pending.table slot with (heq | ⟨hdead, -⟩) | ⟨undo, hundo, hslot⟩
        · exact heq
        · exact absurd hattached.live₂.2 hdead
        · exact absurd hslot (hslots undo hundo)
      refine ⟨?_, ?_, ?_, ?_, ?_, ?_⟩
      · rw [waveWrites, hfind]
        refine hone.append ?_
        rw [attachSequenceWrites_spec pages hfind, hr₂]
        exact hrec.survived
      · rw [hout]
        exact hrec.trace.cons hfind hattached hslots fun undo hundo =>
          (hrec.trace.recorded undo hundo).link_kept h hfind hattached htail₁ hpages (hslots undo hundo) hres'
            fun s hs hid => htails s hs (mem_cons_of_mem _ hid)
      · rw [hout]
        intro undo hundo
        rcases mem_cons.mp hundo with rfl | hundo
        · exact recordUndo_undoable hattached htail₁ hsame
        · exact hrec.undoable undo hundo
      · rw [hout, pairwise_cons]
        exact ⟨fun undo hundo => (hslots undo hundo).symm, hrec.slots⟩
      · rw [hout]
        exact hrec.salvageable
      · rw [hout]
        exact hrec.attached

/-! ### The call -/

/-- Every slot is back, the stack has its old top, and the popped pages are cleared. -/
theorem Salvage.rolledBack (h : Salvage cfg r held spot chain) (htable : TableValid cfg r')
    (hstack : freePages r' = freePages r) (hpages : ∀ page ∈ pages, page ∈ freePages r)
    (howners : ∀ page, page ∉ pages → r'.pageOwners page = r.pageOwners page)
    (hcleared : ∀ page ∈ pages, r'.pageOwners page = kEmptySequenceId)
    (hlinks : ∀ page, page ∉ pages → page ≠ kInvalidPageIndex → r'.pageLinks page = r.pageLinks page)
    (hslots : ∀ slot, SlotRestored r r' slot) : Salvage cfg r' held spot chain := by
  refine h.lose htable (hstack ▸ List.Sublist.refl _) (fun _ => List.Sublist.refl _) ?_ ?_
  · intro slot hslot
    rcases hslots slot with heq | ⟨-, hdead⟩
    · have hlive : LiveSlot cfg r slot := (LiveSlot.congr heq).mp hslot
      refine ⟨hlive, ?_, List.Subset.refl _⟩
      rw [heq]
      refine (h.linked slot hlive).congr fun page hpage => ?_
      refine hlinks page (fun hmem => ?_) (inRange_ne_invalid (h.chained slot hlive page hpage).1)
      cases h.place_eq hlive hpage (h.free page (hpages page hmem)).2
    · exact absurd hslot.2 hdead
  · intro page hpage
    by_cases hmem : page ∈ pages
    · rw [hcleared page hmem] at hpage
      exact absurd hpage (by decide)
    · rwa [howners page hmem] at hpage

/-- **The rollback of a wave.**  Until the old top is stored pages are only lost; then they are all
back on the stack. -/
theorem Salvage.rollback {popped : Region} {ids : List ℤ} {top : ℕ} (failures : ℕ) (h : Salvage cfg r held spot chain)
    (hpopped : popped = store r (.freeStackTop top)) (hpages : ∀ page ∈ pages, page ∈ freePages r)
    (hlost : Salvageable cfg cur held) (hundoable : ∀ undo ∈ undos, Undoable cur undo)
    (hslots : undos.Pairwise fun a b => a.slot ≠ b.slot) (hpending : Pending popped cur pages undos)
    (hrecorded : ∀ undo ∈ undos, Recorded cfg popped ids undo) :
    Weathered cfg held cur (undoWavesWrites undos cur ++
      (clearWrites pages ++ [.freeStackTop r.freeStackTop, .acquireFailures failures])) := by
  have hundo := hlost.undoWaves hundoable hslots
  have hback := undoWave_restores hpending hrecorded
  have hclear := hundo.2.survives (clearWrites_harmless pages)
  subst hpopped
  refine hundo.append (undoWavesWrites_spec undos cur) ?_
  rw [undoWavesWrites_spec] at hclear
  generalize undos.foldl undoWave cur = undone at hback hclear ⊢
  have hspec := clearWrites_spec pages undone
  obtain ⟨spot₁, chain₁, hcleared⟩ := hclear.2
  rw [hspec] at hcleared
  have hend : Salvage cfg (store (clearPages undone pages) (.freeStackTop r.freeStackTop)) held spot
      chain := by
    refine h.rolledBack (hcleared.table.congr fun _ => rfl) ?_ hpages ?_ ?_ ?_ ?_
    · have hstack : (clearPages undone pages).freeStack = r.freeStack :=
        (clearPages_stack pages undone).trans hback.stack
      simp only [freePages, stackSlice, store, hstack]
    · intro page hpage
      exact (clearPages_owners pages undone page).trans ((if_neg hpage).trans (hback.owners page hpage))
    · intro page hpage
      exact (clearPages_owners pages undone page).trans (if_pos hpage)
    · intro page hpage hvalid
      refine (clearPages_links pages undone page).trans ((if_neg hpage).trans ?_)
      rcases hback.links page hpage hvalid with hlink | ⟨undo, hmem, -⟩
      · exact hlink
      · cases hmem
    · intro slot
      rcases hback.table slot with hslot | ⟨undo, hmem, -⟩
      · rw [SlotRestored] at hslot ⊢
        simp only [store, clearPages_table] at hslot ⊢
        exact hslot
      · cases hmem
  have hcount := hend.salvageable.harmless (w := .acquireFailures failures) trivial
  exact hclear.append hspec ⟨⟨Or.inr hend.salvageable, Or.inr hcount, trivial⟩, hcount⟩

section

variable [DecidableEq Pid] (h : Salvage cfg r held spot chain) (hidle : held pid = []) (hfit : cfg.numPages ≤ 2 ^ 31)
include h hidle hfit

/-- The writes of `AcquirePagesForSequences` for counts that passed the checks. -/
theorem Salvage.acquireForSequences {sequenceIds : List ℤ} {counts : List ℕ} (hnodup : sequenceIds.Nodup)
    (hres : NoneReserved sequenceIds)
    (hlen : counts.length = sequenceIds.length) (htails : TailsInPlace cfg r sequenceIds) :
    Weathered cfg held r (acquireForSequencesWrites cfg sequenceIds counts r) := by
  unfold acquireForSequencesWrites
  dsimp only
  split
  · exact h.salvageable.survives (by simp [Write.Harmless])
  rename_i htotal
  rw [not_lt] at htotal
  have htop : r.freeStackTop ≤ cfg.numPages := by
    simpa using h.push_fits (nodup_nil : ([] : List ℤ).Nodup) (by simp)
  rw [u32_of_lt (show counts.sum < 2 ^ 32 by omega)]
  have hlow := h.stack_lower (Nat.sub_le r.freeStackTop counts.sum)
  obtain ⟨spot₀, chain₀, h₀⟩ := h.pop pid counts.sum htotal
  have hpopped : ∀ page ∈ stackSlice r (r.freeStackTop - counts.sum) counts.sum, page ∈ freePages r := by
    intro page hpage
    have hsplit := freePages_lower (Nat.sub_le r.freeStackTop counts.sum)
    rw [Nat.sub_sub_self htotal] at hsplit
    exact hsplit ▸ mem_append_right _ hpage
  have hlength := stackSlice_length r (r.freeStackTop - counts.sum) counts.sum
  have hflat := (splitAllocations_parts hlength).1
  obtain ⟨hids, hpages⟩ := wave_parts hlen hlength
  generalize splitAllocations counts
    (stackSlice r (r.freeStackTop - counts.sum) counts.sum) = allocations at hflat hids hpages ⊢
  have hlower : Weathered cfg held r [.freeStackTop (r.freeStackTop - counts.sum)] :=
    ⟨⟨Or.inr hlow.salvageable, trivial⟩, hlow.salvageable⟩
  generalize hpopped' : store r (.freeStackTop (r.freeStackTop - counts.sum)) = popped at h₀ ⊢
  have hwave := Salvage.attachWave hidle [] (sequenceIds.zip allocations)
    (by rw [hpages, append_nil]; exact h₀) (by rwa [hids]) (by rwa [hids])
    (by rw [hids, ← hpopped']; exact htails)
  rw [hflat]
  have hspec := waveWrites_spec cfg (sequenceIds.zip allocations) popped
  obtain ⟨hsurvived, htrace, hundoable, hslots, hlost, hdone⟩ := hwave
  rcases hout : HostPagedKV.attachWave cfg (sequenceIds.zip allocations) popped with
    ⟨undos, error, r₁⟩
  rw [hout] at htrace hundoable hslots hlost hspec
  refine hlower.append hpopped' (Weathered.append ⟨hsurvived, hspec ▸ hlost⟩ hspec ?_)
  cases error with
  | none => exact hlost.survives (by simp [Write.Harmless])
  | some e =>
    exact Salvage.rollback _ h hpopped'.symm hpopped hlost hundoable hslots (hpages ▸ htrace.pending) htrace.recorded

/-- **The section of `AcquirePagesForSequences`.** -/
theorem Salvage.acquirePagesForSequences (sequenceIds : List ℤ) (numTokens : List ℕ)
    (hres : NoneReserved sequenceIds)
    (htails : TailsInPlace cfg r sequenceIds) :
    Begun cfg held pid r (.acquirePagesForSequences sequenceIds numTokens) := by
  simp only [Begun, beginWrites, beginCall]
  split
  · exact h.stopped hidle _
  rename_i hlength
  rw [not_not] at hlength
  split
  · exact h.stopped hidle _
  cases hcounts : requiredPages cfg [] 0 (sequenceIds.zip numTokens) with
  | error e => exact h.stopped hidle _
  | ok counts =>
    obtain ⟨hcount, hnodup, -⟩ := requiredPages_ok hcounts
    rw [map_fst_zip (Nat.le_of_eq hlength)] at hnodup
    have hlen : counts.length = sequenceIds.length := by simp [hcount, hlength]
    have hwrites := h.acquireForSequences hidle hfit hnodup hres hlen htails
    have hregion := acquireForSequencesWrites_spec cfg sequenceIds counts r
    dsimp only
    rcases hout : HostPagedKV.acquirePagesForSequences cfg sequenceIds counts r with
      ⟨e | allocations, r'⟩
    all_goals
      rw [hout] at hregion
      exact hwrites.1.outlived hidle rfl (hregion ▸ hwrites.2)

end

end Batchgen.HostPagedKV
