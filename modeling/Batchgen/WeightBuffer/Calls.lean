import Batchgen.WeightBuffer.Invariant

/-!
# The calls keep the table

Each call keeps `Inv`, and a call that throws leaves the table as it was.  With it the claims of the header about
the index, the open passes, the pending skips and the cursors hold after any sequence of calls.
-/

namespace Batchgen.WeightBuffer

open Outcome Function List Option

variable {t : Table} {action moduleType : String} {installed : AList fun _ : String => Installed} {pass : ℕ}

/-- The call keeps the invariant, or throws and changes nothing. -/
def Kept {α : Type} (x : Call α) (t : Table) : Prop := Ends x t (fun _ t' => Inv t') (fun _ t' => t' = t)

section

variable {α : Type} {ret : α → Table → Prop} {exc : TableError → Table → Prop}

@[simp] theorem ends_check {c : Prop} [Decidable c] {e : TableError} {ret : PUnit → Table → Prop} :
    Ends (check c e) t ret exc ↔ (c → ret ⟨⟩ t) ∧ (¬ c → exc e t) := by
  unfold check
  split
  · next h => simp [h]
  · next h => simp [h]

@[simp] theorem ends_liftExcept {x : Except TableError α} :
    Ends (liftExcept x) t ret exc ↔ (∀ a, x = .ok a → ret a t) ∧ ∀ e, x = .error e → exc e t := by
  cases x <;> simp [liftExcept]

@[simp] theorem ends_requireNoOpenPass {ret : PUnit → Table → Prop} : Ends (requireNoOpenPass action) t ret exc ↔
      (t.openPasses = [] → ret ⟨⟩ t) ∧ (¬ t.openPasses = [] → exc (.passOpen action) t) := by
  rw [requireNoOpenPass, ends_bind, ends_get, ends_check]

@[simp] theorem ends_requireScheduleAligned {ret : PUnit → Table → Prop} :
    Ends (requireScheduleAligned action) t ret exc ↔
      (t.scheduleLost = false → ret ⟨⟩ t) ∧ (¬ t.scheduleLost = false → exc (.scheduleLost action) t) := by
  rw [requireScheduleAligned, ends_bind, ends_get, ends_check]

@[simp] theorem ends_requireCurrentPass {ret : ℕ → Table → Prop} :
    Ends (requireCurrentPass action) t ret exc ↔ (∀ pass, t.openPasses.head? = some pass → ret pass t) ∧
      (t.openPasses.head? = none → exc (.noPassOpen action) t) := by
  rw [requireCurrentPass, ends_bind, ends_get]
  cases t.openPasses.head? <;> simp

@[simp] theorem ends_requireInstalled {moduleName : String} {ret : Installed → Table → Prop} :
    Ends (requireInstalled moduleName action) t ret exc ↔ (∀ i, t.installed.lookup moduleName = some i → ret i t) ∧
        (t.installed.lookup moduleName = none → exc (.notInstalled action moduleName) t) := by
  rw [requireInstalled, ends_bind, ends_get]
  cases t.installed.lookup moduleName <;> simp

theorem slotAt_ends {index : ℤ} {ret : SlotRef × Slot → Table → Prop}
    (hret : ∀ ref slot, ref.moduleType = moduleType → t.slot? ref = some slot → ret (ref, slot) t)
    (hexc : exc (.invalidSlot moduleType index) t) : Ends (slotAt moduleType index) t ret exc := by
  rw [slotAt, ends_bind, ends_get]
  split
  · cases hslot : t.slot? ⟨moduleType, index.toNat⟩ with
    | none => exact hexc
    | some slot => exact hret _ slot rfl hslot
  · exact hexc

theorem slotAt_ref {ref : SlotRef} {ret : SlotRef × Slot → Table → Prop} {slot : Slot}
    (hslot : t.slot? ref = some slot) (hret : ret (ref, slot) t) :
    Ends (slotAt ref.moduleType ref.index) t ret exc := by
  have htoNat : (⟨ref.moduleType, (ref.index : ℤ).toNat⟩ : SlotRef) = ref := by rw [Int.toNat_natCast]
  rw [slotAt, ends_bind, ends_get, if_pos (Int.natCast_nonneg _), htoNat, hslot]
  exact hret

end

/-! ### Layout -/

/-- Without an open pass nothing is indexed. -/
theorem Inv.not_live (h : Inv t) (hopen : t.openPasses = []) {ref : SlotRef} {slot : Slot}
    (hslot : t.slot? ref = some slot) : ¬ slot.Live := by
  intro hlive
  have hmem := h.named ref slot hslot hlive.ne_free hlive.1
  rw [hopen] at hmem
  exact absurd hmem not_mem_nil

theorem Inv.index_none (h : Inv t) (hopen : t.openPasses = []) (key : String × ℕ) : t.index key = none := by
  cases hindex : t.index key with
  | none => rfl
  | some ref =>
    obtain ⟨slot, hslot, hlive, -⟩ := (h.index key.1 key.2 ref).mp hindex
    exact absurd hlive (h.not_live hopen hslot)

theorem Inv.unindexType (h : Inv t) (hopen : t.openPasses = []) (moduleType : String) :
    t.unindexType moduleType = t := by
  have hstep : ∀ ref, t.unindex ref = t := by
    intro ref
    rw [Table.unindex]
    split
    · rfl
    · next slot _ =>
      rw [if_neg]
      rintro ⟨-, hindex⟩
      rw [h.index_none hopen] at hindex
      cases hindex
  refine foldlRecOn (motive := fun t' => t' = t) _ _ rfl fun t' ht' index _ => ?_
  rw [ht', hstep]

/-- Blank slots in the place of all slots of a type without indexed ones, or behind them. -/
theorem Inv.setSlots (h : Inv t) {slots : List Slot} {types : List String}
    (hindexed : ∀ (index : ℕ) (slot : Slot), (t.slots moduleType)[index]? = some slot → slot.Live →
      slots[index]? = some slot) (hslots : ∀ (index : ℕ) (slot : Slot), slots[index]? = some slot →
      (t.slots moduleType)[index]? = some slot ∨ slot = {}) (htypes : ∀ other ∈ t.types, other ∈ types)
    (htype : moduleType ∈ types) : Inv { t with types := types, slots := update t.slots moduleType slots } := by
  have hself : ∀ index, ({ t with types := types, slots := update t.slots moduleType slots } : Table).slot?
      ⟨moduleType, index⟩ = slots[index]? := by
    intro index
    show (update t.slots moduleType slots moduleType)[index]? = _
    rw [update_self]
  have hother : ∀ ref : SlotRef, ref.moduleType ≠ moduleType →
      ({ t with types := types, slots := update t.slots moduleType slots } : Table).slot? ref = t.slot? ref := by
    intro ref hne
    show (update t.slots moduleType slots ref.moduleType)[ref.index]? = _
    rw [update_of_ne hne]
    rfl
  refine { h with index := fun name pass ref => ?_, named := fun ref slot hslot => ?_, types := fun other hne => ?_ }
  · show t.index (name, pass) = some ref ↔ _
    rw [h.index]
    obtain ⟨ty, index⟩ := ref
    by_cases hty : ty = moduleType
    · subst hty
      rw [hself]
      constructor
      · rintro ⟨slot, hslot, hlive, hkey⟩
        exact ⟨slot, hindexed index slot hslot hlive, hlive, hkey⟩
      · rintro ⟨slot, hslot, hlive, hkey⟩
        rcases hslots index slot hslot with hold | rfl
        · exact ⟨slot, hold, hlive, hkey⟩
        · exact absurd hlive Slot.not_live_blank
    · rw [hother ⟨ty, index⟩ hty]
  · obtain ⟨ty, index⟩ := ref
    by_cases hty : ty = moduleType
    · subst hty
      rw [hself] at hslot
      rcases hslots index slot hslot with hold | rfl
      · exact h.named ⟨ty, index⟩ slot hold
      · exact fun hfree => absurd rfl hfree
    · rw [hother ⟨ty, index⟩ hty] at hslot
      exact h.named _ slot hslot
  · by_cases hty : other = moduleType
    · rw [hty]
      exact htype
    · change update t.slots moduleType slots other ≠ [] at hne
      rw [update_of_ne hty] at hne
      exact htypes other (h.types other hne)

theorem getElem?_replicate_blank {n index : ℕ} {slot : Slot}
    (h : (replicate n ({} : Slot))[index]? = some slot) : slot = {} :=
  (mem_replicate.mp (mem_of_getElem? h)).2

theorem mem_addType {types : List String} {other : String} :
    other ∈ (if moduleType ∈ types then types else types ++ [moduleType]) ↔ other ∈ types ∨ other = moduleType := by
  split
  · next hmem =>
    refine (or_iff_left_of_imp ?_).symm
    rintro rfl
    exact hmem
  · rw [mem_append, mem_singleton]

/-- A negative count leaves an entry without slots. -/
theorem resetType_ends (h : Inv t) (moduleType : String) (count : ℤ) : Ends (resetType moduleType count) t
    (fun _ t' => Inv t') fun _ t' => t' = t ∨ count < 0 ∧ t' = t.declare moduleType := by
  rw [resetType]
  simp only [ends_bind, ends_requireNoOpenPass, ends_modify, ends_check, true_or, implies_true, and_true]
  intro hopen
  rw [h.unindexType hopen]
  refine ⟨fun _ => ?_, fun hcount => Or.inr ⟨not_le.mp hcount, rfl⟩⟩
  refine h.setSlots (fun index slot hslot hlive => ?_) (fun index slot hslot => Or.inr ?_)
    (fun other hother => mem_addType.mpr (Or.inl hother)) (mem_addType.mpr (Or.inr rfl))
  · exact absurd hlive (@Inv.not_live t h hopen ⟨moduleType, index⟩ slot hslot)
  · exact getElem?_replicate_blank hslot

theorem growType_kept (h : Inv t) (moduleType : String) (count : ℤ) : Kept (growType moduleType count) t := by
  rw [Kept, growType, ends_modify]
  refine h.setSlots (fun index slot hslot _ => ?_) (fun index slot hslot => ?_)
    (fun other hother => mem_addType.mpr (Or.inl hother)) (mem_addType.mpr (Or.inr rfl))
  · rw [getElem?_append_left (List.getElem?_eq_some_iff.mp hslot).1]
    exact hslot
  · by_cases hlt : index < (t.slots moduleType).length
    · rw [getElem?_append_left hlt] at hslot
      exact Or.inl hslot
    · rw [getElem?_append_right (not_lt.mp hlt)] at hslot
      exact Or.inr (getElem?_replicate_blank hslot)

/-! ### Installing -/

/-- The installed modules are the positions of the lists that were read. -/
def InstalledAre (installed : AList fun _ : String => Installed) (rows : List (Installed × String)) : Prop :=
  ∀ name i, installed.lookup name = some i ↔ (i, name) ∈ rows

theorem installModule_ok {installed' : AList fun _ : String => Installed} {row : String × ℕ}
    {rows : List (Installed × String)} (h : InstalledAre installed rows)
    (hrun : installModule moduleType installed row = .ok installed') :
    InstalledAre installed' (rows ++ [(⟨moduleType, row.2⟩, row.1)]) := by
  rw [installModule] at hrun
  split at hrun
  · next hnone =>
    cases hrun
    intro name i
    rw [mem_append, mem_singleton, Prod.mk.injEq]
    by_cases hname : name = row.1
    · subst hname
      rw [AList.lookup_insert, ← h, hnone, some_inj]
      simp [eq_comm]
    · rw [AList.lookup_insert_ne hname, h]
      simp [hname]
  · split at hrun <;> cases hrun

/-- A loop whose steps add the rows they read. -/
theorem foldlM_installed {β : Type} {f : (AList fun _ : String => Installed) → β → Except TableError _}
    {g : β → List (Installed × String)} {l : List β} (hstep : ∀ {before after rows} b, InstalledAre before rows →
      f before b = .ok after → InstalledAre after (rows ++ g b)) {before : AList fun _ : String => Installed}
    {rows : List (Installed × String)} (h : InstalledAre before rows) (hrun : l.foldlM f before = .ok installed) :
    InstalledAre installed (rows ++ l.flatMap g) := by
  induction l generalizing before rows with
  | nil =>
    cases hrun
    rwa [flatMap_nil, append_nil]
  | cons b l ih =>
    rw [foldlM_cons] at hrun
    obtain ⟨next, hfirst, hrun⟩ := except_bind_ok hrun
    have hrest := ih (hstep b h hfirst) hrun
    rwa [append_assoc] at hrest

theorem installTasks_ok {tasks : Tasks} (hrun : installTasks tasks = .ok installed) (name : String) (i : Installed) :
    installed.lookup name = some i ↔
      ∃ names, tasks.lookup i.moduleType = some names ∧ names[i.position]? = some name := by
  have hempty : InstalledAre ∅ [] := fun name i => by simp
  have hrows : InstalledAre installed ([] ++ tasks.entries.flatMap fun entry =>
      entry.2.zipIdx.flatMap fun row => [(⟨entry.1, row.2⟩, row.1)]) := by
    refine foldlM_installed (fun entry h hrun => ?_) hempty hrun
    refine foldlM_installed (fun row h hrun => ?_) h hrun
    exact installModule_ok h hrun
  rw [hrows, nil_append, mem_flatMap]
  constructor
  · rintro ⟨entry, hentry, hmem⟩
    obtain ⟨row, hrow, hmem⟩ := mem_flatMap.mp hmem
    obtain ⟨rfl, rfl⟩ := Prod.mk.inj (mem_singleton.mp hmem)
    refine ⟨entry.2, AList.mem_lookup_iff.mpr hentry, ?_⟩
    exact mk_mem_zipIdx_iff_getElem?.mp hrow
  · rintro ⟨names, hnames, hat⟩
    refine ⟨⟨i.moduleType, names⟩, AList.mem_lookup_iff.mp hnames, mem_flatMap.mpr ⟨(name, i.position), ?_, ?_⟩⟩
    · exact mk_mem_zipIdx_iff_getElem?.mpr hat
    · exact mem_singleton.mpr rfl

/-- The slot of a declared type is held unless it is free. -/
theorem mem_held {ref : SlotRef} {slot : Slot} (h : Inv t) (hslot : t.slot? ref = some slot)
    (hstate : slot.state ≠ .free) : (⟨ref, slot⟩ : HeldSlot) ∈ t.held := by
  have hne : t.slots ref.moduleType ≠ [] := by
    intro hnil
    rw [Table.slot?, hnil] at hslot
    cases hslot
  refine mem_flatMap.mpr ⟨ref.moduleType, h.types _ hne, mem_filterMap.mpr ⟨(slot, ref.index), ?_, ?_⟩⟩
  · exact mk_mem_zipIdx_iff_getElem?.mpr hslot
  · exact if_neg hstate

/-- The installs name no module by the empty string, the table's own mark of an unnamed slot. -/
def Command.Named : Command → Prop
  | .install tasks => ∀ entry ∈ tasks.entries, "" ∉ entry.2
  | _ => True

instance (c : Command) : Decidable c.Named :=
  match c with
  | .install tasks => inferInstanceAs (Decidable (∀ entry ∈ tasks.entries, "" ∉ entry.2))
  | .resetType .. | .growType .. | .beginPass | .cancelPass .. | .endPass .. | .abort .. | .reserve .. | .claim ..
  | .retireSkip .. | .landed .. | .abandon .. | .lease .. | .release .. | .releaseAsync .. | .reclaim ..
  | .skip .. => isTrue trivial

theorem install_kept (h : Inv t) {tasks : Tasks} (hnamed : (Command.install tasks).Named) : Kept (install tasks) t := by
  rw [Kept, install]
  simp only [ends_bind, ends_requireScheduleAligned, ends_requireNoOpenPass, ends_liftExcept, ends_get, ends_check,
    ends_set, implies_true, and_true]
  intro _ hopen installed hinstalled hheld
  have hfree : ∀ ref slot, t.slot? ref = some slot → slot.state = .free := by
    intro ref slot hslot
    by_contra hstate
    have hmem := mem_held h hslot hstate
    rw [isEmpty_iff.mp hheld] at hmem
    exact absurd hmem not_mem_nil
  refine ⟨?_, ?_, ?_, h.index, fun ref slot hslot hstate => absurd (hfree ref slot hslot) hstate,
    fun pass name hskip => absurd hskip (Finset.notMem_empty _), installTasks_ok hinstalled,
    fun moduleType names hlist => hnamed ⟨moduleType, names⟩ (AList.mem_lookup_iff.mp hlist),
    fun _ => le_rfl, fun moduleType names _ hne => ?_, h.types⟩
  · show t.openPasses.length ≤ 2
    rw [hopen]
    exact Nat.zero_le _
  · show t.openPasses.length < 1
    rw [hopen]
    exact Nat.zero_lt_one
  · show t.openPasses = List.range' (1 - t.openPasses.length) t.openPasses.length
    rw [hopen]
    rfl
  · show 0 < names.length ∧ 1 - t.openPasses.length ≤ 1
    exact ⟨length_pos_iff.mpr hne, Nat.sub_le _ _⟩

/-! ### Passes -/

theorem beginPass_kept (h : Inv t) : Kept beginPass t := by
  rw [Kept, beginPass]
  simp only [ends_bind, ends_requireScheduleAligned, ends_get, implies_true, and_true]
  intro _
  split
  · exact h
  simp only [ends_bind, ends_check, ends_set, ends_pure, implies_true, and_true]
  intro hlength
  have hlt := h.openLt
  have hconsecutive := h.consecutive
  have hlength' : (t.openPasses ++ [t.nextPass]).length = t.openPasses.length + 1 := length_append
  refine ⟨?_, ?_, ?_, h.index, fun ref slot hslot hstate hname => ?_, fun pass name hskip => ?_, h.installed,
    h.names, fun moduleType => (h.ahead moduleType).trans (Nat.le_succ _), fun moduleType names hlist hne => ?_,
    h.types⟩
  · show (t.openPasses ++ [t.nextPass]).length ≤ 2
    rw [hlength']
    exact hlength
  · show (t.openPasses ++ [t.nextPass]).length < t.nextPass + 1
    omega
  · show t.openPasses ++ [t.nextPass] = List.range' (t.nextPass + 1 - (t.openPasses ++ [t.nextPass]).length)
      (t.openPasses ++ [t.nextPass]).length
    rw [hlength', Nat.add_sub_add_right, List.range'_concat, ← hconsecutive]
    congr 2
    omega
  · exact mem_append_left _ (h.named ref slot hslot hstate hname)
  · obtain ⟨hpass, hrest⟩ := h.skips pass name hskip
    exact ⟨mem_append_left _ hpass, hrest⟩
  · obtain ⟨hposition, hlow⟩ := h.cursors moduleType names hlist hne
    show _ ∧ t.nextPass + 1 - (t.openPasses ++ [t.nextPass]).length ≤ (t.cursors moduleType).pass
    rw [hlength']
    exact ⟨hposition, by omega⟩

/-- What cancelling a pass keeps of the table `t`. -/
def Cancelling (t : Table) (acc : Table × SkipCounts) : Prop :=
  Inv acc.1 ∧ acc.1.openPasses = t.openPasses ∧ acc.1.installed = t.installed

/-- Cancelling a pass, one slot. -/
theorem cancelSlot_kept {acc : Table × SkipCounts} (hacc : Cancelling t acc) (ref : SlotRef) :
    Cancelling t (cancelSlot pass acc ref) := by
  obtain ⟨current, counts⟩ := acc
  obtain ⟨h, hsame⟩ := hacc
  rw [cancelSlot]
  split
  · exact ⟨h, hsame⟩
  · next slot hslot =>
    split
    · exact ⟨h, hsame⟩
    · next hnamed =>
      obtain ⟨hname, hpass⟩ := not_or.mp hnamed
      rw [ne_eq, not_not] at hpass
      subst hpass
      split
      · next hpresent =>
        exact ⟨h.dropBlank hslot ⟨hname, Or.inr (Or.inl hpresent)⟩, hsame⟩
      · split
        · next hfilling =>
          have hlive : slot.Live := ⟨hname, Or.inl hfilling.1⟩
          exact ⟨h.setLive hslot hlive hlive rfl rfl, hsame⟩
        · exact ⟨h, hsame⟩

/-- A skip of an open pass that the producer has not reached. -/
theorem Inv.addSkip (h : Inv t) (hopen : pass ∈ t.openPasses) {name : String} {i : Installed}
    (hi : t.installed.lookup name = some i) (hunproduced : ¬ t.produced i.moduleType pass i.position) :
    Inv { t with pendingSkips := insert (pass, name) t.pendingSkips } := by
  refine { h with skips := fun p other hskip => ?_ }
  rcases Finset.mem_insert.mp hskip with heq | hold
  · obtain ⟨rfl, rfl⟩ := Prod.mk.inj heq
    exact ⟨hopen, i, hi, hunproduced⟩
  · exact h.skips p other hold

/-- Cancelling a pass, one position that the producer has not reached. -/
theorem cancelPosition_kept {acc : Table × SkipCounts} (hacc : Cancelling t acc) {row : Installed × String}
    (hopen : pass ∈ t.openPasses) (hrow : t.installed.lookup row.2 = some row.1) :
    Cancelling t (cancelPosition pass acc row) := by
  obtain ⟨current, counts⟩ := acc
  obtain ⟨h, hsame⟩ := hacc
  rw [cancelPosition]
  split
  · exact ⟨h, hsame⟩
  · next hunproduced =>
    split
    · exact ⟨h, hsame⟩
    · exact ⟨h.addSkip (hsame.1 ▸ hopen) (hsame.2 ▸ hrow) hunproduced, hsame⟩

theorem mem_positions {row : Installed × String} (h : Inv t) (hrow : row ∈ t.positions) :
    t.installed.lookup row.2 = some row.1 := by
  obtain ⟨entry, hentry, hmem⟩ := mem_flatMap.mp hrow
  obtain ⟨at', hat, rfl⟩ := mem_map.mp hmem
  exact (h.installed _ _).mpr ⟨entry.2, AList.mem_lookup_iff.mpr hentry, mk_mem_zipIdx_iff_getElem?.mp hat⟩

theorem cancelPass_kept (h : Inv t) (pass : ℤ) : Kept (cancelPass pass) t := by
  rw [Kept, cancelPass]
  split
  · exact h
  simp only [ends_bind, ends_get, ends_check, implies_true, and_true]
  rintro ⟨-, hopen⟩
  split
  · exact rfl
  have hslots : Cancelling t (t.refs.foldl (cancelSlot pass.toNat) (t, {})) :=
    foldlRecOn _ _ ⟨h, rfl, rfl⟩ fun _ hacc ref _ => cancelSlot_kept hacc ref
  have hpositions : Cancelling t (t.positions.foldl (cancelPosition pass.toNat) _) :=
    foldlRecOn _ _ hslots fun _ hacc _ hrow => cancelPosition_kept hacc hopen (mem_positions h hrow)
  exact hpositions.1

theorem endPass_kept (h : Inv t) (id : ℤ) : Kept (endPass id) t := by
  rw [Kept, endPass]
  split
  · exact h
  simp only [ends_bind, ends_get, ends_check, ends_set, ends_pure, implies_true, and_true]
  generalize id.toNat = pass
  rintro ⟨-, hhead⟩ ⟨hfinished, hheld, hpending⟩
  have hlt := h.openLt
  have hconsecutive := h.consecutive
  obtain ⟨rest, hrest⟩ : ∃ rest, t.openPasses = pass :: rest := by
    cases hopen : t.openPasses with
    | nil =>
      rw [hopen] at hhead
      cases hhead
    | cons first rest =>
      rw [hopen] at hhead
      cases hhead
      exact ⟨rest, rfl⟩
  have hlength : t.openPasses.length = rest.length + 1 := by rw [hrest, length_cons]
  rw [hlength, List.range'_succ, hrest] at hconsecutive
  obtain ⟨hpass, hrange⟩ := List.cons.inj hconsecutive
  have hstays : ∀ p ∈ t.openPasses, p ≠ pass → p ∈ rest := by
    intro p hp hne
    rw [hrest] at hp
    exact (mem_cons.mp hp).resolve_left hne
  have htwo := h.openTwo
  have hskipNe : ∀ p name, (p, name) ∈ t.pendingSkips → p ≠ pass := by
    rintro p name hskip rfl
    have hempty : (t.pendingSkips.filter fun skip => skip.1 = p) = ∅ := Finset.card_eq_zero.mp hpending
    have hmem : (p, name) ∈ t.pendingSkips.filter fun skip => skip.1 = p := Finset.mem_filter.mpr ⟨hskip, rfl⟩
    rw [hempty] at hmem
    exact Finset.notMem_empty _ hmem
  rw [hrest, tail_cons]
  refine ⟨?_, ?_, ?_, h.index, fun ref slot hslot hstate hname => ?_, fun p name hskip => ?_, h.installed,
    h.names, h.ahead, fun moduleType names hlist hne => ?_, h.types⟩
  · show rest.length ≤ 2
    omega
  · show rest.length < t.nextPass
    omega
  · show rest = List.range' (t.nextPass - rest.length) rest.length
    rw [show t.nextPass - rest.length = t.nextPass - (rest.length + 1) + 1 by omega]
    exact hrange
  · refine hstays _ (h.named ref slot hslot hstate hname) fun heq => ?_
    exact hheld _ (mem_held h hslot hstate) ⟨heq, hname⟩
  · obtain ⟨hp, hrow⟩ := h.skips p name hskip
    exact ⟨hstays p hp (hskipNe p name hskip), hrow⟩
  · obtain ⟨hposition, -⟩ := h.cursors moduleType names hlist hne
    have hpast := hfinished ⟨moduleType, names⟩ (AList.mem_lookup_iff.mp hlist) hne
    show _ ∧ t.nextPass - rest.length ≤ (t.cursors moduleType).pass
    dsimp only at hpast
    exact ⟨hposition, by omega⟩

theorem Slot.abort_state (slot : Slot) : slot.abort.state = .free := by
  rw [Slot.abort]
  split
  · next h => exact h
  · rfl

theorem abort_kept (h : Inv t) (loseSchedule : Bool) : Kept (abort loseSchedule) t := by
  rw [Kept, abort]
  simp only [ends_bind, ends_get, ends_set, ends_pure]
  have hlt := h.openLt
  have hfree : ∀ (ref : SlotRef) (slot : Slot), (((t.slots ref.moduleType).map Slot.abort)[ref.index]?) = some slot →
      slot.state = .free := by
    intro ref slot hslot
    rw [getElem?_map] at hslot
    obtain ⟨old, -, rfl⟩ := map_eq_some_iff.mp hslot
    exact old.abort_state
  refine ⟨Nat.zero_le _, ?_, rfl, fun name pass ref => ?_, fun ref slot hslot hstate => ?_,
    fun pass name hskip => absurd hskip (Finset.notMem_empty _), h.installed, h.names,
    fun _ => le_rfl, fun moduleType names hlist hne => ?_, fun moduleType hne => h.types moduleType fun hnil => hne ?_⟩
  · show 0 < t.nextPass
    omega
  · constructor
    · intro hnone
      cases hnone
    · rintro ⟨slot, hslot, hlive, -⟩
      exact absurd (hfree ref slot hslot) hlive.ne_free
  · exact absurd (hfree ref slot hslot) hstate
  · exact ⟨length_pos_iff.mpr hne, Nat.sub_le _ _⟩
  · show (t.slots moduleType).map Slot.abort = []
    rw [hnil, map_nil]

/-! ### The producer -/

theorem reserve_kept (h : Inv t) (moduleType : String) : Kept (reserve moduleType) t := by
  rw [Kept, reserve]
  simp only [ends_bind, ends_get]
  split
  · exact h
  · next index hfind =>
    simp only [ends_bind, ends_set, ends_pure]
    obtain ⟨hlt, hfree, -⟩ := findIdx?_eq_some_iff_getElem.mp hfind
    have hslot : t.slot? ⟨moduleType, index⟩ = some (t.slots moduleType)[index] := getElem?_eq_getElem hlt
    have hstate : ((t.slots moduleType)[index]).state = .free := by simpa using hfree
    refine h.setQuiet hslot ?_ ?_ ?_
    · exact fun hlive => hlive.ne_free hstate
    · exact fun hlive => hlive.1 rfl
    · exact fun _ hname => absurd rfl hname

theorem unindex_setSlot_kept (h : Inv t) {ref : SlotRef} {slot : Slot} (hslot : t.slot? ref = some slot)
    (hstate : slot.state = .filling) : Inv ((t.unindex ref).setSlot ref {}) := by
  rw [Table.unindex, hslot]
  dsimp only
  by_cases hname : slot.name = ""
  · rw [if_neg fun hcase => hcase.1 hname]
    exact h.setBlank hslot fun hlive => hlive.1 hname
  · have hlive : slot.Live := ⟨hname, Or.inl hstate⟩
    have hkey : t.index (slot.name, slot.pass) = some ref := (h.index _ _ _).mpr ⟨slot, hslot, hlive, rfl, rfl⟩
    rw [if_pos ⟨hname, hkey⟩]
    exact h.dropBlank hslot hlive

theorem abandon_kept (h : Inv t) (moduleType : String) (index : ℤ) : Kept (abandon moduleType index) t := by
  rw [Kept, abandon, ends_bind]
  refine slotAt_ends (fun ref slot _ hslot => ?_) rfl
  simp only [ends_bind, ends_check, ends_modify, implies_true, and_true]
  exact fun hstate => unindex_setSlot_kept h hslot hstate

theorem claim_kept (h : Inv t) (moduleType : String) (index : ℤ) (moduleName : String) :
    Kept (claim moduleType index moduleName) t := by
  rw [Kept, claim]
  simp only [ends_bind, ends_get]
  have hnext := t.produces moduleType
  generalize t.nextProduction moduleType = next at hnext ⊢
  cases hnext with
  | none | parked => exact rfl
  | skip =>
    simp only [ends_bind, ends_check, implies_true, and_true]
    intro _
    split
    · rw [ends_bind]
      exact abandon_kept h moduleType index
    · exact h
  | @copy pass _ name hat hskip =>
    simp only [ends_bind, ends_check, implies_true, and_true]
    rintro rfl
    refine slotAt_ends (fun ref slot _ hslot => ?_) rfl
    simp only [ends_set, ends_pure, implies_true, and_true]
    rintro ⟨hstate, hunnamed⟩ hfresh
    obtain ⟨names, hlist, hname, -, hopen⟩ := id hat
    have hnonempty := ne_of_mem_of_not_mem (mem_of_getElem? hname) (h.names moduleType names hlist)
    have hlive : ({ slot with name := name, pass := pass } : Slot).Live := ⟨hnonempty, Or.inl hstate⟩
    have hnamed := h.setName hslot (fun hold => hold.1 hunnamed) hlive rfl rfl hopen hfresh
    exact hnamed.advance hat hskip

theorem retireSkip_kept (h : Inv t) (moduleType moduleName : String) : Kept (retireSkip moduleType moduleName) t := by
  rw [Kept, retireSkip]
  simp only [ends_bind, ends_get]
  have hnext := t.produces moduleType
  generalize t.nextProduction moduleType = next at hnext ⊢
  cases hnext with
  | none | parked | copy => exact rfl
  | @skip pass _ name hat =>
    simp only [ends_bind, ends_check, ends_set, implies_true, and_true]
    rintro rfl
    have herased : Inv { t with pendingSkips := t.pendingSkips.erase (pass, name) } :=
      { h with skips := fun p other hskip => h.skips p other (Finset.mem_of_mem_erase hskip) }
    exact (herased.count _ _ _).advance hat (Finset.notMem_erase _ _)

theorem landed_kept (h : Inv t) (moduleType : String) (index : ℤ) : Kept (landed moduleType index) t := by
  rw [Kept, landed, ends_bind]
  refine slotAt_ends (fun ref slot _ hslot => ?_) rfl
  simp only [ends_bind, ends_check, implies_true, and_true]
  rintro ⟨hstate, hname⟩
  have hlive : slot.Live := ⟨hname, Or.inl hstate⟩
  split
  · exact (h.count _ _ _).dropBlank hslot hlive
  · exact (h.count _ _ _).setLive hslot hlive ⟨hname, Or.inr (Or.inl rfl)⟩ rfl rfl

/-! ### The consumer -/

/-- A key of the index leads to its slot. -/
theorem Inv.indexed (h : Inv t) {name : String} {ref : SlotRef} (hindex : t.index (name, pass) = some ref) :
    ∃ slot, t.slot? ref = some slot ∧ slot.Live ∧ slot.name = name ∧ slot.pass = pass :=
  (h.index name pass ref).mp hindex

theorem checkLease_ends (h : Inv t) (moduleName : String) :
    Ends (checkLease moduleName) t (fun _ t' => t' = t) (fun _ t' => t' = t) := by
  rw [checkLease]
  simp only [ends_bind, ends_requireCurrentPass, ends_requireInstalled, ends_get, implies_true, and_true]
  intro pass _ i _
  split
  · next ref hindex =>
    obtain ⟨slot, hslot, -⟩ := h.indexed hindex
    rw [ends_bind]
    refine slotAt_ref hslot ?_
    dsimp only
    split
    · exact rfl
    · split
      · exact rfl
      · exact rfl
    · exact rfl
  · simp only [ends_bind, ends_check, ends_pure, implies_true, and_true]

theorem lease_kept (h : Inv t) (moduleName : String) : Kept (lease moduleName) t := by
  rw [Kept, lease, ends_bind]
  refine (checkLease_ends h moduleName).mono ?_ fun _ _ hsame => hsame
  rintro found _ rfl
  simp only [ends_bind, ends_requireCurrentPass, ends_get, ends_check, implies_true, and_true]
  intro pass _ _
  split
  · next ref hindex =>
    obtain ⟨slot, hslot, hlive, -⟩ := h.indexed hindex
    rw [ends_bind]
    refine slotAt_ref hslot ?_
    exact h.setLive hslot hlive ⟨hlive.1, Or.inr (Or.inr rfl)⟩ rfl rfl
  · exact rfl

/-- The slot that `release` and `release_async` found under a name. -/
def Table.LeasedAt (t : Table) (row : String × ℕ × SlotRef) : Prop :=
  ∃ slot, t.slot? row.2.2 = some slot ∧ slot.Live ∧ slot.name = row.1 ∧ slot.pass = row.2.1

theorem leasedRef_ends (h : Inv t) (moduleName : String) :
    Ends (leasedRef moduleName) t (fun found t' => t' = t ∧ t.LeasedAt (moduleName, found.1, found.2.1))
      (fun _ t' => t' = t) := by
  rw [leasedRef, ends_bind, ends_get]
  split
  · exact rfl
  · next pass hpass =>
    split
    · exact rfl
    · next ref hindex =>
      obtain ⟨slot, hslot, hlive, hname, hat⟩ := h.indexed hindex
      rw [ends_bind]
      refine slotAt_ref hslot ?_
      simp only [ends_bind, ends_check, ends_pure, implies_true, and_true]
      exact fun _ => ⟨trivial, slot, hslot, hlive, hname, hat⟩

theorem release_kept (h : Inv t) (moduleName : String) : Kept (release moduleName) t := by
  rw [Kept, release, ends_bind]
  refine (leasedRef_ends h moduleName).mono ?_ fun _ _ hsame => hsame
  rintro ⟨pass, ref, _⟩ _ ⟨rfl, slot, hslot, hlive, rfl, rfl⟩
  exact h.dropBlank hslot hlive

/-- The first loop of `release_async`: distinct names, each with its leased slot. -/
theorem leasedRefs_ends (h : Inv t) (moduleNames before : List String) :
    Ends (leasedRefs moduleNames before) t (fun rows t' => t' = t ∧ (∀ row ∈ rows, t.LeasedAt row) ∧
      (rows.map Prod.fst).Nodup ∧ ∀ name ∈ rows.map Prod.fst, name ∉ before) (fun _ t' => t' = t) := by
  induction moduleNames generalizing before with
  | nil => exact ⟨rfl, by simp, nodup_nil, by simp⟩
  | cons moduleName rest ih =>
    rw [leasedRefs]
    simp only [ends_bind, ends_check, implies_true, and_true]
    intro hnew
    refine (leasedRef_ends h moduleName).mono ?_ fun _ _ hsame => hsame
    rintro ⟨pass, ref, _⟩ _ ⟨rfl, hfound⟩
    refine (ih (before ++ [moduleName])).mono ?_ fun _ _ hsame => hsame
    rintro rows _ ⟨rfl, hrows, hnodup, hfresh⟩
    have hlater : ∀ name ∈ rows.map Prod.fst, name ∉ before ∧ name ≠ moduleName := fun name hname => by
      have := hfresh name hname
      simp only [mem_append, mem_singleton, not_or] at this
      exact this
    refine ⟨rfl, ?_, ?_, ?_⟩
    · rintro row (_ | ⟨_, hrow⟩)
      · exact hfound
      · exact hrows row hrow
    · rw [map_cons, nodup_cons]
      exact ⟨fun hmem => (hlater _ hmem).2 rfl, hnodup⟩
    · intro name hname
      rw [map_cons, mem_cons] at hname
      rcases hname with rfl | hname
      · exact hnew
      · exact (hlater name hname).1

theorem releaseLater_kept (h : Inv t) {row : String × ℕ × SlotRef} (hrow : t.LeasedAt row) :
    Inv (t.releaseLater row) := by
  obtain ⟨slot, hslot, hlive, hname, hpass⟩ := hrow
  rw [Table.releaseLater, hslot, ← hname, ← hpass]
  dsimp only
  refine h.dropLive hslot hlive ?_ fun _ _ => ?_
  · rintro ⟨-, hst | hst | hst⟩ <;> cases hst
  · exact h.named _ slot hslot hlive.ne_free hlive.1

/-- Releasing one name leaves the slots of the others leased. -/
theorem LeasedAt.releaseLater {row other : String × ℕ × SlotRef} (hother : t.LeasedAt other)
    (hrow : t.LeasedAt row) (hne : other.1 ≠ row.1) : (t.releaseLater row).LeasedAt other := by
  obtain ⟨slot, hslot, -, hname, -⟩ := hrow
  obtain ⟨slot', hslot', hlive', hname', hpass'⟩ := hother
  refine ⟨slot', ?_, hlive', hname', hpass'⟩
  have href : other.2.2 ≠ row.2.2 := by
    intro href
    rw [href, hslot] at hslot'
    cases hslot'
    exact hne (hname'.symm.trans hname)
  rw [Table.releaseLater, hslot]
  exact (slot?_setSlot_of_ne href).trans hslot'

theorem releaseAll_kept (h : Inv t) {rows : List (String × ℕ × SlotRef)} (hrows : ∀ row ∈ rows, t.LeasedAt row)
    (hnodup : (rows.map Prod.fst).Nodup) : Inv (rows.foldl Table.releaseLater t) := by
  induction rows generalizing t with
  | nil => exact h
  | cons row rows ih =>
    rw [map_cons, nodup_cons] at hnodup
    have hrow := hrows row mem_cons_self
    refine ih (releaseLater_kept h hrow) (fun other hother => ?_) hnodup.2
    refine LeasedAt.releaseLater (hrows other (mem_cons_of_mem _ hother)) hrow fun heq => ?_
    exact hnodup.1 (heq ▸ mem_map_of_mem hother)

theorem releaseAsync_kept (h : Inv t) (moduleNames : List String) : Kept (releaseAsync moduleNames) t := by
  rw [Kept, releaseAsync, ends_bind]
  refine (leasedRefs_ends h moduleNames []).mono ?_ fun _ _ hsame => hsame
  rintro rows _ ⟨rfl, hrows, hnodup, -⟩
  exact releaseAll_kept h hrows hnodup

theorem reclaim_kept (h : Inv t) (moduleType : String) (index : ℤ) : Kept (reclaim moduleType index) t := by
  rw [Kept, reclaim, ends_bind]
  refine slotAt_ends (fun ref slot _ hslot => ?_) rfl
  simp only [ends_bind, ends_check, ends_modify, implies_true, and_true]
  intro hstate
  refine h.setBlank hslot ?_
  rintro ⟨-, hlive⟩
  rw [hstate] at hlive
  rcases hlive with hst | hst | hst <;> cases hst

/-! ### Skips -/

theorem checkSkip_ends (h : Inv t) (moduleName : String) :
    Ends (checkSkip moduleName) t (fun pass t' => t' = t ∧ pass ∈ t.openPasses ∧
      ∃ i, t.installed.lookup moduleName = some i ∧
        (t.index (moduleName, pass) = none → ¬ t.produced i.moduleType pass i.position)) (fun _ t' => t' = t) := by
  rw [checkSkip]
  simp only [ends_bind, ends_requireCurrentPass, ends_requireInstalled, ends_get, implies_true, and_true]
  intro pass hpass i hi
  have hopen : pass ∈ t.openPasses := mem_of_mem_head? hpass
  split
  · next ref hindex =>
    obtain ⟨slot, hslot, -⟩ := h.indexed hindex
    rw [ends_bind]
    refine slotAt_ref hslot ?_
    simp only [ends_bind, ends_check, ends_pure, implies_true, and_true]
    exact fun _ => ⟨trivial, hopen, i, hi, fun hnone => by rw [hindex] at hnone; cases hnone⟩
  · simp only [ends_bind, ends_check, ends_pure, implies_true, and_true]
    exact fun _ hunproduced => ⟨trivial, hopen, i, hi, fun _ => hunproduced⟩

theorem skip_kept (h : Inv t) (moduleName : String) : Kept (skip moduleName) t := by
  rw [Kept, skip, ends_bind]
  refine (checkSkip_ends h moduleName).mono ?_ fun _ _ hsame => hsame
  rintro pass _ ⟨rfl, hopen, i, hi, hunproduced⟩
  rw [ends_bind, ends_get]
  split
  · next ref hindex =>
    obtain ⟨slot, hslot, hlive, rfl, rfl⟩ := h.indexed hindex
    rw [ends_bind]
    refine slotAt_ref hslot ?_
    dsimp only
    split
    · exact h.setLive hslot hlive ⟨hlive.1, hlive.2⟩ rfl rfl
    · exact h.dropBlank hslot hlive
  · next hindex => exact h.addSkip hopen hi (hunproduced hindex)

/-! ### Any sequence of calls -/

/-- What a call that throws changes: nothing, or it leaves an entry without slots. -/
def Command.Unchanged (c : Command) (t t' : Table) : Prop :=
  t' = t ∨ ∃ moduleType count, c = .resetType moduleType count ∧ count < 0 ∧ t' = t.declare moduleType

theorem Command.exec_ends (h : Inv t) {c : Command} (hnamed : c.Named) :
    Ends c.exec t (fun _ t' => Inv t') fun _ t' => c.Unchanged t t' := by
  have hkept : Kept c.exec t → Ends c.exec t (fun _ t' => Inv t') fun _ t' => c.Unchanged t t' :=
    fun hkept => hkept.mono (fun _ _ h => h) fun _ _ h => Or.inl h
  cases c with
  | resetType moduleType count =>
    refine (resetType_ends h moduleType count).mono (fun _ _ h => h) fun _ _ hexc => ?_
    exact hexc.imp_right fun hdeclared => ⟨moduleType, count, rfl, hdeclared⟩
  | growType moduleType count => exact hkept (growType_kept h moduleType count)
  | install tasks => exact hkept (install_kept h hnamed)
  | beginPass => exact hkept (ends_map.mpr (beginPass_kept h))
  | cancelPass pass => exact hkept (ends_map.mpr (cancelPass_kept h pass))
  | endPass pass => exact hkept (ends_map.mpr (endPass_kept h pass))
  | abort loseSchedule => exact hkept (ends_map.mpr (abort_kept h loseSchedule))
  | reserve moduleType => exact hkept (ends_map.mpr (reserve_kept h moduleType))
  | claim moduleType index moduleName => exact hkept (ends_map.mpr (claim_kept h moduleType index moduleName))
  | retireSkip moduleType moduleName => exact hkept (retireSkip_kept h moduleType moduleName)
  | landed moduleType index => exact hkept (ends_map.mpr (landed_kept h moduleType index))
  | abandon moduleType index => exact hkept (abandon_kept h moduleType index)
  | lease moduleName => exact hkept (ends_map.mpr (lease_kept h moduleName))
  | release moduleName => exact hkept (ends_map.mpr (release_kept h moduleName))
  | releaseAsync moduleNames => exact hkept (ends_map.mpr (releaseAsync_kept h moduleNames))
  | reclaim moduleType index => exact hkept (reclaim_kept h moduleType index)
  | skip moduleName => exact hkept (ends_map.mpr (skip_kept h moduleName))

/-- One call, however it ends. -/
theorem Inv.run (h : Inv t) {c : Command} (hnamed : c.Named) : Inv (c.run t) := by
  have hends := Command.exec_ends h hnamed
  rw [Command.run]
  split
  · next hok => exact hends.of_ok hok
  · next herror =>
    rcases hends.of_error herror with rfl | ⟨moduleType, count, -, -, rfl⟩
    · exact h
    · exact { h with types := fun other hne => mem_addType.mpr (Or.inl (h.types other hne)) }

theorem Inv.runAll {calls : List Command} (hnamed : ∀ c ∈ calls, c.Named) : Inv (runAll calls) :=
  foldlRecOn calls _ Inv.fresh fun _ h c hc => h.run (hnamed c hc)

/-- **The table stays consistent over any sequence of calls.**  The index is exact and so no two indexed slots
share a key; what is named or skipped belongs to an open pass, and a skip is not produced yet; no producer is more
than one pass ahead of the newest open pass, and that of a type with something to produce is not behind the oldest;
at most two consecutive passes are open; and a call that throws changes nothing, but for an entry without slots. -/
theorem runAll_consistent (calls : List Command) (hnamed : ∀ c ∈ calls, c.Named) :
    (∀ name pass ref, (runAll calls).index (name, pass) = some ref ↔
      ∃ slot, (runAll calls).slot? ref = some slot ∧ slot.Live ∧ slot.name = name ∧ slot.pass = pass) ∧
    (∀ ref ref' slot slot', (runAll calls).slot? ref = some slot → (runAll calls).slot? ref' = some slot' →
      slot.Live → slot'.Live → slot.name = slot'.name → slot.pass = slot'.pass → ref = ref') ∧
    (∀ ref slot, (runAll calls).slot? ref = some slot → slot.state ≠ .free → slot.name ≠ "" →
      slot.pass ∈ (runAll calls).openPasses) ∧
    (∀ pass name, (pass, name) ∈ (runAll calls).pendingSkips → pass ∈ (runAll calls).openPasses ∧
      ∃ i, (runAll calls).installed.lookup name = some i ∧ ¬ (runAll calls).produced i.moduleType pass i.position) ∧
    (∀ moduleType newest, (runAll calls).openPasses.getLast? = some newest →
      ((runAll calls).cursors moduleType).pass ≤ newest + 1) ∧
    (∀ moduleType names, (runAll calls).lists.lookup moduleType = some names → names ≠ [] →
      ∀ oldest, (runAll calls).openPasses.head? = some oldest → oldest ≤ ((runAll calls).cursors moduleType).pass) ∧
    ((runAll calls).openPasses = [] ∨ (∃ p, (runAll calls).openPasses = [p]) ∨
      ∃ p, (runAll calls).openPasses = [p, p + 1]) ∧
    ∀ c : Command, c.Named → ∀ e t', c.exec (runAll calls) = .error e t' → c.Unchanged (runAll calls) t' := by
  have h := Inv.runAll hnamed
  refine ⟨h.index, fun ref ref' slot slot' hslot hslot' hlive hlive' hname hpass => ?_, h.named, h.skips,
    fun moduleType newest hnewest => h.newest hnewest ▸ h.ahead moduleType,
    fun moduleType names hlist hne oldest holdest => ?_, h.openPasses_cases,
    fun c hc e t' herror => (Command.exec_ends h hc).of_error herror⟩
  · have hkey := (h.index _ _ ref).mpr ⟨slot, hslot, hlive, rfl, rfl⟩
    have hkey' := (h.index _ _ ref').mpr ⟨slot', hslot', hlive', rfl, rfl⟩
    rw [hname, hpass, hkey'] at hkey
    exact (some_inj.mp hkey).symm
  · rw [h.oldest holdest]
    exact (h.cursors moduleType names hlist hne).2

/-- Two modules in one list: one module is leased while the other is to be skipped. -/
def leaseAndSkip : List Command :=
  [.resetType "A" 1, .install (AList.singleton "A" ["m", "n"]), .beginPass, .reserve "A", .claim "A" 0 "m",
    .landed "A" 0, .lease "m", .skip "n"]

theorem runAll_consistent_skip :
    (∀ c ∈ leaseAndSkip, c.Named) ∧ (1, "n") ∈ (runAll leaseAndSkip).pendingSkips ∧
      1 ∈ (runAll leaseAndSkip).openPasses := by
  have hnamed : ∀ c ∈ leaseAndSkip, c.Named := by decide +kernel
  have hskip : (1, "n") ∈ (runAll leaseAndSkip).pendingSkips := by decide +kernel
  exact ⟨hnamed, hskip, ((runAll_consistent _ hnamed).2.2.2.1 1 "n" hskip).1⟩

/-- A type whose installed list is empty is never produced: its cursor stays at the pass of the installation while
the passes go on. -/
theorem runAll_empty_list_cursor :
    ∃ calls : List Command, (∀ c ∈ calls, c.Named) ∧ "B" ∈ (runAll calls).lists ∧
      (runAll calls).openPasses = [2] ∧ ((runAll calls).cursors "B").pass = 1 :=
  ⟨[.resetType "A" 1, .install ((AList.singleton "A" ["m"]).insert "B" []), .beginPass, .reserve "A",
    .claim "A" 0 "m", .landed "A" 0, .lease "m", .release "m", .endPass 1, .beginPass], by decide +kernel⟩

/-- A module with the empty name: its key is in the index, and the slot counts as unnamed. -/
theorem runAll_empty_name_indexed :
    let t := runAll [.resetType "A" 1, .install (AList.singleton "A" [""]), .beginPass, .reserve "A", .claim "A" 0 ""]
    t.index ("", 1) = some ⟨"A", 0⟩ ∧ t.slot? ⟨"A", 0⟩ = some { state := .filling, pass := 1 } := by
  decide +kernel

end Batchgen.WeightBuffer
