import Batchgen.HostPagedKV.Interleaving
import Batchgen.HostPagedKV.SequenceMap
import Batchgen.HostPagedKV.Wave

/-!
# No page is lost or held twice

For every interleaving of mutex sections, every page of the region has exactly one holder: a position of
the free stack, the chain of one live table entry, the prefix-resident set, or the local list of one
call that is between its two sections.

* `PagePartition` — the property, read off the arrays, the table and the running calls;
* `beginCall_handed`, `resumeCall_handed` — the step lemmas: any section of any call keeps the pages held;
* `Step.safe`, `Reachable.safe` — one section of one process, and by induction every run;
* **`pagePartition_iff_pageIds_fit`** — the property holds along every run exactly when the page ids fit
  a signed 32-bit integer.  A larger page count is accepted by the configuration check, and the fresh
  region then already misses pages.
-/

namespace Batchgen.HostPagedKV

open MachineInt LinkedChain Function List

variable {r : Region} {page sequenceId : ℤ} {cfg : HostPagedKVConfig} {pages : List ℤ}

/-- Who can hold a page. -/
inductive Holder (Pid : Type*) where
  | stackPosition (index : ℕ)
  | entryChain (slot : ℕ)
  | prefixResident
  | call (pid : Pid)

/-- `holder` holds `page`, as the arrays, the table and the running calls say. -/
def Holds {Pid : Type*} (cfg : HostPagedKVConfig) (st : State Pid) (page : ℤ) :
    Holder Pid → Prop
  | .stackPosition index =>
    index < st.region.freeStackTop ∧ st.region.freeStack index = page
  | .entryChain slot =>
    LiveSlot cfg st.region slot ∧
      ∃ cells, IsChain kInvalidPageIndex st.region.pageLinks
        (st.region.sequenceTable slot).headPage cells ∧ page ∈ cells
  | .prefixResident => st.region.pageOwners page = kPrefixResidentSequenceId
  | .call pid => page ∈ (st.calls pid).localPages

/-- **Every page has exactly one holder**, and every live entry's chain is acyclic, has as many pages as
the entry counts, all tagged with the entry's id, and ends at the entry's tail. -/
structure PagePartition {Pid : Type*} (cfg : HostPagedKVConfig) (st : State Pid) : Prop where
  holder : ∀ page, InRange cfg page → ∃! holder, Holds cfg st page holder
  chain : ∀ slot, LiveSlot cfg st.region slot →
    ∃ cells, IsChain kInvalidPageIndex st.region.pageLinks
        (st.region.sequenceTable slot).headPage cells ∧
      cells.Nodup ∧ cells.length = (st.region.sequenceTable slot).numPages ∧
      (∀ page ∈ cells,
        st.region.pageOwners page = (st.region.sequenceTable slot).sequenceId) ∧
      (st.region.sequenceTable slot).tailPage = lastCell kInvalidPageIndex cells

variable {Pid : Type*}

/-! ### From the invariant to the property -/

section Property

variable {st : State Pid} {cells : Place Pid → List ℤ}

theorem mem_freePages : page ∈ freePages r ↔ ∃ index, index < r.freeStackTop ∧ r.freeStack index = page := by
  simp [freePages, stackSlice]

/-- Without duplicates on the stack, a page has one position. -/
theorem freePages_index_unique (h : (freePages r).Nodup) {i j : ℕ} (hi : i < r.freeStackTop) (hj : j < r.freeStackTop)
    (heq : r.freeStack i = r.freeStack j) : i = j := by
  have hinj := inj_on_of_nodup_map h
  refine hinj (mem_range.mpr hi) (mem_range.mpr hj) ?_
  simpa using heq

/-- The place of a page, read off its holder. -/
def Holder.place : Holder Pid → Place Pid
  | .stackPosition _ => .free
  | .entryChain slot => .chain slot
  | .prefixResident => .resident
  | .call pid => .flight pid

section

variable (h : PagesHeld cfg st.region (fun pid => (st.calls pid).localPages) cells)
include h

theorem PagesHeld.mem_of_holds (hrange : InRange cfg page) {holder : Holder Pid} (hholds : Holds cfg st page holder) :
    page ∈ cells holder.place := by
  cases holder with
  | stackPosition index =>
    show page ∈ cells .free
    rw [h.free]
    exact mem_freePages.mpr ⟨index, hholds⟩
  | entryChain slot =>
    obtain ⟨hslot, chain, hchain, hmem⟩ := hholds
    show page ∈ cells (.chain slot)
    rw [IsChain.unique (h.chain slot hslot).chain hchain]
    exact hmem
  | prefixResident => exact h.mem_resident hrange hholds
  | call pid =>
    show page ∈ cells (.flight pid)
    rw [h.flight]
    exact hholds

theorem PagesHeld.holds_of_mem {place : Place Pid}
    (hmem : page ∈ cells place) : ∃ holder, Holds cfg st page holder := by
  cases place with
  | free =>
    rw [h.free] at hmem
    obtain ⟨index, hindex⟩ := mem_freePages.mp hmem
    exact ⟨.stackPosition index, hindex⟩
  | chain slot =>
    by_cases hslot : LiveSlot cfg st.region slot
    · exact ⟨.entryChain slot, hslot, _, (h.chain slot hslot).chain, hmem⟩
    · rw [h.unused slot hslot] at hmem
      simp at hmem
  | resident => exact ⟨.prefixResident, h.tagged .resident _ rfl page hmem⟩
  | flight pid =>
    rw [h.flight] at hmem
    exact ⟨.call pid, hmem⟩

/-- **The invariant gives the property.** -/
theorem PagesHeld.pagePartition : PagePartition cfg st := by
  refine ⟨fun page hrange => ?_, fun slot hslot => ?_⟩
  · obtain ⟨place, hplace⟩ := h.placement.cover page hrange
    obtain ⟨holder, hholds⟩ := h.holds_of_mem hplace
    refine ⟨holder, hholds, fun other hother => ?_⟩
    have hsame : other.place = holder.place := h.placement.disjoint _ _ page
      (h.mem_of_holds hrange hother) (h.mem_of_holds hrange hholds)
    cases other with
    | stackPosition i =>
      cases holder with
      | stackPosition j =>
        have hnodup : (freePages st.region).Nodup := h.free ▸ h.placement.nodup .free
        rw [freePages_index_unique hnodup hother.1 hholds.1 (hother.2.trans hholds.2.symm)]
      | entryChain | prefixResident | call => cases hsame
    | entryChain | prefixResident | call =>
      cases holder <;> cases hsame
      rfl
  · have hchain := h.chain slot hslot
    exact ⟨_, hchain.chain, hchain.chain.nodup, hchain.count.symm, hchain.owned, hchain.tail⟩

end

end Property

/-! ### The step lemmas -/

section Steps

variable [DecidableEq Pid] {flight : Pid → List ℤ} {cells : Place Pid → List ℤ} {pid : Pid}

/-- After a section of process `pid` the pages are held, with those the call kept in its hands. -/
def Handed (cfg : HostPagedKVConfig) (flight : Pid → List ℤ) (pid : Pid)
    (out : CallState × Region) : Prop :=
  ∃ cells, PagesHeld cfg out.2 (update flight pid out.1.localPages) cells

section

variable (h : PagesHeld cfg r flight cells) (hidle : flight pid = [])
include h hidle

/-- A call that ends, or fails at once, has empty hands as before. -/
theorem PagesHeld.emptyHands (result : Option CallResult) : Handed cfg flight pid (.idle result, r) := by
  refine ⟨cells, ?_⟩
  show PagesHeld cfg r (update flight pid []) cells
  rw [← hidle, update_eq_self]
  exact h

/-- After the sequence section of a release path the detached pages are in the call's hands. -/
theorem PagesHeld.afterDetach (result : List ℤ → CallResult) {out : Except BackendError (List ℤ) × Region}
    (hout : Detached cfg r flight pid out) : Handed cfg flight pid (afterDetach result out) := by
  rcases hout with ⟨e, rfl⟩ | ⟨pages, r', rfl, hheld⟩
  · exact h.emptyHands hidle _
  · cases pages with
    | nil => exact hheld
    | cons page pages => exact hheld

end

section

variable (hfit : cfg.numPages ≤ 2 ^ 31) (h : PagesHeld cfg r flight cells)
include hfit h

/-- The allocation section of `AcquirePages`. -/
theorem acquirePages_handed (hidle : flight pid = []) (sequenceId : ℤ) (numPages : ℕ) :
    Handed cfg flight pid (beginCall cfg r (.acquirePages sequenceId numPages)) := by
  rw [beginCall]
  split
  · exact h.emptyHands hidle _
  split
  · exact h.emptyHands hidle _
  by_cases htop : r.freeStackTop < numPages
  · rw [popPages, if_pos htop]
    have hcount : PagesHeld cfg { r with acquireFailures := u64 (r.acquireFailures + 1) }
        flight cells := h.congr rfl rfl rfl rfl rfl
    exact hcount.emptyHands hidle _
  · have hlen := h.length_le (p := .free) (q := .resident) (by simp)
    rw [h.free, freePages, stackSlice_length] at hlen
    rw [popPages, if_neg htop, u32_of_lt (by omega)]
    obtain ⟨cells', hheld, -⟩ := h.pop hidle (not_lt.mp htop)
    exact ⟨cells', hheld⟩

/-- **The one section of `AcquirePagesForSequences`**, with the checks before it. -/
theorem PagesHeld.beginWave (hidle : flight pid = []) (sequenceIds : List ℤ) (numTokens : List ℕ)
    (hids : NoneReserved sequenceIds) :
    (∃ error r', beginCall cfg r (.acquirePagesForSequences sequenceIds numTokens) =
        (.idle (some (.thrown error)), r') ∧ PagesHeld cfg r' flight cells ∧
        (r.activeSequences < 2 ^ 32 → Unchanged cfg r r' fun slot => cells (.chain slot))) ∨
      ∃ allocations r', beginCall cfg r (.acquirePagesForSequences sequenceIds numTokens) =
          (.idle (some (.allocations allocations)), r') ∧ (∃ cells', PagesHeld cfg r' flight cells') ∧
        sequenceIds.length = numTokens.length ∧ allocations.map length =
          numTokens.map (fun tokens => u64 (tokens + cfg.pageSizeTokens - 1) / cfg.pageSizeTokens) ∧
        freePages r = freePages r' ++ allocations.flatten ∧
        (TableValid cfg r → Appended cfg r r' (fun slot => cells (.chain slot)) (sequenceIds.zip allocations)) ∧
        (ActiveCounts cfg r → ActiveCounts cfg r') := by
  have hsame : Unchanged cfg r r fun slot => cells (.chain slot) := h.unchanged rfl rfl rfl rfl rfl rfl rfl
  rw [beginCall]
  split
  · exact Or.inl ⟨_, _, rfl, h, fun _ => hsame⟩
  rename_i hlength
  rw [not_not] at hlength
  split
  · rename_i hnil
    subst hnil
    have hnone : numTokens = [] := length_eq_zero_iff.mp hlength.symm
    subst hnone
    exact Or.inr ⟨_, _, rfl, ⟨cells, h⟩, rfl, rfl, by simp,
      fun _ => ⟨by simp, fun slot hslot _ => ⟨rfl, h.chain slot hslot⟩⟩, id⟩
  split
  · exact Or.inl ⟨_, _, rfl, h, fun _ => hsame⟩
  rename_i counts hcounts
  obtain ⟨hcount, hnodup, -⟩ := requiredPages_ok hcounts
  rw [map_fst_zip (Nat.le_of_eq hlength)] at hnodup
  have hlen : counts.length = sequenceIds.length := by simp [hcount, hlength]
  rcases h.acquirePagesForSequences hfit hidle hnodup hids hlen with
    ⟨error, r', hout, hheld, hunchanged⟩ | ⟨allocations, r', hout, hheld, hparts, hstack, hrest⟩
  · rw [hout]
    exact Or.inl ⟨error, r', rfl, hheld, hunchanged⟩
  · rw [hout]
    refine Or.inr ⟨allocations, r', rfl, hheld, hlength, ?_, hstack, hrest⟩
    rw [hparts, hcount, ← map_snd_zip (Nat.le_of_eq hlength.symm), map_map]
    simp [hlength, map_snd_zip]

/-- **The first section of any call** keeps the pages held. -/
theorem beginCall_handed (hidle : flight pid = []) (call : Call)
    (hids : NoneReserved call.sequenceIds) :
    Handed cfg flight pid (beginCall cfg r call) := by
  cases call with
  | acquirePages sequenceId numPages => exact acquirePages_handed hfit h hidle sequenceId numPages
  | acquirePagesForSequences sequenceIds numTokens =>
    rcases h.beginWave hfit hidle sequenceIds numTokens hids with
      ⟨error, r', hout, hheld, -⟩ | ⟨allocations, r', hout, ⟨cells', hheld⟩, -⟩
    · rw [hout]
      exact hheld.emptyHands hidle _
    · rw [hout]
      exact hheld.emptyHands hidle _
  | releaseSequence sequenceId =>
    exact h.afterDetach hidle _ (h.releaseSequenceDetach (hids sequenceId mem_cons_self) hidle)
  | releasePrefixPages sequenceId numPages =>
    rw [beginCall]
    split
    · exact h.emptyHands hidle _
    · exact h.afterDetach hidle _ (h.releasePrefixPagesDetach hfit (hids sequenceId mem_cons_self) hidle)
  | retainPages sequenceId pageIds =>
    rw [beginCall]
    split
    · exact h.emptyHands hidle _
    rcases h.retainPages (hids sequenceId mem_cons_self) pageIds with
      ⟨e, hout⟩ | ⟨r', hout, cells', hheld⟩
    · rw [hout]
      exact h.emptyHands hidle _
    · rw [hout]
      exact hheld.emptyHands hidle _
  | releaseResidentPages pageIds =>
    rw [beginCall]
    split
    · exact h.emptyHands hidle _
    · exact h.afterDetach hidle _ (h.releaseResidentPagesClear hidle pageIds)

/-- **The second section of any call** keeps the pages held. -/
theorem resumeCall_handed {call : CallState} (hhands : flight pid = call.localPages) (hids : call.IdFree) :
    Handed cfg flight pid (resumeCall cfg r call) := by
  cases call with
  | idle last => exact h.emptyHands hhands _
  | acquired sequenceId pages =>
    have hpages : flight pid = pages := hhands
    rw [resumeCall]
    rcases h.acquirePagesAttach hfit (hids sequenceId pages rfl) hpages with
      ⟨e, hout⟩ | ⟨r', hout, hheld⟩
    · rw [hout]
      refine ⟨cells, ?_⟩
      show PagesHeld cfg r (update flight pid pages) cells
      rw [← hpages, update_eq_self]
      exact h
    · rw [hout]
      exact hheld
  | releasing pages result => exact h.push hfit hhands
  | undoing pages error =>
    obtain ⟨cells', hheld⟩ := h.push hfit hhands
    exact ⟨cells', hheld.congr rfl rfl rfl rfl rfl⟩

end

end Steps

/-! ### Runs -/

/-- The invariant of a state: the pages are held, and a call between its sections was started with an
id that is not reserved. -/
structure Safe (cfg : HostPagedKVConfig) (st : State Pid) : Prop where
  held : ∃ cells, PagesHeld cfg st.region (fun pid => (st.calls pid).localPages) cells
  ids : ∀ pid sequenceId pages, st.calls pid = .acquired sequenceId pages →
    isReservedSequenceId sequenceId = false

theorem constructSharedState_freeStack (cfg : HostPagedKVConfig) (i : ℕ) :
    (constructSharedState cfg).freeStack i = i32 (cfg.numPages - 1 - i) := by
  simp only [constructSharedState]

section

variable (hfit : cfg.numPages ≤ 2 ^ 31)
include hfit

theorem freeStack_fresh {i : ℕ} (hi : i < cfg.numPages) :
    (constructSharedState cfg).freeStack i = ((cfg.numPages - 1 - i : ℕ) : ℤ) := by
  rw [constructSharedState_freeStack, i32_of_lt (by omega)]

theorem freeStackTop_fresh : (constructSharedState cfg).freeStackTop = cfg.numPages := u32_of_lt (by omega)

theorem mem_freePages_fresh : page ∈ freePages (constructSharedState cfg) ↔ InRange cfg page := by
  rw [mem_freePages, freeStackTop_fresh hfit]
  constructor
  · rintro ⟨i, hi, rfl⟩
    rw [freeStack_fresh hfit hi]
    constructor <;> omega
  · rintro ⟨hlo, hhi⟩
    refine ⟨cfg.numPages - 1 - page.toNat, by omega, ?_⟩
    rw [freeStack_fresh hfit (by omega)]
    omega

theorem nodup_freePages_fresh : (freePages (constructSharedState cfg)).Nodup := by
  refine List.Nodup.map_on ?_ nodup_range
  intro i hi j hj heq
  rw [mem_range, freeStackTop_fresh hfit] at hi hj
  rw [Nat.zero_add, Nat.zero_add, freeStack_fresh hfit hi, freeStack_fresh hfit hj] at heq
  omega

/-- A fresh region whose page ids fit has every page on the stack, once. -/
theorem initialState_safe : Safe cfg (initialState Pid cfg) := by
  have hdead : ∀ slot, ¬ LiveSlot cfg (constructSharedState cfg) slot := fun slot hlive =>
    hlive.2.1 rfl
  refine ⟨⟨fun place => match place with
    | .free => freePages (constructSharedState cfg)
    | _ => [], ?_⟩, fun pid sequenceId pages hcall => by cases hcall⟩
  have hfree : ∀ (place : Place Pid) page, page ∈ (match place with
      | .free => freePages (constructSharedState cfg)
      | _ => []) → place = .free ∧ page ∈ freePages (constructSharedState cfg) := by
    intro place page hpage
    cases place with
    | free => exact ⟨rfl, hpage⟩
    | chain | resident | flight => cases hpage
  refine ⟨⟨?_, fun place page hpage => (mem_freePages_fresh hfit).mp (hfree place page hpage).2,
    fun page hrange => ⟨.free, (mem_freePages_fresh hfit).mpr hrange⟩,
    fun p q page hp hq => (hfree p page hp).1.trans (hfree q page hq).1.symm⟩, rfl, fun _ => rfl,
    fun slot hslot => absurd hslot (hdead slot), fun _ _ => rfl, fun slot hslot => absurd hslot (hdead slot), ?_⟩
  · intro place
    cases place with
    | free => exact nodup_freePages_fresh hfit
    | chain | resident | flight => exact nodup_nil
  · intro place tag htag page hpage
    obtain ⟨rfl, -⟩ := hfree place page hpage
    exact Option.some.inj htag

end

/-- Only `AcquirePages` with an id that is not reserved stops between its sections with an entry still
to be found. -/
theorem beginCall_acquired {call : Call} (h : (beginCall cfg r call).1 = .acquired sequenceId pages) :
    isReservedSequenceId sequenceId = false := by
  have hdetach : ∀ (result : List ℤ → CallResult) (out : Except BackendError (List ℤ) × Region),
      (afterDetach result out).1 ≠ .acquired sequenceId pages := by
    rintro result ⟨_ | (_ | ⟨page, pages⟩), r⟩ <;> simp [afterDetach]
  cases call with
  | acquirePages id numPages =>
    rw [beginCall] at h
    split at h
    · cases h
    split at h
    · cases h
    · rename_i hres
      split at h
      · cases h
      · cases h
        simpa using hres
  | acquirePagesForSequences ids numTokens =>
    rw [beginCall] at h
    repeat' split at h
    all_goals cases h
  | releaseSequence id => exact absurd h (hdetach _ _)
  | releasePrefixPages id numPages =>
    rw [beginCall] at h
    split at h
    · cases h
    · exact absurd h (hdetach _ _)
  | retainPages id pageIds =>
    rw [beginCall] at h
    repeat' split at h
    all_goals cases h
  | releaseResidentPages pageIds =>
    rw [beginCall] at h
    split at h
    · cases h
    · exact absurd h (hdetach _ _)

theorem resumeCall_not_acquired {call : CallState} : (resumeCall cfg r call).1 ≠ .acquired sequenceId pages := by
  cases call with
  | idle last => simp [resumeCall]
  | acquired id held =>
    rw [resumeCall]
    split <;> simp
  | releasing held result => simp [resumeCall]
  | undoing held error => simp [resumeCall]

section Run

variable [DecidableEq Pid] {st st' : State Pid}

theorem State.commit_localPages (pid : Pid) (out : CallState × Region) :
    (fun p => ((st.commit pid out).calls p).localPages) =
      update (fun p => (st.calls p).localPages) pid out.1.localPages := by
  funext p
  by_cases hp : p = pid
  · subst hp
    simp [State.commit]
  · simp [State.commit, hp]

/-- The ids of the calls between their sections stay unreserved. -/
theorem State.commit_idFree {pid : Pid} {out : CallState × Region} (h : ∀ p, (st.calls p).IdFree)
    (hids : out.1.IdFree) (p : Pid) : ((st.commit pid out).calls p).IdFree := by
  by_cases hp : p = pid
  · subst hp
    simpa [State.commit] using hids
  · simpa [State.commit, hp] using h p

/-- Storing a section's outcome keeps the state safe when the section kept the pages held. -/
theorem Safe.commit (h : Safe cfg st) {pid : Pid} {out : CallState × Region}
    (hout : Handed cfg (fun p => (st.calls p).localPages) pid out)
    (hids : out.1.IdFree) : Safe cfg (st.commit pid out) := by
  obtain ⟨cells, hheld⟩ := hout
  refine ⟨⟨cells, ?_⟩, State.commit_idFree h.ids hids⟩
  rw [State.commit_localPages]
  exact hheld

/-- **The step lemma**: any section of any process keeps the state safe. -/
theorem Step.safe (hfit : cfg.numPages ≤ 2 ^ 31) (h : Safe cfg st) (hstep : Step cfg st st') : Safe cfg st' := by
  obtain ⟨cells, hheld⟩ := h.held
  cases hstep with
  | beginCall pid call last hidle hids =>
    refine h.commit ?_ fun _ _ => beginCall_acquired
    refine beginCall_handed hfit hheld ?_ call hids
    rw [hidle]
    rfl
  | resumeCall pid =>
    exact h.commit (resumeCall_handed hfit hheld rfl (h.ids pid)) fun _ _ hcall => absurd hcall resumeCall_not_acquired

/-- **The run lemma**: every interleaving stays safe. -/
theorem Reachable.safe (hfit : cfg.numPages ≤ 2 ^ 31) (h : Reachable cfg st) : Safe cfg st := by
  induction h with
  | refl => exact initialState_safe hfit
  | tail _ hstep ih => exact hstep.safe hfit ih

end Run

/-- With more pages than fit a signed 32-bit id, nobody holds page `2 ^ 31` of a fresh region. -/
theorem initialState_lost_page (h : 2 ^ 31 < cfg.numPages) (holder : Holder Pid) :
    InRange cfg (2 ^ 31) ∧ ¬ Holds cfg (initialState Pid cfg) (2 ^ 31) holder := by
  refine ⟨⟨by norm_num, by exact_mod_cast h⟩, ?_⟩
  cases holder with
  | stackPosition index =>
    rintro ⟨-, hvalue⟩
    have hlt := i32_lt (cfg.numPages - 1 - index)
    rw [← constructSharedState_freeStack] at hlt
    exact absurd hvalue (ne_of_lt hlt)
  | entryChain slot => exact fun hchain => hchain.1.2.1 rfl
  | prefixResident =>
    intro howner
    have hne : kEmptySequenceId ≠ kPrefixResidentSequenceId := by decide
    exact hne howner
  | call pid => exact fun hmem => by cases hmem

/-- **The pages are partitioned along every run exactly when the page ids fit.** -/
theorem pagePartition_iff_pageIds_fit [DecidableEq Pid] (cfg : HostPagedKVConfig) :
    (∀ st : State Pid, Reachable cfg st → PagePartition cfg st) ↔ cfg.numPages ≤ 2 ^ 31 := by
  constructor
  · intro hall
    by_contra hfit
    have hpart := hall _ Relation.ReflTransGen.refl
    obtain ⟨holder, hholds, -⟩ := hpart.holder (2 ^ 31)
      (initialState_lost_page (not_le.mp hfit) (Holder.prefixResident : Holder Pid)).1
    exact (initialState_lost_page (not_le.mp hfit) holder).2 hholds
  · intro hfit st hst
    obtain ⟨cells, hheld⟩ := (Reachable.safe hfit hst).held
    exact hheld.pagePartition

/-- One page more than a signed 32-bit id can name. -/
def oversizedConfig : HostPagedKVConfig where
  numPages := 2 ^ 31 + 1
  pageSizeTokens := 1
  sequenceTableCapacity := 1
  numPages_pos := by omega
  numPages_lt := by omega
  pageSizeTokens_pos := Nat.one_pos
  pageSizeTokens_lt := oneSlot.pageSizeTokens_lt
  sequenceTableCapacity_lt := oneSlot.sequenceTableCapacity_lt

/-- The fresh region of an accepted configuration misses a page. -/
theorem oversizedConfig_loses_page :
    Reachable oversizedConfig (initialState ℕ oversizedConfig) ∧
      ¬ PagePartition oversizedConfig (initialState ℕ oversizedConfig) := by
  have hsize : 2 ^ 31 < oversizedConfig.numPages := by norm_num [oversizedConfig]
  refine ⟨Relation.ReflTransGen.refl, fun hpart => ?_⟩
  obtain ⟨holder, hholds, -⟩ := hpart.holder (2 ^ 31)
    (initialState_lost_page hsize (Holder.prefixResident : Holder ℕ)).1
  exact (initialState_lost_page hsize holder).2 hholds

end Batchgen.HostPagedKV
