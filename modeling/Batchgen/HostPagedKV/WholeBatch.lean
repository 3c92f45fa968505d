import Batchgen.HostPagedKV.Audit
import Batchgen.HostPagedKV.Recovery
import Mathlib.Algebra.Order.Floor.Div
import Mathlib.GroupTheory.GroupAction.Ring

/-!
# Acquiring pages for a whole batch

In the states that whole sections lead to, every tail is in place, so such a run is a careful one (`Reachable.careful`)
and the sequence table stays searchable (`Reachable.tableValid`).  With the page partition this gives what
`AcquirePagesForSequences` does to the chains: all of its work, or none of it.
-/

namespace Batchgen.HostPagedKV

open MachineInt LinkedChain Function List

variable {Pid : Type*} {cfg : HostPagedKVConfig} {st : State Pid} {pid : Pid} {part : CallSection}

/-- A section only extends sequences whose ids are not reserved. -/
theorem CanRun.extended (h : Safe cfg st) (hcan : CanRun st pid part) : NoneReserved part.extended := by
  cases part with
  | first call =>
    cases call with
    | acquirePagesForSequences => exact hcan.2
    | acquirePages | releaseSequence | releasePrefixPages | retainPages | releaseResidentPages =>
      simp [NoneReserved, CallSection.extended]
  | later state =>
    cases state with
    | acquired sequenceId pages => simpa [NoneReserved, CallSection.extended] using h.ids pid sequenceId pages hcan
    | idle | releasing | undoing => simp [NoneReserved, CallSection.extended]

variable [DecidableEq Pid]

/-- **Without a kill every run is careful.** -/
theorem Reachable.careful (hfit : cfg.numPages ≤ 2 ^ 31) (h : Reachable cfg st) : KilledRun cfg (Careful cfg) st := by
  refine h.killedRun cfg fun st pid part hst hcan slot hslot hmem => ?_
  have hsafe := hst.safe hfit
  obtain ⟨cells, hheld⟩ := hsafe.held
  have hlive : LiveSlot cfg st.region slot := ⟨hslot, (live_of_not_reserved rfl (hcan.extended hsafe _ hmem)).1⟩
  exact ⟨_, (hheld.chain slot hlive).chain, (hheld.chain slot hlive).tail⟩

theorem Reachable.tableValid (hfit : cfg.numPages ≤ 2 ^ 31) (h : Reachable cfg st) : TableValid cfg st.region := by
  obtain ⟨spot, chain, hpages⟩ := ((h.careful hfit).sound hfit).pages
  exact hpages.table

/-- **`AcquirePagesForSequences` is all or nothing**, in every reachable state.  With `chains` the pages of the slots in
use, it throws and leaves the stack, the chains and the counters of entries as they were, or it returns the pages each
sequence needs, all distinct, from the top of the stack, and they stand in order behind the sequence's chain. -/
theorem acquirePagesForSequences_all_or_nothing (cfg : HostPagedKVConfig) (hfit : cfg.numPages ≤ 2 ^ 31)
    (hst : Reachable cfg st) (pid : Pid) (last : Option CallResult) (hidle : st.calls pid = .idle last)
    (sequenceIds : List ℤ) (numTokens : List ℕ)
    (hids : ∀ sequenceId ∈ sequenceIds, isReservedSequenceId sequenceId = false)
    (htokens : ∀ tokens ∈ numTokens, tokens + cfg.pageSizeTokens < 2 ^ 64) :
    ∃ chains : ℕ → List ℤ, (∀ slot, LiveSlot cfg st.region slot → SlotChain st.region slot (chains slot)) ∧
      (∀ slot, ¬ LiveSlot cfg st.region slot → chains slot = []) ∧
      ((∃ error r', beginCall cfg st.region (.acquirePagesForSequences sequenceIds numTokens) =
          (.idle (some (.thrown error)), r') ∧ Unchanged cfg st.region r' chains) ∨
        ∃ allocations r', beginCall cfg st.region (.acquirePagesForSequences sequenceIds numTokens) =
            (.idle (some (.allocations allocations)), r') ∧ sequenceIds.length = allocations.length ∧
          allocations.map length = numTokens.map (· ⌈/⌉ cfg.pageSizeTokens) ∧ allocations.flatten.Nodup ∧
          freePages st.region = freePages r' ++ allocations.flatten ∧
          Appended cfg st.region r' chains (sequenceIds.zip allocations)) := by
  obtain ⟨cells, hheld⟩ := (hst.safe hfit).held
  have hpos := cfg.pageSizeTokens_pos
  refine ⟨fun slot => cells (.chain slot), hheld.chain, hheld.unused, ?_⟩
  rcases hheld.beginWave hfit (congrArg CallState.localPages hidle) sequenceIds numTokens hids with
    ⟨error, r', hout, -, hunchanged⟩ | ⟨allocations, r', hout, -, hlength, hcounts, hstack, happended, -⟩
  · exact Or.inl ⟨error, r', hout, hunchanged (hst.activeCounts hfit ▸ u32_lt _)⟩
  · have hsizes := congrArg length hcounts
    rw [length_map, length_map] at hsizes
    have hnodup : (freePages st.region).Nodup := hheld.free ▸ hheld.placement.nodup .free
    rw [hstack] at hnodup
    refine Or.inr ⟨allocations, r', hout, hlength.trans hsizes.symm, ?_, (nodup_append.mp hnodup).2.1, hstack,
      happended (hst.tableValid hfit)⟩
    rw [hcounts]
    refine map_congr_left fun tokens hmem => ?_
    have hlt := htokens tokens hmem
    rw [u64_of_lt (by omega), Nat.ceilDiv_eq_add_pred_div]

/-- Four pages of four tokens and two table slots. -/
def fourPageConfig : HostPagedKVConfig :=
  { twoPageConfig with
    numPages := 4, numPages_pos := twoPageConfig.pageSizeTokens_pos, numPages_lt := twoPageConfig.pageSizeTokens_lt,
    sequenceTableCapacity := 2, sequenceTableCapacity_lt := twoPageConfig.numPages_lt }

/-- Sequence 0 has the page 0. -/
def oneChain : State Unit :=
  (initialState Unit fourPageConfig).commit ()
    (beginCall fourPageConfig (constructSharedState fourPageConfig) (.acquirePagesForSequences [0] [4]))

/-- A wave that extends sequence 0 and brings sequence 1, and one whose third sequence finds the table full. -/
theorem acquirePagesForSequences_two_waves :
    Reachable fourPageConfig oneChain ∧ SlotChain oneChain.region 0 [0] ∧
      (∃ chains r', chains 0 = [0] ∧
        beginCall fourPageConfig oneChain.region (.acquirePagesForSequences [0, 1] [5, 1]) =
          (.idle (some (.allocations [[3, 2], [1]])), r') ∧
        Appended fourPageConfig oneChain.region r' chains [(0, [3, 2]), (1, [1])]) ∧
      ∃ chains r', chains 0 = [0] ∧
        beginCall fourPageConfig oneChain.region (.acquirePagesForSequences [0, 1, 2] [1, 1, 1]) =
          (.idle (some (.thrown (.sequenceTableFull 2))), r') ∧ Unchanged fourPageConfig oneChain.region r' chains := by
  have hst : Reachable fourPageConfig oneChain :=
    .single (.beginCall () (.acquirePagesForSequences [0] [4]) none rfl (by decide))
  have hchain : SlotChain oneChain.region 0 [0] :=
    ⟨⟨by decide +kernel, by decide +kernel, by show _ = _; decide +kernel⟩, by decide +kernel, by decide +kernel,
      by decide +kernel⟩
  have hlive : LiveSlot fourPageConfig oneChain.region 0 := by
    unfold LiveSlot
    decide +kernel
  have hidle : oneChain.calls () = .idle (some (.allocations [[0]])) := by decide +kernel
  have hwave := acquirePagesForSequences_all_or_nothing fourPageConfig (by decide) hst () _ hidle
  refine ⟨hst, hchain, ?_, ?_⟩
  · have hresult : (beginCall fourPageConfig oneChain.region (.acquirePagesForSequences [0, 1] [5, 1])).1 =
        .idle (some (.allocations [[3, 2], [1]])) := by decide +kernel
    obtain ⟨chains, hchains, -, ⟨error, r', hout, -⟩ | ⟨allocations, r', hout, -, -, -, -, happended⟩⟩ :=
      hwave [0, 1] [5, 1] (by decide) (by decide)
    · rw [hout] at hresult
      cases hresult
    · rw [hout] at hresult
      cases hresult
      exact ⟨chains, r', (hchains 0 hlive).chain.unique hchain.chain, hout, happended⟩
  · have hresult : (beginCall fourPageConfig oneChain.region (.acquirePagesForSequences [0, 1, 2] [1, 1, 1])).1 =
        .idle (some (.thrown (.sequenceTableFull 2))) := by decide +kernel
    obtain ⟨chains, hchains, -, ⟨error, r', hout, hunchanged⟩ | ⟨allocations, r', hout, -⟩⟩ :=
      hwave [0, 1, 2] [1, 1, 1] (by decide) (by decide)
    · rw [hout] at hresult
      cases hresult
      exact ⟨chains, r', (hchains 0 hlive).chain.unique hchain.chain, hout, hunchanged⟩
    · rw [hout] at hresult
      cases hresult

end Batchgen.HostPagedKV
