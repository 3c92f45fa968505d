import Batchgen.QueryBook.Book
import Mathlib.Algebra.BigOperators.Group.List.Basic
import Mathlib.Data.Nat.Cast.Order.Ring

/-!
# The turn ledger

`Ledger turns tokens generated` says that the turns of a slot describe a trajectory: they pass the loop of
`_validate_turns`, the last one ends where the tokens end, and the spans they name hold exactly the generated
tokens.  Each way the book changes the turns keeps it.
-/

namespace Batchgen.QueryBook

open List

/-! ### Turns in a row -/

/-- What `_validate_turns` asks of a turn after the turns before it. -/
structure TurnOk (tokenLength : ℕ) (expectedId previousEnd : ℤ) (u : Turn) : Prop where
  id : u.turnId = expectedId
  promptStart : 0 ≤ u.promptStart
  promptLength : 0 ≤ u.promptLength
  generatedLength : 0 ≤ u.generatedLength
  prompt : u.promptEnd ≤ u.generatedStart
  order : previousEnd ≤ u.generatedStart
  inside : u.generatedEnd ≤ tokenLength

/-- The turns pass the loop. -/
def ScanOk (tokenLength : ℕ) : ℤ → ℤ → List Turn → Prop
  | _, _, [] => True
  | expectedId, previousEnd, u :: turns =>
    TurnOk tokenLength expectedId previousEnd u ∧ ScanOk tokenLength (expectedId + 1) u.generatedEnd turns

/-- Where the last of the turns ends. -/
def endOf (previousEnd : ℤ) (turns : List Turn) : ℤ := (turns.getLast?.map Turn.generatedEnd).getD previousEnd

variable {n m : ℕ} {k p : ℤ} {u : Turn} {turns : List Turn} {tokens generated : List Token}

theorem endOf_cons : endOf p (u :: turns) = endOf u.generatedEnd turns := by
  unfold endOf
  cases hlast : turns.getLast? with
  | none =>
    rw [getLast?_eq_none_iff.mp hlast]
    rfl
  | some v => rw [getLast?_cons, hlast]; rfl

theorem endOf_concat : endOf p (turns ++ [u]) = u.generatedEnd := by
  unfold endOf
  rw [getLast?_concat]
  rfl

theorem scanOk_concat : ScanOk n k p (turns ++ [u]) ↔
    ScanOk n k p turns ∧ TurnOk n (k + turns.length) (endOf p turns) u := by
  induction turns generalizing k p with
  | nil =>
    show TurnOk n k p u ∧ True ↔ True ∧ TurnOk n (k + (0 : ℕ)) p u
    rw [Nat.cast_zero, add_zero, and_true, true_and]
  | cons v turns ih =>
    show TurnOk n k p v ∧ ScanOk n (k + 1) v.generatedEnd (turns ++ [u]) ↔ _
    rw [ih, endOf_cons, length_cons, Nat.cast_succ, add_assoc, add_comm (1 : ℤ), ← and_assoc]
    rfl

theorem TurnOk.mono (h : TurnOk n k p u) (hle : n ≤ m) : TurnOk m k p u :=
  { h with inside := h.inside.trans (Nat.cast_le.mpr hle) }

theorem ScanOk.mono (h : ScanOk n k p turns) (hle : n ≤ m) : ScanOk m k p turns := by
  induction turns generalizing k p with
  | nil => trivial
  | cons u turns ih => exact ⟨h.1.mono hle, ih h.2⟩

theorem ScanOk.turnOk (h : ScanOk n k p turns) (hu : u ∈ turns) :
    ∃ expectedId previousEnd, TurnOk n expectedId previousEnd u := by
  induction turns generalizing k p with
  | nil => cases hu
  | cons v turns ih =>
    rcases mem_cons.mp hu with rfl | hu
    · exact ⟨k, p, h.1⟩
    · exact ih h.2 hu

theorem TurnOk.bounds (h : TurnOk n k p u) :
    0 ≤ u.generatedStart ∧ 0 ≤ u.generatedLength ∧ u.generatedStart + u.generatedLength ≤ n := by
  have h₁ := h.promptStart
  have h₂ := h.promptLength
  have h₃ := h.prompt
  unfold Turn.promptEnd at h₃
  exact ⟨by omega, h.generatedLength, h.inside⟩

theorem scanTurn_ok {total : ℤ} (h : TurnOk n k p u) :
    scanTurn n ⟨k, total, p⟩ u = .ok ⟨k + 1, total + u.generatedLength, u.generatedEnd⟩ := by
  obtain ⟨hstart, hlength, -⟩ := h.bounds
  have hprompt := h.prompt
  have hpromptStart := h.promptStart
  have hpromptLength := h.promptLength
  have hinside := h.inside
  have hend : u.generatedStart ≤ u.generatedEnd := by
    unfold Turn.generatedEnd
    omega
  unfold scanTurn
  rw [if_neg (not_not.mpr h.id), if_neg (by omega), if_neg (by omega), if_neg (by omega), if_neg (not_lt.mpr h.order)]

/-- **Turns in a row pass the loop, which adds up their lengths.** -/
theorem scan_ok (h : ScanOk n k p turns) (total : ℤ) : ∃ s, turns.foldlM (scanTurn n) ⟨k, total, p⟩ = .ok s ∧
      s.generatedTotal = total + (turns.map Turn.generatedLength).sum := by
  induction turns generalizing k p total with
  | nil => exact ⟨_, rfl, by simp⟩
  | cons u turns ih =>
    obtain ⟨s, hrun, htotal⟩ := ih h.2 (total + u.generatedLength)
    refine ⟨s, ?_, ?_⟩
    · rw [foldlM_cons, scanTurn_ok h.1]
      exact hrun
    · rw [htotal, map_cons, sum_cons, add_assoc]

/-! ### The generated spans -/

/-- The tokens a turn says it generated. -/
def Turn.span (u : Turn) (tokens : List Token) : List Token :=
  (tokens.drop u.generatedStart.toNat).take u.generatedLength.toNat

section

variable (h : TurnOk tokens.length k p u)
include h

theorem TurnOk.span_length : ((u.span tokens).length : ℤ) = u.generatedLength := by
  obtain ⟨hstart, hlength, hinside⟩ := h.bounds
  rw [Turn.span, length_take, length_drop]
  omega

/-- Tokens behind the span do not change it. -/
theorem TurnOk.span_append (more : List Token) : u.span (tokens ++ more) = u.span tokens := by
  obtain ⟨hstart, hlength, hinside⟩ := h.bounds
  rw [Turn.span, drop_append_of_le_length (by omega), take_append_of_le_length (by rw [length_drop]; omega)]
  rfl

/-- The last token of a span. -/
theorem TurnOk.span_getLast? (hu : u.generatedLength ≠ 0) :
    (u.span tokens).getLast? = tokens[(u.generatedEnd - 1).toNat]? := by
  obtain ⟨hstart, hlength, -⟩ := h.bounds
  have hspan := h.span_length
  have hindex : (u.generatedEnd - 1).toNat = u.generatedStart.toNat + ((u.span tokens).length - 1) := by
    unfold Turn.generatedEnd
    omega
  rw [getLast?_eq_getElem?, Turn.span, getElem?_take_of_lt, getElem?_drop, hindex, Turn.span]
  change (u.span tokens).length - 1 < _
  omega

end

theorem ScanOk.spans_append (h : ScanOk tokens.length k p turns) (more : List Token) :
    (turns.flatMap fun u => u.span (tokens ++ more)) = turns.flatMap fun u => u.span tokens := by
  induction turns generalizing k p with
  | nil => rfl
  | cons u turns ih => rw [flatMap_cons, flatMap_cons, h.1.span_append, ih h.2]

theorem ScanOk.spans_length (h : ScanOk tokens.length k p turns) :
    ((turns.flatMap fun u => u.span tokens).length : ℤ) = (turns.map Turn.generatedLength).sum := by
  induction turns generalizing k p with
  | nil => rfl
  | cons u turns ih =>
    rw [flatMap_cons, length_append, Nat.cast_add, h.1.span_length, ih h.2, map_cons, sum_cons]

/-! ### The ledger -/

structure Ledger (turns : List Turn) (tokens generated : List Token) : Prop where
  scan : ScanOk tokens.length 0 0 turns
  ends : turns ≠ [] → endOf 0 turns = tokens.length
  empty : turns = [] → tokens = []
  spans : (turns.flatMap fun u => u.span tokens) = generated

namespace Ledger

theorem new : Ledger [] [] [] := ⟨trivial, fun h => absurd rfl h, fun _ => rfl, rfl⟩

/-- A last turn that has generated nothing yet. -/
theorem ofTurn {turnId promptStart promptLength : ℤ} (hscan : ScanOk tokens.length 0 0 turns)
    (hspans : (turns.flatMap fun u => u.span tokens) = generated) (hend : endOf 0 turns ≤ tokens.length)
    (hid : turnId = turns.length) (hstart : 0 ≤ promptStart) (hlength : 0 ≤ promptLength)
    (hprompt : promptStart + promptLength ≤ tokens.length) :
    Ledger (turns ++ [⟨turnId, promptStart, promptLength, tokens.length, 0⟩]) tokens generated := by
  refine ⟨scanOk_concat.mpr ⟨hscan, ?_⟩, fun _ => ?_, fun hnil => ?_, ?_⟩
  · exact ⟨hid.trans (zero_add _).symm, hstart, hlength, le_rfl, hprompt, hend, (add_zero _).le⟩
  · rw [endOf_concat]
    exact add_zero _
  · exact absurd hnil (append_ne_nil_of_right_ne_nil _ (cons_ne_nil _ _))
  · rw [flatMap_append, hspans]
    show generated ++ ([] ++ []) = generated
    rw [append_nil, append_nil]

/-- `write_prompt`: one turn, with nothing generated. -/
theorem prompt (tokens : List Token) : Ledger [⟨0, 0, tokens.length, tokens.length, 0⟩] tokens [] :=
  @ofTurn [] tokens [] _ _ _ trivial rfl (Nat.cast_nonneg _) rfl le_rfl (Nat.cast_nonneg _) (zero_add _).le

variable (h : Ledger turns tokens generated)

include h

theorem end_le : endOf 0 turns ≤ tokens.length := by
  by_cases hnil : turns = []
  · rw [hnil]
    exact Nat.cast_nonneg _
  · exact (h.ends hnil).le

/-- A new turn behind some new prompt tokens. -/
theorem addTurn (more : List Token) (promptStart promptLength : ℤ) (hstart : 0 ≤ promptStart)
    (hlength : 0 ≤ promptLength) (hprompt : promptStart + promptLength ≤ (tokens ++ more).length) :
    Ledger (turns ++ [⟨turns.length, promptStart, promptLength, (tokens ++ more).length, 0⟩])
      (tokens ++ more) generated := by
  have hle : tokens.length ≤ (tokens ++ more).length := by
    rw [length_append]
    omega
  refine ofTurn (h.scan.mono hle) ?_ (h.end_le.trans (Nat.cast_le.mpr hle)) rfl hstart hlength hprompt
  rw [h.scan.spans_append, h.spans]

/-- A re-entry replaces a last turn that generated nothing. -/
theorem replaceTurn {front : List Turn} {last : Turn} (promptLength : ℤ) (hturns : turns = front ++ [last])
    (hunused : last.generatedLength = 0) (hlength : 0 ≤ promptLength) (hprompt : promptLength ≤ tokens.length) :
    Ledger (front ++ [⟨last.turnId, 0, promptLength, tokens.length, 0⟩]) tokens generated := by
  subst hturns
  obtain ⟨hfront, hlast⟩ := scanOk_concat.mp h.scan
  obtain ⟨-, -, hinside⟩ := hlast.bounds
  have horder := hlast.order
  refine ofTurn hfront ?_ (by omega) (hlast.id.trans (zero_add _)) le_rfl hlength (by omega)
  have hspan : last.span tokens = [] := by
    rw [Turn.span, hunused]
    rfl
  have hspans := h.spans
  rwa [flatMap_append, flatMap_singleton, hspan, append_nil] at hspans

/-- One more generated token, in the last turn. -/
theorem generate (token : Token) (promptLength : ℕ) (hprompt : promptLength ≤ tokens.length) :
    Ledger (incrementLastTurn turns promptLength (tokens.length + 1)) (tokens ++ [token]) (generated ++ [token]) := by
  rcases eq_nil_or_concat turns with hnil | ⟨front, last, hturns⟩
  · -- the first token of a slot that never got a prompt
    subst hnil
    have htokens := h.empty rfl
    subst htokens
    have hspans := h.spans
    rw [flatMap_nil] at hspans
    subst hspans
    have hzero : promptLength = 0 := Nat.le_zero.mp hprompt
    subst hzero
    refine ⟨⟨⟨rfl, le_rfl, le_rfl, zero_le_one, le_rfl, le_rfl, le_rfl⟩, trivial⟩, fun _ => rfl, fun hnil => ?_, rfl⟩
    cases hnil
  · rw [concat_eq_append] at hturns
    subst hturns
    obtain ⟨hfront, hlast⟩ := scanOk_concat.mp h.scan
    have hend := h.ends (append_ne_nil_of_right_ne_nil _ (cons_ne_nil _ _))
    rw [endOf_concat] at hend
    obtain ⟨hstart, hlength, -⟩ := hlast.bounds
    have hincrement : incrementLastTurn (front ++ [last]) promptLength (tokens.length + 1) =
        front ++ [{ last with generatedLength := last.generatedLength + 1 }] := by
      rw [incrementLastTurn, getLast?_concat, dropLast_concat]
    have hnewEnd : ({ last with generatedLength := last.generatedLength + 1 } : Turn).generatedEnd =
        (tokens ++ [token]).length := by
      rw [length_append, length_singleton, Nat.cast_add, ← hend]
      show last.generatedStart + (last.generatedLength + 1) = _
      rw [← add_assoc]
      rfl
    rw [hincrement]
    refine ⟨scanOk_concat.mpr ⟨hfront.mono ?_, ?_⟩, fun _ => ?_, fun hnil => ?_, ?_⟩
    · rw [length_append]
      omega
    · exact ⟨hlast.id, hlast.promptStart, hlast.promptLength, by show 0 ≤ last.generatedLength + 1; omega,
        hlast.prompt, hlast.order, hnewEnd.le⟩
    · rw [endOf_concat, hnewEnd]
    · exact absurd hnil (append_ne_nil_of_right_ne_nil _ (cons_ne_nil _ _))
    · have hspan : ({ last with generatedLength := last.generatedLength + 1 } : Turn).span (tokens ++ [token]) =
          last.span tokens ++ [token] := by
        have htoNat : last.generatedStart.toNat + last.generatedLength.toNat = tokens.length := by
          unfold Turn.generatedEnd at hend
          omega
        have hdrop : (tokens.drop last.generatedStart.toNat).length = last.generatedLength.toNat := by
          rw [length_drop]
          omega
        have hsucc : (last.generatedLength + 1).toNat = last.generatedLength.toNat + 1 := by omega
        show ((tokens ++ [token]).drop last.generatedStart.toNat).take (last.generatedLength + 1).toNat =
          (tokens.drop last.generatedStart.toNat).take last.generatedLength.toNat ++ [token]
        rw [drop_append_of_le_length (by omega), hsucc, take_of_length_le (by simp [hdrop]), take_of_length_le hdrop.le]
      have hspans := h.spans
      rw [flatMap_append, flatMap_singleton] at hspans
      rw [flatMap_append, flatMap_singleton, hspan, hfront.spans_append, ← append_assoc, hspans]

/-- **The turns pass `_validate_turns`, for any prompt length.** -/
theorem validate_ok (promptLength : ℕ) :
    validateTurns (some turns) tokens.length promptLength generated.length = .ok turns := by
  obtain ⟨s, hrun, htotal⟩ := scan_ok h.scan 0
  have hsum : s.generatedTotal = generated.length := by
    rw [htotal, zero_add, ← h.scan.spans_length, h.spans]
  have hnonempty : ¬ (turns = [] ∧ (tokens.length ≠ 0 ∨ generated.length ≠ 0)) := by
    rintro ⟨rfl, hlength⟩
    rw [h.empty rfl, ← h.spans] at hlength
    exact hlength.elim (fun hne => hne rfl) fun hne => hne rfl
  rw [validateTurns]
  simp only [hrun]
  rw [if_neg hnonempty, if_neg (not_not.mpr hsum)]

/-- The last generated token stands at the end of the last turn that generated one. -/
theorem last_generated {front back : List Turn} (hturns : turns = front ++ u :: back)
    (hback : ∀ v ∈ back, v.generatedLength = 0) (hu : u.generatedLength ≠ 0) :
    generated.getLast? = tokens[(u.generatedEnd - 1).toNat]? := by
  subst hturns
  obtain ⟨expectedId, previousEnd, hu'⟩ := h.scan.turnOk (mem_append_right front mem_cons_self)
  have hbackSpans : (back.flatMap fun v => v.span tokens) = [] := by
    rw [flatMap_eq_nil_iff]
    intro v hv
    rw [Turn.span, hback v hv]
    rfl
  have hne : u.span tokens ≠ [] := by
    intro hnil
    have hlength := hu'.span_length
    rw [hnil] at hlength
    exact hu hlength.symm
  rw [← h.spans, flatMap_append, flatMap_cons, hbackSpans, append_nil, getLast?_append_of_ne_nil _ hne]
  exact hu'.span_getLast? hu

end Ledger

/-! ### Migration -/

theorem turnOfRow_row (u : Turn) : turnOfRow u.row = .ok u := by
  have hend : ¬ u.generatedEnd ≠ u.generatedStart + u.generatedLength := not_not.mpr rfl
  rw [Turn.row, turnOfRow, if_neg hend]

theorem turnsFromPayload_rows (turns : List Turn) : turnsFromPayload (turns.map Turn.row) = .ok turns := by
  rw [turnsFromPayload]
  induction turns with
  | nil => rfl
  | cons u turns ih =>
    rw [map_cons, mapM_cons, turnOfRow_row, ih]
    rfl

end Batchgen.QueryBook
