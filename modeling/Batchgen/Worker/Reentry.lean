import Batchgen.QueryBook.Trajectories
import Batchgen.Library.Runs
import Batchgen.Worker.DecodeGroups

/-!
# Evicted sequences that prefill again

A decoding sequence whose Host pages are taken away is prefilled again later, with the tokens it has generated as part
of its prompt.  Its lengths are updated at the eviction, at the re-entry and with every generated token, each from what
the others left; the tokens stay in the trajectory book, where only the turn ledger changes.

A run takes the steps of one sequence in any order that its status allows, between calls of the book for other
sequences.  `generated` and `beforeEviction` record all tokens generated and those generated before the last eviction;
no step reads them.
-/

namespace Batchgen.Reentry

open Runs QueryBook Outcome List Option

variable {n : ℕ} {status : SequenceStatus}

open DecodeGroups (SequenceStatus)

/-- The lengths of a `SequenceEntry`. -/
structure Sequence where
  status : SequenceStatus := .queueing
  promptLength : ℕ
  decodedLength : ℕ := 0
  currentContextLength : ℕ
  reentryDecodedBaseline : ℕ := 0
  totalDecodedBeforeEviction : ℕ := 0
  originalPromptLength : ℕ
  originalMaxDecodeLength : ℕ

namespace Sequence

variable (seq : Sequence)

/-- One more token, of a prefill or of a decode step. -/
def generate (status : SequenceStatus) : Sequence :=
  { seq with
    status
    decodedLength := seq.decodedLength + 1
    currentContextLength := seq.originalPromptLength + (seq.decodedLength + 1) }

/-- The metadata update of an eviction at a page boundary. -/
def evict : Sequence :=
  let newDecodedCount := seq.decodedLength - seq.reentryDecodedBaseline
  let newReentryLen := seq.promptLength + newDecodedCount
  { seq with
    status := .evicted
    totalDecodedBeforeEviction := seq.decodedLength
    promptLength := newReentryLen
    currentContextLength := newReentryLen }

/-- `_reentry_history_length` -/
def reentryHistoryLength : ℕ := min (seq.promptLength - seq.originalPromptLength) seq.originalMaxDecodeLength

/-- The metadata update of a re-entry. -/
def reenter : Sequence :=
  { seq with
    status := .inPrefill
    decodedLength := seq.reentryHistoryLength
    reentryDecodedBaseline := seq.reentryHistoryLength }

end Sequence

structure State where
  seq : Sequence
  book : Book
  generated : List Token := []
  beforeEviction : List Token := []

/-- An admitted request with its clamped decode budget. -/
def State.admitted (prompt : List Token) (budget : ℕ) (book : Book) : State where
  seq :=
    { promptLength := prompt.length
      currentContextLength := prompt.length
      originalPromptLength := prompt.length
      originalMaxDecodeLength := budget }
  book := book

def State.setStatus (s : State) (status : SequenceStatus) : State := { s with seq := { s.seq with status } }

/-- The token is generated; the book has it. -/
def State.generate (s : State) (status : SequenceStatus) (token : Token) (book : Book) : State :=
  { s with seq := s.seq.generate status, book, generated := s.generated ++ [token] }

inductive Label
  | beginPrefill
  | writePrefillToken (token : Token)
  | startDecode
  | decode (slots : List ℕ) (tokens : List Token)
  | putOnHold
  | evict
  | complete
  | other (c : Command)

variable (cfg : Config) (slot : ℕ)

/-- A call that returns. -/
def returned (c : Command) (b : Book) : Option Book :=
  match c.exec cfg b with
  | .ok _ b' => some b'
  | .error _ _ => none

/-- The re-entry of an evicted sequence: its trajectory must not be shorter than its prompt. -/
def reenter (s : State) : Option State :=
  match metadata slot s.book with
  | .ok record _ =>
    if record.tokenLength < s.seq.promptLength then none
    else (returned cfg (.beginReentryTurn slot s.seq.promptLength) s.book).map fun book =>
      { s with seq := s.seq.reenter, book }
  | .error _ _ => none

/-- The steps of the sequence; no token is generated once the budget is used up.  A call that raises takes no step. -/
def step (s : State) : Label → Option State
  | .beginPrefill =>
    if s.seq.status = .queueing ∨ s.seq.status = .evicted then
      if s.seq.totalDecodedBeforeEviction = 0 then some (s.setStatus .inPrefill) else reenter cfg slot s
    else none
  | .writePrefillToken token =>
    if s.seq.status = .inPrefill ∧ s.seq.decodedLength < s.seq.originalMaxDecodeLength then
      (returned cfg (.appendToken slot token) s.book).map (s.generate .prefilled token)
    else none
  | .startDecode =>
    if s.seq.status = .prefilled ∨ s.seq.status = .onHold then some (s.setStatus .inDecode) else none
  | .decode slots tokens =>
    match (slots.zip tokens).lookup slot with
    | some token =>
      if s.seq.status = .inDecode ∧ s.seq.decodedLength < s.seq.originalMaxDecodeLength then
        (returned cfg (.appendTokens slots tokens) s.book).map (s.generate .inDecode token)
      else none
    | none => none
  | .putOnHold => if s.seq.status = .inDecode then some (s.setStatus .onHold) else none
  | .evict =>
    if s.seq.status = .inDecode ∨ s.seq.status = .onHold then
      (returned cfg (.beginReentryTurn slot s.seq.evict.promptLength) s.book).map fun book =>
        { s with seq := s.seq.evict, book, beforeEviction := s.generated }
    else none
  | .complete =>
    if s.seq.status = .prefilled ∨ s.seq.status = .inDecode ∨ s.seq.status = .onHold then
      some (s.setStatus .completed)
    else none
  | .other c =>
    match c.exec cfg s.book with
    | .ok out book => if slot ∉ c.names out then some { s with book } else none
    | .error _ book => some { s with book }

/-! ### The book -/

variable {cfg slot} {b b' : Book} {t t' : Trajectory} {c : Command} {out : List ℕ} {prompt : List Token} {budget : ℕ}
  {s s' : State} {l : Label}

/-- The slot of the book holds the trajectory. -/
def Holds (cfg : Config) (slot : ℕ) (b : Book) (t : Trajectory) : Prop :=
  Layout cfg [] b ∧ Tracked cfg b slot (some t)

theorem Holds.exec (h : Holds cfg slot b t) (hlocal : c.local = true ∨ slot ∉ c.names out)
    (hrun : c.exec cfg b = .ok out b') (hop : c.logical out slot (some t) = some t') : Holds cfg slot b' t' :=
  ⟨(c.exec_ends h.1).of_ok hrun, hop ▸ Command.logical_ok hlocal h.1 h.2 hrun⟩

theorem Holds.of_returned (h : Holds cfg slot b t) (hlocal : c.local = true) (hrun : returned cfg c b = some b')
    (hop : ∀ out, c.logical out slot (some t) = some t') : Holds cfg slot b' t' := by
  unfold returned at hrun
  split at hrun
  · next out book hexec =>
    cases hrun
    exact h.exec (.inl hlocal) hexec (hop out)
  · cases hrun

theorem logical_of_notMem (hslot : slot ∉ c.names out) (t : Option Trajectory) : c.logical out slot t = t := by
  have hzip : ∀ {α : Type} {slots : List ℕ} {rows : List α}, slot ∉ slots → slot ∉ (slots.zip rows).map Prod.fst := by
    intro α slots rows hslot hmem
    obtain ⟨row, hrow, rfl⟩ := mem_map.mp hmem
    exact hslot (of_mem_zip hrow).1
  cases c with
  | writePrompts slots prompts => exact rowOp_of_notMem (hzip hslot)
  | appendTokens slots tokens => exact rowOp_of_notMem (hzip hslot)
  | _ => simp_all [Command.logical, Command.names]

section

variable (h : Holds cfg slot b t)
include h

theorem Holds.entry : ∃ e, b.entries slot = some e ∧ Tracks cfg b e t := h.2

/-- **A re-entry inside the trajectory does not raise.** -/
theorem Holds.beginReentryTurn_ok (hn : n ≤ t.tokens.length) :
    ∃ b', returned cfg (.beginReentryTurn slot n) b = some b' := by
  obtain ⟨e, he, htracks⟩ := h.entry
  rw [← htracks.length] at hn
  have hcall : ∃ turn b', beginReentryTurn slot n b = .ok turn b' := by
    rw [beginReentryTurn, bind_ok (activeEntry_ok he), bind_ok (liftExcept_ok (nonnegativeInt_cast n _)),
      bind_ok (check_ok hn)]
    exact ⟨_, _, rfl⟩
  obtain ⟨turn, b', hcall⟩ := hcall
  have hexec : (Command.beginReentryTurn slot n).exec cfg b = .ok [] b' := map_ok hcall
  exact ⟨b', by rw [returned, hexec]⟩

/-- The first tokens of the trajectory can be read. -/
theorem Holds.tokens_ok (hn : n ≤ t.tokens.length) : tokens cfg slot (some n) b = .ok (t.tokens.take n) b := by
  obtain ⟨e, he, htracks⟩ := h.entry
  have hcopy := htracks.copySpan_ok h.1 he 0 n (by omega)
  rw [← htracks.length] at hn
  rw [tokens, bind_ok (activeEntry_ok he)]
  dsimp only
  rw [bind_ok (liftExcept_ok (nonnegativeInt_cast n _)), bind_ok (check_ok hn), hcopy, drop_zero]

theorem Holds.metadata_ok : ∃ record, metadata slot b = .ok record b ∧ record.tokenLength = t.tokens.length := by
  obtain ⟨e, he, htracks⟩ := h.entry
  exact ⟨e.record, bind_ok (activeEntry_ok he), htracks.length⟩

end

/-! ### The lengths -/

structure Inv (cfg : Config) (slot : ℕ) (prompt : List Token) (budget : ℕ) (s : State) : Prop where
  holds : Holds cfg slot s.book ⟨prompt ++ s.generated, s.generated⟩
  original : s.seq.originalPromptLength = prompt.length ∧ s.seq.originalMaxDecodeLength = budget
  decoded : s.seq.decodedLength = s.generated.length
  within : s.seq.decodedLength ≤ budget
  context : s.seq.currentContextLength = prompt.length + s.seq.decodedLength
  saved : s.seq.promptLength = prompt.length + s.beforeEviction.length
  total : s.seq.totalDecodedBeforeEviction = s.beforeEviction.length
  baseline : s.seq.status ≠ .evicted → s.seq.reentryDecodedBaseline = s.beforeEviction.length
  waiting : s.seq.status = .queueing ∨ s.seq.status = .evicted → s.beforeEviction = s.generated
  started : s.seq.status ≠ .queueing → s.seq.status ≠ .inPrefill → 0 < s.generated.length
  history : s.beforeEviction <+: s.generated

section

variable (h : Inv cfg slot prompt budget s)
include h

section

variable (hbaseline : s.seq.status ≠ .evicted)
include hbaseline

/-- A step that changes the status only. -/
theorem Inv.setStatus (hrunning : ¬ (status = .queueing ∨ status = .evicted))
    (hstarted : status ≠ .inPrefill → s.seq.status ≠ .queueing ∧ s.seq.status ≠ .inPrefill) :
    Inv cfg slot prompt budget (s.setStatus status) := by
  obtain ⟨hholds, horiginal, hdecoded, hwithin, hcontext, hsaved, htotal, hbase, -, hstart, hhistory⟩ := h
  refine ⟨hholds, horiginal, hdecoded, hwithin, hcontext, hsaved, htotal, fun _ => hbase hbaseline,
    fun heq => absurd heq hrunning, fun _ hne => hstart (hstarted hne).1 (hstarted hne).2, hhistory⟩

/-- A step that generates a token. -/
theorem Inv.generate {token : Token} (hrunning : ¬ (status = .queueing ∨ status = .evicted))
    (hlt : s.seq.decodedLength < budget) (hlocal : c.local = true) (hcall : returned cfg c s.book = some b')
    (hop : ∀ out t, c.logical out slot (some t) = some (t.appendToken token)) :
    Inv cfg slot prompt budget (s.generate status token b') := by
  have hholds := h.holds.of_returned hlocal hcall fun out => hop out _
  rw [Trajectory.appendToken, append_assoc] at hholds
  obtain ⟨-, horiginal, hdecoded, hwithin, hcontext, hsaved, htotal, hbase, -, -, hhistory⟩ := h
  refine ⟨hholds, horiginal, ?_, hlt, ?_, hsaved, htotal, fun _ => hbase hbaseline,
    fun heq => absurd heq hrunning, fun _ _ => ?_, hhistory.trans (prefix_append _ _)⟩
  · simp [State.generate, Sequence.generate, hdecoded]
  · simp [State.generate, Sequence.generate, horiginal]
  · simp [State.generate]

/-- The lengths after an eviction: the whole output is part of the prompt. -/
theorem Inv.evict_promptLength : s.seq.evict.promptLength = prompt.length + s.generated.length := by
  have hle := h.history.length_le
  have hbase := h.baseline hbaseline
  simp only [Sequence.evict, h.saved, h.decoded, hbase]
  omega

theorem Inv.evict (hstarted : 0 < s.generated.length)
    (hcall : returned cfg (.beginReentryTurn slot s.seq.evict.promptLength) s.book = some b') :
    Inv cfg slot prompt budget { s with seq := s.seq.evict, book := b', beforeEviction := s.generated } := by
  have hlength := h.evict_promptLength hbaseline
  refine ⟨h.holds.of_returned rfl hcall fun _ => rfl, h.original, h.decoded, h.within, ?_, hlength, h.decoded,
    fun hne => absurd rfl hne, fun _ => rfl, fun _ _ => hstarted, prefix_rfl⟩
  show s.seq.evict.promptLength = prompt.length + s.seq.decodedLength
  rw [hlength, h.decoded]

end

section

variable (hwaiting : s.seq.status = .queueing ∨ s.seq.status = .evicted)
include hwaiting

/-- The history that a re-entry finds is the whole output. -/
theorem Inv.reentryHistoryLength : s.seq.reentryHistoryLength = s.seq.decodedLength := by
  have hwithin := h.within
  have hsaved := h.saved
  rw [h.waiting hwaiting, ← h.decoded] at hsaved
  simp only [Sequence.reentryHistoryLength, h.original.1, h.original.2]
  omega

theorem Inv.reenter (hstep : reenter cfg slot s = some s') : Inv cfg slot prompt budget s' := by
  have hhistory := h.reentryHistoryLength hwaiting
  have hbefore := h.waiting hwaiting
  unfold Reentry.reenter at hstep
  split at hstep
  · split at hstep
    · cases hstep
    · obtain ⟨book, hcall, rfl⟩ := map_eq_some_iff.mp hstep
      refine ⟨h.holds.of_returned rfl hcall fun _ => rfl, h.original, hhistory.trans h.decoded,
        hhistory.trans_le h.within, ?_, h.saved, h.total, fun _ => ?_, nofun, fun _ hne => absurd rfl hne, h.history⟩
      · show s.seq.currentContextLength = prompt.length + s.seq.reentryHistoryLength
        rw [hhistory, h.context]
      · show s.seq.reentryHistoryLength = s.beforeEviction.length
        rw [hhistory, hbefore, h.decoded]
  · cases hstep

end

theorem Inv.step (hstep : step cfg slot s l = some s') : Inv cfg slot prompt budget s' := by
  cases l with
  | beginPrefill =>
    obtain ⟨hstatus, hstep⟩ := ite_none_right_eq_some.mp hstep
    have htotal := h.total
    split at hstep
    · next hzero =>
      cases hstep
      -- an evicted sequence has generated something
      have hstarted := h.started
      have hwaiting := h.waiting
      exact h.setStatus (by grind) (by simp) (by simp)
    · exact h.reenter hstatus hstep
  | writePrefillToken token =>
    obtain ⟨hguard, hstep⟩ := ite_none_right_eq_some.mp hstep
    obtain ⟨book, hcall, rfl⟩ := map_eq_some_iff.mp hstep
    exact h.generate (by simp [hguard.1]) (by simp) (h.original.2 ▸ hguard.2) rfl hcall fun _ _ => if_pos rfl
  | decode slots tokens =>
    simp only [Reentry.step] at hstep
    split at hstep
    · next token hlookup =>
      obtain ⟨hguard, hstep⟩ := ite_none_right_eq_some.mp hstep
      obtain ⟨book, hcall, rfl⟩ := map_eq_some_iff.mp hstep
      refine h.generate (by simp [hguard.1]) (by simp) (h.original.2 ▸ hguard.2) rfl hcall fun out t => ?_
      simp [Command.logical, rowOp, hlookup]
    · cases hstep
  | evict =>
    obtain ⟨hstatus, hstep⟩ := ite_none_right_eq_some.mp hstep
    obtain ⟨book, hcall, rfl⟩ := map_eq_some_iff.mp hstep
    have hstarted := h.started
    exact h.evict (by grind) (by grind) hcall
  | other c =>
    simp only [Reentry.step] at hstep
    split at hstep
    · next out book hexec =>
      obtain ⟨hguard, hstep⟩ := ite_none_right_eq_some.mp hstep
      cases hstep
      exact { h with holds := h.holds.exec (.inr hguard) hexec (logical_of_notMem hguard _) }
    · next e book hexec =>
      cases hstep
      have hsame := (c.exec_ends h.holds.1).of_error hexec
      exact { h with holds := hsame ▸ h.holds }
  | _ =>
    obtain ⟨hstatus, hstep⟩ := ite_none_right_eq_some.mp hstep
    cases hstep
    exact h.setStatus (by grind) (by simp) (by grind)

end

/-- **An evicted sequence re-enters with exactly what it had.**  In every state that a run from the admission of a
prompt reaches: the context is the prompt with the output; the effective prompt reads as the original prompt followed
by the output before the last eviction; an eviction succeeds wherever the status allows it; and after it the effective
prompt is the whole context, and the re-entry succeeds with the same decoded length. -/
theorem reentry_exact (cfg : Config) (storage : ℕ → Token) (trace : List (Command × Option (List ℕ))) (b : Book)
    (hrun : Runs cfg storage trace b) (hlocal : ∀ call ∈ trace, call.1.local = true) (slot : ℕ) (prompt : List Token)
    (hslot : logical trace slot = some ⟨prompt, []⟩) (budget : ℕ) (s : State)
    (hreached : Reached (step cfg slot) (fun _ _ => True) (State.admitted prompt budget b) s) :
    s.seq.currentContextLength = prompt.length + s.seq.decodedLength ∧
    s.seq.decodedLength = s.generated.length ∧ s.beforeEviction <+: s.generated ∧
    tokens cfg slot (some s.seq.promptLength) s.book = .ok (prompt ++ s.beforeEviction) s.book ∧
    (s.seq.status = .inDecode ∨ s.seq.status = .onHold → ∃ s', step cfg slot s .evict = some s' ∧
      s'.seq.promptLength = prompt.length + s'.seq.decodedLength ∧ s'.beforeEviction = s.generated) ∧
    (s.seq.status = .evicted → s.beforeEviction = s.generated ∧
      s.seq.promptLength = prompt.length + s.seq.decodedLength ∧
      ∃ s', step cfg slot s .beginPrefill = some s' ∧ s'.seq.decodedLength = s.seq.decodedLength ∧
        s'.seq.promptLength = s.seq.promptLength) := by
  have h : Inv cfg slot prompt budget s := by
    refine hreached.invariant (Inv cfg slot prompt budget) ?_ fun _ _ _ h _ hstep => h.step hstep
    have hholds : Holds cfg slot b ⟨prompt ++ [], []⟩ := by
      rw [append_nil]
      exact ⟨hrun.layout, hslot ▸ hrun.tracked hlocal slot⟩
    exact ⟨hholds, ⟨rfl, rfl⟩, rfl, Nat.zero_le _, rfl, rfl, rfl, fun _ => rfl, fun _ => rfl,
      fun hne => absurd rfl hne, prefix_rfl⟩
  obtain ⟨rest, hrest⟩ := h.history
  refine ⟨h.context, h.decoded, h.history, ?_, fun hstatus => ?_, fun hevicted => ?_⟩
  · have hread := h.holds.tokens_ok (n := s.seq.promptLength) (by simp [h.saved, ← hrest])
    rw [hread, ← hrest, h.saved, ← append_assoc, ← length_append, take_left]
  · have hbaseline : s.seq.status ≠ .evicted := by grind
    have hlength := h.evict_promptLength hbaseline
    obtain ⟨book, hcall⟩ := h.holds.beginReentryTurn_ok (n := s.seq.evict.promptLength) (by simp [hlength])
    refine ⟨{ s with seq := s.seq.evict, book, beforeEviction := s.generated }, ?_, ?_, rfl⟩
    · rw [step, if_pos hstatus, hcall]
      rfl
    · exact hlength.trans (congrArg _ h.decoded.symm)
  · have hbefore := h.waiting (Or.inr hevicted)
    have hprompt : s.seq.promptLength = prompt.length + s.seq.decodedLength := by rw [h.saved, hbefore, h.decoded]
    have htotal : s.seq.totalDecodedBeforeEviction ≠ 0 := by
      have hstarted := h.started (by simp [hevicted]) (by simp [hevicted])
      rw [h.total, hbefore]
      omega
    obtain ⟨record, hrecord, hlength⟩ := h.holds.metadata_ok
    obtain ⟨book, hcall⟩ := h.holds.beginReentryTurn_ok (n := s.seq.promptLength) (by simp [hprompt, h.decoded])
    refine ⟨hbefore, hprompt, { s with seq := s.seq.reenter, book }, ?_, ?_, rfl⟩
    · rw [step, if_pos (Or.inr hevicted), if_neg htotal, reenter, hrecord]
      dsimp only
      rw [if_neg (by simp [hlength, hprompt, h.decoded]), hcall]
      rfl
    · exact h.reentryHistoryLength (Or.inr hevicted)

/-- A prompt of three tokens, two tokens generated, an eviction, a re-entry and two tokens more. -/
theorem reentry_exact_once :
    ∃ s : State, tokens ⟨64, 2, by decide, by decide⟩ 0 (some s.seq.promptLength) s.book =
        .ok ([1, 2, 3] ++ s.beforeEviction) s.book ∧
      s.beforeEviction = [4, 5] ∧ s.generated = [4, 5, 6, 7] ∧ s.seq.currentContextLength = 7 := by
  have h₁ := @Runs.returned ⟨64, 2, by decide, by decide⟩ (fun _ => 0) _ _ _ (.bindBatch ["a"] [7]) _ .start rfl
  have h₂ := @Runs.returned _ _ _ _ _ (.writePrompt 0 [1, 2, 3]) _ h₁ rfl
  have key := reentry_exact _ _ _ _ h₂ (by decide) 0 [1, 2, 3] rfl 4
  refine (Reached.exists_of_run (p := fun s => s.beforeEviction = [4, 5] ∧ s.generated = [4, 5, 6, 7] ∧
    s.seq.currentContextLength = 7) [.beginPrefill, .writePrefillToken 4, .startDecode, .decode [0] [5], .evict,
      .beginPrefill, .writePrefillToken 6, .startDecode, .decode [0] [7]] ?_).imp fun s hs =>
    ⟨(key s hs.1).2.2.2.1, hs.2⟩
  decide +kernel

end Batchgen.Reentry
