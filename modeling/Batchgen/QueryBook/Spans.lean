import Batchgen.QueryBook.Binding
import Mathlib.Data.Nat.ModEq

/-!
# Spans of tokens

The chain of a slot is contiguous, so the page by page loops of `_write_span` and `_copy_span_to` write and read
consecutive cells of the token tensor, and the cached tail is the cell behind the last token.  Every call that
writes tokens or lengths is one or more `Book.edit`s: a span of cells of one slot, and the new entry of the slot.
-/

namespace Batchgen.QueryBook

open Outcome Extents Function List

variable {cfg : Config} {b : Book} {fuel pageStart logical other slot first : ℕ} {tokens values : List Token}
  {slots positions : List ℕ} {e e' : Entry}

/-! ### Cells -/

section

variable {storage : ℕ → Token} {first cell : ℕ} {values more : List Token}

@[simp] theorem blit_nil : blit storage first [] = storage := by
  funext cell
  unfold blit
  split <;> rfl

theorem blit_of_outside (h : cell < first ∨ first + values.length ≤ cell) :
    blit storage first values cell = storage cell := by
  unfold blit
  split
  · rw [getElem?_eq_none (by omega)]
    rfl
  · rfl

theorem blit_add {i : ℕ} (h : i < values.length) : blit storage first values (first + i) = values[i] := by
  rw [blit, if_pos (Nat.le_add_right _ _), Nat.add_sub_cancel_left, getElem?_eq_getElem h]
  rfl

theorem blit_append : blit (blit storage first values) (first + values.length) more =
    blit storage first (values ++ more) := by
  funext cell
  by_cases hbehind : first + values.length ≤ cell
  · rw [blit, if_pos hbehind, blit_of_outside (Or.inr hbehind), blit, if_pos (by omega),
      getElem?_append_right (by omega), Nat.sub_sub]
  · rw [blit, if_neg hbehind, blit, blit]
    split
    · rw [getElem?_append_left (by omega)]
    · rfl

theorem blit_singleton {token : Token} : blit storage first [token] = update storage first token := by
  funext cell
  by_cases hcell : cell = first
  · subst hcell
    rw [update_self]
    exact @blit_add storage cell [token] 0 Nat.zero_lt_one
  · rw [update_of_ne hcell, blit_of_outside]
    rw [length_singleton]
    omega

end

/-- The flat index of a logical position. -/
theorem cell_eq (pageStart logical : ℕ) :
    (pageStart + logical / cfg.pageTokens) * cfg.pageTokens + logical % cfg.pageTokens =
      pageStart * cfg.pageTokens + logical := by
  rw [Nat.add_mul, Nat.add_assoc, Nat.div_add_mod']

theorem page_lt (h : pageStart * cfg.pageTokens + logical < cfg.pageCount * cfg.pageTokens) :
    pageStart + logical / cfg.pageTokens < cfg.pageCount := by
  rw [← cell_eq] at h
  exact Nat.lt_of_mul_lt_mul_right (lt_of_le_of_lt (Nat.le_add_right _ _) h)

/-- The loop over the pages writes consecutive cells. -/
theorem writeSpan_ok {source : List Token} (hfuel : source.length ≤ fuel)
    (hfits : pageStart * cfg.pageTokens + logical + source.length ≤ cfg.pageCount * cfg.pageTokens) :
    writeSpan cfg pageStart fuel logical source b =
      .ok ⟨⟩ { b with storage := blit b.storage (pageStart * cfg.pageTokens + logical) source } := by
  induction fuel generalizing b logical source with
  | zero =>
    have hnil : source = [] := eq_nil_of_length_eq_zero (by omega)
    rw [hnil, blit_nil]
    rfl
  | succ fuel ih =>
    rw [writeSpan]
    split
    · next hnil =>
      rw [hnil, blit_nil]
      rfl
    · next hne =>
      have hlength := length_pos_iff.mpr hne
      have hoffset := Nat.mod_lt logical cfg.pageTokens_pos
      dsimp only
      generalize hcount : min source.length (cfg.pageTokens - logical % cfg.pageTokens) = count
      have htake : (source.take count).length = count := by
        rw [length_take]
        omega
      have hdrop : (source.drop count).length = source.length - count := length_drop
      rw [bind_ok (check_ok (page_lt (by omega))), modify_bind, ih (by omega) (by omega), cell_eq]
      dsimp only
      have hnext : pageStart * cfg.pageTokens + (logical + count) =
          pageStart * cfg.pageTokens + logical + (source.take count).length := by omega
      rw [hnext, blit_append, take_append_drop]

/-- The loop over the pages reads consecutive cells. -/
theorem copySpan_ok {remaining : ℕ} (hfuel : remaining ≤ fuel)
    (hfits : pageStart * cfg.pageTokens + logical + remaining ≤ cfg.pageCount * cfg.pageTokens) :
    copySpan cfg pageStart fuel logical remaining b =
      .ok ((range remaining).map fun i => b.storage (pageStart * cfg.pageTokens + logical + i)) b := by
  induction fuel generalizing logical remaining with
  | zero =>
    have hzero : remaining = 0 := by omega
    rw [hzero]
    rfl
  | succ fuel ih =>
    rw [copySpan]
    split
    · next hzero =>
      rw [hzero]
      rfl
    · next hne =>
      have hoffset := Nat.mod_lt logical cfg.pageTokens_pos
      dsimp only
      generalize hcount : min remaining (cfg.pageTokens - logical % cfg.pageTokens) = count
      have hsplit : remaining = count + (remaining - count) := by omega
      rw [bind_ok (check_ok (page_lt (by omega))), get_bind, bind_ok (ih (by omega) (by omega)), cell_eq]
      show EStateM.Result.ok _ b = _
      congr 1
      conv_rhs => rw [hsplit, range_add, map_append, map_map]
      congr 1
      refine map_congr_left fun i _ => ?_
      have hcell : pageStart * cfg.pageTokens + (logical + count) + i =
          pageStart * cfg.pageTokens + logical + (count + i) := by omega
      exact congrArg b.storage hcell

/-! ### Edits -/

/-- Write a span of the slot from logical position `first` on, and the entry of the slot. -/
def Book.edit (cfg : Config) (b : Book) (slot : ℕ) (e : Entry) (first : ℕ) (values : List Token)
    (e' : Entry) : Book :=
  { b with storage := blit b.storage (e.pageStart * cfg.pageTokens + first) values }.setEntry slot e'

/-- The new entry has the same chain, and the span lies in it. -/
structure EditOk (cfg : Config) (slot : ℕ) (e : Entry) (first : ℕ) (values : List Token) (e' : Entry) :
    Prop where
  sequenceId : e'.sequenceId = e.sequenceId
  pageStart : e'.pageStart = e.pageStart
  pageCount : e'.pageCount = e.pageCount
  maxTokens : e'.record.maxTokens = e.record.maxTokens
  entry : EntryOk cfg slot e'
  inside : first + values.length ≤ e.record.maxTokens

section

variable {slot first : ℕ} {e e' : Entry} {values : List Token}

theorem Book.edit_entries_self : (b.edit cfg slot e first values e').entries slot = some e' := update_self ..

theorem Book.edit_entries_of_ne (h : other ≠ slot) :
    (b.edit cfg slot e first values e').entries other = b.entries other :=
  update_of_ne h ..

theorem Book.edit_owns (he : b.entries slot = some e) (h : EditOk cfg slot e first values e')
    (other p : ℕ) : (b.edit cfg slot e first values e').Owns other p ↔ b.Owns other p := by
  unfold Book.Owns
  by_cases hs : other = slot
  · subst hs
    rw [Book.edit_entries_self, he]
    simp only [Option.some_inj, exists_eq_left', h.pageStart, h.pageCount]
  · rw [Book.edit_entries_of_ne hs]

theorem Layout.edit (hlayout : Layout cfg [] b) (he : b.entries slot = some e)
    (h : EditOk cfg slot e first values e') : Layout cfg [] (b.edit cfg slot e first values e') := by
  have hown := Book.edit_owns he h
  refine ⟨hlayout.separated, fun p => ?_, fun s p hp => hlayout.taken s p ((hown s p).mp hp),
    fun s s' p hp hp' => hlayout.apart s s' p ((hown s p).mp hp) ((hown s' p).mp hp'),
    hlayout.pendingTaken, fun r hr => absurd hr not_mem_nil, hlayout.pendingApart, hlayout.pendingRoom,
    fun s f hf => ?_, fun id s => ?_, fun s f hf => ?_, hlayout.freeNodup, hlayout.freeLt⟩
  · simp only [hown]
    exact hlayout.cover p
  · by_cases hs : s = slot
    · subst hs
      rw [Book.edit_entries_self] at hf
      cases hf
      exact h.entry
    · rw [Book.edit_entries_of_ne hs] at hf
      exact hlayout.entry s f hf
  · show b.seqToSlot id = some s ↔ _
    rw [hlayout.names]
    by_cases hs : s = slot
    · subst hs
      rw [Book.edit_entries_self, he]
      simp only [Option.some_inj, exists_eq_left', h.sequenceId]
    · rw [Book.edit_entries_of_ne hs]
  · by_cases hs : s = slot
    · subst hs
      exact hlayout.bound s e he
    · rw [Book.edit_entries_of_ne hs] at hf
      exact hlayout.bound s f hf

/-- A span of the slot fits the tensor. -/
theorem Layout.span_le (hlayout : Layout cfg [] b) (he : b.entries slot = some e) {n : ℕ}
    (hn : n ≤ e.record.maxTokens) : e.pageStart * cfg.pageTokens + n ≤ cfg.pageCount * cfg.pageTokens := by
  have hroom := (hlayout.entry slot e he).room
  have hchain := Nat.mul_le_mul_right cfg.pageTokens (hlayout.chain_le he)
  rw [Nat.add_mul] at hchain
  omega

theorem EntryOk.tail_cell (h : EntryOk cfg slot e) (hlt : e.record.tokenLength < e.record.maxTokens) :
    e.tailPage * cfg.pageTokens + e.tailOffset = e.pageStart * cfg.pageTokens + e.record.tokenLength := by
  have hinside : ¬ e.pageCount ≤ e.record.tokenLength / cfg.pageTokens := by
    rw [not_le]
    exact Nat.div_lt_of_lt_mul (by have := h.room; rw [Nat.mul_comm]; omega)
  have htail := h.tail
  rw [tailOf, if_neg hinside, Prod.mk.injEq] at htail
  rw [htail.1, htail.2, cell_eq]

/-- An entry with new lengths, its tail moved to the new end. -/
theorem EditOk.lengths (hok : EntryOk cfg slot e) {record : Record} {turns : List Turn}
    (hnamed : record.slot = slot) (hmax : record.maxTokens = e.record.maxTokens)
    (hlength : record.tokenLength ≤ record.maxTokens) (hprompt : record.promptLength ≤ record.tokenLength)
    (hinside : first + values.length ≤ e.record.maxTokens) :
    EditOk cfg slot e first values
      { updateTail cfg { e with record := record } record.tokenLength with turns := turns } := by
  rw [updateTail_eq]
  exact ⟨rfl, rfl, rfl, hmax, ⟨hnamed, hok.pages, hmax ▸ hok.room, hlength, hprompt, rfl⟩, hinside⟩

/-- An entry with a new prompt length and new turns. -/
theorem EditOk.prompt (hok : EntryOk cfg slot e) {promptLength : ℕ} {turns : List Turn}
    (hprompt : promptLength ≤ e.record.tokenLength) :
    EditOk cfg slot e 0 []
      { e with record := { e.record with slot := slot, promptLength := promptLength }, turns := turns } :=
  ⟨rfl, rfl, rfl, rfl, ⟨rfl, hok.pages, hok.room, hok.length, hprompt, hok.tail⟩, Nat.zero_le _⟩

end

/-! ### One slot -/

section

variable (hlayout : Layout cfg [] b) {slot : ℕ} {e : Entry} (he : b.entries slot = some e)

include hlayout he

theorem promptEntry_ok (hlength : tokens.length ≤ e.record.maxTokens) :
    EditOk cfg slot e 0 tokens (promptEntry cfg slot e tokens.length) :=
  @EditOk.lengths cfg slot 0 e tokens (hlayout.entry slot e he)
    ⟨slot, tokens.length, tokens.length, 0, e.record.maxTokens⟩ _ rfl rfl hlength le_rfl (by omega)

theorem storePrompt_ok (hlength : tokens.length ≤ e.record.maxTokens) :
    storePrompt cfg slot tokens b = .ok ⟨⟩ (b.edit cfg slot e 0 tokens (promptEntry cfg slot e tokens.length)) := by
  rw [storePrompt, bind_ok (activeEntry_ok he), bind_ok (writeSpan_ok le_rfl (hlayout.span_le he hlength))]
  rfl

theorem advance_ok {token : Token} (hlength : e.record.tokenLength + 1 ≤ e.record.maxTokens) :
    EditOk cfg slot e e.record.tokenLength [token] (advance cfg slot e) := by
  have hok := hlayout.entry slot e he
  have hprompt := hok.prompt
  exact @EditOk.lengths cfg slot e.record.tokenLength e [token] hok
    ⟨slot, e.record.promptLength, e.record.tokenLength + 1, e.record.decodedLength + 1, e.record.maxTokens⟩ _
    rfl rfl hlength (Nat.le_succ_of_le hprompt) hlength

end

/-- The call edits the slot once, as described, or changes nothing. -/
def EditsOnce {α : Type} (cfg : Config) (b : Book) (slot : ℕ) (x : Call α)
    (spec : Entry → ℕ → List Token → Entry → Prop) : Prop :=
  Ends x b (fun _ b' => ∃ e first values e', b.entries slot = some e ∧ EditOk cfg slot e first values e' ∧
    spec e first values e' ∧ b' = b.edit cfg slot e first values e') fun _ b' => b' = b

section

variable (h : Layout cfg [] b) (slot : ℕ)

include h

theorem writePrompt_ends (promptTokens : List ℤ) :
    EditsOnce cfg b slot (writePrompt cfg slot promptTokens) fun e first values e' =>
      first = 0 ∧ values = prepareTokens promptTokens ∧ e' = promptEntry cfg slot e values.length := by
  rw [EditsOnce, writePrompt]
  simp only [ends_bind, ends_activeEntry, ends_checkLength, implies_true, and_true]
  intro e he hlength
  unfold Ends
  rw [storePrompt_ok h he hlength]
  exact ⟨e, 0, _, _, he, promptEntry_ok h he hlength, ⟨rfl, rfl, rfl⟩, rfl⟩

theorem appendPrompt_ends (promptTokens : List ℤ) :
    EditsOnce cfg b slot (appendPrompt cfg slot promptTokens) fun e first values e' =>
      first = e.record.tokenLength ∧ values = prepareTokens promptTokens ∧
        e'.record = ⟨slot, first + values.length, first + values.length, e.record.decodedLength, e.record.maxTokens⟩ ∧
        e'.turns = e.turns ++ [⟨e.turns.length, first, values.length, first + values.length, 0⟩] := by
  rw [EditsOnce, appendPrompt]
  simp only [ends_bind, ends_activeEntry, ends_checkLength, implies_true, and_true]
  intro e he hlength
  unfold Ends
  rw [writeSpan_ok le_rfl (by rw [Nat.add_assoc]; exact h.span_le he hlength)]
  have hedit := @EditOk.lengths cfg slot e.record.tokenLength e (prepareTokens promptTokens)
    (h.entry slot e he) ⟨slot, e.record.tokenLength + (prepareTokens promptTokens).length,
      e.record.tokenLength + (prepareTokens promptTokens).length, e.record.decodedLength,
      e.record.maxTokens⟩ (e.turns ++ [⟨e.turns.length, e.record.tokenLength,
        (prepareTokens promptTokens).length, e.record.tokenLength + (prepareTokens promptTokens).length, 0⟩])
    rfl rfl hlength le_rfl hlength
  refine ⟨e, _, _, _, he, hedit, ⟨rfl, rfl, ?_, rfl⟩, ?_⟩
  · rw [updateTail_eq]
  · rfl

theorem beginReentryTurn_ends (promptLength : ℤ) :
    EditsOnce cfg b slot (beginReentryTurn slot promptLength) fun e first values e' =>
      ∃ length : ℕ, length ≤ e.record.tokenLength ∧ first = 0 ∧ values = [] ∧ e' = { e with
          record := { e.record with slot := slot, promptLength := length }
          turns := (reentryTurns e length).1 } := by
  rw [EditsOnce, beginReentryTurn]
  simp only [ends_bind, ends_activeEntry, ends_liftExcept, ends_check, ends_modify, ends_pure, implies_true, and_true]
  intro e he length _ hlength
  refine ⟨e, 0, [], _, he, EditOk.prompt (h.entry slot e he) hlength, ⟨length, hlength, rfl, rfl, rfl⟩, ?_⟩
  rw [Book.edit, blit_nil]

theorem setPromptLength_ends (promptLength : ℤ) :
    EditsOnce cfg b slot (setPromptLength slot promptLength) fun e first values e' =>
      ∃ length : ℕ, length ≤ e.record.tokenLength ∧ first = 0 ∧ values = [] ∧
        e' = { e with record := { e.record with slot := slot, promptLength := length } } := by
  rw [EditsOnce, setPromptLength]
  simp only [ends_bind, ends_activeEntry, ends_liftExcept, ends_check, ends_modify, implies_true, and_true]
  intro e he length _ hlength
  refine ⟨e, 0, [], _, he, EditOk.prompt (h.entry slot e he) hlength, ⟨length, hlength, rfl, rfl, rfl⟩, ?_⟩
  rw [Book.edit, blit_nil]

theorem synchronizeMetadata_ends (promptLength tokenLength decodedLength : ℤ) :
    EditsOnce cfg b slot (synchronizeMetadata cfg slot promptLength tokenLength decodedLength)
      fun _ _ values _ => values = [] := by
  rw [EditsOnce, synchronizeMetadata]
  simp only [ends_bind, ends_activeEntry, ends_liftExcept, ends_check, ends_checkLength, ends_modify,
    implies_true, and_true]
  intro e he promptLength _ tokenLength _ decodedLength _ hprompt hlength turns _
  have hedit := @EditOk.lengths cfg slot 0 e [] (h.entry slot e he)
    ⟨slot, promptLength, tokenLength, decodedLength, e.record.maxTokens⟩ turns rfl rfl hlength hprompt
    (Nat.zero_le _)
  refine ⟨e, 0, [], _, he, hedit, rfl, ?_⟩
  rw [Book.edit, blit_nil]

theorem restore_ends (tokens : List ℤ) (promptLength decodedLength : ℤ) (turns : Option (List Turn)) :
    EditsOnce cfg b slot (restore cfg slot tokens promptLength decodedLength turns)
      fun _ first values _ => first = 0 ∧ values = prepareTokens tokens := by
  rw [EditsOnce, restore]
  simp only [ends_bind, ends_activeEntry, ends_liftExcept, ends_check, ends_checkLength, implies_true, and_true]
  intro e he promptLength _ decodedLength _ hprompt hlength turns _
  have hedit := @EditOk.lengths cfg slot 0 e (prepareTokens tokens) (h.entry slot e he)
    ⟨slot, promptLength, (prepareTokens tokens).length, decodedLength, e.record.maxTokens⟩ turns rfl rfl
    hlength hprompt (by omega)
  unfold Ends
  rw [writeSpan_ok le_rfl (h.span_le he hlength)]
  exact ⟨e, 0, _, _, he, hedit, ⟨rfl, rfl⟩, rfl⟩

/-- The cached tail is the cell behind the last token. -/
theorem appendToken_ends (tokenId : ℤ) : EditsOnce cfg b slot (appendToken cfg slot tokenId) fun e first values e' =>
      toInt32 tokenId = tokenId ∧ first = e.record.tokenLength ∧ values = [tokenId] ∧ e' = advance cfg slot e := by
  rw [EditsOnce, appendToken]
  simp only [ends_bind, ends_activeEntry, ends_check, ends_checkLength, ends_modify, ends_pure, implies_true, and_true]
  intro e he hlength _ htoken
  refine ⟨e, _, [tokenId], _, he, advance_ok h he hlength, ⟨htoken, rfl, rfl, rfl⟩, ?_⟩
  rw [Book.edit, blit_singleton, ← (h.entry slot e he).tail_cell hlength]

end

/-! ### Several slots -/

/-- One edit for each pair of a slot and a value, in order. -/
inductive EditsAll (cfg : Config) {α : Type} (spec : ℕ → α → Entry → ℕ → List Token → Entry → Prop) :
    Book → List (ℕ × α) → Book → Prop
  | done (b : Book) : EditsAll cfg spec b [] b
  | step {b b' : Book} {slot first : ℕ} {a : α} {rest : List (ℕ × α)} {e e' : Entry} {values : List Token}
      (entry : b.entries slot = some e) (edit : EditOk cfg slot e first values e')
      (meets : spec slot a e first values e')
      (behind : EditsAll cfg spec (b.edit cfg slot e first values e') rest b') :
      EditsAll cfg spec b ((slot, a) :: rest) b'

theorem EditsAll.layout {α : Type} {spec : ℕ → α → Entry → ℕ → List Token → Entry → Prop}
    {rows : List (ℕ × α)} {b' : Book} (h : EditsAll cfg spec b rows b') (hlayout : Layout cfg [] b) :
    Layout cfg [] b' := by
  induction h with
  | done b => exact hlayout
  | step entry edit _ _ ih => exact ih (hlayout.edit entry edit)

/-- What `write_prompt` writes, for each row of `write_prompts`. -/
def PromptSpec (cfg : Config) (slot : ℕ) (prompt : List ℤ) (e : Entry) (first : ℕ) (values : List Token)
    (e' : Entry) : Prop :=
  first = 0 ∧ values = prepareTokens prompt ∧ e' = promptEntry cfg slot e values.length

/-- What `append_token` writes, for each row of `append_tokens`. -/
def TokenSpec (cfg : Config) (slot : ℕ) (tokenId : ℤ) (e : Entry) (first : ℕ) (values : List Token)
    (e' : Entry) : Prop :=
  toInt32 tokenId = tokenId ∧ first = e.record.tokenLength ∧ values = [tokenId] ∧ e' = advance cfg slot e

/-- The row's slot is active and may hold so many tokens. -/
def RowFits (b : Book) (slot length : ℕ) : Prop :=
  ∃ e, b.entries slot = some e ∧ length ≤ e.record.maxTokens

theorem checkPrompts_ends (rows : List (ℕ × List ℤ)) :
    Ends (rows.forM checkPrompt) b (fun _ b' => b' = b ∧ ∀ row ∈ rows, RowFits b row.1 (prepareTokens row.2).length)
      (fun _ b' => b' = b) := by
  induction rows with
  | nil => exact ⟨rfl, fun row hrow => absurd hrow not_mem_nil⟩
  | cons row rows ih =>
    show Ends (checkPrompt row >>= fun _ => rows.forM checkPrompt) b _ _
    rw [checkPrompt]
    simp only [ends_bind, ends_activeEntry, ends_checkLength, implies_true, and_true]
    intro e he hlength
    refine ih.mono (fun _ b' hb' => ⟨hb'.1, fun row' hrow' => ?_⟩) fun _ _ hb' => hb'
    rcases mem_cons.mp hrow' with rfl | hrow'
    · exact ⟨e, he, hlength⟩
    · exact hb'.2 row' hrow'

theorem storePrompts_ok {rows : List (ℕ × List ℤ)} (h : Layout cfg [] b) (hnodup : (rows.map Prod.fst).Nodup)
    (hfits : ∀ row ∈ rows, RowFits b row.1 (prepareTokens row.2).length) :
    ∃ b', (rows.forM fun row => storePrompt cfg row.1 (prepareTokens row.2) : Call PUnit) b = .ok ⟨⟩ b' ∧
      EditsAll cfg (PromptSpec cfg) b rows b' := by
  induction rows generalizing b with
  | nil => exact ⟨b, rfl, .done b⟩
  | cons row rows ih =>
    obtain ⟨slot, prompt⟩ := row
    obtain ⟨hnotMem, hnodup⟩ := nodup_cons.mp hnodup
    obtain ⟨e, he, hlength⟩ := hfits (slot, prompt) mem_cons_self
    have hedit := promptEntry_ok h he hlength
    obtain ⟨b', hrun, hedits⟩ := ih (h.edit he hedit) hnodup fun row hrow => by
      have hne : row.1 ≠ slot := fun heq => hnotMem (mem_map.mpr ⟨row, hrow, heq⟩)
      rw [RowFits, Book.edit_entries_of_ne hne]
      exact hfits row (mem_cons_of_mem _ hrow)
    refine ⟨b', ?_, .step he hedit ⟨rfl, rfl, rfl⟩ hedits⟩
    exact (bind_ok (storePrompt_ok h he hlength)).trans hrun

theorem writePrompts_ends (h : Layout cfg [] b) (slots : List ℕ) (prompts : List (List ℤ)) :
    Ends (writePrompts cfg slots prompts) b (fun _ b' => slots.length = prompts.length ∧ slots.Nodup ∧
        EditsAll cfg (PromptSpec cfg) b (slots.zip prompts) b') (fun _ b' => b' = b) := by
  rw [writePrompts]
  simp only [ends_bind, ends_check, implies_true, and_true]
  intro hlength hnodup
  refine (checkPrompts_ends (slots.zip prompts)).mono ?_ fun _ _ hb' => hb'
  rintro - b' ⟨rfl, hfits⟩
  obtain ⟨b'', hrun, hedits⟩ := storePrompts_ok h (by rw [map_fst_zip hlength.le]; exact hnodup) hfits
  unfold Ends
  rw [hrun]
  exact ⟨hlength, hnodup, hedits⟩

/-- The row has room for one more token, whose cell is `position`. -/
def TailAt (cfg : Config) (b : Book) (slot position : ℕ) : Prop :=
  ∃ e, b.entries slot = some e ∧ e.record.tokenLength + 1 ≤ e.record.maxTokens ∧
    position = e.tailPage * cfg.pageTokens + e.tailOffset

theorem tailPositions_ends (slots : List ℕ) : Ends (slots.mapM (tailPosition cfg)) b
      (fun positions b' => b' = b ∧ List.Forall₂ (TailAt cfg b) slots positions) (fun _ b' => b' = b) := by
  induction slots with
  | nil => exact ⟨rfl, .nil⟩
  | cons slot slots ih =>
    rw [mapM_cons, tailPosition]
    simp only [ends_bind, ends_activeEntry, ends_checkLength, ends_pure, implies_true, and_true]
    intro e he hlength
    exact ih.mono (fun positions b' hb' => ⟨hb'.1, .cons ⟨e, he, hlength, rfl⟩ hb'.2⟩) fun _ _ hb' => hb'

theorem advanceRow_ok (he : b.entries slot = some e) :
    advanceRow cfg slot b = .ok ⟨⟩ (b.setEntry slot (advance cfg slot e)) := by
  rw [advanceRow, bind_ok (activeEntry_ok he)]
  rfl

theorem TailAt.edit_rows (h : List.Forall₂ (TailAt cfg b) slots positions) (hslot : slot ∉ slots) :
    List.Forall₂ (TailAt cfg (b.edit cfg slot e first values e')) slots positions := by
  induction h with
  | nil => exact .nil
  | cons hrow _ ih =>
    obtain ⟨hne, hrest⟩ := ne_and_not_mem_of_not_mem_cons hslot
    refine .cons ?_ (ih hrest)
    rw [TailAt, Book.edit_entries_of_ne hne.symm]
    exact hrow

/-- The vectorised write and the loop over the rows together are one edit for each row: a row's tail does not
depend on the rows before it. -/
theorem appendRows_ok {tokenIds : List ℤ} (h : Layout cfg [] b) (hnodup : slots.Nodup)
    (hlength : slots.length = tokenIds.length) (htokens : ∀ tokenId ∈ tokenIds, toInt32 tokenId = tokenId)
    (hrows : List.Forall₂ (TailAt cfg b) slots positions) :
    ∃ b', slots.forM (advanceRow cfg) { b with storage := scatter b.storage positions tokenIds } = .ok ⟨⟩ b' ∧
      EditsAll cfg (TokenSpec cfg) b (slots.zip tokenIds) b' := by
  induction slots generalizing b positions tokenIds with
  | nil =>
    cases hrows
    exact ⟨b, rfl, .done b⟩
  | cons slot slots ih =>
    cases hrows with
    | @cons _ position _ positions hrow hrows =>
      cases tokenIds with
      | nil => cases hlength
      | cons tokenId tokenIds =>
        obtain ⟨hnotMem, hnodup⟩ := nodup_cons.mp hnodup
        obtain ⟨e, he, hfits, rfl⟩ := hrow
        have hedit := @advance_ok cfg b h slot e he tokenId hfits
        have hcell := (h.entry slot e he).tail_cell hfits
        obtain ⟨b', hrun, hedits⟩ := ih (h.edit he hedit) hnodup (Nat.succ.inj hlength)
          (fun t ht => htokens t (mem_cons_of_mem _ ht)) (TailAt.edit_rows hrows hnotMem)
        refine ⟨b', ?_, .step he hedit ⟨htokens tokenId mem_cons_self, rfl, rfl, rfl⟩ hedits⟩
        rw [Book.edit, blit_singleton, ← hcell] at hrun
        have hfirst := fun storage => @advanceRow_ok cfg { b with storage := storage } slot e he
        exact (bind_ok (hfirst _)).trans hrun

theorem appendTokens_ends (h : Layout cfg [] b) (slots : List ℕ) (tokenIds : List ℤ) :
    Ends (appendTokens cfg slots tokenIds) b (fun _ b' => slots.length = tokenIds.length ∧ slots.Nodup ∧
        EditsAll cfg (TokenSpec cfg) b (slots.zip tokenIds) b') (fun _ b' => b' = b) := by
  rw [appendTokens]
  simp only [ends_bind, ends_check, implies_true, and_true]
  intro hlength hnodup
  refine (tailPositions_ends slots).mono ?_ fun _ _ hb' => hb'
  rintro positions b' ⟨rfl, hrows⟩
  refine ⟨fun htokens => ⟨fun _ => ?_, fun _ => rfl⟩, fun _ => rfl⟩
  obtain ⟨b'', hrun, hedits⟩ := appendRows_ok h hnodup hlength htokens hrows
  rw [ends_modify]
  unfold Ends
  rw [hrun]
  exact ⟨hlength, hnodup, hedits⟩

/-! ### Runs -/

/-- **Every call keeps the layout, and a call that raises changes nothing.** -/
theorem Command.exec_ends (c : Command) (h : Layout cfg [] b) :
    Ends (c.exec cfg) b (fun _ b' => Layout cfg [] b') (fun _ b' => b' = b) := by
  have once : ∀ {α : Type} {slot : ℕ} {x : Call α} {spec : Entry → ℕ → List Token → Entry → Prop},
      EditsOnce cfg b slot x spec → Ends x b (fun _ b' => Layout cfg [] b') (fun _ b' => b' = b) := by
    intro α slot x spec hx
    refine Ends.mono hx ?_ fun _ _ hb' => hb'
    rintro - b' ⟨e, first, values, e', he, hedit, -, rfl⟩
    exact h.edit he hedit
  cases c with
  | bind sequenceId maxTokens =>
    exact ends_map.mpr ((bind_ends h sequenceId maxTokens).mono (fun _ _ hb' => hb'.1) fun _ _ hb' => hb')
  | bindBatch sequenceIds maxTokens =>
    exact (bindBatch_ends h sequenceIds maxTokens).mono (fun _ _ hb' => hb'.2.1) fun _ _ hb' => hb'
  | release slot => exact ends_map.mpr ((release_ends h slot).mono (fun _ _ hb' => hb'.1) fun _ _ hb' => hb')
  | writePrompt slot promptTokens => exact ends_map.mpr (once (writePrompt_ends h slot promptTokens))
  | writePrompts slots prompts =>
    exact ends_map.mpr ((writePrompts_ends h slots prompts).mono (fun _ _ hb' => hb'.2.2.layout h) fun _ _ hb' => hb')
  | appendPrompt slot promptTokens => exact ends_map.mpr (once (appendPrompt_ends h slot promptTokens))
  | beginReentryTurn slot promptLength => exact ends_map.mpr (once (beginReentryTurn_ends h slot promptLength))
  | setPromptLength slot promptLength => exact ends_map.mpr (once (setPromptLength_ends h slot promptLength))
  | synchronizeMetadata slot promptLength tokenLength decodedLength =>
    exact ends_map.mpr (once (synchronizeMetadata_ends h slot promptLength tokenLength decodedLength))
  | restore slot tokens promptLength decodedLength turns =>
    exact ends_map.mpr (once (restore_ends h slot tokens promptLength decodedLength turns))
  | appendToken slot tokenId => exact ends_map.mpr (once (appendToken_ends h slot tokenId))
  | appendTokens slots tokenIds =>
    exact ends_map.mpr ((appendTokens_ends h slots tokenIds).mono (fun _ _ hb' => hb'.2.2.layout h) fun _ _ hb' => hb')

theorem Runs.layout {storage : ℕ → Token} {trace : List (Command × Option (List ℕ))}
    (h : Runs cfg storage trace b) : Layout cfg [] b := by
  induction h with
  | start => exact Layout.init cfg storage
  | returned _ call ih => exact (Command.exec_ends _ ih).of_ok call
  | raised _ call ih =>
    rw [(Command.exec_ends _ ih).of_error call]
    exact ih

/-- After any calls, failed ones among them: the free extents are sorted with gaps between them and partition
the pages together with the chains of the bound slots; the preview of a batch is exact; binding changes
nothing when it raises; and a slot that is handed out was not in use. -/
theorem pages_partitioned (cfg : Config) (storage : ℕ → Token) (trace : List (Command × Option (List ℕ)))
    (b : Book) (hrun : Runs cfg storage trace b) :
    Separated b.freeExtents ∧ (∀ p, p < cfg.pageCount ↔ Covers b.freeExtents p ∨ ∃ slot, b.Owns slot p) ∧
    (∀ slot p, b.Owns slot p → ¬ Covers b.freeExtents p) ∧
    (∀ slot slot' p, b.Owns slot p → b.Owns slot' p → slot = slot') ∧
    (∀ sequenceId sequenceId' slot, b.seqToSlot sequenceId = some slot →
      b.seqToSlot sequenceId' = some slot → sequenceId = sequenceId') ∧
    (∀ sequenceIds maxTokens, BatchNames b sequenceIds maxTokens → (canReserveBatch cfg b maxTokens = .ok true ↔
        ∃ slots b', bindBatch cfg sequenceIds maxTokens b = .ok slots b')) ∧
    (∀ sequenceId maxTokens e b', QueryBook.bind cfg sequenceId maxTokens b = .error e b' → b' = b) ∧
    (∀ sequenceIds maxTokens e b', bindBatch cfg sequenceIds maxTokens b = .error e b' → b' = b) ∧
    (∀ sequenceId maxTokens slot b', QueryBook.bind cfg sequenceId maxTokens b = .ok slot b' → b.entries slot = none) ∧
    (∀ sequenceIds maxTokens slots b', bindBatch cfg sequenceIds maxTokens b = .ok slots b' →
      slots.Nodup ∧ ∀ slot ∈ slots, b.entries slot = none) := by
  have h := hrun.layout
  refine ⟨h.separated, fun p => ?_, h.taken, h.apart, fun _ _ _ => h.names_inj,
    fun sequenceIds maxTokens hnames => ⟨fun hfits => ?_, ?_⟩, fun sequenceId maxTokens e b' hb' => ?_,
    fun sequenceIds maxTokens e b' hb' => ?_, fun sequenceId maxTokens slot b' hb' => ?_,
    fun sequenceIds maxTokens slots b' hb' => ?_⟩
  · rw [h.cover p]
    simp only [not_mem_nil, false_and, exists_false, or_false]
  · obtain ⟨slots, b', hbind, -⟩ := bindBatch_ok h hnames hfits
    exact ⟨slots, b', hbind⟩
  · rintro ⟨slots, b', hbind⟩
    exact ((bindBatch_ends h sequenceIds maxTokens).of_ok hbind).1
  · exact (bind_ends h sequenceId maxTokens).of_error hb'
  · exact (bindBatch_ends h sequenceIds maxTokens).of_error hb'
  · exact ((bind_ends h sequenceId maxTokens).of_ok hb').2.unused slot mem_cons_self
  · have hbinds := ((bindBatch_ends h sequenceIds maxTokens).of_ok hb').2.2
    exact ⟨hbinds.nodup, hbinds.unused⟩

/-- Three pages of two tokens; the middle one of three bound slots is released. -/
def fragmentedConfig : Config := ⟨24, 2, Nat.two_pos, by decide⟩

theorem pages_partitioned_fragmented :
    ∃ trace b, Runs fragmentedConfig (fun _ => 0) trace b ∧ b.freeExtents = [(1, 1)] ∧ Separated b.freeExtents := by
  have h₁ := @Runs.returned fragmentedConfig (fun _ => 0) _ _ _ (.bindBatch ["a", "b", "c"] [2, 1, 2]) _ .start rfl
  have h₂ := @Runs.returned fragmentedConfig (fun _ => 0) _ _ _ (.release 1) _ h₁ rfl
  have h₃ := @Runs.raised fragmentedConfig (fun _ => 0) _ _ _ (.bind "d" 3) _ h₂ rfl
  exact ⟨_, _, h₃, rfl, (pages_partitioned _ _ _ _ h₃).1⟩

end Batchgen.QueryBook
