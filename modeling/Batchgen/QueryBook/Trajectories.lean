import Batchgen.QueryBook.Ledger
import Batchgen.QueryBook.Spans

/-!
# Trajectories

What the book is for: a slot holds a trajectory, the list of its tokens and the list of those that were
generated, and each call changes the trajectories of the slots it names.  `Tracked` relates the pages, lengths
and turns of a slot to its trajectory; the calls keep it, so that reading a slot gives its trajectory whatever
was written to the other slots.
-/

namespace Batchgen.QueryBook

open Outcome Function List

variable {cfg : Config} {b : Book} {e' e : Entry} {prompt : List ℤ}

/-! ### The abstract book -/

structure Trajectory where
  tokens : List Token
  generated : List Token

namespace Trajectory

def writePrompt (prompt : List ℤ) (_ : Trajectory) : Trajectory := ⟨prepareTokens prompt, []⟩

def appendPrompt (prompt : List ℤ) (t : Trajectory) : Trajectory :=
  ⟨t.tokens ++ prepareTokens prompt, t.generated⟩

def appendToken (token : Token) (t : Trajectory) : Trajectory := ⟨t.tokens ++ [token], t.generated ++ [token]⟩

end Trajectory

/-- The calls of a slot's own life; the others copy a state from another book. -/
def Command.local : Command → Bool
  | .synchronizeMetadata .. => false
  | .restore .. => false
  | _ => true

/-- The slots that a call names or hands out. -/
def Command.names (c : Command) (out : List ℕ) : List ℕ :=
  match c with
  | .bind .. => out
  | .bindBatch .. => out
  | .release slot => [slot]
  | .writePrompt slot _ => [slot]
  | .writePrompts slots _ => slots
  | .appendPrompt slot _ => [slot]
  | .beginReentryTurn slot _ => [slot]
  | .setPromptLength slot _ => [slot]
  | .synchronizeMetadata slot .. => [slot]
  | .restore slot .. => [slot]
  | .appendToken slot _ => [slot]
  | .appendTokens slots _ => slots

/-- The operation of the row that names the slot, if there is one. -/
def rowOp {α : Type} (op : α → Trajectory → Trajectory) (rows : List (ℕ × α)) (slot : ℕ)
    (t : Option Trajectory) : Option Trajectory :=
  match rows.lookup slot with
  | some a => t.map (op a)
  | none => t

/-- What a call that returned did to the trajectory of one slot; `out` is the slots it handed out. -/
def Command.logical (c : Command) (out : List ℕ) (slot : ℕ) (t : Option Trajectory) : Option Trajectory :=
  match c with
  | .bind .. => if slot ∈ out then some ⟨[], []⟩ else t
  | .bindBatch .. => if slot ∈ out then some ⟨[], []⟩ else t
  | .release s => if slot = s then none else t
  | .writePrompt s prompt => if slot = s then t.map (Trajectory.writePrompt prompt) else t
  | .writePrompts slots prompts => rowOp Trajectory.writePrompt (slots.zip prompts) slot t
  | .appendPrompt s prompt => if slot = s then t.map (Trajectory.appendPrompt prompt) else t
  | .appendToken s token => if slot = s then t.map (Trajectory.appendToken token) else t
  | .appendTokens slots tokens => rowOp Trajectory.appendToken (slots.zip tokens) slot t
  | _ => t

/-- The trajectory of a slot after a run. -/
def logical (trace : List (Command × Option (List ℕ))) (slot : ℕ) : Option Trajectory :=
  trace.foldl (fun t call =>
    match call.2 with
    | some out => call.1.logical out slot t
    | none => t) none

/-! ### The relation -/

/-- The cells, lengths and turns of an entry hold the trajectory. -/
structure Tracks (cfg : Config) (b : Book) (e : Entry) (t : Trajectory) : Prop where
  length : e.record.tokenLength = t.tokens.length
  content : ∀ i (hi : i < t.tokens.length), b.storage (e.pageStart * cfg.pageTokens + i) = t.tokens[i]
  decoded : e.record.decodedLength = t.generated.length
  ledger : Ledger e.turns t.tokens t.generated
  words : ∀ token ∈ t.tokens, toInt32 token = token

def Tracked (cfg : Config) (b : Book) (slot : ℕ) : Option Trajectory → Prop
  | none => b.entries slot = none
  | some t => ∃ e, b.entries slot = some e ∧ Tracks cfg b e t

/-- A slot whose entry and cells are the same is tracked as it was. -/
theorem Tracked.of_same {slot : ℕ} {b' : Book} {t : Option Trajectory} (h : Tracked cfg b slot t)
    (hstorage : b'.storage = b.storage) (hentry : b'.entries slot = b.entries slot) : Tracked cfg b' slot t := by
  cases t with
  | none => exact hentry.trans h
  | some t =>
    obtain ⟨e, he, htracks⟩ := h
    refine ⟨e, hentry.trans he, { htracks with content := fun i hi => ?_ }⟩
    rw [hstorage]
    exact htracks.content i hi

theorem toInt32_toInt32 (x : ℤ) : toInt32 (toInt32 x) = toInt32 x := Int.bmod_bmod

theorem prepareTokens_words (prompt : List ℤ) : ∀ token ∈ prepareTokens prompt, toInt32 token = token := by
  intro token htoken
  obtain ⟨x, -, rfl⟩ := mem_map.mp htoken
  exact toInt32_toInt32 x

theorem prepareTokens_eq {tokens : List Token} (h : ∀ token ∈ tokens, toInt32 token = token) :
    prepareTokens tokens = tokens := by
  rw [prepareTokens]
  conv_rhs => rw [← map_id tokens]
  exact map_congr_left h

/-- Cells of different slots are different. -/
theorem Layout.cell_ne (h : Layout cfg [] b) {slot slot' i j : ℕ} (he : b.entries slot = some e)
    (he' : b.entries slot' = some e') (hne : slot ≠ slot') (hi : i < e.record.maxTokens)
    (hj : j < e'.record.maxTokens) : e.pageStart * cfg.pageTokens + i ≠ e'.pageStart * cfg.pageTokens + j := by
  have hpage : ∀ {s k : ℕ} {f : Entry}, b.entries s = some f → k < f.record.maxTokens →
      b.Owns s ((f.pageStart * cfg.pageTokens + k) / cfg.pageTokens) := by
    intro s k f hf hk
    have hroom := (h.entry s f hf).room
    have hlt : k / cfg.pageTokens < f.pageCount := Nat.div_lt_of_lt_mul (by rw [Nat.mul_comm]; omega)
    have hdiv : (f.pageStart * cfg.pageTokens + k) / cfg.pageTokens = f.pageStart + k / cfg.pageTokens := by
      rw [Nat.add_comm, Nat.add_mul_div_right _ _ cfg.pageTokens_pos, Nat.add_comm]
    rw [hdiv]
    exact ⟨f, hf, Nat.le_add_right _ _, Nat.add_lt_add_left hlt _⟩
  intro heq
  have hown := hpage he hi
  rw [heq] at hown
  exact hne (h.apart slot slot' _ hown (hpage he' hj))

section

variable (hlayout : Layout cfg [] b) {slot first : ℕ} {values : List Token} (he : b.entries slot = some e)
  (hedit : EditOk cfg slot e first values e')

include hlayout he hedit in
/-- An edit does not reach the other slots. -/
theorem Tracked.edit_other {other : ℕ} {t : Option Trajectory} (h : Tracked cfg b other t)
    (hne : other ≠ slot) : Tracked cfg (b.edit cfg slot e first values e') other t := by
  cases t with
  | none => exact (Book.edit_entries_of_ne hne).trans h
  | some t =>
    obtain ⟨f, hf, htracks⟩ := h
    refine ⟨f, (Book.edit_entries_of_ne hne).trans hf, { htracks with content := fun i hi => ?_ }⟩
    rw [← htracks.content i hi]
    have hlength := htracks.length
    have hmax := (hlayout.entry other f hf).length
    by_cases hinside : e.pageStart * cfg.pageTokens + first ≤ f.pageStart * cfg.pageTokens + i ∧
        f.pageStart * cfg.pageTokens + i < e.pageStart * cfg.pageTokens + first + values.length
    · -- the cell would belong to both chains
      have hfits := hedit.inside
      refine absurd ?_ (hlayout.cell_ne hf he hne (show i < f.record.maxTokens by omega)
        (show f.pageStart * cfg.pageTokens + i - e.pageStart * cfg.pageTokens < e.record.maxTokens by omega))
      omega
    · exact blit_of_outside (by omega)

include hedit in
/-- An edit of a tracked slot: the tokens up to `first` stay and the values follow. -/
theorem Tracks.edit {t t' : Trajectory} (h : Tracks cfg b e t) (hfirst : first ≤ t.tokens.length)
    (htokens : t'.tokens = t.tokens.take first ++ values) (hlength : e'.record.tokenLength = t'.tokens.length)
    (hdecoded : e'.record.decodedLength = t'.generated.length)
    (hledger : Ledger e'.turns t'.tokens t'.generated) (hwords : ∀ token ∈ values, toInt32 token = token) :
    Tracks cfg (b.edit cfg slot e first values e') e' t' := by
  have htake : (t.tokens.take first).length = first := by
    rw [length_take]
    omega
  refine ⟨hlength, fun i hi => ?_, hdecoded, hledger, fun token htoken => ?_⟩
  · rw [hedit.pageStart]
    show blit b.storage (e.pageStart * cfg.pageTokens + first) values (e.pageStart * cfg.pageTokens + i) = _
    simp only [htokens] at hi ⊢
    by_cases hi' : i < first
    · rw [blit_of_outside (by omega), h.content i (by omega), getElem_append_left (by omega), getElem_take]
    obtain ⟨j, rfl⟩ := Nat.exists_eq_add_of_le (not_lt.mp hi')
    have hj : j < values.length := by
      rw [length_append] at hi
      omega
    rw [← Nat.add_assoc, blit_add hj, getElem_append_right (by omega)]
    simp only [htake, Nat.add_sub_cancel_left]
  · rw [htokens] at htoken
    rcases mem_append.mp htoken with hold | hnew
    · exact h.words token (mem_of_mem_take hold)
    · exact hwords token hnew

end

/-! ### One slot -/

section

variable {slot first : ℕ} {values : List Token} {t : Trajectory} (hok : EntryOk cfg slot e)
  (hedit : EditOk cfg slot e first values e') (h : Tracks cfg b e t)

include hedit h

theorem Tracks.writePrompt (hspec : PromptSpec cfg slot prompt e first values e') :
    Tracks cfg (b.edit cfg slot e first values e') e' (t.writePrompt prompt) := by
  obtain ⟨rfl, rfl, rfl⟩ := hspec
  refine h.edit hedit (Nat.zero_le _) (nil_append _).symm ?_ ?_ ?_ (prepareTokens_words prompt)
  · rw [promptEntry, updateTail_eq]
    rfl
  · rw [promptEntry, updateTail_eq]
    rfl
  · exact Ledger.prompt _

theorem Tracks.appendPrompt (hfirst : first = e.record.tokenLength) (hvalues : values = prepareTokens prompt)
    (hrecord : e'.record = ⟨slot, first + values.length, first + values.length, e.record.decodedLength,
      e.record.maxTokens⟩)
    (hturns : e'.turns = e.turns ++ [⟨e.turns.length, first, values.length, first + values.length, 0⟩]) :
    Tracks cfg (b.edit cfg slot e first values e') e' (t.appendPrompt prompt) := by
  have hlength := h.length
  have htotal : (t.tokens ++ values).length = first + values.length := by
    rw [length_append]
    omega
  subst hvalues
  refine h.edit hedit (by omega) ?_ ?_ ?_ ?_ (prepareTokens_words prompt)
  · rw [take_of_length_le (by omega)]
    rfl
  · rw [hrecord]
    exact htotal.symm
  · rw [hrecord]
    exact h.decoded
  · have hledger := h.ledger.addTurn (prepareTokens prompt) first (prepareTokens prompt).length (by omega)
      (by omega) (by omega)
    rw [htotal] at hledger
    rw [hturns]
    exact hledger

include hok in
theorem Tracks.appendToken {token : ℤ} (hspec : TokenSpec cfg slot token e first values e') :
    Tracks cfg (b.edit cfg slot e first values e') e' (t.appendToken token) := by
  obtain ⟨hword, rfl, rfl, rfl⟩ := hspec
  have hlength := h.length
  have hprompt := hok.prompt
  refine h.edit hedit (by omega) ?_ ?_ ?_ ?_ ?_
  · rw [take_of_length_le (by omega)]
    rfl
  · rw [advance, updateTail_eq]
    show e.record.tokenLength + 1 = (t.tokens ++ [token]).length
    rw [length_append, hlength]
    rfl
  · rw [advance, updateTail_eq]
    show e.record.decodedLength + 1 = (t.generated ++ [token]).length
    rw [length_append, h.decoded]
    rfl
  · have hledger := h.ledger.generate token e.record.promptLength (by omega)
    rw [← hlength] at hledger
    exact hledger
  · intro x hx
    rw [mem_singleton.mp hx]
    exact hword

theorem Tracks.sameTokens (hfirst : first = 0) (hvalues : values = [])
    (hrecord : e'.record.tokenLength = e.record.tokenLength ∧ e'.record.decodedLength = e.record.decodedLength)
    (hledger : Ledger e'.turns t.tokens t.generated) : Tracks cfg (b.edit cfg slot e first values e') e' t := by
  subst hfirst hvalues
  refine ⟨hrecord.1.trans h.length, fun i hi => ?_, hrecord.2.trans h.decoded, hledger, h.words⟩
  rw [hedit.pageStart]
  show blit b.storage _ [] _ = _
  rw [blit_nil]
  exact h.content i hi

end

/-- A re-entry keeps the ledger, whether it replaces the last turn or adds one. -/
theorem Tracks.reentry {t : Trajectory} (h : Tracks cfg b e t) {promptLength : ℕ}
    (hprompt : promptLength ≤ e.record.tokenLength) : Ledger (reentryTurns e promptLength).1 t.tokens t.generated := by
  have hlength := h.length
  have hadd : Ledger (e.turns ++ [⟨e.turns.length, 0, promptLength, e.record.tokenLength, 0⟩]) t.tokens
      t.generated := by
    have hledger := h.ledger.addTurn [] 0 promptLength le_rfl (by omega) (by rw [append_nil]; omega)
    rw [append_nil, ← hlength] at hledger
    exact hledger
  unfold reentryTurns
  split
  · next last hlast =>
    split
    · next hunused =>
      obtain ⟨front, hfront⟩ := getLast?_eq_some_iff.mp hlast
      have hledger := h.ledger.replaceTurn promptLength hfront hunused.1 (by omega) (by omega)
      rw [← hlength] at hledger
      rw [hfront, dropLast_concat]
      exact hledger
    · exact hadd
  · exact hadd

/-! ### Calls -/

theorem rowOp_cons_of_ne {α : Type} {op : α → Trajectory → Trajectory} {rows : List (ℕ × α)} {slot other : ℕ}
    {a : α} {t : Option Trajectory} (h : other ≠ slot) :
    rowOp op ((slot, a) :: rows) other t = rowOp op rows other t := by
  have hlookup : ((slot, a) :: rows).lookup other = rows.lookup other := by
    rw [lookup_cons, beq_eq_false_iff_ne.mpr h]
  rw [rowOp, rowOp, hlookup]

theorem rowOp_of_notMem {α : Type} {op : α → Trajectory → Trajectory} {rows : List (ℕ × α)} {slot : ℕ}
    {t : Option Trajectory} (h : slot ∉ rows.map Prod.fst) : rowOp op rows slot t = t := by
  induction rows with
  | nil => rfl
  | cons row rows ih =>
    obtain ⟨hne, hrest⟩ := ne_and_not_mem_of_not_mem_cons h
    exact (rowOp_cons_of_ne hne).trans (ih hrest)

theorem rowOp_cons_self {α : Type} {op : α → Trajectory → Trajectory} {rows : List (ℕ × α)} {slot : ℕ}
    {a : α} {t : Option Trajectory} : rowOp op ((slot, a) :: rows) slot t = t.map (op a) := by
  rw [rowOp, lookup_cons_self]

section

variable {other : ℕ} {trajectory : Option Trajectory} (hlayout : Layout cfg [] b)
  (h : Tracked cfg b other trajectory)

include hlayout h

/-- One edit, of a slot whose new entry holds `op` of its trajectory. -/
theorem Tracked.edit {slot first : ℕ} {values : List Token} {op : Trajectory → Trajectory}
    (he : b.entries slot = some e) (hedit : EditOk cfg slot e first values e')
    (hop : ∀ t, Tracks cfg b e t → Tracks cfg (b.edit cfg slot e first values e') e' (op t)) :
    Tracked cfg (b.edit cfg slot e first values e') other
      (if other = slot then trajectory.map op else trajectory) := by
  split
  · next heq =>
    subst heq
    cases trajectory with
    | none => cases he.symm.trans h
    | some t =>
      obtain ⟨f, hf, htracks⟩ := h
      cases he.symm.trans hf
      exact ⟨e', Book.edit_entries_self, hop t htracks⟩
  · next hne => exact h.edit_other hlayout he hedit hne

theorem Tracked.once {α : Type} {slot : ℕ} {x : Call α} {a : α} {b' : Book}
    {spec : Entry → ℕ → List Token → Entry → Prop} {op : Trajectory → Trajectory}
    (hx : EditsOnce cfg b slot x spec) (hrun : x b = .ok a b')
    (hop : ∀ e first values e' t, EntryOk cfg slot e → EditOk cfg slot e first values e' →
      spec e first values e' → Tracks cfg b e t → Tracks cfg (b.edit cfg slot e first values e') e' (op t)) :
    Tracked cfg b' other (if other = slot then trajectory.map op else trajectory) := by
  obtain ⟨e, first, values, e', he, hedit, hspec, rfl⟩ := Ends.of_ok hx hrun
  exact h.edit hlayout he hedit fun t => hop e first values e' t (hlayout.entry slot e he) hedit hspec

/-- One edit for each row: a slot is named in at most one of them. -/
theorem Tracked.rows {α : Type} {spec : ℕ → α → Entry → ℕ → List Token → Entry → Prop}
    {op : α → Trajectory → Trajectory} {rows : List (ℕ × α)} {b' : Book}
    (hedits : EditsAll cfg spec b rows b') (hnodup : (rows.map Prod.fst).Nodup)
    (hop : ∀ (b : Book) slot a e first values e' t, EntryOk cfg slot e → EditOk cfg slot e first values e' →
      spec slot a e first values e' → Tracks cfg b e t → Tracks cfg (b.edit cfg slot e first values e') e' (op a t)) :
    Tracked cfg b' other (rowOp op rows other trajectory) := by
  induction hedits generalizing trajectory with
  | done b => exact h
  | @step b b' slot first a rest e e' values he hedit hspec _ ih =>
    obtain ⟨hnotMem, hnodup⟩ := nodup_cons.mp hnodup
    have hfirst := h.edit hlayout he hedit fun t =>
      hop b slot a e first values e' t (hlayout.entry slot e he) hedit hspec
    have hother := ih (hlayout.edit he hedit) hfirst hnodup
    by_cases heq : other = slot
    · subst heq
      rwa [if_pos rfl, rowOp_of_notMem hnotMem, ← rowOp_cons_self] at hother
    · rwa [if_neg heq, ← rowOp_cons_of_ne heq] at hother

theorem Tracked.same {α : Type} {slot : ℕ} {x : Call α} {a : α} {b' : Book}
    {spec : Entry → ℕ → List Token → Entry → Prop} (hx : EditsOnce cfg b slot x spec) (hrun : x b = .ok a b')
    (hop : ∀ e first values e' t, EditOk cfg slot e first values e' → spec e first values e' →
      Tracks cfg b e t → Tracks cfg (b.edit cfg slot e first values e') e' t) : Tracked cfg b' other trajectory := by
  have hsame : Tracked cfg b' other (if other = slot then trajectory.map id else trajectory) :=
    h.once hlayout hx hrun fun e first values e' t _ => hop e first values e' t
  rwa [Option.map_id, id, ite_self] at hsame

/-- An edit of another slot. -/
theorem Tracked.elsewhere {α : Type} {slot : ℕ} {x : Call α} {a : α} {b' : Book}
    {spec : Entry → ℕ → List Token → Entry → Prop} (hx : EditsOnce cfg b slot x spec) (hrun : x b = .ok a b')
    (hne : other ≠ slot) : Tracked cfg b' other trajectory := by
  obtain ⟨e, first, values, e', he, hedit, -, rfl⟩ := Ends.of_ok hx hrun
  exact h.edit_other hlayout he hedit hne

omit hlayout in
/-- New slots hold the empty trajectory. -/
theorem Tracked.binds {slots : List ℕ} {b' : Book} (hbinds : Binds b slots b') :
    Tracked cfg b' other (if other ∈ slots then some ⟨[], []⟩ else trajectory) := by
  split
  · next hmem =>
    obtain ⟨r, hr⟩ := hbinds.fresh other hmem
    refine ⟨_, hr, rfl, fun i hi => absurd hi (Nat.not_lt_zero i), rfl, Ledger.new, fun token htoken => ?_⟩
    exact absurd htoken not_mem_nil
  · next hmem => exact h.of_same hbinds.storage (hbinds.other other hmem)

omit hlayout in
theorem Tracked.release {slot : ℕ} {b' : Book} (hstorage : b'.storage = b.storage)
    (hentries : b'.entries = update b.entries slot none) :
    Tracked cfg b' other (if other = slot then none else trajectory) := by
  split
  · next heq =>
    show b'.entries other = none
    rw [heq, hentries, update_self]
  · next hne => exact h.of_same hstorage (by rw [hentries, update_of_ne hne])

end

theorem ok_of_map {α β : Type} {f : α → β} {x : Call α} {y : β} {b' : Book} (h : (f <$> x) b = .ok y b') :
    ∃ a, x b = .ok a b' ∧ f a = y := by
  change EStateM.map f x b = _ at h
  unfold EStateM.map at h
  split at h
  · next a s ha =>
    cases h
    exact ⟨a, ha, rfl⟩
  · cases h

/-- **Every call does to a slot of the book what it does to its trajectory**, unless it copies a state into the slot. -/
theorem Command.logical_ok {c : Command} {out : List ℕ} {b' : Book} {other : ℕ} {trajectory : Option Trajectory}
    (hlocal : c.local = true ∨ other ∉ c.names out) (hlayout : Layout cfg [] b) (h : Tracked cfg b other trajectory)
    (hrun : c.exec cfg b = .ok out b') : Tracked cfg b' other (c.logical out other trajectory) := by
  cases c with
  | bind sequenceId maxTokens =>
    obtain ⟨slot, hslot, rfl⟩ := ok_of_map hrun
    exact h.binds ((bind_ends hlayout sequenceId maxTokens).of_ok hslot).2
  | bindBatch sequenceIds maxTokens =>
    exact h.binds ((bindBatch_ends hlayout sequenceIds maxTokens).of_ok hrun).2.2
  | release slot =>
    obtain ⟨_, hrelease, -⟩ := ok_of_map hrun
    obtain ⟨-, e, -, hstorage, hentries⟩ := (release_ends hlayout slot).of_ok hrelease
    exact h.release hstorage hentries
  | writePrompt slot promptTokens =>
    obtain ⟨_, hwrite, -⟩ := ok_of_map hrun
    exact h.once hlayout (writePrompt_ends hlayout slot promptTokens) hwrite
      fun _ _ _ _ _ _ hedit hspec htracks => htracks.writePrompt hedit hspec
  | writePrompts slots prompts =>
    obtain ⟨_, hwrite, -⟩ := ok_of_map hrun
    obtain ⟨hlength, hnodup, hedits⟩ := (writePrompts_ends hlayout slots prompts).of_ok hwrite
    refine h.rows hlayout hedits (by rwa [map_fst_zip hlength.le]) ?_
    exact fun _ _ _ _ _ _ _ _ _ hedit hspec htracks => htracks.writePrompt hedit hspec
  | appendPrompt slot promptTokens =>
    obtain ⟨_, happend, -⟩ := ok_of_map hrun
    exact h.once hlayout (appendPrompt_ends hlayout slot promptTokens) happend fun _ _ _ _ _ _ hedit hspec htracks =>
        htracks.appendPrompt hedit hspec.1 hspec.2.1 hspec.2.2.1 hspec.2.2.2
  | beginReentryTurn slot promptLength =>
    obtain ⟨_, hreentry, -⟩ := ok_of_map hrun
    refine h.same hlayout (beginReentryTurn_ends hlayout slot promptLength) hreentry ?_
    rintro e first values e' t hedit ⟨length, hlength, hfirst, hvalues, rfl⟩ htracks
    exact htracks.sameTokens hedit hfirst hvalues ⟨rfl, rfl⟩ (htracks.reentry hlength)
  | setPromptLength slot promptLength =>
    obtain ⟨_, hset, -⟩ := ok_of_map hrun
    refine h.same hlayout (setPromptLength_ends hlayout slot promptLength) hset ?_
    rintro e first values e' t hedit ⟨length, hlength, hfirst, hvalues, rfl⟩ htracks
    exact htracks.sameTokens hedit hfirst hvalues ⟨rfl, rfl⟩ htracks.ledger
  | synchronizeMetadata slot promptLength tokenLength decodedLength =>
    obtain ⟨_, hsync, -⟩ := ok_of_map hrun
    exact h.elsewhere hlayout (synchronizeMetadata_ends hlayout slot _ _ _) hsync
      (by simpa [Command.local, Command.names] using hlocal)
  | restore slot tokens promptLength decodedLength turns =>
    obtain ⟨_, hrestore, -⟩ := ok_of_map hrun
    exact h.elsewhere hlayout (restore_ends hlayout slot _ _ _ _) hrestore
      (by simpa [Command.local, Command.names] using hlocal)
  | appendToken slot tokenId =>
    obtain ⟨_, happend, -⟩ := ok_of_map hrun
    exact h.once hlayout (appendToken_ends hlayout slot tokenId) happend
      fun _ _ _ _ _ hok hedit hspec htracks => htracks.appendToken hok hedit hspec
  | appendTokens slots tokenIds =>
    obtain ⟨_, happend, -⟩ := ok_of_map hrun
    obtain ⟨hlength, hnodup, hedits⟩ := (appendTokens_ends hlayout slots tokenIds).of_ok happend
    refine h.rows hlayout hedits (by rwa [map_fst_zip hlength.le]) ?_
    exact fun _ _ _ _ _ _ _ _ hok hedit hspec htracks => htracks.appendToken hok hedit hspec

theorem logical_concat (trace : List (Command × Option (List ℕ))) (call : Command × Option (List ℕ)) (slot : ℕ) :
    logical (trace ++ [call]) slot = match call.2 with
      | some out => call.1.logical out slot (logical trace slot)
      | none => logical trace slot := by
  rw [logical, foldl_append]
  rfl

theorem Runs.tracked {storage : ℕ → Token} {trace : List (Command × Option (List ℕ))}
    (hrun : Runs cfg storage trace b) (hlocal : ∀ call ∈ trace, call.1.local = true) (slot : ℕ) :
    Tracked cfg b slot (logical trace slot) := by
  induction hrun with
  | start => exact rfl
  | returned before call ih =>
    have hbefore := ih fun c hc => hlocal c (mem_append_left _ hc)
    rw [logical_concat]
    exact Command.logical_ok (.inl (hlocal _ (mem_append_right _ mem_cons_self))) before.layout hbefore call
  | raised before call ih =>
    have hbefore := ih fun c hc => hlocal c (mem_append_left _ hc)
    rw [(Command.exec_ends _ before.layout).of_error call, logical_concat]
    exact hbefore

/-! ### Reading -/

section

variable (hlayout : Layout cfg [] b) {slot : ℕ} {t : Trajectory} (he : b.entries slot = some e) (h : Tracks cfg b e t)

include hlayout he h

theorem Tracks.copySpan_ok (start n : ℕ) (hinside : start + n ≤ t.tokens.length) :
    copySpan cfg e.pageStart n start n b = .ok ((t.tokens.drop start).take n) b := by
  have hlength := h.length
  have hmax := (hlayout.entry slot e he).length
  have hspan := hlayout.span_le he (show start + n ≤ e.record.maxTokens by omega)
  rw [QueryBook.copySpan_ok le_rfl (by omega)]
  congr 1
  refine ext_getElem ?_ fun i hi _ => ?_
  · rw [length_map, length_range, length_take, length_drop]
    omega
  · rw [length_map, length_range] at hi
    rw [getElem_map, getElem_range, getElem_take, getElem_drop, Nat.add_assoc]
    exact h.content (start + i) (by omega)

theorem Tracks.tokens_ok : tokens cfg slot none b = .ok t.tokens b := by
  have hcopy := h.copySpan_ok hlayout he 0 t.tokens.length (by omega)
  rw [drop_zero, take_length, ← h.length] at hcopy
  rw [tokens, bind_ok (activeEntry_ok he)]
  exact (bind_ok (check_ok le_rfl)).trans hcopy

theorem Tracks.copyTurn_ok {u : Turn} (hu : u ∈ e.turns) : copyTurn cfg e u b = .ok (u.span t.tokens) b := by
  obtain ⟨k, p, hok⟩ := h.ledger.scan.turnOk hu
  obtain ⟨hstart, hlength, hinside⟩ := hok.bounds
  exact h.copySpan_ok hlayout he _ _ (by omega)

theorem Tracks.generatedTokens_ok : generatedTokens cfg slot b = .ok t.generated b := by
  have hcopy : ∀ us : List Turn, (∀ u ∈ us, u ∈ e.turns) →
      us.mapM (copyTurn cfg e) b = .ok (us.map fun u => u.span t.tokens) b := by
    intro us
    induction us with
    | nil => exact fun _ => rfl
    | cons u us ih =>
      intro hus
      rw [mapM_cons, bind_ok (h.copyTurn_ok hlayout he (hus u mem_cons_self)),
        bind_ok (ih fun v hv => hus v (mem_cons_of_mem _ hv))]
      rfl
  have hskip : ∀ us : List Turn, ((us.filter fun u => u.generatedLength ≠ 0).map fun u =>
      u.span t.tokens).flatten = us.flatMap fun u => u.span t.tokens := by
    intro us
    induction us with
    | nil => rfl
    | cons u us ih =>
      rw [flatMap_cons, filter_cons, ← ih]
      split
      · rfl
      · next hzero =>
        have hu : u.generatedLength = 0 := by simpa using hzero
        have hspan : u.span t.tokens = [] := by
          rw [Turn.span, hu]
          rfl
        rw [hspan, nil_append]
  rw [generatedTokens, bind_ok (activeEntry_ok he),
    bind_ok (hcopy _ fun u hu => (mem_filter.mp hu).1), hskip, h.ledger.spans]
  rfl

theorem Tracks.lastGeneratedToken_ok {token : Token} (hlast : t.generated.getLast? = some token) :
    lastGeneratedToken cfg slot b = .ok [token] b := by
  rw [lastGeneratedToken, bind_ok (activeEntry_ok he)]
  cases hfind : e.turns.reverse.find? fun u => u.generatedLength ≠ 0 with
  | none =>
    -- then no turn generated anything
    have hempty : (e.turns.flatMap fun u => u.span t.tokens) = [] := by
      rw [flatMap_eq_nil_iff]
      intro u hu
      have hzero : u.generatedLength = 0 := by
        simpa using find?_eq_none.mp hfind u (mem_reverse.mpr hu)
      rw [Turn.span, hzero]
      rfl
    rw [h.ledger.spans] at hempty
    rw [hempty] at hlast
    cases hlast
  | some u =>
    obtain ⟨hu, behind, before, hsplit, hbehind⟩ := find?_eq_some_iff_append.mp hfind
    have hne : u.generatedLength ≠ 0 := by simpa using hu
    have hturns : e.turns = before.reverse ++ u :: behind.reverse := by
      have hreverse := congrArg List.reverse hsplit
      simpa using hreverse
    have htoken := h.ledger.last_generated hturns (fun v hv => by
      simpa using hbehind v (mem_reverse.mp hv)) hne
    rw [hlast] at htoken
    obtain ⟨hindex, hget⟩ := List.getElem?_eq_some_iff.mp htoken.symm
    have hcopy := h.copySpan_ok hlayout he (u.generatedEnd - 1).toNat 1 (by omega)
    rw [drop_eq_getElem_cons hindex, hget] at hcopy
    exact hcopy

end

theorem entry_of_metadata {slot : ℕ} {record : Record} {b' : Book} (h : metadata slot b = .ok record b') :
    ∃ e, b.entries slot = some e ∧ e.record = record := by
  have hends : Ends (metadata slot) b (fun r _ => ∃ e, b.entries slot = some e ∧ e.record = r) (fun _ _ => True) := by
    rw [metadata, ends_bind, ends_activeEntry]
    exact ⟨fun e he => ⟨e, he, rfl⟩, fun _ => trivial⟩
  exact hends.of_ok h

/-! ### Restoring -/

theorem nonnegativeInt_cast (n : ℕ) (name : String) : nonnegativeInt n name = .ok n := by
  rw [nonnegativeInt, if_neg (by omega), Int.toNat_natCast]

/-- A trajectory with a sound ledger is restored into any slot that has room for it. -/
theorem restore_ok (hlayout : Layout cfg [] b) {slot : ℕ} {t : Trajectory} {turns : List Turn} {promptLength : ℕ}
    (he : b.entries slot = some e) (hledger : Ledger turns t.tokens t.generated)
    (hwords : ∀ token ∈ t.tokens, toInt32 token = token) (hprompt : promptLength ≤ t.tokens.length)
    (hroom : t.tokens.length ≤ e.record.maxTokens) :
    ∃ b' e', restore cfg slot t.tokens promptLength t.generated.length (some turns) b = .ok ⟨⟩ b' ∧
      Layout cfg [] b' ∧ b'.entries slot = some e' ∧ e'.turns = turns ∧ Tracks cfg b' e' t := by
  have hedit := @EditOk.lengths cfg slot 0 e t.tokens (hlayout.entry slot e he)
    ⟨slot, promptLength, t.tokens.length, t.generated.length, e.record.maxTokens⟩ turns rfl rfl hroom hprompt
    (by omega)
  refine ⟨_, _, ?_, hlayout.edit he hedit, Book.edit_entries_self, rfl, ?_⟩
  · rw [restore, bind_ok (activeEntry_ok he), bind_ok (liftExcept_ok (nonnegativeInt_cast _ _)),
      bind_ok (liftExcept_ok (nonnegativeInt_cast _ _)), prepareTokens_eq hwords]
    rw [bind_ok (check_ok hprompt)]
    refine (bind_ok (check_ok hroom)).trans ?_
    rw [bind_ok (liftExcept_ok (hledger.validate_ok promptLength)),
      bind_ok (writeSpan_ok le_rfl (hlayout.span_le he hroom))]
    rfl
  · refine ⟨?_, fun i hi => ?_, ?_, hledger, hwords⟩
    · rw [updateTail_eq]
    · rw [hedit.pageStart]
      exact blit_add hi
    · rw [updateTail_eq]

/-- **The book refines the trajectories.**  After any calls of the slots' own lives, failed ones among them, a
bound slot reads as the trajectory its own calls built: its tokens, the generated ones, their number and the
last of them; its turns pass `_validate_turns`; and sent through the migration payload they restore the same
tokens, generated tokens and turns in any active slot with room, of any book after any calls. -/
theorem trajectories_refined (cfg : Config) (storage : ℕ → Token) (trace : List (Command × Option (List ℕ)))
    (b : Book) (hrun : Runs cfg storage trace b) (hlocal : ∀ call ∈ trace, call.1.local = true) (slot : ℕ) :
    (logical trace slot = none → b.entries slot = none) ∧
    ∀ t, logical trace slot = some t → ∃ record us payload,
      metadata slot b = .ok record b ∧ turns slot b = .ok us b ∧ turnsPayload slot b = .ok payload b ∧
      tokens cfg slot none b = .ok t.tokens b ∧
      generatedTokens cfg slot b = .ok t.generated b ∧
      record.decodedLength = t.generated.length ∧
      (∀ token, t.generated.getLast? = some token → lastGeneratedToken cfg slot b = .ok [token] b) ∧
      validateTurns (some us) record.tokenLength record.promptLength record.decodedLength = .ok us ∧
      turnsFromPayload payload = .ok us ∧
      ∀ (cfg' : Config) storage' trace' b₀ slot' record', Runs cfg' storage' trace' b₀ →
        metadata slot' b₀ = .ok record' b₀ → t.tokens.length ≤ record'.maxTokens →
        ∃ b₁, restore cfg' slot' t.tokens record.promptLength record.decodedLength (some us) b₀ = .ok ⟨⟩ b₁ ∧
          tokens cfg' slot' none b₁ = .ok t.tokens b₁ ∧
          generatedTokens cfg' slot' b₁ = .ok t.generated b₁ ∧ turns slot' b₁ = .ok us b₁ := by
  have hlayout := hrun.layout
  have htracked := hrun.tracked hlocal slot
  refine ⟨fun hnone => ?_, fun t ht => ?_⟩
  · rwa [hnone] at htracked
  rw [ht] at htracked
  obtain ⟨e, he, htracks⟩ := htracked
  have hprompt := (hlayout.entry slot e he).prompt
  have hread : ∀ {α : Type} (f : Entry → α), (activeEntry slot >>= fun e => pure (f e)) b = .ok (f e) b :=
    fun f => bind_ok (activeEntry_ok he)
  refine ⟨e.record, e.turns, e.turns.map Turn.row, hread _, hread _, bind_ok (hread _),
    htracks.tokens_ok hlayout he, htracks.generatedTokens_ok hlayout he, htracks.decoded,
    fun token => htracks.lastGeneratedToken_ok hlayout he, ?_, turnsFromPayload_rows _, ?_⟩
  · rw [htracks.length, htracks.decoded]
    exact htracks.ledger.validate_ok _
  · intro cfg' storage' trace' b₀ slot' record' hrun' hrecord' hroom
    have hlayout' := hrun'.layout
    obtain ⟨e₀, he₀, hrecord⟩ := entry_of_metadata hrecord'
    subst hrecord
    obtain ⟨b₁, e₁, hrestore, hlayout₁, he₁, hturns, htracks₁⟩ := restore_ok hlayout' he₀ htracks.ledger
      htracks.words (htracks.length ▸ hprompt) hroom
    refine ⟨b₁, ?_, htracks₁.tokens_ok hlayout₁ he₁, htracks₁.generatedTokens_ok hlayout₁ he₁, ?_⟩
    · rw [htracks.decoded]
      exact hrestore
    · rw [← hturns]
      exact bind_ok (activeEntry_ok he₁)

/-- Pages of two tokens; a prompt over two pages, a generated token, a second prompt and another token, with
another slot written in between. -/
theorem trajectories_refined_two_prompts :
    ∃ trace b, Runs ⟨64, 2, by decide, by decide⟩ (fun _ => 0) trace b ∧
      logical trace 0 = some ⟨[1, 2, 3, 4, 5, 6], [4, 6]⟩ ∧
      generatedTokens ⟨64, 2, by decide, by decide⟩ 0 b = .ok [4, 6] b := by
  have h₁ := @Runs.returned ⟨64, 2, by decide, by decide⟩ (fun _ => 0) _ _ _ (.bindBatch ["a", "b"] [7, 3]) _ .start rfl
  have h₂ := @Runs.returned _ _ _ _ _ (.writePrompts [1, 0] [[9], [1, 2, 3]]) _ h₁ rfl
  have h₃ := @Runs.returned _ _ _ _ _ (.appendTokens [0, 1] [4, 8]) _ h₂ rfl
  have h₄ := @Runs.returned _ _ _ _ _ (.appendPrompt 0 [5]) _ h₃ rfl
  have h₅ := @Runs.returned _ _ _ _ _ (.beginReentryTurn 0 5) _ h₄ rfl
  have h₆ := @Runs.returned _ _ _ _ _ (.appendToken 0 6) _ h₅ rfl
  refine ⟨_, _, h₆, rfl, ?_⟩
  obtain ⟨record, us, payload, -, -, -, -, hgenerated, -⟩ :=
    (trajectories_refined _ _ _ _ h₆ (by decide) 0).2 ⟨[1, 2, 3, 4, 5, 6], [4, 6]⟩ rfl
  exact hgenerated

end Batchgen.QueryBook
