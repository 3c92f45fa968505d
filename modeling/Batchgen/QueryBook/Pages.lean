import Batchgen.QueryBook.Book

/-!
# Pages and slots

`Layout` says how a book divides its pages and its slot numbers: the free extents and the chains of the bound
slots partition the pages, and the chain of a slot has room for the tokens the slot may hold.  Every method
keeps it, and a method that raises changes nothing.
-/

namespace Batchgen.QueryBook

open Outcome Extents Function List

variable {cfg : Config} {b : Book} {c : Prop} {pages slot : ℕ} {e : Entry} {r : Reservation}

/-! ### Small programs -/

section

variable {α : Type} {ret : α → Book → Prop} {exc : PyError → Book → Prop}

@[simp] theorem ends_check [Decidable c] {e : PyError} {ret : PUnit → Book → Prop} :
    Ends (check c e) b ret exc ↔ (c → ret ⟨⟩ b) ∧ (¬ c → exc e b) := by
  unfold check
  split
  · next h => simp [h]
  · next h => simp [h]

@[simp] theorem ends_liftExcept {x : Except PyError α} :
    Ends (liftExcept x) b ret exc ↔ (∀ a, x = .ok a → ret a b) ∧ ∀ e, x = .error e → exc e b := by
  cases x <;> simp [liftExcept]

@[simp] theorem ends_activeEntry {ret : Entry → Book → Prop} :
    Ends (activeEntry slot) b ret exc ↔ (∀ e, b.entries slot = some e → ret e b) ∧
      (b.entries slot = none → exc (.capacityError s!"slot is not active: {slot}") b) := by
  rw [activeEntry, ends_bind, ends_get]
  cases b.entries slot <;> simp

@[simp] theorem ends_checkLength {length : ℕ} {ret : PUnit → Book → Prop} :
    Ends (checkLength e length) b ret exc ↔ (length ≤ e.record.maxTokens → ret ⟨⟩ b) ∧
      (¬ length ≤ e.record.maxTokens → exc (.capacityError
        s!"token length {length} exceeds reserved max_tokens={e.record.maxTokens}") b) :=
  ends_check

end

/-- A program that only looks at the book. -/
theorem activeEntry_ok (h : b.entries slot = some e) : activeEntry slot b = .ok e b := by
  rw [activeEntry, get_bind, h]
  rfl

theorem check_ok [Decidable c] {e : PyError} (h : c) : check c e b = .ok ⟨⟩ b := by
  rw [check, if_pos h]
  rfl

theorem pagesFor_ok {maxTokens : ℤ} (h : pagesFor cfg maxTokens = .ok pages) :
    ∃ m, positiveInt maxTokens "max_tokens" = .ok m ∧ 0 < pages ∧ m ≤ pages * cfg.pageTokens := by
  have hpos := cfg.pageTokens_pos
  rw [pagesFor] at h
  obtain ⟨m, hm, h⟩ := except_bind_ok h
  have hpages : (m + cfg.pageTokens - 1) / cfg.pageTokens = pages := Except.ok.inj h
  have hmpos : 0 < m := by
    unfold positiveInt at hm
    split at hm
    · cases hm
    · cases hm
      omega
  refine ⟨m, hm, ?_, ?_⟩
  · rw [← hpages]
    exact Nat.div_pos (by omega) hpos
  · have hdiv := Nat.div_add_mod (m + cfg.pageTokens - 1) cfg.pageTokens
    have hmod := Nat.mod_lt (m + cfg.pageTokens - 1) hpos
    rw [hpages, Nat.mul_comm] at hdiv
    omega

/-! ### The layout -/

/-- The page belongs to the chain of the slot. -/
def Book.Owns (b : Book) (slot p : ℕ) : Prop :=
  ∃ e, b.entries slot = some e ∧ Extent.Holds (e.pageStart, e.pageCount) p

def Reservation.Holds (r : Reservation) (p : ℕ) : Prop := Extent.Holds (r.pageStart, r.pageCount) p

/-- The page and the offset of a position in a chain; past the end, the end of the last page. -/
def tailOf (cfg : Config) (pageStart pageCount logicalLength : ℕ) : ℕ × ℕ :=
  if pageCount ≤ logicalLength / cfg.pageTokens then (pageStart + (pageCount - 1), cfg.pageTokens)
  else (pageStart + logicalLength / cfg.pageTokens, logicalLength % cfg.pageTokens)

theorem updateTail_eq (e : Entry) (n : ℕ) : updateTail cfg e n = { e with
      tailPage := (tailOf cfg e.pageStart e.pageCount n).1
      tailOffset := (tailOf cfg e.pageStart e.pageCount n).2 } := by
  unfold updateTail tailOf
  split <;> rfl

/-- The chain of an entry has room for its tokens, and the cached tail is where the next one goes. -/
structure EntryOk (cfg : Config) (slot : ℕ) (e : Entry) : Prop where
  named : e.record.slot = slot
  pages : 0 < e.pageCount
  room : e.record.maxTokens ≤ e.pageCount * cfg.pageTokens
  length : e.record.tokenLength ≤ e.record.maxTokens
  prompt : e.record.promptLength ≤ e.record.tokenLength
  tail : (e.tailPage, e.tailOffset) = tailOf cfg e.pageStart e.pageCount e.record.tokenLength

/-- The pages are divided among the free extents, the bound slots and the reservations that have no slot yet.
Between two calls there are none of the last. -/
structure Layout (cfg : Config) (pending : List Reservation) (b : Book) : Prop where
  separated : Separated b.freeExtents
  cover : ∀ p, p < cfg.pageCount ↔
    Covers b.freeExtents p ∨ (∃ slot, b.Owns slot p) ∨ ∃ r ∈ pending, r.Holds p
  taken : ∀ slot p, b.Owns slot p → ¬ Covers b.freeExtents p
  apart : ∀ slot slot' p, b.Owns slot p → b.Owns slot' p → slot = slot'
  pendingTaken : ∀ r ∈ pending, ∀ p, r.Holds p → ¬ Covers b.freeExtents p
  pendingOwned : ∀ r ∈ pending, ∀ p, r.Holds p → ∀ slot, ¬ b.Owns slot p
  pendingApart : pending.Pairwise fun r r' => ∀ p, r.Holds p → ¬ r'.Holds p
  pendingRoom : ∀ r ∈ pending, 0 < r.pageCount ∧ r.maxTokens ≤ r.pageCount * cfg.pageTokens
  entry : ∀ slot e, b.entries slot = some e → EntryOk cfg slot e
  names : ∀ sequenceId slot, b.seqToSlot sequenceId = some slot ↔
    ∃ e, b.entries slot = some e ∧ e.sequenceId = sequenceId
  bound : ∀ slot e, b.entries slot = some e → slot < b.nextSlot ∧ slot ∉ b.freeSlots
  freeNodup : b.freeSlots.Nodup
  freeLt : ∀ slot ∈ b.freeSlots, slot < b.nextSlot

theorem Config.pageCount_pos (cfg : Config) : 0 < cfg.pageCount :=
  Nat.div_pos cfg.onePage (Nat.mul_pos cfg.pageTokens_pos (by decide))

theorem Layout.init (cfg : Config) (storage : ℕ → Token) : Layout cfg [] (Book.init cfg storage) where
  separated := Separated.single cfg.pageCount_pos
  cover p := by
    have hslots : ¬ ∃ slot, (Book.init cfg storage).Owns slot p := by
      rintro ⟨slot, e, he, -⟩
      cases he
    have hpending : ¬ ∃ r ∈ ([] : List Reservation), r.Holds p := by simp
    rw [or_iff_left hpending, or_iff_left hslots, Book.init, covers_cons, or_iff_left covers_nil]
    unfold Extent.Holds
    dsimp only
    omega
  taken := by
    rintro slot p ⟨e, he, -⟩
    cases he
  apart := by
    rintro slot slot' p ⟨e, he, -⟩
    cases he
  pendingTaken r hr := absurd hr not_mem_nil
  pendingOwned r hr := absurd hr not_mem_nil
  pendingApart := List.Pairwise.nil
  pendingRoom r hr := absurd hr not_mem_nil
  entry slot e he := by cases he
  names sequenceId slot := by
    constructor
    · intro h
      cases h
    · rintro ⟨e, he, -⟩
      cases he
  bound slot e he := by cases he
  freeNodup := nodup_nil
  freeLt slot h := absurd h not_mem_nil

namespace Layout

variable {pending : List Reservation} (h : Layout cfg pending b)

include h

/-- A chain lies inside the book. -/
theorem chain_le (he : b.entries slot = some e) : e.pageStart + e.pageCount ≤ cfg.pageCount := by
  have hpos := (h.entry slot e he).pages
  have hlast : b.Owns slot (e.pageStart + e.pageCount - 1) := ⟨e, he, by unfold Extent.Holds; dsimp only; omega⟩
  have hlt := (h.cover _).mpr (Or.inr (Or.inl ⟨slot, hlast⟩))
  omega

theorem names_inj {sequenceId sequenceId' : String} (hid : b.seqToSlot sequenceId = some slot)
    (hid' : b.seqToSlot sequenceId' = some slot) : sequenceId = sequenceId' := by
  obtain ⟨e, he, rfl⟩ := (h.names _ _).mp hid
  obtain ⟨e', he', rfl⟩ := (h.names _ _).mp hid'
  rw [he] at he'
  cases he'
  rfl

/-- Pages taken from the free extents are pending. -/
theorem take {start : ℕ} {left : List Extent} (htake : takeFirst pages b.freeExtents = some (start, left))
    (hstart : r.pageStart = start) (hpages : r.pageCount = pages) (hpos : 0 < pages)
    (hroom : r.maxTokens ≤ pages * cfg.pageTokens) : Layout cfg (pending ++ [r]) { b with freeExtents := left } := by
  have hholds : ∀ p, r.Holds p ↔ Extent.Holds (start, pages) p := by
    intro p
    rw [Reservation.Holds, hstart, hpages]
  have hcovers : ∀ p, Covers b.freeExtents p ↔ Covers left p ∨ Extent.Holds (start, pages) p := fun p =>
    covers_takeFirst htake
  have hleft : ∀ p, Covers left p → Covers b.freeExtents p := fun p hp => (hcovers p).mpr (Or.inl hp)
  have hfree : ∀ p, r.Holds p → Covers b.freeExtents p := fun p hp =>
    (hcovers p).mpr (Or.inr ((hholds p).mp hp))
  refine { h with
    separated := takeFirst_separated h.separated htake
    cover := fun p => ?_
    taken := fun slot p hp hc => h.taken slot p hp (hleft p hc)
    pendingTaken := fun r' hr' p hp hc => ?_
    pendingOwned := fun r' hr' p hp slot hown => ?_
    pendingApart := pairwise_append.mpr ⟨h.pendingApart, pairwise_singleton _ _, ?_⟩
    pendingRoom := fun r' hr' => ?_ }
  · rw [h.cover p, hcovers p, ← hholds p]
    show _ ↔ Covers left p ∨ (∃ slot, b.Owns slot p) ∨ ∃ r' ∈ pending ++ [r], r'.Holds p
    simp only [mem_append, mem_singleton, or_and_right, exists_or, exists_eq_left]
    rw [or_assoc]
    refine or_congr_right ?_
    rw [or_comm, or_assoc]
  · rcases mem_append.mp hr' with hr' | hr'
    · exact h.pendingTaken r' hr' p hp (hleft p hc)
    · rw [mem_singleton.mp hr', hholds] at hp
      exact disjoint_takeFirst h.separated htake hc hp
  · rcases mem_append.mp hr' with hr' | hr'
    · exact h.pendingOwned r' hr' p hp slot hown
    · rw [mem_singleton.mp hr'] at hp
      exact h.taken slot p hown (hfree p hp)
  · intro r' hr' r'' hr'' p hp hp'
    rw [mem_singleton.mp hr''] at hp'
    exact h.pendingTaken r' hr' p hp (hfree p hp')
  · rcases mem_append.mp hr' with hr' | hr'
    · exact h.pendingRoom r' hr'
    · rw [mem_singleton.mp hr', hpages]
      exact ⟨hpos, hroom⟩

omit h in
/-- What the next slot number is. -/
theorem nextFree_cases (b : Book) :
    (∃ slots slot, b.freeSlots = slots ++ [slot] ∧ b.nextFree = (slot, { b with freeSlots := slots })) ∨
      b.freeSlots = [] ∧ b.nextFree = (b.nextSlot, { b with nextSlot := b.nextSlot + 1 }) := by
  rcases eq_nil_or_concat b.freeSlots with hnil | ⟨slots, slot, hslots⟩
  · right
    rw [Book.nextFree, hnil]
    exact ⟨rfl, rfl⟩
  · left
    rw [concat_eq_append] at hslots
    refine ⟨slots, slot, hslots, ?_⟩
    rw [Book.nextFree, hslots, getLast?_concat, dropLast_concat]

/-- The next slot number is unused, and taking it leaves the other numbers as they were. -/
theorem nextFree_ok : b.entries b.nextFree.1 = none ∧ b.nextFree.2.entries = b.entries ∧
    b.nextFree.2.seqToSlot = b.seqToSlot ∧ b.nextFree.2.freeExtents = b.freeExtents ∧ b.nextFree.2.storage = b.storage ∧
    b.nextFree.1 < b.nextFree.2.nextSlot ∧ b.nextFree.1 ∉ b.nextFree.2.freeSlots ∧
    b.nextFree.2.freeSlots.Nodup ∧ (∀ slot ∈ b.nextFree.2.freeSlots, slot < b.nextFree.2.nextSlot) ∧
    ∀ slot e, b.entries slot = some e → slot < b.nextFree.2.nextSlot ∧ slot ∉ b.nextFree.2.freeSlots := by
  rcases nextFree_cases b with ⟨slots, slot, hslots, hnext⟩ | ⟨hnil, hnext⟩
  · have hmem : slot ∈ b.freeSlots := by rw [hslots]; simp
    have hnodup := h.freeNodup
    rw [hslots, nodup_append] at hnodup
    rw [hnext]
    refine ⟨?_, rfl, rfl, rfl, rfl, h.freeLt slot hmem, fun hin => ?_, hnodup.1, fun s hs => ?_,
      fun s e he => ⟨(h.bound s e he).1, fun hs => (h.bound s e he).2 ?_⟩⟩
    · cases he : b.entries slot with
      | none => rfl
      | some e => exact absurd hmem (h.bound slot e he).2
    · exact hnodup.2.2 slot hin slot mem_cons_self rfl
    · exact h.freeLt s (by rw [hslots]; exact mem_append_left _ hs)
    · rw [hslots]
      exact mem_append_left _ hs
  · rw [hnext]
    refine ⟨?_, rfl, rfl, rfl, rfl, Nat.lt_succ_self _, ?_, h.freeNodup, fun s hs => ?_, fun s e he => ?_⟩
    · cases he : b.entries b.nextSlot with
      | none => rfl
      | some e => exact absurd (h.bound _ e he).1 (lt_irrefl _)
    · show b.nextSlot ∉ b.freeSlots
      rw [hnil]
      exact not_mem_nil
    · exact Nat.lt_succ_of_lt (h.freeLt s hs)
    · exact ⟨Nat.lt_succ_of_lt (h.bound s e he).1, (h.bound s e he).2⟩

end Layout

theorem Reservation.entryOk (hpos : 0 < r.pageCount) (hroom : r.maxTokens ≤ r.pageCount * cfg.pageTokens)
    (slot : ℕ) : EntryOk cfg slot (r.entry slot) where
  named := rfl
  pages := hpos
  room := hroom
  length := Nat.zero_le _
  prompt := le_rfl
  tail := by
    have hzero : ¬ r.pageCount ≤ 0 / cfg.pageTokens := by
      rw [Nat.zero_div]
      exact not_le.mpr hpos
    show (r.pageStart, 0) = tailOf cfg r.pageStart r.pageCount 0
    rw [tailOf, if_neg hzero, Nat.zero_div, Nat.zero_mod, Nat.add_zero]

/-- A pending reservation gets a slot. -/
theorem Layout.publish {pending : List Reservation} (h : Layout cfg (r :: pending) b)
    (hfresh : b.seqToSlot r.sequenceId = none) : Layout cfg pending (b.nextFree.2.addEntry b.nextFree.1 r) := by
  obtain ⟨hunused, hentries, hnames, hextents, -, hlt, hnotFree, hnodup, hfreeLt, hbound⟩ := h.nextFree_ok
  generalize hslot : b.nextFree.1 = slot at *
  generalize hrest : b.nextFree.2 = rest at *
  obtain ⟨hpos, hroom⟩ := h.pendingRoom r mem_cons_self
  have hnew : (rest.addEntry slot r).entries = update b.entries slot (some (r.entry slot)) := by
    rw [← hentries]
    rfl
  have hext : (rest.addEntry slot r).freeExtents = b.freeExtents := hextents
  have hown : ∀ s p, (rest.addEntry slot r).Owns s p ↔ b.Owns s p ∨ s = slot ∧ r.Holds p := by
    intro s p
    unfold Book.Owns
    rw [hnew]
    by_cases hs : s = slot
    · subst hs
      rw [update_self, hunused]
      constructor
      · rintro ⟨e, he, hp⟩
        cases he
        exact Or.inr ⟨rfl, hp⟩
      · rintro (⟨e, he, -⟩ | ⟨-, hp⟩)
        · cases he
        · exact ⟨_, rfl, hp⟩
    · rw [update_of_ne hs, or_iff_left fun hcase => hs hcase.1]
  refine ⟨?_, fun p => ?_, fun s p hp => ?_, fun s s' p hp hp' => ?_, fun r' hr' p hp => ?_,
    fun r' hr' p hp s hs => ?_, (pairwise_cons.mp h.pendingApart).2,
    fun r' hr' => h.pendingRoom r' (mem_cons_of_mem _ hr'), fun s e he => ?_, fun id s => ?_,
    fun s e he => ?_, hnodup, hfreeLt⟩
  · rw [hext]
    exact h.separated
  · rw [hext, h.cover p]
    simp only [hown, mem_cons, exists_or, exists_eq_left, exists_eq_or_imp]
    tauto
  · rw [hext]
    rcases (hown s p).mp hp with hp | ⟨-, hp⟩
    · exact h.taken s p hp
    · exact h.pendingTaken r mem_cons_self p hp
  · rcases (hown s p).mp hp with hold | ⟨hs, hnewest⟩
    · rcases (hown s' p).mp hp' with hold' | ⟨-, hnewest'⟩
      · exact h.apart s s' p hold hold'
      · exact absurd hold (h.pendingOwned r mem_cons_self p hnewest' s)
    · rcases (hown s' p).mp hp' with hold' | ⟨hs', -⟩
      · exact absurd hold' (h.pendingOwned r mem_cons_self p hnewest s')
      · rw [hs, hs']
  · rw [hext]
    exact h.pendingTaken r' (mem_cons_of_mem _ hr') p hp
  · rcases (hown s p).mp hs with hs | ⟨-, hs⟩
    · exact h.pendingOwned r' (mem_cons_of_mem _ hr') p hp s hs
    · exact (pairwise_cons.mp h.pendingApart).1 r' hr' p hs hp
  · rw [hnew] at he
    by_cases hs : s = slot
    · subst hs
      rw [update_self] at he
      cases he
      exact Reservation.entryOk hpos hroom s
    · rw [update_of_ne hs] at he
      exact h.entry s e he
  · have hseq : (rest.addEntry slot r).seqToSlot = update b.seqToSlot r.sequenceId (some slot) := by
      rw [← hnames]
      rfl
    rw [hseq, hnew]
    by_cases hid : id = r.sequenceId
    · subst hid
      rw [update_self, Option.some_inj]
      by_cases hs : s = slot
      · subst hs
        rw [update_self]
        exact ⟨fun _ => ⟨_, rfl, rfl⟩, fun _ => rfl⟩
      · rw [update_of_ne hs]
        refine ⟨fun heq => absurd heq.symm hs, fun hold => ?_⟩
        rw [← h.names, hfresh] at hold
        cases hold
    · rw [update_of_ne hid]
      by_cases hs : s = slot
      · subst hs
        rw [update_self, h.names, hunused]
        constructor
        · rintro ⟨e, he, -⟩
          cases he
        · rintro ⟨e, he, hname⟩
          cases he
          exact absurd hname.symm hid
      · rw [update_of_ne hs]
        exact h.names id s
  · rw [hnew] at he
    by_cases hs : s = slot
    · subst hs
      exact ⟨hlt, hnotFree⟩
    · rw [update_of_ne hs] at he
      exact hbound s e he

/-- A released slot gives its pages and its number back. -/
theorem Layout.release {b' : Book} (h : Layout cfg [] b) (he : b.entries slot = some e)
    (hentries : b'.entries = update b.entries slot none)
    (hextents : b'.freeExtents = giveBack (e.pageStart, e.pageCount) b.freeExtents)
    (hnames : b'.seqToSlot = update b.seqToSlot e.sequenceId none) (hfree : b'.freeSlots = b.freeSlots ++ [slot])
    (hnext : b'.nextSlot = b.nextSlot) : Layout cfg [] b' := by
  have hok := h.entry slot e he
  obtain ⟨hseparated, hcovers⟩ := @giveBack_ok b.freeExtents (e.pageStart, e.pageCount) h.separated hok.pages
  have hholds : ∀ p, Extent.Holds (e.pageStart, e.pageCount) p ↔ b.Owns slot p := by
    intro p
    refine ⟨fun hp => ⟨e, he, hp⟩, fun ⟨e', he', hp⟩ => ?_⟩
    rw [he] at he'
    cases he'
    exact hp
  have hown : ∀ s p, b'.Owns s p ↔ s ≠ slot ∧ b.Owns s p := by
    intro s p
    unfold Book.Owns
    rw [hentries]
    by_cases hs : s = slot
    · subst hs
      rw [update_self]
      simp
    · rw [update_of_ne hs]
      simp [hs]
  have hold : ∀ s e', b'.entries s = some e' → s ≠ slot ∧ b.entries s = some e' := by
    intro s e' he'
    rw [hentries] at he'
    by_cases hs : s = slot
    · subst hs
      rw [update_self] at he'
      cases he'
    · rw [update_of_ne hs] at he'
      exact ⟨hs, he'⟩
  obtain ⟨hslotLt, hslotFree⟩ := h.bound slot e he
  refine ⟨?_, fun p => ?_, fun s p hp => ?_, fun s s' p hp hp' => ?_, fun r hr => absurd hr not_mem_nil,
    fun r hr => absurd hr not_mem_nil, List.Pairwise.nil, fun r hr => absurd hr not_mem_nil,
    fun s e' he' => h.entry s e' (hold s e' he').2, fun id s => ?_, fun s e' he' => ?_, ?_, fun s hs => ?_⟩
  · rw [hextents]
    exact hseparated
  · rw [hextents, h.cover p, hcovers p, hholds p]
    simp only [hown, not_mem_nil, false_and, exists_false, or_false]
    constructor
    · rintro (hp | ⟨s, hp⟩)
      · exact Or.inl (Or.inl hp)
      · by_cases hs : s = slot
        · exact Or.inl (Or.inr (hs ▸ hp))
        · exact Or.inr ⟨s, hs, hp⟩
    · rintro ((hp | hp) | ⟨s, -, hp⟩)
      · exact Or.inl hp
      · exact Or.inr ⟨slot, hp⟩
      · exact Or.inr ⟨s, hp⟩
  · obtain ⟨hs, hp⟩ := (hown s p).mp hp
    rw [hextents, hcovers p, hholds p]
    rintro (hc | hc)
    · exact h.taken s p hp hc
    · exact hs (h.apart s slot p hp hc)
  · exact h.apart s s' p ((hown s p).mp hp).2 ((hown s' p).mp hp').2
  · rw [hnames]
    by_cases hid : id = e.sequenceId
    · subst hid
      rw [update_self]
      refine ⟨fun hnone => (by cases hnone), ?_⟩
      rintro ⟨e', he', hname⟩
      obtain ⟨hs, he'⟩ := hold s e' he'
      have hsame := (h.names e.sequenceId slot).mpr ⟨e, he, rfl⟩
      rw [(h.names e.sequenceId s).mpr ⟨e', he', hname⟩] at hsame
      exact absurd (Option.some_inj.mp hsame) hs
    · rw [update_of_ne hid, h.names, hentries]
      by_cases hs : s = slot
      · subst hs
        rw [update_self, he]
        constructor
        · rintro ⟨e', he', hname⟩
          cases he'
          exact absurd hname.symm hid
        · rintro ⟨e', he', -⟩
          cases he'
      · rw [update_of_ne hs]
  · obtain ⟨hs, he'⟩ := hold s e' he'
    obtain ⟨hlt, hnotFree⟩ := h.bound s e' he'
    rw [hnext, hfree, mem_append, mem_singleton]
    exact ⟨hlt, fun hin => hin.elim hnotFree hs⟩
  · rw [hfree]
    exact nodup_append.mpr ⟨h.freeNodup, nodup_singleton _, fun a ha c hc => by
      rw [mem_singleton.mp hc]
      rintro rfl
      exact hslotFree ha⟩
  · rw [hnext]
    rw [hfree] at hs
    rcases mem_append.mp hs with hs | hs
    · exact h.freeLt s hs
    · rw [mem_singleton.mp hs]
      exact hslotLt

end Batchgen.QueryBook
