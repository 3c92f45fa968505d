import Batchgen.Library.Outcome
import Mathlib.Algebra.Order.Ring.Int
import Mathlib.Data.List.Sort
import Mathlib.Data.List.ReduceOption

/-!
# Serve groups of decoding sequences

Every rank stamps the serve group of a sequence by itself, from data it believes to be equal on all ranks.  A group is
kept if the sequence has one; else the session that the prompt continues names it; else the record of an eviction; else
the sequence is packed by its prompt or balanced by its length.

The prompt of a sequence that re-enters after an eviction ends in tokens it decoded, and these can be read on one node
only.  Packing does not read them.  The session index does: where it finds a session of another group for a re-entry,
the record is passed over, and the ranks that find none disagree (`reentry_pinned_elsewhere`).  A re-entry returns to
its group exactly where no such session is consulted, and ranks that consult the same sessions agree on everything
(`groups_replicated`).

Loads are in any type with an addition and a comparison, floats included.
-/

namespace Batchgen.DecodeGroups

open Outcome List Option

variable {uuid : ℕ} {α β : Type} {l : List α} {visited : List ℕ}

inductive SequenceStatus
  | queueing | inPrefill | prefilled | inDecode | onHold | completed | evicted
  deriving DecidableEq

/-- The part of a `SequenceEntry` that placement reads.  `prompt` is the original prompt and `replayed` the number of
decoded tokens that `prompt_length` covers; a sequence that has decoded has a group, or the record of one. -/
structure Sequence where
  uuid : ℕ
  prompt : List ℕ
  replayed : ℕ := 0
  decoded : ℕ := 0
  status : SequenceStatus := .queueing
  evictedTokenIds : Bool := false
  decodeDpGroup : Option ℕ := none
  evictedFromDpGroup : Option ℕ := none
  covered : replayed ≤ decoded
  placed : decodeDpGroup = none → evictedFromDpGroup = none → decoded = 0

variable {batch : List Sequence} {seq : Sequence}

namespace Sequence

variable (seq : Sequence)

def promptLength : ℕ := seq.prompt.length + seq.replayed

/-- `evict_from_decode_dp_group` with the prompt length that the eviction sets. -/
def evictFromDecodeDpGroup : Sequence :=
  { seq with
    status := .evicted, replayed := seq.decoded, decodeDpGroup := none
    evictedFromDpGroup := seq.decodeDpGroup.or seq.evictedFromDpGroup
    covered := Nat.le_refl _
    placed := fun _ hnone => seq.placed (Option.or_eq_none_iff.mp hnone).1 (Option.or_eq_none_iff.mp hnone).2 }

/-- The stamp of a pinned sequence, which leaves the record of its eviction. -/
def pinTo (group : ℕ) : Sequence :=
  { seq with decodeDpGroup := some group, placed := fun hnone => nomatch hnone }

/-- The stamp of the other sequences. -/
def stamp (group : ℕ) : Sequence :=
  { seq with decodeDpGroup := some group, evictedFromDpGroup := none, placed := fun hnone => nomatch hnone }

end Sequence

/-- The errors of the assignment; their texts name the rank and are left out. -/
inductive Error
  | notDivisible
  | missingGroup (sessionKey : String) (group : ℤ)
  | noGroups
  | indexError
  | noRecordedGroup (uuid : ℕ)
  | stopIteration
  | raised (text : String)
  deriving DecidableEq

structure SessionGroupEntry where
  sessionKey : String
  owningGroupId : ℤ

/-- What every rank has alike beside the batch: the layout, the flags, the session index (if it is not empty) and the
packer.  `F` is the type of loads and `P` that of cost profiles. -/
structure Worker (F P : Type) where
  worldSize : ℕ
  groupSize : ℕ
  sessionGroups : Option (List ℕ → Option SessionGroupEntry)
  enablePrefixCache : Bool
  hasRuntimeConfig : Bool
  hasTrajectoryBook : Bool
  trajectoryCommitRequested : List Sequence → Except Error Bool
  hasSequence : ℕ → Bool
  prefillPrefixPoolEnabled : Except Error Bool
  prefixRankPackingMode : List Sequence → Bool
  costProfile : List Sequence → Except Error P
  promptScoreFromLength : P → ℕ → F
  packGroupsForSharing : P → List (List ℕ) → ℕ → List (ℕ × F) → Except Error (List ℕ)
  square : ℕ → F

/-- What a rank reads of the tokens that a sequence decoded, by position. -/
abbrev View := Sequence → ℕ → ℕ

/-- `_trajectory_tokens` up to the prompt length. -/
def trajectoryTokens (view : View) (seq : Sequence) : List ℕ :=
  seq.prompt ++ (List.range seq.replayed).map (view seq)

def getSequence (batch : List Sequence) (uuid : ℕ) : Option Sequence := batch.find? fun seq => seq.uuid = uuid

/-- A write to the sequence with that id. -/
def updateSequence (f : Sequence → Sequence) (batch : List Sequence) (uuid : ℕ) : List Sequence :=
  batch.map fun seq => if seq.uuid = uuid then f seq else seq

def stampAll (batch : List Sequence) (stamps : List (Sequence × ℕ)) : List Sequence :=
  stamps.foldl (fun batch p => updateSequence (·.stamp p.2) batch p.1.uuid) batch

/-- The batch, the loads and the sequences still to be placed, in the loop over the ids. -/
structure Collected (F : Type) where
  batch : List Sequence
  prior : List F
  seqs : List Sequence := []

/-- The recorded groups, and the placed ones for the sequences without a record, in order. -/
def fill : List (Option ℕ) → List ℕ → Except Error (List ℕ)
  | [], _ => .ok []
  | some g :: groups, placed => return g :: (← fill groups placed)
  | none :: _, [] => .error .stopIteration
  | none :: groups, g :: placed => return g :: (← fill groups placed)

namespace Worker

variable {F P : Type} [Zero F] [Add F] [LT F] [DecidableLT F] (w : Worker F P) (view : View)

def numDecodeDpGroups : Except Error ℕ :=
  if w.worldSize % w.groupSize = 0 then .ok (w.worldSize / w.groupSize) else .error .notDivisible

/-- The pin of one sequence. -/
def pinSequence (resolve : List ℕ → Option SessionGroupEntry) (numGroups : ℕ) (seq : Sequence) :
    Except Error (Option (ℕ × ℕ)) :=
  if seq.decodeDpGroup.isSome || !w.hasSequence seq.uuid then .ok none
  else
    match resolve (trajectoryTokens view seq) with
    | none => .ok none
    | some entry =>
      if 0 ≤ entry.owningGroupId ∧ entry.owningGroupId < numGroups then
        .ok (some (seq.uuid, entry.owningGroupId.toNat))
      else .error (.missingGroup entry.sessionKey entry.owningGroupId)

def pinTrajectorySessionGroups (batch : List Sequence) (uuids : List ℕ) (numGroups : ℕ) :
    Except Error (List (ℕ × ℕ)) :=
  match w.sessionGroups with
  | none => .ok []
  | some resolve =>
    if !(w.enablePrefixCache && w.hasRuntimeConfig && w.hasTrajectoryBook) then .ok []
    else do
      let sequences := uuids.filterMap (getSequence batch)
      if ← w.trajectoryCommitRequested sequences then
        return (← sequences.mapM (w.pinSequence view resolve numGroups)).reduceOption
      else return []

/-- `prior[group] += L²`. -/
def addLoad (prior : List F) (group length : ℕ) : Except Error (List F) :=
  if group < prior.length then .ok (prior.modify group (· + w.square length)) else .error .indexError

/-- The loads of the grouped sequences that are not to be assigned. -/
def priorLoad (batch : List Sequence) (uuids : List ℕ) (numDp : ℕ) : Except Error (List F) :=
  batch.foldlM (fun prior seq =>
    match seq.decodeDpGroup with
    | some g => if seq.uuid ∈ uuids then .ok prior else w.addLoad prior g seq.promptLength
    | none => .ok prior) (List.replicate numDp 0)

/-- One round of the loop over the ids. -/
def visit (pins : List (ℕ × ℕ)) (c : Collected F) (uuid : ℕ) : Collected F :=
  match getSequence c.batch uuid with
  | none => c
  | some seq =>
    if seq.decodeDpGroup.isSome then c
    else
      match pins.lookup uuid with
      | some g =>
        { c with
          batch := updateSequence (·.pinTo g) c.batch uuid
          prior := c.prior.modify g (· + w.square seq.promptLength) }
      | none => { c with seqs := c.seqs ++ [seq] }

/-- The group with the least load, the first of them. -/
def leastLoaded : List F → ℕ
  | [] => 0
  | x :: xs => ((xs.zipIdx 1).foldl (fun best y => if y.1 < best.1 then y else best) (x, 0)).2

/-- `assign_decode_dp_groups`: the longest first, each to the group that is loaded least then. -/
def assignLengths (lengths : List ℕ) (numDp : ℕ) (prior : List F) : Except Error (List ℕ) :=
  if numDp = 0 then .error .noGroups
  else
    let order := lengths.zipIdx.insertionSort fun a b => b.1 < a.1 ∨ a.1 = b.1 ∧ a.2 ≤ b.2
    .ok (order.foldl (fun (load, groups) (length, i) =>
      (load.modify (leastLoaded load) (· + w.square length), groups.set i (leastLoaded load)))
      (prior, List.replicate lengths.length 0)).2

def balance (c : Collected F) (numDp : ℕ) : Except Error (List ℕ) := do
  let prior ← c.seqs.foldlM (fun prior seq =>
    match seq.evictedFromDpGroup with
    | some g => w.addLoad prior g seq.promptLength
    | none => .ok prior) c.prior
  let fresh := c.seqs.filter (·.evictedFromDpGroup.isNone)
  fill (c.seqs.map (·.evictedFromDpGroup)) (← w.assignLengths (fresh.map (·.promptLength)) numDp prior)

def owesPrefill (seq : Sequence) : Bool :=
  seq.status = .queueing || seq.status = .inPrefill || seq.status = .evicted

def packDecodeDpGroupsForSharing (c : Collected F) (numDp : ℕ) : Except Error (List ℕ) := do
  let profile ← w.costProfile c.seqs
  let load := fun seq : Sequence => w.promptScoreFromLength profile seq.promptLength
  match c.seqs.find? fun seq =>
    seq.evictedFromDpGroup.isNone && (seq.status = .evicted || seq.evictedTokenIds) with
  | some seq => .error (.noRecordedGroup seq.uuid)
  | none =>
    let queued := c.seqs.filter (·.evictedFromDpGroup.isNone)
    let fixed := c.seqs.filterMap (fun seq => seq.evictedFromDpGroup.map (·, load seq)) ++
      c.batch.filterMap fun seq => if owesPrefill seq then seq.decodeDpGroup.map (·, load seq) else none
    fill (c.seqs.map (·.evictedFromDpGroup))
      (← w.packGroupsForSharing profile (queued.map (trajectoryTokens view)) numDp fixed)

def placeGroups (c : Collected F) (numDp : ℕ) : Except Error (List ℕ) := do
  if 1 < numDp then
    if (← w.prefillPrefixPoolEnabled) && w.prefixRankPackingMode c.seqs then
      w.packDecodeDpGroupsForSharing view c numDp
    else w.balance c numDp
  else w.balance c numDp

/-- The pins, the loads and the loop over the ids. -/
def collect (batch : List Sequence) (uuids : List ℕ) (numDp : ℕ) : Except Error (Collected F) := do
  let pins ← w.pinTrajectorySessionGroups view batch uuids numDp
  let prior ← w.priorLoad batch uuids numDp
  return uuids.foldl (w.visit pins) ⟨batch, prior, []⟩

/-- `_assign_decode_dp_groups`: how it ends, and the batch it leaves. -/
def assignDecodeDpGroups (uuids : List ℕ) (batch : List Sequence) : Except Error Unit × List Sequence :=
  if w.groupSize ≤ 1 ∨ uuids = [] then (.ok (), batch)
  else
    match w.numDecodeDpGroups with
    | .error e => (.error e, batch)
    | .ok numDp =>
      match w.collect view batch uuids numDp with
      | .error e => (.error e, batch)
      | .ok c =>
        if c.seqs = [] then (.ok (), c.batch)
        else
          match w.placeGroups view c numDp with
          | .error e => (.error e, c.batch)
          | .ok groups => (.ok (), stampAll c.batch (c.seqs.zip groups))

/-- The session that a rank consults for a sequence without a group. -/
def sessionOf (batch : List Sequence) (uuids : List ℕ) (seq : Sequence) : Option SessionGroupEntry :=
  match w.sessionGroups, w.trajectoryCommitRequested (uuids.filterMap (getSequence batch)) with
  | some resolve, .ok true =>
    if w.enablePrefixCache && w.hasRuntimeConfig && w.hasTrajectoryBook && w.hasSequence seq.uuid then
      resolve (trajectoryTokens view seq)
    else none
  | _, _ => none

end Worker

/-- A sequence of the list that was evicted from group `g` and has no group now. -/
structure Reenters (batch : List Sequence) (uuids : List ℕ) (seq : Sequence) (g : ℕ) : Prop where
  listed : seq.uuid ∈ uuids
  found : getSequence batch seq.uuid = some seq
  ungrouped : seq.decodeDpGroup = none
  record : seq.evictedFromDpGroup = some g

/-! ### The batch -/

theorem mem_of_getSequence (h : getSequence batch uuid = some seq) : seq ∈ batch ∧ seq.uuid = uuid :=
  ⟨mem_of_find?_eq_some h, by simpa using find?_some h⟩

theorem getSequence_updateSequence {f : Sequence → Sequence} (hf : ∀ seq, (f seq).uuid = seq.uuid)
    (batch : List Sequence) (uuid other : ℕ) :
    getSequence (updateSequence f batch uuid) other =
      if other = uuid then (getSequence batch other).map f else getSequence batch other := by
  induction batch with
  | nil => simp [getSequence, updateSequence]
  | cons seq rest ih =>
    simp only [getSequence, updateSequence, map_cons, find?_cons] at ih ⊢
    grind

/-- A sequence with neither a group nor a record has decoded nothing, so that all ranks read the same. -/
theorem trajectoryTokens_eq_prompt (view : View) (hgroup : seq.decodeDpGroup = none)
    (hrecord : seq.evictedFromDpGroup = none) : trajectoryTokens view seq = seq.prompt := by
  have hdecoded := seq.placed hgroup hrecord
  have hreplayed : seq.replayed = 0 := Nat.le_zero.mp (hdecoded ▸ seq.covered)
  simp [trajectoryTokens, hreplayed]

/-! ### The placed groups -/

/-- A recorded group is kept. -/
theorem fill_ok {groups : List (Option ℕ)} {placed filled : List ℕ} (h : fill groups placed = .ok filled) :
    List.Forall₂ (fun group g => ∀ recorded, group = some recorded → g = recorded) groups filled := by
  induction groups generalizing placed filled with
  | nil =>
    cases h
    exact .nil
  | cons group groups ih =>
    cases group with
    | some g =>
      obtain ⟨rest, hrest, heq⟩ := except_bind_ok h
      cases heq
      exact .cons (by simp) (ih hrest)
    | none =>
      cases placed with
      | nil => cases h
      | cons g placed =>
        obtain ⟨rest, hrest, heq⟩ := except_bind_ok h
        cases heq
        exact .cons (by simp) (ih hrest)

/-- The last stamp of a sequence stays; here all its stamps are the same. -/
theorem stampAll_group {g : ℕ} {stamps : List (Sequence × ℕ)} (hsame : ∀ p ∈ stamps, p.1.uuid = uuid → p.2 = g)
    (hsome : (getSequence batch uuid).isSome)
    (h : (∃ p ∈ stamps, p.1.uuid = uuid) ∨ (getSequence batch uuid).bind (·.decodeDpGroup) = some g) :
    (getSequence (stampAll batch stamps) uuid).bind (·.decodeDpGroup) = some g := by
  induction stamps generalizing batch with
  | nil => simpa [stampAll] using h
  | cons p stamps ih =>
    have hget := getSequence_updateSequence (f := (·.stamp p.2)) (fun _ => rfl) batch p.1.uuid uuid
    refine ih (fun q hq => hsame q (mem_cons_of_mem p hq)) ?_ ?_
    · grind
    · by_cases hp : p.1.uuid = uuid
      · refine Or.inr ?_
        obtain ⟨seq, hseq⟩ := isSome_iff_exists.mp hsome
        rw [hget, if_pos hp.symm, hseq, ← hsame p mem_cons_self hp]
        rfl
      · grind

namespace Worker

variable {F P : Type} {w : Worker F P} {view view' : View} {uuids groups : List ℕ} {numDp : ℕ} {c : Collected F}
  {pins : List (ℕ × ℕ)} {resolve : List ℕ → Option SessionGroupEntry}

/-! ### What the ranks read -/

theorem mapM_congr {f g : α → Except Error β} (h : ∀ a ∈ l, f a = g a) : l.mapM f = l.mapM g := by
  induction l with
  | nil => rfl
  | cons a l ih =>
    rw [mapM_cons, mapM_cons, h a mem_cons_self, ih fun b hb => h b (mem_cons_of_mem a hb)]

theorem mem_mapM_iff {f : α → Except Error β} {bs : List β} (h : l.mapM f = .ok bs) :
    (∀ a ∈ l, ∃ b, f a = .ok b) ∧ ∀ b, b ∈ bs ↔ ∃ a ∈ l, f a = .ok b := by
  induction l generalizing bs with
  | nil =>
    cases h
    simp
  | cons a l ih =>
    rw [mapM_cons] at h
    obtain ⟨b, hb, h⟩ := except_bind_ok h
    obtain ⟨rest, hrest, h⟩ := except_bind_ok h
    cases h
    have := ih hrest
    grind

theorem pinSequence_eq (h : ∀ g, seq.decodeDpGroup = none → seq.evictedFromDpGroup = some g →
      w.hasSequence seq.uuid → resolve (trajectoryTokens view seq) = resolve (trajectoryTokens view' seq)) :
    w.pinSequence view resolve numDp seq = w.pinSequence view' resolve numDp seq := by
  unfold pinSequence
  split
  · rfl
  · next hopen =>
    obtain ⟨hgroup, hhas⟩ : seq.decodeDpGroup = none ∧ w.hasSequence seq.uuid := by simpa using hopen
    cases hrecord : seq.evictedFromDpGroup with
    | none => rw [trajectoryTokens_eq_prompt view hgroup hrecord, trajectoryTokens_eq_prompt view' hgroup hrecord]
    | some g => rw [h g hgroup hrecord hhas]

theorem pinTrajectorySessionGroups_eq
    (h : ∀ seq g, Reenters batch uuids seq g → w.sessionOf view batch uuids seq = w.sessionOf view' batch uuids seq) :
    w.pinTrajectorySessionGroups view batch uuids numDp = w.pinTrajectorySessionGroups view' batch uuids numDp := by
  unfold pinTrajectorySessionGroups
  unfold sessionOf at h
  split
  · rfl
  next resolve hindex =>
  split
  · rfl
  next hflags =>
  dsimp only
  rcases hcommit : w.trajectoryCommitRequested (uuids.filterMap (getSequence batch)) with e | - | -
  · rfl
  · rfl
  · have hpins := mapM_congr (l := uuids.filterMap (getSequence batch))
      (f := w.pinSequence view resolve numDp) (g := w.pinSequence view' resolve numDp) fun seq hseq =>
        pinSequence_eq fun g hgroup hrecord hhas => by
          obtain ⟨uuid, huuid, hget⟩ := mem_filterMap.mp hseq
          obtain rfl := (mem_of_getSequence hget).2
          have hsame := h seq g ⟨huuid, hget, hgroup, hrecord⟩
          rw [hindex, hcommit] at hsame
          simp_all
    simp only [hpins]

/-- The pins are the sessions that the rank consults. -/
theorem pinTrajectorySessionGroups_ok (h : w.pinTrajectorySessionGroups view batch uuids numDp = .ok pins) :
    (∀ seq g, Reenters batch uuids seq g → ∀ entry ∈ w.sessionOf view batch uuids seq,
      0 ≤ entry.owningGroupId ∧ (seq.uuid, entry.owningGroupId.toNat) ∈ pins) ∧
    ∀ p ∈ pins, ∃ seq, getSequence batch p.1 = some seq ∧
      ∃ entry ∈ w.sessionOf view batch uuids seq, p.2 = entry.owningGroupId.toNat := by
  unfold pinTrajectorySessionGroups at h
  unfold sessionOf
  split at h
  · next hindex =>
    cases h
    simp [hindex]
  · next resolve hindex =>
    split at h
    · cases h
      grind
    obtain ⟨requested, hcommit, h⟩ := except_bind_ok h
    rw [hindex, hcommit]
    split at h
    · next hflags hrequested =>
      obtain rfl := hrequested
      obtain ⟨found, hfound, h⟩ := except_bind_ok h
      cases h
      obtain ⟨hall, hmem⟩ := mem_mapM_iff hfound
      simp only [reduceOption_mem_iff, hmem, mem_filterMap]
      constructor
      · rintro seq g ⟨huuid, hget, hgroup, -⟩ entry hentry
        obtain ⟨pin, hpin⟩ := hall seq (mem_filterMap.mpr ⟨_, huuid, hget⟩)
        have hown : 0 ≤ entry.owningGroupId ∧ pin = some (seq.uuid, entry.owningGroupId.toNat) := by
          unfold pinSequence at hpin
          grind
        exact ⟨hown.1, seq, ⟨_, huuid, hget⟩, hown.2 ▸ hpin⟩
      · rintro p ⟨seq, ⟨uuid, -, hget⟩, hpin⟩
        have huuid := (mem_of_getSequence hget).2
        unfold pinSequence at hpin
        grind
    · next hrequested =>
      cases h
      grind

/-- The pin of a re-entry is the group of its session. -/
theorem lookup_pins {g : ℕ} (hseq : Reenters batch uuids seq g)
    (h : w.pinTrajectorySessionGroups view batch uuids numDp = .ok pins) :
    pins.lookup seq.uuid = (w.sessionOf view batch uuids seq).map (·.owningGroupId.toNat) := by
  obtain ⟨hpinned, hpins⟩ := pinTrajectorySessionGroups_ok h
  cases hlookup : pins.lookup seq.uuid with
  | none =>
    refine (Option.map_eq_none_iff.mpr (Option.eq_none_iff_forall_not_mem.mpr fun entry hentry => ?_)).symm
    simpa using lookup_eq_none_iff.mp hlookup _ (hpinned seq g hseq entry hentry).2
  | some v =>
    obtain ⟨l₁, l₂, heq, -⟩ := lookup_eq_some_iff.mp hlookup
    obtain ⟨other, hother, entry, hentry, hv⟩ := hpins (seq.uuid, v) (by simp [heq])
    obtain rfl : other = seq := Option.some.inj (hother.symm.trans hseq.found)
    rw [Option.mem_def.mp hentry]
    exact congrArg some hv

/-! ### What the loop over the ids collects -/

/-- The sequences to be placed have neither a group nor a pin.  Until its id is visited, a sequence is as it was; then
one without a pin is still so, and among those to be placed, and one with a pin has the group of the pin. -/
structure Collects (batch : List Sequence) (pins : List (ℕ × ℕ)) (visited : List ℕ) (c : Collected F) : Prop where
  ungrouped : ∀ seq ∈ c.seqs, seq.decodeDpGroup = none
  unpinned : ∀ uuid, (pins.lookup uuid = none ∨ uuid ∉ visited) → getSequence c.batch uuid = getSequence batch uuid
  found : ∀ seq ∈ c.seqs, getSequence batch seq.uuid = some seq ∧ pins.lookup seq.uuid = none
  pinned : ∀ uuid ∈ visited, ∀ g, pins.lookup uuid = some g → ∀ seq, getSequence batch uuid = some seq →
    seq.decodeDpGroup = none → (getSequence c.batch uuid).bind (·.decodeDpGroup) = some g
  collected : ∀ uuid ∈ visited, pins.lookup uuid = none → ∀ seq, getSequence batch uuid = some seq →
    seq.decodeDpGroup = none → seq ∈ c.seqs

variable [Add F]

theorem Collects.visit (h : Collects batch pins visited c) (uuid : ℕ) :
    Collects batch pins (visited ++ [uuid]) (w.visit pins c uuid) := by
  obtain ⟨hungrouped, hunpinned, hfound, hpinned, hcollected⟩ := h
  unfold Worker.visit
  split
  · next hnone => constructor <;> grind
  · next seq hseq =>
    split
    · constructor <;> grind
    · next hsome =>
      have hgroup : seq.decodeDpGroup = none := by simpa using hsome
      split
      · next g hpin =>
        have hget := getSequence_updateSequence (f := (·.pinTo g)) (fun _ => rfl) c.batch uuid
        constructor <;> grind [Sequence.pinTo]
      · next hpin =>
        have huuid := (mem_of_getSequence hseq).2
        constructor <;> grind

theorem Collects.foldl (h : Collects batch pins visited c) (uuids : List ℕ) :
    Collects batch pins (visited ++ uuids) (uuids.foldl (w.visit pins) c) := by
  induction uuids generalizing c visited with
  | nil => simpa using h
  | cons uuid uuids ih => simpa using ih (h.visit uuid)

theorem collect_ok [Zero F] (h : w.collect view batch uuids numDp = .ok c) :
    ∃ pins, w.pinTrajectorySessionGroups view batch uuids numDp = .ok pins ∧ Collects batch pins uuids c := by
  obtain ⟨pins, hpins, h⟩ := except_bind_ok h
  obtain ⟨prior, -, h⟩ := except_bind_ok h
  cases h
  have hstart : Collects batch pins [] ⟨batch, prior, []⟩ := by
    constructor <;> simp
  exact ⟨pins, hpins, by simpa using hstart.foldl uuids⟩

/-! ### Where the sequences are placed -/

variable [LT F] [DecidableLT F]

theorem placeGroups_eq (h : ∀ seq ∈ c.seqs, seq.decodeDpGroup = none) :
    w.placeGroups view c numDp = w.placeGroups view' c numDp := by
  have hprompts : (c.seqs.filter (·.evictedFromDpGroup.isNone)).map (trajectoryTokens view) =
      (c.seqs.filter (·.evictedFromDpGroup.isNone)).map (trajectoryTokens view') := by
    refine map_congr_left fun seq hseq => ?_
    obtain ⟨hmem, hrecord⟩ := mem_filter.mp hseq
    rw [isNone_iff_eq_none] at hrecord
    rw [trajectoryTokens_eq_prompt view (h seq hmem) hrecord, trajectoryTokens_eq_prompt view' (h seq hmem) hrecord]
  simp only [placeGroups, packDecodeDpGroupsForSharing, hprompts]

theorem placeGroups_ok (h : w.placeGroups view c numDp = .ok groups) :
    List.Forall₂ (fun seq g => ∀ recorded, seq.evictedFromDpGroup = some recorded → g = recorded) c.seqs groups := by
  have hbalance : w.balance c numDp = .ok groups → ∃ placed,
      fill (c.seqs.map (·.evictedFromDpGroup)) placed = .ok groups := by
    intro h
    obtain ⟨prior, -, h⟩ := except_bind_ok h
    obtain ⟨placed, -, h⟩ := except_bind_ok h
    exact ⟨placed, h⟩
  have hfill : ∃ placed, fill (c.seqs.map (·.evictedFromDpGroup)) placed = .ok groups := by
    unfold placeGroups at h
    split at h
    · obtain ⟨enabled, -, h⟩ := except_bind_ok h
      split at h
      · obtain ⟨profile, -, h⟩ := except_bind_ok h
        split at h
        · cases h
        · obtain ⟨placed, -, h⟩ := except_bind_ok h
          exact ⟨placed, h⟩
      · exact hbalance h
    · exact hbalance h
  obtain ⟨placed, hplaced⟩ := hfill
  exact forall₂_map_left_iff.mp (fill_ok hplaced)

/-- A re-entry gets the group of the session that the rank consults for it, or else that of its record. -/
theorem stamped_group [Zero F] {g : ℕ} {batch' : List Sequence} (hseq : Reenters batch uuids seq g)
    (hrun : w.assignDecodeDpGroups view uuids batch = (.ok (), batch')) (hsize : 1 < w.groupSize) :
    (∀ entry ∈ w.sessionOf view batch uuids seq, 0 ≤ entry.owningGroupId) ∧
      (getSequence batch' seq.uuid).bind (·.decodeDpGroup) =
        some (((w.sessionOf view batch uuids seq).map (·.owningGroupId.toNat)).getD g) := by
  unfold assignDecodeDpGroups at hrun
  rw [if_neg (by simp [Nat.not_le.mpr hsize, ne_nil_of_mem hseq.listed])] at hrun
  split at hrun
  · cases hrun
  split at hrun
  · cases hrun
  next c hc =>
  obtain ⟨pins, hpins, hcollects⟩ := collect_ok hc
  refine ⟨fun entry hentry => ((pinTrajectorySessionGroups_ok hpins).1 seq g hseq entry hentry).1, ?_⟩
  rw [← lookup_pins hseq hpins]
  cases hlookup : pins.lookup seq.uuid with
  | some v =>
    have hstays := hcollects.pinned _ hseq.listed v hlookup seq hseq.found hseq.ungrouped
    split at hrun
    · cases hrun
      exact hstays
    split at hrun
    · cases hrun
    cases hrun
    refine stampAll_group (fun q hq hquuid => ?_) ?_ (Or.inr hstays)
    · have hfound := (hcollects.found q.1 (of_mem_zip hq).1).2
      rw [hquuid, hlookup] at hfound
      cases hfound
    · obtain ⟨pinned, hpinned, -⟩ := Option.bind_eq_some_iff.mp hstays
      rw [hpinned]
      rfl
  | none =>
    have hmem := hcollects.collected _ hseq.listed hlookup seq hseq.found hseq.ungrouped
    rw [if_neg (ne_nil_of_mem hmem)] at hrun
    split at hrun
    · cases hrun
    next groups hgroups =>
    cases hrun
    obtain ⟨hlength, hzip⟩ := forall₂_iff_zip.mp (placeGroups_ok hgroups)
    obtain ⟨p, hp, hfst⟩ := mem_map.mp ((map_fst_zip hlength.le).symm ▸ hmem)
    refine stampAll_group (fun q hq hquuid => ?_) ?_ (Or.inl ⟨p, hp, by rw [hfst]⟩)
    · have hfound := (hcollects.found q.1 (of_mem_zip hq).1).1
      have hsame : q.1 = seq := Option.some.inj (hfound.symm.trans (hquuid ▸ hseq.found))
      exact hzip hq g (hsame ▸ hseq.record)
    · rw [hcollects.unpinned _ (Or.inl hlookup), hseq.found]
      rfl

/-- **Ranks that consult the same session for every re-entry stamp the same groups**, whatever they read of decoded
tokens, and **a re-entry returns to the group it was evicted from exactly when** the rank consults no session for it, or
one of that group. -/
theorem groups_replicated [Zero F] {Rank : Type} (w : Worker F P) (view : Rank → View) (batch : List Sequence)
    (uuids : List ℕ) :
    ((∀ r r' seq g, Reenters batch uuids seq g →
        w.sessionOf (view r) batch uuids seq = w.sessionOf (view r') batch uuids seq) →
      ∀ r r', w.assignDecodeDpGroups (view r) uuids batch = w.assignDecodeDpGroups (view r') uuids batch) ∧
    ∀ r batch', w.assignDecodeDpGroups (view r) uuids batch = (.ok (), batch') → 1 < w.groupSize →
      ∀ seq g, Reenters batch uuids seq g →
        ((getSequence batch' seq.uuid).bind (·.decodeDpGroup) = some g ↔
          ∀ entry ∈ w.sessionOf (view r) batch uuids seq, entry.owningGroupId = g) := by
  constructor
  · intro h r r'
    have hcollect : ∀ numDp, w.collect (view r) batch uuids numDp = w.collect (view r') batch uuids numDp := by
      intro numDp
      simp only [collect, pinTrajectorySessionGroups_eq (h r r')]
    simp only [assignDecodeDpGroups, hcollect]
    split
    · rfl
    split
    · rfl
    split
    · rfl
    · next c hc =>
      obtain ⟨pins, -, hcollects⟩ := collect_ok hc
      rw [placeGroups_eq hcollects.ungrouped]
  · intro r batch' hrun hsize seq g hseq
    obtain ⟨hown, hstamped⟩ := stamped_group hseq hrun hsize
    rw [hstamped]
    cases hsession : w.sessionOf (view r) batch uuids seq with
    | none => simp
    | some entry =>
      have := hown entry hsession
      simp only [Option.map_some, Option.getD_some, Option.some.injEq, Option.mem_def, forall_eq']
      omega

end Worker

/-- Four ranks in two groups, one on each node; a session of group 1 was committed at the tokens 5, 7. -/
def twoNodes : Worker ℕ Unit where
  worldSize := 4
  groupSize := 2
  sessionGroups := some fun tokens => if tokens.take 2 = [5, 7] then some ⟨"session", 1⟩ else none
  enablePrefixCache := true
  hasRuntimeConfig := true
  hasTrajectoryBook := true
  trajectoryCommitRequested := fun _ => .ok true
  hasSequence := fun _ => true
  prefillPrefixPoolEnabled := .ok false
  prefixRankPackingMode := fun _ => false
  costProfile := fun _ => .ok ()
  promptScoreFromLength := fun _ length => length
  packGroupsForSharing := fun _ prompts _ _ => .ok (prompts.map fun _ => 0)
  square := fun length => length * length

/-- A sequence that decoded one token on group 0 and was evicted. -/
def reentry (prompt : List ℕ) : Sequence :=
  Sequence.evictFromDecodeDpGroup
    { uuid := 0, prompt, decoded := 1, decodeDpGroup := some 0, covered := Nat.zero_le 1, placed := nofun }

/-- The token 7 can be read on the first node. -/
def readOn (rank : ℕ) : View := fun _ _ => if rank < 2 then 7 else 0

/-- A prompt that no session continues: the second node stamps what the first does, the group of the record. -/
theorem groups_replicated_two_nodes :
    twoNodes.assignDecodeDpGroups (readOn 2) [0] [reentry [6]] =
        twoNodes.assignDecodeDpGroups (readOn 0) [0] [reentry [6]] ∧
      (getSequence (twoNodes.assignDecodeDpGroups (readOn 0) [0] [reentry [6]]).2 0).bind (·.decodeDpGroup) =
        some 0 := by
  have hsession : ∀ r seq g, Reenters [reentry [6]] [0] seq g →
      twoNodes.sessionOf (readOn r) [reentry [6]] [0] seq = none := by
    intro r seq g hseq
    cases mem_singleton.mp (mem_of_getSequence hseq.found).1
    rfl
  have hreenters : Reenters [reentry [6]] [0] (reentry [6]) 0 := ⟨by decide, rfl, rfl, rfl⟩
  obtain ⟨hsame, hreturns⟩ := Worker.groups_replicated twoNodes readOn [reentry [6]] [0]
  refine ⟨hsame (fun r r' seq g hseq => (hsession r seq g hseq).trans (hsession r' seq g hseq).symm) 2 0, ?_⟩
  refine (hreturns 0 _ (Prod.ext (by decide) rfl) (by decide) _ 0 hreenters).mpr ?_
  rw [hsession 0 _ 0 hreenters]
  simp

/-- The first node pins the sequence to the group of the session, the second returns it to its own. -/
theorem reentry_pinned_elsewhere :
    let stamped := fun rank => getSequence (twoNodes.assignDecodeDpGroups (readOn rank) [0] [reentry [5]]).2 0
    (reentry [5]).evictedFromDpGroup = some 0 ∧
      (stamped 0).map (·.decodeDpGroup) = some (some 1) ∧ (stamped 2).map (·.decodeDpGroup) = some (some 0) := by
  decide

end Batchgen.DecodeGroups
