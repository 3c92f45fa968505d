import Batchgen.WavePlan.Schedule
import Mathlib.Algebra.BigOperators.Group.Finset.Sigma

/-!
# Where the tokens of a wave go

Every prompt is the chain of segments it is a member of, followed by its tail.  Counting the segments by
member instead of by prompt gives what a plan computes: all prompt tokens, less those a segment saves
each member but one, and less those a loaded segment saves all of them.
-/

namespace Batchgen.WavePlan

open List

variable {x : PlanItem}

def tokensOf (segments : List PlanSegment) (seg : ℕ) : ℕ :=
  (segments[seg]?.map PlanSegment.tokens).getD 0

def membersOf (segments : List PlanSegment) (seg : ℕ) : List ℕ :=
  (segments[seg]?.map PlanSegment.members).getD []

def loadedOf (segments : List PlanSegment) (seg : ℕ) : Bool :=
  (segments[seg]?.map PlanSegment.materialized).getD false

/-- The tokens of the segments a prompt is a member of. -/
def sharedTokens (segments : List PlanSegment) (index : ℕ) : ℕ :=
  ∑ seg ∈ Finset.range segments.length,
    if index ∈ membersOf segments seg then tokensOf segments seg else 0

/-- The tokens an item with this key computes. -/
def keyTokens (prompts : List Tokens) (segments : List PlanSegment) : ItemKey → ℕ
  | .segment seg => if loadedOf segments seg then 0 else tokensOf segments seg
  | .tail index => (prompts.map List.length).getD index 0 - sharedTokens segments index

section

variable {prompts : List Tokens} {blockTokens : ℕ} {segments : List PlanSegment} {items : List PlanItem}

/-- A chain ends where its tokens end. -/
theorem chainEnd_eq_sum (hseg : SegmentsValid prompts blockTokens segments) {chain : List ℕ}
    (hlinked : LinkedFrom (parentOf segments) none chain) (hknown : ∀ seg ∈ chain, seg < segments.length) :
    chainEnd segments chain = (chain.map (tokensOf segments)).sum := by
  induction chain using List.reverseRecOn with
  | nil => rfl
  | append_singleton chain seg ih =>
    obtain ⟨hchain, hlast⟩ := linkedFrom_append.mp hlinked
    have hbefore := ih hchain fun s hs => hknown s (mem_append_left _ hs)
    have hlt := hknown seg (mem_append_right _ (mem_singleton.mpr rfl))
    have hget := getElem?_eq_getElem hlt
    have hvalid := hseg seg _ hget
    have hparent : (segments[seg]).parentId = chain.getLast? := by
      have hup := hlast.1
      rwa [parentOf, hget, Option.bind_some, Option.or_none] at hup
    have hstart : (segments[seg]).tokenStart = chainEnd segments chain := by
      rw [chainEnd]
      cases hup : chain.getLast? with
      | none => exact hvalid.root (hparent.trans hup)
      | some up =>
        obtain ⟨-, parent, hpget, hend, -⟩ := hvalid.parent up (hparent.trans hup)
        have hparentEnd : endOf segments up = parent.tokenEnd := by
          rw [endOf, hpget]
          rfl
        exact hend.symm.trans hparentEnd.symm
    have hnonempty := hvalid.nonempty
    rw [map_append, sum_append, ← hbefore, ← hstart, chainEnd, getLast?_concat]
    simp only [endOf, tokensOf, hget, Option.map_some, Option.getD_some, map_cons, map_nil,
      sum_singleton, PlanSegment.tokens]
    omega

theorem membersOf_of_getElem? {seg : ℕ} {s : PlanSegment} (hs : segments[seg]? = some s) :
    membersOf segments seg = s.members := by
  rw [membersOf, hs]
  rfl

section

variable (hseg : SegmentsValid prompts blockTokens segments) (h : ItemsValid prompts segments items) (hx : x ∈ items)
include hseg h hx

/-- A tail starts behind all that its prompt shares. -/
theorem ItemsValid.tail_start (hkind : x.kind = .tail) : x.tokenStart = sharedTokens segments x.ref := by
  have hvalid := h.valid x hx
  obtain ⟨-, -, -, -, hmem⟩ := hvalid.tail hkind
  have hnodup : x.prefixSegments.Nodup := (hvalid.linked.sorted fun _ _ _ hup => parentOf_lt hseg hup).1.nodup
  have hfilter : x.prefixSegments.toFinset =
      (Finset.range segments.length).filter fun seg => x.ref ∈ membersOf segments seg := by
    ext seg
    rw [mem_toFinset, hmem, Finset.mem_filter, Finset.mem_range]
    constructor
    · rintro ⟨s, hs, hin⟩
      exact ⟨(List.getElem?_eq_some_iff.mp hs).1, by rwa [membersOf_of_getElem? hs]⟩
    · rintro ⟨hlt, hin⟩
      have hget := getElem?_eq_getElem hlt
      exact ⟨_, hget, by rwa [membersOf_of_getElem? hget] at hin⟩
  rw [hvalid.start, chainEnd_eq_sum hseg hvalid.linked hvalid.known, sharedTokens, ← Finset.sum_filter,
    ← hfilter, sum_toFinset _ hnodup]

/-- What an item computes is told by its key. -/
theorem ItemsValid.tokens_eq : (if x.kind = .materialize then 0 else x.tokens) = keyTokens prompts segments x.key := by
  have hvalid := h.valid x hx
  cases hkind : x.kind with
  | tail =>
    obtain ⟨tokens, htokens, hend, -⟩ := hvalid.tail hkind
    have hkey : x.key = .tail x.ref := key_eq_tail.mpr ⟨hkind, rfl⟩
    rw [hkey, keyTokens, LayoutValid.lengths_getD htokens, ← h.tail_start hseg hx hkind, ← hend]
    simp [PlanItem.tokens]
  | segment =>
    obtain ⟨s, hs, hloaded, hstart, hend, -⟩ := hvalid.segment (by rw [hkind]; simp)
    have hkey : x.key = .segment x.ref := key_eq_segment.mpr ⟨by rw [hkind]; simp, rfl⟩
    have hnot : s.materialized = false := by simpa [hkind] using hloaded
    rw [hkey, keyTokens, loadedOf, tokensOf, hs]
    simp [hnot, PlanItem.tokens, PlanSegment.tokens, hstart, hend]
  | materialize =>
    obtain ⟨s, hs, hloaded, -⟩ := hvalid.segment (by rw [hkind]; simp)
    have hkey : x.key = .segment x.ref := key_eq_segment.mpr ⟨by rw [hkind]; simp, rfl⟩
    have hyes : s.materialized = true := by simpa [hkind] using hloaded
    rw [hkey, keyTokens, loadedOf, hs]
    simp [hyes]

end

theorem ItemsValid.keys_perm (h : ItemsValid prompts segments items) :
    (items.map PlanItem.key).Perm ((range segments.length).map ItemKey.segment ++
      (range prompts.length).map ItemKey.tail) := by
  refine (perm_ext_iff_of_nodup h.keys ?_).mpr fun key => ?_
  · refine nodup_append.mpr ⟨nodup_range.map fun a b heq => ItemKey.segment.inj heq,
      nodup_range.map fun a b heq => ItemKey.tail.inj heq, ?_⟩
    simp
  · cases key with
    | segment seg => simpa using h.hasSegments seg
    | tail index => simpa using h.hasTails index

theorem sum_range_eq (f : ℕ → ℕ) (n : ℕ) : ((range n).map f).sum = ∑ i ∈ Finset.range n, f i :=
  rfl

theorem sum_segments (f : Option PlanSegment → ℕ) (segments : List PlanSegment) :
    ∑ seg ∈ Finset.range segments.length, f segments[seg]? = (segments.map fun s => f (some s)).sum := by
  rw [← sum_range_eq]
  congr 1
  refine ext_getElem (by simp) fun i hi _ => ?_
  rw [length_map, length_range] at hi
  simp [hi]

section

variable (hseg : SegmentsValid prompts blockTokens segments)
include hseg

/-- The tokens of the forward items. -/
theorem ItemsValid.forward_tokens (h : ItemsValid prompts segments items) :
    sumTokens (forwardItems items) = (∑ seg ∈ Finset.range segments.length, keyTokens prompts segments (.segment seg)) +
        ∑ index ∈ Finset.range prompts.length, keyTokens prompts segments (.tail index) := by
  have hitems : sumTokens (forwardItems items) =
      (items.map fun x => if x.kind = .materialize then 0 else x.tokens).sum := by
    clear h
    induction items with
    | nil => rfl
    | cons x items ih =>
      rw [map_cons, sum_cons, ← ih]
      by_cases hload : x.kind = .materialize <;> simp [forwardItems, sumTokens, hload]
  have hkeys : (items.map fun x => if x.kind = .materialize then 0 else x.tokens) =
      (items.map PlanItem.key).map (keyTokens prompts segments) := by
    rw [map_map]
    exact map_congr_left fun x hx => h.tokens_eq hseg hx
  rw [hitems, hkeys, (h.keys_perm.map _).sum_eq, map_append, sum_append, map_map,
    map_map, ← sum_range_eq, ← sum_range_eq]
  rfl

/-- Counting the shared tokens by segment. -/
theorem sum_sharedTokens :
    ∑ index ∈ Finset.range prompts.length, sharedTokens segments index = ∑ seg ∈ Finset.range segments.length,
        (membersOf segments seg).length * tokensOf segments seg := by
  unfold sharedTokens
  rw [Finset.sum_comm]
  refine Finset.sum_congr rfl fun seg hlt => ?_
  have hget := getElem?_eq_getElem (Finset.mem_range.mp hlt)
  have hvalid := hseg seg _ hget
  have hmembers : ((Finset.range prompts.length).filter fun index => index ∈ membersOf segments seg) =
      (membersOf segments seg).toFinset := by
    ext index
    rw [Finset.mem_filter, Finset.mem_range, mem_toFinset, and_iff_right_iff_imp, membersOf_of_getElem? hget]
    intro hindex
    obtain ⟨tokens, htokens, -⟩ := hvalid.inside index hindex
    exact (List.getElem?_eq_some_iff.mp htokens).1
  have hcard : (membersOf segments seg).toFinset.card = (membersOf segments seg).length := by
    rw [membersOf_of_getElem? hget]
    exact toFinset_card_of_nodup hvalid.nodup
  rw [← Finset.sum_filter, hmembers, Finset.sum_const, hcard, Nat.nsmul_eq_mul]

/-- What a plan computes, saves and loads is all the prompts have. -/
theorem ItemsValid.tokens_conserved (h : ItemsValid prompts segments items)
    (hnonempty : ∀ tokens ∈ prompts, tokens ≠ []) :
    sumTokens (forwardItems items) + (segments.map fun seg => (if seg.materialized then seg.members.length
        else seg.members.length - 1) * seg.tokens).sum = (prompts.map length).sum := by
  have hsaved := sum_segments (fun s => (if (s.map PlanSegment.materialized).getD false then
        ((s.map PlanSegment.members).getD []).length
      else ((s.map PlanSegment.members).getD []).length - 1) * (s.map PlanSegment.tokens).getD 0) segments
  have htotal : (prompts.map List.length).sum =
      ∑ index ∈ Finset.range prompts.length, (prompts.map List.length).getD index 0 := by
    rw [← sum_range_eq]
    congr 1
    refine ext_getElem (by simp) fun i hi _ => ?_
    rw [length_map] at hi
    simp [hi]
  have htails : ∀ index ∈ Finset.range prompts.length,
      keyTokens prompts segments (.tail index) + sharedTokens segments index =
        (prompts.map List.length).getD index 0 := by
    intro index hindex
    obtain ⟨x, hx, hkey⟩ := mem_map.mp ((h.hasTails index).mpr (Finset.mem_range.mp hindex))
    obtain ⟨hkind, rfl⟩ := key_eq_tail.mp hkey
    obtain ⟨tokens, htokens, hend, hlt, -⟩ := (h.valid x hx).tail hkind
    have hstart := hlt (hnonempty tokens (mem_of_getElem? htokens))
    rw [keyTokens, LayoutValid.lengths_getD htokens, ← h.tail_start hseg hx hkind]
    omega
  have hsegments : ∀ seg ∈ Finset.range segments.length, keyTokens prompts segments (.segment seg) +
        (if loadedOf segments seg then (membersOf segments seg).length
          else (membersOf segments seg).length - 1) * tokensOf segments seg =
        (membersOf segments seg).length * tokensOf segments seg := by
    intro seg hmem
    have hlt := Finset.mem_range.mp hmem
    have hget := getElem?_eq_getElem hlt
    have hshared := (hseg seg _ hget).shared
    rw [keyTokens, membersOf_of_getElem? hget]
    split
    · rw [Nat.zero_add]
    · obtain ⟨k, hk⟩ : ∃ k, (segments[seg]).members.length = k + 1 := by
        refine ⟨(segments[seg]).members.length - 1, ?_⟩
        split at hshared <;> omega
      rw [hk, Nat.add_sub_cancel, Nat.succ_mul, Nat.add_comm]
  calc sumTokens (forwardItems items) + _
      = sumTokens (forwardItems items) + ∑ seg ∈ Finset.range segments.length,
          (if loadedOf segments seg then (membersOf segments seg).length
            else (membersOf segments seg).length - 1) * tokensOf segments seg := congrArg _ hsaved.symm
    _ = (∑ seg ∈ Finset.range segments.length, (membersOf segments seg).length * tokensOf segments seg) +
          ∑ index ∈ Finset.range prompts.length, keyTokens prompts segments (.tail index) := by
        rw [h.forward_tokens hseg, Nat.add_right_comm, ← Finset.sum_add_distrib, Finset.sum_congr rfl hsegments]
    _ = ∑ index ∈ Finset.range prompts.length,
          (keyTokens prompts segments (.tail index) + sharedTokens segments index) := by
        rw [Finset.sum_add_distrib, sum_sharedTokens hseg, Nat.add_comm]
    _ = (prompts.map List.length).sum := by
        rw [Finset.sum_congr rfl htails, htotal]

end

end

end Batchgen.WavePlan
