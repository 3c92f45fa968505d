import Batchgen.Library.Runs
import Mathlib.Algebra.Order.Ring.Int

/-!
# The page counter of a decoding sequence

Every rank keeps a copy of `host_owned_pages`.  Growth, eviction and completion move all copies, but a prefix commit
deducts the pages it retains on the Host-KV owner only, and a lookup hit is known only there when a reservation is
booked.  The merge at a page boundary takes the report of the last rank of the group: with several ranks in a group
that is not the owner, and the merged counter still has the pages that left the chain.
-/

namespace Batchgen.HostOwnedPages

open Runs Function List

/-- Serve group `g` is made of the `size` ranks from `g * size` on; for `size = 1` it is the assigned rank. -/
structure Layout where
  groups : ℕ
  size : ℕ
  size_pos : 0 < size
  pageSize : ℕ

def Layout.hostKvOwnerRank (c : Layout) (g : ℕ) : ℕ := g * c.size

/-- The `attached_tokens` a rank knows when the wave is booked: a pool wave is planned on every rank that serves the
sequence, a lookup hit is known to the owner alone. -/
def Layout.attachedTokensOn (c : Layout) (g attachedTokens : ℕ) (pooled : Bool) (r : ℕ) : ℕ :=
  if r / c.size = g ∧ (pooled = true ∨ r = c.hostKvOwnerRank g) then attachedTokens else 0

/-- `chain` counts the pages of a sequence's own chain, those that `release_sequence_pages` puts back; `group` is set
while the sequence has a row in the Host backend. -/
structure State where
  group : ℕ → Option ℕ := fun _ => none
  chain : ℕ → ℕ := fun _ => 0
  hostOwnedPages : ℕ → ℕ → ℤ := fun _ _ => 0

inductive Label
  | reserve (u g pages attachedTokens : ℕ) (pooled : Bool)
  | commit (u retained : ℕ)
  | grow (u pages : ℕ)
  | release (u : ℕ)
  | boundary (decode : List ℕ)

def State.set (s : State) (u : ℕ) (group : Option ℕ) (chain : ℕ) (owned : ℕ → ℤ) : State where
  group := update s.group u group
  chain := update s.chain u chain
  hostOwnedPages r := update (s.hostOwnedPages r) u (owned r)

/-- `local_seq_state`: the counters of the sequences of the decode batch that the rank serves. -/
def State.localSeqState (c : Layout) (s : State) (decode : List ℕ) (r : ℕ) : List (ℕ × ℤ) :=
  (decode.filter fun u => s.group u = some (r / c.size)).map fun u => (u, s.hostOwnedPages r u)

/-- The merge loop: a later report of a sequence replaces an earlier one. -/
def mergeSeqState (reports : List (ℕ × ℤ)) (merged : ℕ → Option ℤ) : ℕ → Option ℤ :=
  reports.foldl (fun merged p => update merged p.1 (some p.2)) merged

def State.globalSeqState (c : Layout) (s : State) (decode : List ℕ) : ℕ → Option ℤ :=
  mergeSeqState ((List.range (c.groups * c.size)).flatMap (s.localSeqState c decode)) fun _ => none

def step (c : Layout) (s : State) : Label → Option State
  | .reserve u g pages attachedTokens pooled =>
    -- the owner allocates the pages that are not attached; a wave that fails there books nothing
    if s.group u = none ∧ g < c.groups ∧ attachedTokens / c.pageSize ≤ pages then
      some (s.set u (some g) (pages - attachedTokens / c.pageSize) fun r =>
        pages - (c.attachedTokensOn g attachedTokens pooled r / c.pageSize : ℕ))
    else none
  | .commit u retained => (s.group u).bind fun g =>
    if retained ≤ s.chain u then
      some (s.set u (some g) (s.chain u - retained) fun r =>
        s.hostOwnedPages r u - if r = c.hostKvOwnerRank g then retained else 0)
    else none
  | .grow u pages => (s.group u).map fun g =>
    s.set u (some g) (s.chain u + pages) fun r => s.hostOwnedPages r u + pages
  -- eviction or completion
  | .release u => (s.group u).map fun _ => s.set u none 0 fun _ => 0
  | .boundary decode =>
    if ∀ u ∈ decode, s.group u ≠ none then
      some { s with
        hostOwnedPages := fun r u => if s.group u = some (r / c.size) then s.hostOwnedPages r u
          else (s.globalSeqState c decode u).getD (s.hostOwnedPages r u) }
    else none

/-- The ranks of a group book the step alike: there is one, or all of them know of the attached pages and none are
retained. -/
def Alike (c : Layout) (_ : State) : Label → Prop
  | .reserve _ _ _ attachedTokens pooled => c.size = 1 ∨ pooled = true ∨ attachedTokens / c.pageSize = 0
  | .commit _ retained => c.size = 1 ∨ retained = 0
  | _ => True

instance (c : Layout) (s : State) : (l : Label) → Decidable (Alike c s l)
  | .reserve .. => inferInstanceAs (Decidable (_ ∨ _ ∨ _))
  | .commit .. => inferInstanceAs (Decidable (_ ∨ _))
  | .grow .. | .release _ | .boundary _ => inferInstanceAs (Decidable True)

variable {c : Layout} {s s' : State} {l : Label} {u g r : ℕ}

/-- Every rank that serves a sequence counts the pages of its chain. -/
structure Exact (c : Layout) (s : State) : Prop where
  group : ∀ u g, s.group u = some g → g < c.groups
  owned : ∀ u r, s.group u = some (r / c.size) → s.hostOwnedPages r u = s.chain u

theorem Exact.set {group : Option ℕ} {chain : ℕ} {owned : ℕ → ℤ} (h : Exact c s) (hgroup : ∀ g ∈ group, g < c.groups)
    (howned : ∀ r, group = some (r / c.size) → owned r = chain) : Exact c (s.set u group chain owned) := by
  constructor <;> intro v <;> by_cases hv : v = u
  · subst hv
    simpa [State.set] using hgroup
  · simpa [State.set, hv] using h.group v
  · subst hv
    simpa [State.set] using howned
  · simpa [State.set, hv] using h.owned v

theorem Exact.step (h : Exact c s) (hok : Alike c s l) (hstep : step c s l = some s') : Exact c s' := by
  -- a rank that is alone in its group is the Host-KV owner
  have halone : c.size = 1 → ∀ r, c.hostKvOwnerRank (r / c.size) = r := by
    simp +contextual [Layout.hostKvOwnerRank]
  cases l with
  | reserve u g pages attachedTokens pooled =>
    obtain ⟨⟨-, hg, hfits⟩, hset⟩ := Option.ite_none_right_eq_some.mp hstep
    cases hset
    refine h.set (by simpa using hg) fun r hr => ?_
    cases hr
    have hknown : c.attachedTokensOn (r / c.size) attachedTokens pooled r / c.pageSize =
        attachedTokens / c.pageSize := by
      unfold Layout.attachedTokensOn
      split
      · rfl
      · grind [Alike, Nat.zero_div]
    rw [hknown, Nat.cast_sub hfits]
  | commit u retained =>
    obtain ⟨g, hg, hstep⟩ := Option.bind_eq_some_iff.mp hstep
    obtain ⟨hfits, hset⟩ := Option.ite_none_right_eq_some.mp hstep
    cases hset
    refine h.set (by simpa using h.group u g hg) fun r hr => ?_
    cases hr
    rw [h.owned u r hg, Nat.cast_sub hfits]
    grind [Alike]
  | grow u pages =>
    obtain ⟨g, hg, rfl⟩ := Option.map_eq_some_iff.mp hstep
    refine h.set (by simpa using h.group u g hg) fun r hr => ?_
    cases hr
    rw [h.owned u r hg, Nat.cast_add]
  | release u =>
    obtain ⟨g, hg, rfl⟩ := Option.map_eq_some_iff.mp hstep
    exact h.set nofun nofun
  | boundary decode =>
    obtain ⟨-, hset⟩ := Option.ite_none_right_eq_some.mp hstep
    cases hset
    exact ⟨h.group, fun u r hr => (if_pos hr).trans (h.owned u r hr)⟩

/-- Reports that agree on a sequence are merged to what they say. -/
theorem mergeSeqState_eq {v : ℤ} {reports : List (ℕ × ℤ)} {merged : ℕ → Option ℤ}
    (hsame : ∀ p ∈ reports, p.1 = u → p.2 = v) (h : (∃ p ∈ reports, p.1 = u) ∨ merged u = some v) :
    mergeSeqState reports merged u = some v := by
  induction reports generalizing merged with
  | nil => simpa [mergeSeqState] using h
  | cons p ps ih =>
    refine ih (fun q hq => hsame q (mem_cons_of_mem p hq)) ?_
    have hp := hsame p mem_cons_self
    by_cases hu : p.1 = u <;> grind [update_apply]

/-- **The merged counter of a sequence at a page boundary is the number of pages of its own chain**, in every run
whose steps the ranks of a group book alike. -/
theorem merged_counts_chain (c : Layout) (s s' : State) (hreached : Reached (step c) (Alike c) {} s) (decode : List ℕ)
    (hboundary : step c s (.boundary decode) = some s') (u : ℕ) (hu : u ∈ decode) :
    s.globalSeqState c decode u = some (s.chain u : ℤ) := by
  have h : Exact c s := hreached.invariant (Exact c) ⟨nofun, nofun⟩ fun _ _ _ h hok hstep => h.step hok hstep
  obtain ⟨hresident, -⟩ := Option.ite_none_right_eq_some.mp hboundary
  obtain ⟨g, hg⟩ := Option.ne_none_iff_exists'.mp (hresident u hu)
  refine mergeSeqState_eq (fun p hp heq => ?_) (Or.inl ⟨(u, s.hostOwnedPages (c.hostKvOwnerRank g) u), ?_, rfl⟩)
  · obtain ⟨r, -, hmem⟩ := mem_flatMap.mp hp
    simp only [State.localSeqState, mem_map, mem_filter, decide_eq_true_eq] at hmem
    obtain ⟨v, ⟨-, hv⟩, rfl⟩ := hmem
    cases heq
    exact h.owned v r hv
  · refine mem_flatMap.mpr ⟨c.hostKvOwnerRank g, ?_, ?_⟩
    · exact mem_range.mpr (Nat.mul_lt_mul_of_pos_right (h.group u g hg) c.size_pos)
    · simp [State.localSeqState, Layout.hostKvOwnerRank, Nat.mul_div_cancel g c.size_pos, hu, hg]

/-- One group of two ranks. -/
def pair : Layout := ⟨1, 2, Nat.two_pos, 64⟩

theorem merged_counts_chain_pair :
    ∃ s, Reached (step pair) (Alike pair) {} s ∧ s.globalSeqState pair [0] 0 = some 5 := by
  have hend : ∃ s, Reached (step pair) (Alike pair) {} s ∧ (step pair s (.boundary [0])).isSome ∧ s.chain 0 = 5 :=
    Reached.exists_of_run [.reserve 0 0 4 64 true, .grow 0 2] (by decide)
  obtain ⟨s, hreached, hboundary, hchain⟩ := hend
  obtain ⟨s', hs'⟩ := Option.isSome_iff_exists.mp hboundary
  have hmerged := merged_counts_chain pair s s' hreached [0] hs' 0 mem_cons_self
  rw [hchain] at hmerged
  exact ⟨s, hreached, hmerged⟩

/-- Of four reserved pages one is retained by the commit, or was attached: the merged counter says four. -/
theorem merged_counts_left_pages :
    (run (step pair) [.reserve 0 0 4 0 false, .commit 0 1] {}).any (fun s =>
        s.globalSeqState pair [0] 0 = some 4 ∧ s.chain 0 = 3) ∧
      (run (step pair) [.reserve 0 0 4 64 false] {}).any fun s =>
        s.globalSeqState pair [0] 0 = some 4 ∧ s.chain 0 = 3 := by
  decide

end Batchgen.HostOwnedPages
