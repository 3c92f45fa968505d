import Mathlib

/-!
# Host evictions that make room for growth

`plan_host_kv_growth_evictions` evicts candidates in the order of the strategy until the free pages cover what the
remaining rows want to grow by, and a safety margin.  An eviction moves both sides of that test: it frees the pages of
the row and takes back its growth.  Once no row wants to grow, the margin is not asked for either.
-/

namespace Batchgen.GrowthEvictions

open List

inductive EvictionStrategy
  | shortestFirst
  | longestFirst
  | fifo
  deriving Repr, DecidableEq

/-- What the planner reads of a candidate, with the defaults of its state; `pages` is the entry under `page_key`. -/
structure Candidate where
  uuid : String
  priority : ℤ := 0
  decodedLength : ℤ := 0
  globalIdx : WithTop ℤ := ⊤
  pages : ℤ := 0

/-- The arguments of `plan_host_kv_growth_evictions`. -/
structure Request where
  activeUuids : List String
  completedUuids : List String
  hostGrowthUuids : List String
  hostGrowthPages : List ℤ
  evictionCandidates : List Candidate
  freePages : ℤ
  totalPages : ℤ
  completedPages : ℤ
  safetyMargin : ℤ
  strategy : EvictionStrategy := .shortestFirst

structure HostKVGrowthEvictionPlan where
  evictedUuids : List String
  freedPages : ℤ
  remainingGrowthUuids : List String
  remainingGrowthPages : List ℤ
  remainingGrowthNeeded : ℤ
  expectedFreePages : ℤ
  requiredFreePages : ℤ
  growthFeasibleAfterEviction : Bool

/-- FIFO has no second component; a constant orders the same. -/
def sortKey (strategy : EvictionStrategy) (c : Candidate) : ℤ ×ₗ ℤ ×ₗ WithTop ℤ ×ₗ String :=
  let second := match strategy with
    | .shortestFirst => c.decodedLength
    | .longestFirst => -c.decodedLength
    | .fifo => 0
  toLex (c.priority, toLex (second, toLex (c.globalIdx, c.uuid)))

namespace Request

variable (q : Request)

def sortedCandidates : List Candidate :=
  q.evictionCandidates.insertionSort fun x y => sortKey q.strategy x ≤ sortKey q.strategy y

def baseFree : ℤ := min (max q.totalPages 0) (max q.freePages 0 + max q.completedPages 0)

/-- `growth_by_uuid`: a later entry of a row replaces an earlier one. -/
def growthByUuid : String → Option ℤ :=
  (q.hostGrowthUuids.zip q.hostGrowthPages).foldl (fun growth p =>
    if 0 < p.2 ∧ p.1 ∈ q.activeUuids ∧ p.1 ∉ q.completedUuids then Function.update growth p.1 (some p.2) else growth)
    fun _ => none

/-- The sum of the values of such a dict, whose keys are all listed. -/
def sumGrowth (growth : String → Option ℤ) : ℤ := ∑ uuid ∈ q.hostGrowthUuids.toFinset, (growth uuid).getD 0

def expectedFree (freed : ℤ) : ℤ := min (max q.totalPages 0) (q.baseFree + freed)

def requiredFree (remaining : ℤ) : ℤ := if 0 < remaining then remaining + max q.safetyMargin 0 else 0

/-- The variables of the eviction loop. -/
structure Loop where
  evictedUuids : List String
  freedPages : ℤ
  growthByUuid : String → Option ℤ
  remainingGrowth : ℤ

def Loop.evict (l : Loop) (c : Candidate) : Loop where
  evictedUuids := l.evictedUuids ++ [c.uuid]
  freedPages := l.freedPages + c.pages
  growthByUuid := Function.update l.growthByUuid c.uuid none
  remainingGrowth := l.remainingGrowth - (l.growthByUuid c.uuid).getD 0

/-- The loop over the candidates; a skipped one changes nothing, so the test behind it gives what it gave before. -/
def loop : List Candidate → Loop → Loop
  | [], l => l
  | c :: rest, l =>
    if q.requiredFree l.remainingGrowth ≤ q.expectedFree l.freedPages then l
    else if c.uuid ∈ q.completedUuids ∨ c.uuid ∈ l.evictedUuids ∨ c.pages ≤ 0 then loop rest l
    else loop rest (l.evict c)

def planHostKvGrowthEvictions : Except String HostKVGrowthEvictionPlan :=
  if q.hostGrowthUuids.length ≠ q.hostGrowthPages.length then
    .error "host_growth_uuids and host_growth_pages must align"
  else
    let l := q.loop q.sortedCandidates ⟨[], 0, q.growthByUuid, q.sumGrowth q.growthByUuid⟩
    let uuids := q.hostGrowthUuids.filter fun uuid => (l.growthByUuid uuid).isSome
    .ok {
      evictedUuids := l.evictedUuids
      freedPages := l.freedPages
      remainingGrowthUuids := uuids
      remainingGrowthPages := uuids.filterMap l.growthByUuid
      remainingGrowthNeeded := l.remainingGrowth
      expectedFreePages := q.expectedFree l.freedPages
      requiredFreePages := q.requiredFree l.remainingGrowth
      growthFeasibleAfterEviction :=
        l.remainingGrowth = 0 ∨ l.remainingGrowth + max q.safetyMargin 0 ≤ q.expectedFree l.freedPages }

/-! ### What the plan is -/

/-- The rows that can be evicted: not completed, with pages, and each once. -/
def eligible (seen : List String) : List Candidate → List Candidate
  | [] => []
  | c :: rest =>
    if c.uuid ∈ q.completedUuids ∨ c.uuid ∈ seen ∨ c.pages ≤ 0 then eligible seen rest
    else c :: eligible (seen ++ [c.uuid]) rest

/-- The growth of the rows that are left. -/
def left (evicted : List Candidate) (uuid : String) : Option ℤ :=
  if uuid ∈ evicted.map Candidate.uuid then none else q.growthByUuid uuid

/-- The variables of the loop once these rows are evicted. -/
def after (evicted : List Candidate) : Loop :=
  ⟨evicted.map Candidate.uuid, (evicted.map Candidate.pages).sum, q.left evicted, q.sumGrowth (q.left evicted)⟩

/-- Evicting these rows is enough. -/
def Enough (evicted : List Candidate) : Prop :=
  q.requiredFree (q.after evicted).remainingGrowth ≤ q.expectedFree (q.after evicted).freedPages

instance (evicted : List Candidate) : Decidable (q.Enough evicted) := inferInstanceAs (Decidable (_ ≤ _))

variable {q} {evicted : List Candidate} {c : Candidate} {uuid : String} {pages : ℤ}

/-- The entry of a row is the last positive one that was listed for it. -/
theorem growthByUuid_eq_some : q.growthByUuid uuid = some pages ↔ uuid ∈ q.activeUuids ∧ uuid ∉ q.completedUuids ∧
    ((q.hostGrowthUuids.zip q.hostGrowthPages).filter fun p => p.1 = uuid ∧ 0 < p.2).getLast? = some (uuid, pages) := by
  unfold growthByUuid
  induction q.hostGrowthUuids.zip q.hostGrowthPages using List.reverseRecOn with
  | nil => simp
  | append_singleton ps p ih =>
    rw [foldl_append, foldl_cons, foldl_nil, filter_append]
    by_cases hp : p.1 = uuid ∧ 0 < p.2
    · obtain ⟨rfl, hn⟩ := hp
      rw [filter_cons_of_pos (by simpa using hn), filter_nil, getLast?_concat]
      split
      next hrow => simp [hrow, Prod.ext_iff]
      next hrow =>
        refine iff_of_false (fun h => ?_) fun h => hrow ⟨hn, h.1, h.2.1⟩
        obtain ⟨hactive, hcompleted, -⟩ := ih.mp h
        exact hrow ⟨hn, hactive, hcompleted⟩
    · rw [filter_cons_of_neg (by simpa using hp), filter_nil, append_nil, ← ih]
      split
      next hrow => rw [Function.update_of_ne fun h => hp ⟨h.symm, hrow.1⟩]
      next => rfl

theorem growthByUuid_pos (h : q.growthByUuid uuid = some pages) : uuid ∈ q.hostGrowthUuids ∧ 0 < pages := by
  obtain ⟨-, -, hlast⟩ := growthByUuid_eq_some.mp h
  have hmem := mem_of_getLast? hlast
  simp only [mem_filter, decide_eq_true_eq] at hmem
  exact ⟨(of_mem_zip hmem.1).1, hmem.2.2⟩

/-- **The step lemma**: an eviction takes the variables along. -/
theorem after_evict (hnew : c.uuid ∉ evicted.map Candidate.uuid) :
    (q.after evicted).evict c = q.after (evicted ++ [c]) := by
  have hleft : Function.update (q.left evicted) c.uuid none = q.left (evicted ++ [c]) := by
    funext uuid
    by_cases h : uuid = c.uuid <;> simp [left, h, Function.update_of_ne]
  have hsum : q.sumGrowth (q.left evicted) - (q.left evicted c.uuid).getD 0 =
      q.sumGrowth (q.left (evicted ++ [c])) := by
    rw [← hleft, sumGrowth, sumGrowth]
    by_cases hmem : c.uuid ∈ q.hostGrowthUuids.toFinset
    · rw [← Finset.add_sum_erase _ _ hmem, ← Finset.add_sum_erase _ _ hmem, Function.update_self, add_sub_cancel_left]
      refine (zero_add _).symm.trans (congrArg _ (Finset.sum_congr rfl fun u hu => ?_))
      rw [Function.update_of_ne (Finset.ne_of_mem_erase hu)]
    · have hnone : q.left evicted c.uuid = none := by
        rw [left, if_neg hnew, Option.eq_none_iff_forall_ne_some]
        exact fun pages h => hmem (mem_toFinset.mpr (growthByUuid_pos h).1)
      rw [← hnone, Function.update_eq_self, hnone]
      exact sub_zero _
  simp [after, Loop.evict, hleft, hsum]

theorem loop_after (c : Candidate) (cands : List Candidate) : q.loop (c :: cands) (q.after evicted) =
    if q.Enough evicted then q.after evicted
    else if c.uuid ∈ q.completedUuids ∨ c.uuid ∈ evicted.map Candidate.uuid ∨ c.pages ≤ 0 then
      q.loop cands (q.after evicted)
    else q.loop cands ((q.after evicted).evict c) := rfl

/-- **The run lemma**: the loop evicts the shortest front part of the eligible rows that is enough, or all. -/
theorem loop_shortest (cands evicted : List Candidate) :
    ∃ more, more <+: q.eligible (evicted.map Candidate.uuid) cands ∧
      q.loop cands (q.after evicted) = q.after (evicted ++ more) ∧
      (∀ short, short <+: more → short ≠ more → ¬q.Enough (evicted ++ short)) ∧
      (q.Enough (evicted ++ more) ∨ more = q.eligible (evicted.map Candidate.uuid) cands) := by
  induction cands generalizing evicted with
  | nil => exact ⟨[], nil_prefix, by simp [loop], fun short hs hne => absurd (prefix_nil.mp hs) hne, .inr rfl⟩
  | cons c cands ih =>
    rw [loop_after, eligible]
    by_cases henough : q.Enough evicted
    · rw [if_pos henough]
      refine ⟨[], nil_prefix, by rw [append_nil], fun short hs hne => absurd (prefix_nil.mp hs) hne, .inl ?_⟩
      rwa [append_nil]
    rw [if_neg henough]
    by_cases hskip : c.uuid ∈ q.completedUuids ∨ c.uuid ∈ evicted.map Candidate.uuid ∨ c.pages ≤ 0
    · rw [if_pos hskip, if_pos hskip]
      exact ih evicted
    obtain ⟨more, hfront, hloop, hshort, hend⟩ := ih (evicted ++ [c])
    rw [map_append, map_singleton] at hfront hend
    rw [if_neg hskip, if_neg hskip, after_evict fun h => hskip (.inr (.inl h))]
    refine ⟨c :: more, (prefix_cons_inj c).mpr hfront, ?_, fun short hs hne => ?_, ?_⟩
    · rw [hloop, append_assoc, singleton_append]
    · rcases prefix_cons_iff.mp hs with rfl | ⟨short', rfl, hs'⟩
      · rwa [append_nil]
      · simpa using hshort short' hs' fun h => hne (h ▸ rfl)
    · simpa using hend

theorem eligible_pos {seen : List String} {cands : List Candidate} (h : c ∈ q.eligible seen cands) : 0 < c.pages := by
  induction cands generalizing seen with
  | nil => cases h
  | cons d cands ih =>
    rw [eligible] at h
    split at h
    · exact ih h
    · rcases mem_cons.mp h with rfl | h
      · omega
      · exact ih h

/-- The flag of the plan says that what was evicted is enough. -/
theorem enough_iff (hpos : ∀ c ∈ evicted, 0 < c.pages) : q.Enough evicted ↔ (q.after evicted).remainingGrowth = 0 ∨
      (q.after evicted).remainingGrowth + max q.safetyMargin 0 ≤ q.expectedFree (q.after evicted).freedPages := by
  have hremaining : 0 ≤ (q.after evicted).remainingGrowth := by
    show 0 ≤ ∑ uuid ∈ q.hostGrowthUuids.toFinset, (q.left evicted uuid).getD 0
    refine Finset.sum_nonneg fun uuid _ => ?_
    cases h : q.left evicted uuid with
    | none => exact le_rfl
    | some pages =>
      rw [left] at h
      split at h
      · cases h
      · exact (growthByUuid_pos h).2.le
  have hfreed : 0 ≤ (q.after evicted).freedPages :=
    List.sum_nonneg fun n hn => by
      obtain ⟨c, hc, rfl⟩ := mem_map.mp hn
      exact (hpos c hc).le
  unfold Enough requiredFree expectedFree baseFree
  split <;> omega

/-- **The evicted rows** are the shortest front part of the eligible rows, in the order of the strategy, that is enough,
or all of them when none is; the flag says which.  Nothing is evicted when no row grows, and the growth that remains
is that of the active rows that are neither completed nor evicted. -/
theorem planHostKvGrowthEvictions_shortest (q : Request) :
    q.hostGrowthUuids.length ≠ q.hostGrowthPages.length ∧
      q.planHostKvGrowthEvictions = .error "host_growth_uuids and host_growth_pages must align" ∨
    ∃ plan evicted, q.planHostKvGrowthEvictions = .ok plan ∧ plan.evictedUuids = evicted.map Candidate.uuid ∧
      evicted <+: q.eligible [] q.sortedCandidates ∧
      (∀ short, short <+: evicted → short ≠ evicted → ¬q.Enough short) ∧
      (q.Enough evicted ∨ evicted = q.eligible [] q.sortedCandidates) ∧
      (plan.growthFeasibleAfterEviction ↔ ∃ front, front <+: q.eligible [] q.sortedCandidates ∧ q.Enough front) ∧
      ((∀ uuid, q.growthByUuid uuid = none) → evicted = []) ∧
      plan.remainingGrowthUuids = q.hostGrowthUuids.filter (fun uuid => (q.left evicted uuid).isSome) ∧
      plan.remainingGrowthPages = plan.remainingGrowthUuids.filterMap (q.left evicted) ∧
      ∀ uuid pages, q.left evicted uuid = some pages ↔
        uuid ∉ plan.evictedUuids ∧ uuid ∈ q.activeUuids ∧ uuid ∉ q.completedUuids ∧
          ((q.hostGrowthUuids.zip q.hostGrowthPages).filter fun p => p.1 = uuid ∧ 0 < p.2).getLast? =
            some (uuid, pages) := by
  unfold planHostKvGrowthEvictions
  split
  · exact .inl ⟨‹_›, rfl⟩
  have hstart : q.after [] = ⟨[], 0, q.growthByUuid, q.sumGrowth q.growthByUuid⟩ := by
    have hleft : q.left [] = q.growthByUuid := funext fun _ => if_neg not_mem_nil
    rw [after, hleft]
    rfl
  obtain ⟨evicted, hfront, hloop, hshort, hend⟩ := q.loop_shortest q.sortedCandidates []
  rw [nil_append] at hloop hend
  have hpos : ∀ c ∈ evicted, 0 < c.pages := fun c hc => eligible_pos (hfront.subset hc)
  rw [← hstart, hloop]
  refine .inr ⟨_, evicted, rfl, rfl, hfront, hshort, hend, ?_, fun hnone => ?_, rfl, rfl, fun uuid pages => ?_⟩
  · rw [decide_eq_true_iff, ← enough_iff hpos]
    constructor
    · intro h
      exact ⟨evicted, hfront, h⟩
    · rintro ⟨front, hf, h⟩
      by_contra hnot
      have hall := hend.resolve_left hnot
      exact hshort front (hall ▸ hf) (fun heq => hnot (heq ▸ h)) h
  · by_contra hne
    refine hshort [] nil_prefix (Ne.symm hne) ((enough_iff (by simp)).mpr (.inl ?_))
    simp [after, sumGrowth, left, hnone]
  · rw [← growthByUuid_eq_some, left]
    split <;> simp [after, *]

/-- The only row that grows is the only candidate, and its page is less than the margin. -/
def ownGrowth : Request where
  activeUuids := ["a"]
  completedUuids := []
  hostGrowthUuids := ["a"]
  hostGrowthPages := [5]
  evictionCandidates := [{ uuid := "a", pages := 1 }]
  freePages := 0
  totalPages := 10
  completedPages := 0
  safetyMargin := 10

/-- **The margin is not asked for once nothing grows**: the plan is feasible with fewer free pages than the margin. -/
theorem ownGrowth_feasible_below_margin :
    (∃ plan, ownGrowth.planHostKvGrowthEvictions = .ok plan ∧ plan.growthFeasibleAfterEviction) ∧
      ∀ evicted ∈ ownGrowth.sortedCandidates.inits, ownGrowth.expectedFree (ownGrowth.after evicted).freedPages <
        (ownGrowth.after evicted).remainingGrowth + ownGrowth.safetyMargin :=
  ⟨⟨_, rfl, by decide⟩, by decide⟩

end Request

end Batchgen.GrowthEvictions
