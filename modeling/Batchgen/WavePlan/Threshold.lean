import Batchgen.WavePlan.Progress
import Mathlib.Algebra.Order.BigOperators.Group.Finset
import Mathlib.Data.Finset.Max

/-!
# The threshold a wave is planned with

Without loads a threshold schedules exactly when every prompt's pooled chain fits the pool.  So the planner
never runs out of thresholds, takes the first candidate that fits, and pools no less when the pool grows.
-/

namespace Batchgen.WavePlan

open Function List

variable {tree : Tree} {poolPages blockTokens seg : ℕ} {cfg : PlanConfig} {prompts : List Tokens}

/-- The pages of the pooled segments of a path. -/
def chainPages (tree : Tree) (threshold : Option ℤ) (path : List ℕ) : ℕ :=
  ((path.filter (pooledSegment tree threshold)).map fun seg =>
    tree.endBlock seg - tree.startBlock seg).sum

/-- Every prompt's pooled chain fits `poolPages`. -/
def Fits (poolPages : ℕ) (tree : Tree) (threshold : Option ℤ) : Prop :=
  ∀ path ∈ tree.paths, chainPages tree threshold path ≤ poolPages

section Chains

variable {threshold : Option ℤ} {l : Layout} (h : LayoutValid prompts cfg.blockTokens tree threshold l)
  (hgroups : l.groups = []) (hblock : 0 < cfg.blockTokens)

include hgroups in
theorem items_without_groups {segments : List PlanSegment} {lengths : List ℕ} {x : PlanItem}
    (hx : x ∈ l.items segments lengths tree blockTokens) :
    (∃ old ∈ l.order, x = l.segmentItem segments tree blockTokens old) ∨
      ∃ index, x = l.tailItem segments lengths index := by
  rw [Layout.items, hgroups, mem_append, mem_append] at hx
  rcases hx with (hx | hx) | hx
  · cases hx
  · obtain ⟨old, hold, hx⟩ := mem_flatMap.mp hx
    rcases mem_cons.mp hx with rfl | hx
    · exact Or.inl ⟨old, hold, rfl⟩
    · obtain ⟨index, -, rfl⟩ := mem_map.mp hx
      exact Or.inr ⟨index, rfl⟩
  · obtain ⟨index, -, rfl⟩ := mem_map.mp hx
    exact Or.inr ⟨index, rfl⟩

include hgroups in
theorem no_loads_without_groups :
    ∀ item ∈ (workOf cfg tree (prompts.map length) l).items, item.kind ≠ .materialize := by
  intro item hitem
  rcases items_without_groups hgroups hitem with ⟨old, -, rfl⟩ | ⟨index, rfl⟩
  · simp [Layout.segmentItem]
  · simp [Layout.tailItem]

include hblock in
theorem segmentPages_newId {old : ℕ} (hold : old ∈ l.order) :
    segmentPages cfg.blockTokens (l.segments tree cfg.blockTokens) (l.newId old) =
      tree.endBlock old - tree.startBlock old := by
  rw [segmentPages, LayoutValid.computed_getElem? hold]
  change (tree.endBlock old * cfg.blockTokens - tree.startBlock old * cfg.blockTokens) / cfg.blockTokens = _
  rw [← Nat.sub_mul, Nat.mul_div_cancel _ hblock]

include h hblock in
theorem sumPages_chain (index : ℕ) :
    sumPages (segmentPages cfg.blockTokens (l.segments tree cfg.blockTokens)) ((l.chain index).map l.newId) =
      ((l.chain index).map fun seg => tree.endBlock seg - tree.startBlock seg).sum := by
  rw [sumPages, map_map]
  congr 1
  exact map_congr_left fun old hold => segmentPages_newId hblock (h.mem_chain hold).2

include h hgroups hblock in
theorem chainsFit_iff : ChainsFit cfg (workOf cfg tree (prompts.map length) l) ↔ Fits cfg.poolPages tree threshold := by
  constructor
  · intro hfit path hpath
    obtain ⟨index, hlt, rfl⟩ := mem_iff_getElem.mp hpath
    have hindex : index < prompts.length := by
      rw [← h.built.paths]
      exact hlt
    obtain ⟨x, hx, hkey⟩ := mem_map.mp ((h.items_valid.hasTails index).mpr hindex)
    obtain ⟨hkind, href⟩ := key_eq_tail.mp hkey
    have hpages := hfit x hx hkind
    rcases items_without_groups hgroups hx with ⟨old, -, rfl⟩ | ⟨other, rfl⟩
    · cases hkind
    cases href
    obtain ⟨path, -, hget, -, -, hchain⟩ := h.chain_eq hindex
    rw [getElem?_eq_getElem hlt] at hget
    cases hget
    rw [chainPages, ← hchain, ← sumPages_chain h hblock]
    exact hpages
  · intro hfit x hx hkind
    rcases items_without_groups hgroups hx with ⟨old, -, rfl⟩ | ⟨index, rfl⟩
    · cases hkind
    refine (sumPages_chain h hblock index).le.trans ?_
    by_cases hindex : index < prompts.length
    · obtain ⟨path, -, -, hpath, -, hchain⟩ := h.chain_eq hindex
      rw [hchain]
      exact hfit path hpath
    · rw [h.chain_of_le (not_lt.mp hindex)]
      exact Nat.zero_le _

end Chains

/-! ### One threshold -/

section Schedule

variable (cfg : PlanConfig) (prompts : List Tokens) (threshold : Option ℤ)

/-- The tree of a wave without loads. -/
def waveTree : Tree := buildTree prompts cfg.blockTokens []

def waveSchedule : Except PlanError (Option WavePrefixPlan) :=
  schedule cfg (waveTree cfg prompts) (prompts.map List.length) threshold []

theorem waveLayout : ∃ l, layoutOf (waveTree cfg prompts) threshold [] = .ok l ∧ l.groups = [] ∧
      LayoutValid prompts cfg.blockTokens (waveTree cfg prompts) threshold l :=
  layoutOf_ok (buildTree_valid prompts cfg.blockTokens _) ⟨fun group hgroup => (by cases hgroup), nodup_nil⟩

/-- A threshold schedules, or the loop gets stuck; nothing is raised. -/
theorem waveSchedule_cases (hblock : 0 < cfg.blockTokens) :
    (¬ Fits cfg.poolPages (waveTree cfg prompts) threshold ∧ waveSchedule cfg prompts threshold = .ok none) ∨
      ∃ plan l, Fits cfg.poolPages (waveTree cfg prompts) threshold ∧
        waveSchedule cfg prompts threshold = .ok (some plan) ∧ l.groups = [] ∧
        LayoutValid prompts cfg.blockTokens (waveTree cfg prompts) threshold l ∧
        plan.segments = l.segments (waveTree cfg prompts) cfg.blockTokens ∧
        PlanValid prompts (workOf cfg (waveTree cfg prompts) (prompts.map length) l).items plan := by
  obtain ⟨l, hlayout, hgroups, hvalid⟩ := waveLayout cfg prompts threshold
  have hwork := workOf_valid hvalid hblock
  have hnone := scheduleLoop_eq_none_iff hwork (no_loads_without_groups hgroups)
  rw [chainsFit_iff hvalid hgroups hblock] at hnone
  have hschedule : ∃ result, waveSchedule cfg prompts threshold = .ok result ∧
      (result = none ↔ ¬ Fits cfg.poolPages (waveTree cfg prompts) threshold) := by
    refine ⟨_, by rw [waveSchedule, schedule, hlayout], ?_⟩
    rw [Option.map_eq_none_iff, hnone]
  obtain ⟨result, hresult, hiff⟩ := hschedule
  cases result with
  | none => exact Or.inl ⟨hiff.mp rfl, hresult⟩
  | some plan =>
    have hfit : Fits cfg.poolPages (waveTree cfg prompts) threshold := by
      by_contra hnot
      cases hiff.mpr hnot
    obtain ⟨hsegments, hplan⟩ := schedule_valid hblock hlayout hvalid hresult
    exact Or.inr ⟨plan, l, hfit, hresult, hgroups, hvalid, hsegments, hplan⟩

theorem waveSchedule_eq_none_iff (hblock : 0 < cfg.blockTokens) :
    waveSchedule cfg prompts threshold = .ok none ↔ ¬ Fits cfg.poolPages (waveTree cfg prompts) threshold := by
  rcases waveSchedule_cases cfg prompts threshold hblock with ⟨hnot, hnone⟩ | ⟨plan, l, hfit, hsome, -⟩
  · exact ⟨fun _ => hnot, fun _ => hnone⟩
  · rw [hsome]
    exact ⟨fun heq => (by cases heq), fun hnot => absurd hfit hnot⟩

end Schedule

theorem fits_none (poolPages : ℕ) (tree : Tree) : Fits poolPages tree none := by
  intro path _
  have hnil : path.filter (pooledSegment tree none) = [] := filter_eq_nil_iff.mpr fun seg _ hpooled => by cases hpooled
  rw [chainPages, hnil]
  exact Nat.zero_le _

/-! ### The candidates -/

theorem mem_thresholds {t : ℤ} : t ∈ thresholds tree ↔ t = 2 ∨ 2 < t ∧ ∃ seg < tree.size, (tree.count seg : ℤ) = t := by
  rw [thresholds, (perm_insertionSort _ _).mem_iff, mem_dedup, mem_cons, mem_filter,
    decide_eq_true_eq, and_comm]
  simp

theorem thresholds_sorted (tree : Tree) : (thresholds tree).Pairwise (· < ·) := by
  have hnodup : (thresholds tree).Nodup := by
    rw [thresholds, (perm_insertionSort _ _).nodup_iff]
    exact nodup_dedup _
  have hsorted : (thresholds tree).Pairwise (· ≤ ·) := pairwise_insertionSort _ _
  exact (hsorted.and hnodup).imp fun hle => lt_of_le_of_ne hle.1 hle.2

/-- Thresholds that pool the same segments fit alike. -/
theorem Fits.congr {t u : Option ℤ} (h : Fits poolPages tree t)
    (heq : ∀ path ∈ tree.paths, ∀ seg ∈ path, pooledSegment tree u seg = pooledSegment tree t seg) :
    Fits poolPages tree u := by
  intro path hpath
  have hfilter : path.filter (pooledSegment tree u) = path.filter (pooledSegment tree t) :=
    filter_congr fun seg hseg => heq path hpath seg hseg
  rw [chainPages, hfilter]
  exact h path hpath

theorem pooledSegment_some {t : ℤ} : pooledSegment tree (some t) seg = true ↔ max t 2 ≤ (tree.count seg : ℤ) :=
  decide_eq_true_iff

/-- The planner's choice: a candidate that fits, or nothing pooled. -/
structure Chosen (poolPages : ℕ) (tree : Tree) (threshold : Option ℤ) : Prop where
  fits : Fits poolPages tree threshold
  smallest : ∀ t ∈ thresholds tree, (∀ u, threshold = some u → t < u) → ¬ Fits poolPages tree (some t)
  candidate : ∀ t, threshold = some t → t ∈ thresholds tree

/-- No threshold that fits pools a segment the planner does not pool. -/
theorem Chosen.pools_most {threshold : Option ℤ} (h : Chosen poolPages tree threshold)
    (hbound : ∀ path ∈ tree.paths, ∀ seg ∈ path, seg < tree.size) {u : ℤ} (hu : Fits poolPages tree (some u))
    (hseg : seg < tree.size)
    (hpooled : pooledSegment tree (some u) seg = true) : pooledSegment tree threshold seg = true := by
  have hcount := pooledSegment_some.mp hpooled
  have hmem : ∀ s < tree.size, max u 2 ≤ (tree.count s : ℤ) → (tree.count s : ℤ) ∈ thresholds tree := by
    intro s hs hle
    rw [mem_thresholds]
    rcases (le_of_max_le_right hle).eq_or_lt with heq | hlt
    · exact Or.inl heq.symm
    · exact Or.inr ⟨hlt, s, hs, rfl⟩
  -- the smallest count that is pooled pools the same segments
  have hne : (((thresholds tree).toFinset).filter (max u 2 ≤ ·)).Nonempty :=
    ⟨tree.count seg, Finset.mem_filter.mpr ⟨mem_toFinset.mpr (hmem seg hseg hcount), hcount⟩⟩
  obtain ⟨c, hc, hmin⟩ := Finset.exists_min_image _ id hne
  obtain ⟨hcmem, hcle⟩ := Finset.mem_filter.mp hc
  have hmin : ∀ s < tree.size, max u 2 ≤ (tree.count s : ℤ) → c ≤ (tree.count s : ℤ) := fun s hs hle =>
    hmin _ (Finset.mem_filter.mpr ⟨mem_toFinset.mpr (hmem s hs hle), hle⟩)
  have hfits : Fits poolPages tree (some c) := by
    refine hu.congr fun path hpath s hs => ?_
    rw [Bool.eq_iff_iff, pooledSegment_some, pooledSegment_some]
    have hs := hbound path hpath s hs
    constructor
    · exact fun hle => hcle.trans ((le_max_left c 2).trans hle)
    · exact fun hle => max_le (hmin s hs hle) ((le_max_right u 2).trans hle)
  have hccount := hmin seg hseg hcount
  cases threshold with
  | none => exact absurd hfits (h.smallest c (mem_toFinset.mp hcmem) fun u hu => by cases hu)
  | some t =>
    rw [pooledSegment_some]
    refine max_le ?_ ((le_max_right u 2).trans hcount)
    by_contra hlt
    refine absurd hfits (h.smallest c (mem_toFinset.mp hcmem) fun u hu => ?_)
    cases hu
    omega

theorem firstPlan_cases {plan : ℤ → Except PlanError (Option WavePrefixPlan)}
    (hplan : ∀ t, ∃ result, plan t = .ok result) (ts : List ℤ) :
    (∃ before t after result, ts = before ++ t :: after ∧ (∀ u ∈ before, plan u = .ok none) ∧
      plan t = .ok (some result) ∧ firstPlan plan ts = .ok (some result)) ∨
    ((∀ u ∈ ts, plan u = .ok none) ∧ firstPlan plan ts = .ok none) := by
  induction ts with
  | nil => exact Or.inr ⟨fun u hu => (by cases hu), rfl⟩
  | cons t ts ih =>
    obtain ⟨result, hresult⟩ := hplan t
    rw [firstPlan, hresult]
    cases result with
    | some result => exact Or.inl ⟨[], t, ts, result, rfl, fun u hu => (by cases hu), hresult, rfl⟩
    | none =>
      have hcons : ∀ us : List ℤ, (∀ u ∈ us, plan u = .ok none) → ∀ u ∈ t :: us, plan u = .ok none := by
        intro us hus u hu
        rcases mem_cons.mp hu with rfl | hu
        · exact hresult
        · exact hus u hu
      rcases ih with ⟨before, u, after, result, hts, hbefore, hu, hfirst⟩ | ⟨hall, hfirst⟩
      · exact Or.inl ⟨t :: before, u, after, result, by rw [hts, cons_append], hcons before hbefore, hu, hfirst⟩
      · exact Or.inr ⟨hcons ts hall, hfirst⟩

/-! ### What a threshold saves -/

def savedTokens (blockTokens : ℕ) (tree : Tree) (threshold : Option ℤ) : ℕ :=
  ∑ seg ∈ (Finset.range tree.size).filter fun seg => pooledSegment tree threshold seg = true,
    (tree.count seg - 1) * (tree.endBlock seg * blockTokens - tree.startBlock seg * blockTokens)

theorem savedTokens_mono {t u : Option ℤ}
    (h : ∀ seg < tree.size, pooledSegment tree t seg = true → pooledSegment tree u seg = true) :
    savedTokens blockTokens tree t ≤ savedTokens blockTokens tree u := by
  refine Finset.sum_le_sum_of_subset fun seg hseg => ?_
  obtain ⟨hlt, hpooled⟩ := Finset.mem_filter.mp hseg
  exact Finset.mem_filter.mpr ⟨hlt, h seg (Finset.mem_range.mp hlt) hpooled⟩

/-- What a plan without loads computes. -/
theorem computed_add_saved {threshold : Option ℤ} {l : Layout} {plan : WavePrefixPlan}
    (h : LayoutValid prompts cfg.blockTokens tree threshold l) (hgroups : l.groups = [])
    (hsegments : plan.segments = l.segments tree cfg.blockTokens)
    (hplan : PlanValid prompts (workOf cfg tree (prompts.map length) l).items plan)
    (hnonempty : ∀ tokens ∈ prompts, tokens ≠ []) :
    plan.computedTokens + savedTokens cfg.blockTokens tree threshold = (prompts.map length).sum := by
  have hcomputed : plan.computedTokens =
      sumTokens (forwardItems (workOf cfg tree (prompts.map List.length) l).items) := by
    rw [hplan.computed]
    exact ((hplan.perm.filter _).map _).sum_eq
  have horder : l.order.toFinset =
      (Finset.range tree.size).filter fun seg => pooledSegment tree threshold seg = true := by
    ext seg
    rw [mem_toFinset, h.mem, Finset.mem_filter, Finset.mem_range]
  rw [hcomputed, ← hplan.work.tokens_conserved hplan.segments hnonempty, hsegments, Layout.segments, hgroups,
    mapIdx_nil, nil_append, map_map, savedTokens, ← horder, sum_toFinset _ h.nodup]
  congr 2
  refine map_congr_left fun old hold => ?_
  rw [comp_apply, Layout.computedSegment, PlanSegment.tokens, h.members_length hold]
  rfl

/-! ### The planner -/

/-- Past its checks the planner goes through the candidates. -/
theorem planWave_eq {hits : List MaterializedPrefix} {groups : List (ℕ × List ℕ)} (hblock : 0 < cfg.blockTokens)
    (hchunk : 0 < cfg.chunkTokens) (hnonempty : ∀ tokens ∈ prompts, tokens ≠ [])
    (hgroups : groupMaterializedPrefixes prompts cfg.blockTokens hits = .ok groups)
    (hsame : groups = [] ∨ cfg.sameChunkAncestors = true) :
    planWavePrefixSharing cfg prompts hits = planTree cfg (buildTree prompts cfg.blockTokens (groups.flatMap Prod.snd))
        (prompts.map length) groups := by
  have hsizes : ¬ (cfg.blockTokens = 0 ∨ cfg.chunkTokens = 0) := by omega
  have hprompts : ¬ ∃ tokens ∈ prompts, tokens = [] := fun ⟨tokens, hmem, hnil⟩ =>
    hnonempty tokens hmem hnil
  have hallowed : ¬ (groups ≠ [] ∧ cfg.sameChunkAncestors = false) := by
    rintro ⟨hne, hnot⟩
    rcases hsame with hnil | hyes
    · exact hne hnil
    · rw [hyes] at hnot
      cases hnot
  rw [planWavePrefixSharing, if_neg hsizes, if_neg hprompts, hgroups]
  dsimp only
  rw [if_neg hallowed]

/-- A wave without loads is always planned, with the first candidate that fits. -/
theorem planWave_chosen (cfg : PlanConfig) (prompts : List Tokens) (hblock : 0 < cfg.blockTokens)
    (hchunk : 0 < cfg.chunkTokens) (hnonempty : ∀ tokens ∈ prompts, tokens ≠ []) :
    ∃ plan threshold, planWavePrefixSharing cfg prompts [] = .ok plan ∧
      waveSchedule cfg prompts threshold = .ok (some plan) ∧ Chosen cfg.poolPages (waveTree cfg prompts) threshold := by
  have hok : ∀ threshold, ∃ result, waveSchedule cfg prompts threshold = .ok result := by
    intro threshold
    rcases waveSchedule_cases cfg prompts threshold hblock with ⟨-, hnone⟩ | ⟨plan, l, -, hsome, -⟩
    · exact ⟨none, hnone⟩
    · exact ⟨some plan, hsome⟩
  have hplanner : planWavePrefixSharing cfg prompts [] =
      planTree cfg (waveTree cfg prompts) (prompts.map List.length) [] := by
    have hgroups : groupMaterializedPrefixes prompts cfg.blockTokens [] = .ok [] := rfl
    rw [planWave_eq hblock hchunk hnonempty hgroups (Or.inl rfl), flatMap_nil, waveTree]
  have hsorted := thresholds_sorted (waveTree cfg prompts)
  rcases firstPlan_cases (fun t => hok (some t)) (thresholds (waveTree cfg prompts)) with
    ⟨before, t, after, plan, hsplit, hbefore, ht, hfirst⟩ | ⟨hall, hfirst⟩
  · unfold waveSchedule at hfirst
    refine ⟨plan, some t, by rw [hplanner, planTree, hfirst], ht, ?_, fun u hu hlt => ?_, fun u hu => ?_⟩
    · by_contra hnot
      rw [(waveSchedule_eq_none_iff cfg prompts (some t) hblock).mpr hnot] at ht
      cases ht
    · refine (waveSchedule_eq_none_iff cfg prompts (some u) hblock).mp (hbefore u ?_)
      rw [hsplit] at hu hsorted
      rcases mem_append.mp hu with hu | hu
      · exact hu
      · have hle : t ≤ u := by
          rcases mem_cons.mp hu with rfl | hu
          · exact le_rfl
          · exact ((pairwise_cons.mp (pairwise_append.mp hsorted).2.1).1 u hu).le
        exact absurd (hlt t rfl) (not_lt.mpr hle)
    · cases hu
      rw [hsplit]
      exact mem_append_right _ mem_cons_self
  · rcases waveSchedule_cases cfg prompts none hblock with ⟨hnot, -⟩ | ⟨plan, l, hfit, hsome, -⟩
    · exact absurd (fits_none _ _) hnot
    · have hplan := hsome
      unfold waveSchedule at hfirst hplan
      refine ⟨plan, none, by rw [hplanner, planTree, hfirst, hplan], hsome, hfit, fun u hu _ => ?_, fun u hu => ?_⟩
      · exact (waveSchedule_eq_none_iff cfg prompts (some u) hblock).mp (hall u hu)
      · cases hu

theorem computed_of_schedule {threshold : Option ℤ} {plan : WavePrefixPlan} (hblock : 0 < cfg.blockTokens)
    (hnonempty : ∀ tokens ∈ prompts, tokens ≠ []) (hplan : waveSchedule cfg prompts threshold = .ok (some plan)) :
    plan.computedTokens + savedTokens cfg.blockTokens (waveTree cfg prompts) threshold = (prompts.map length).sum := by
  rcases waveSchedule_cases cfg prompts threshold hblock with
    ⟨-, hnone⟩ | ⟨plan', l, -, hsome, hgroups, hvalid, hsegments, hplanValid⟩
  · rw [hnone] at hplan
    cases hplan
  · rw [hsome] at hplan
    cases hplan
    exact computed_add_saved hvalid hgroups hsegments hplanValid hnonempty

/-- Growing the pool never makes a plan compute more. -/
theorem computedTokens_antitone {plan more : WavePrefixPlan} {t u : Option ℤ} (hblock : 0 < cfg.blockTokens)
    (hnonempty : ∀ tokens ∈ prompts, tokens ≠ []) (hle : cfg.poolPages ≤ poolPages)
    (hplan : waveSchedule cfg prompts t = .ok (some plan)) (ht : Chosen cfg.poolPages (waveTree cfg prompts) t)
    (hmore : waveSchedule { cfg with poolPages } prompts u = .ok (some more))
    (hu : Chosen poolPages (waveTree cfg prompts) u) : more.computedTokens ≤ plan.computedTokens := by
  have hbuilt := buildTree_valid prompts cfg.blockTokens []
  have hcomputed := computed_of_schedule hblock hnonempty hplan
  have hcomputed' : more.computedTokens + savedTokens cfg.blockTokens (waveTree cfg prompts) u =
      (prompts.map List.length).sum :=
    @computed_of_schedule { cfg with poolPages } prompts u more hblock hnonempty hmore
  have hsaved : savedTokens cfg.blockTokens (waveTree cfg prompts) t ≤
      savedTokens cfg.blockTokens (waveTree cfg prompts) u := by
    refine savedTokens_mono fun seg hseg hpooled => ?_
    cases t with
    | none => cases hpooled
    | some t =>
      have hfits : Fits poolPages (waveTree cfg prompts) (some t) := fun path hpath =>
        (ht.fits path hpath).trans hle
      exact hu.pools_most hbuilt.bound hfits hseg hpooled
  omega

/-- Without loads: a threshold fails exactly when some prompt's pooled chain is longer than the pool; the
planner always plans, with the smallest of its candidates that fits, which pools every segment that any
fitting threshold pools; and a larger pool never computes more. -/
theorem planWave_without_loads (cfg : PlanConfig) (prompts : List Tokens) (hblock : 0 < cfg.blockTokens) :
    (∀ threshold, waveSchedule cfg prompts threshold = .ok none ↔ ∃ path ∈ (waveTree cfg prompts).paths,
        cfg.poolPages < chainPages (waveTree cfg prompts) threshold path) ∧
    (0 < cfg.chunkTokens → (∀ tokens ∈ prompts, tokens ≠ []) →
      ∃ plan threshold, planWavePrefixSharing cfg prompts [] = .ok plan ∧
        waveSchedule cfg prompts threshold = .ok (some plan) ∧ Chosen cfg.poolPages (waveTree cfg prompts) threshold ∧
        (∀ u, Fits cfg.poolPages (waveTree cfg prompts) (some u) →
          ∀ seg < (waveTree cfg prompts).size, pooledSegment (waveTree cfg prompts) (some u) seg = true →
            pooledSegment (waveTree cfg prompts) threshold seg = true) ∧ ∀ poolPages, cfg.poolPages ≤ poolPages →
          ∃ more, planWavePrefixSharing { cfg with poolPages } prompts [] = .ok more ∧
            more.computedTokens ≤ plan.computedTokens) := by
  refine ⟨fun threshold => ?_, fun hchunk hnonempty => ?_⟩
  · rw [waveSchedule_eq_none_iff cfg prompts threshold hblock, Fits]
    push Not
    rfl
  · obtain ⟨plan, threshold, hplan, hschedule, hchosen⟩ := planWave_chosen cfg prompts hblock hchunk hnonempty
    refine ⟨plan, threshold, hplan, hschedule, hchosen, fun u hu seg hseg hpooled => ?_, fun poolPages hle => ?_⟩
    · exact hchosen.pools_most (buildTree_valid prompts cfg.blockTokens []).bound hu hseg hpooled
    · obtain ⟨more, u, hmore, hmoreSchedule, hu⟩ :=
        planWave_chosen { cfg with poolPages } prompts hblock hchunk hnonempty
      exact ⟨more, hmore, computedTokens_antitone hblock hnonempty hle hschedule hchosen hmoreSchedule hu⟩

/-- Three prompts over one block of two tokens, two of them over a second one, in a pool of one page. -/
theorem planWave_without_loads_branching :
    ∃ plan, planWavePrefixSharing { blockTokens := 2, poolPages := 1, chunkTokens := 4 }
      [[1, 2, 3, 4, 5], [1, 2, 3, 4, 6], [1, 2, 7]] [] = .ok plan := by
  obtain ⟨plan, -, hplan, -⟩ := (planWave_without_loads { blockTokens := 2, poolPages := 1, chunkTokens := 4 }
      [[1, 2, 3, 4, 5], [1, 2, 3, 4, 6], [1, 2, 7]] (by decide)).2 (by decide) (by decide)
  exact ⟨plan, hplan⟩

end Batchgen.WavePlan
