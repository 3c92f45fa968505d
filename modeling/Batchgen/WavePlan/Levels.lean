import Batchgen.WavePlan.Validated
import Batchgen.WavePlan.Threshold

/-!
# Plans ordered by level

Sorting the items of every chunk by the number of segments they read keeps the contract: the item of a
segment reads fewer segments than the readers of that segment, so it stays in front of them.  The rows of
one level are then contiguous, which is all that `chunk_levels` asks for.
-/

namespace Batchgen.WavePlan

open List

variable {cfg : PlanConfig} {items xs ys done done' : List PlanItem} {pages : ℕ → ℕ} {prompts : List Tokens}
  {plan : WavePrefixPlan}

/-! ### The contract survives the sort -/

theorem orderByLevel_perm (chunk : PlanChunk) : chunk.orderByLevel.items.Perm chunk.items := perm_insertionSort _ _

theorem orderByLevel_sorted (chunk : PlanChunk) : chunk.orderByLevel.items.Pairwise fun x y => x.level ≤ y.level := by
  have htrans : IsTrans PlanItem fun x y => x.level ≤ y.level := ⟨fun _ _ _ => le_trans⟩
  have htotal : Std.Total fun x y : PlanItem => x.level ≤ y.level := ⟨fun x y => le_total _ _⟩
  exact pairwise_insertionSort _ _

theorem written_perm (h : xs.Perm ys) : (written xs).Perm (written ys) := h.filterMap _

theorem forwardItems_perm (h : xs.Perm ys) : (forwardItems xs).Perm (forwardItems ys) :=
  h.filter _

section

variable {segments : List PlanSegment} (hitems : ItemsValid prompts segments items)
include hitems

theorem ChunkOk.orderByLevel {chunk : PlanChunk} (h : ChunkOk cfg pages items done chunk)
    (hsub : ∀ x ∈ chunk.items, x ∈ items)
    (hdone : done'.Perm done) : ChunkOk cfg pages items done' chunk.orderByLevel := by
  have hperm := orderByLevel_perm chunk
  have hforward := forwardItems_perm hperm
  have hlength := hforward.length_eq
  have htokens : sumTokens (forwardItems chunk.orderByLevel.items) =
      sumTokens (forwardItems chunk.items) := (hforward.map _).sum_eq
  have hkeys : sumKeys (forwardItems chunk.orderByLevel.items) = sumKeys (forwardItems chunk.items) :=
    (hforward.map _).sum_eq
  refine ⟨fun hnil => h.forward ?_, ?_, fun chunkKeys hcap => ?_, ?_, ?_, h.fits, ?_⟩
  · rw [hnil] at hforward
    exact hforward.nil_eq.symm
  · rw [htokens, hlength]
    exact h.tokens
  · rw [hkeys, hlength]
    exact h.keys chunkKeys hcap
  · intro before x after hsplit seg hread
    have hx : x ∈ chunk.items := by
      refine hperm.mem_iff.mp ?_
      rw [hsplit]
      exact mem_append_right _ mem_cons_self
    obtain ⟨front, back, hchunk⟩ := append_of_mem hx
    rcases h.reads front x back hchunk seg hread with hin | ⟨hsame, hin⟩
    · exact Or.inl ((written_perm hdone).mem_iff.mpr hin)
    obtain ⟨y, hy, hywrites⟩ := mem_written.mp hin
    have hychunk : y ∈ chunk.items := by
      rw [hchunk]
      exact mem_append_left _ hy
    have hlevel : y.level < x.level :=
      hitems.prefix_lt (hsub x hx) hread (hsub y hychunk) (writes_eq_some.mpr hywrites)
    refine Or.inr ⟨hsame, mem_written.mpr ⟨y, ?_, hywrites⟩⟩
    have hsorted := orderByLevel_sorted chunk
    have hyorder := hperm.mem_iff.mpr hychunk
    rw [hsplit] at hsorted hyorder
    rcases mem_append.mp hyorder with hbefore | hrest
    · exact hbefore
    · have hle : x.level ≤ y.level := by
        rcases mem_cons.mp hrest with rfl | hafter
        · exact le_rfl
        · exact (pairwise_cons.mp (pairwise_append.mp hsorted).2.1).1 y hafter
      exact absurd hlevel (not_lt.mpr hle)
  · refine h.inUse.trans (congrArg Nat.cast ?_)
    exact ((((itemTasks items).resident_perm hdone).append (written_perm hperm)).map pages).sum_eq.symm
  · exact h.release.trans ((itemTasks items).expired_perm hdone hperm).symm

theorem ChunksOk.orderByLevel {chunks : List PlanChunk} (h : ChunksOk cfg pages items done chunks)
    (hsub : ∀ x ∈ chunkItems chunks, x ∈ items) (hdone : done'.Perm done) :
    ChunksOk cfg pages items done' (chunks.map PlanChunk.orderByLevel) := by
  induction chunks generalizing done done' with
  | nil => trivial
  | cons chunk chunks ih =>
    rw [chunkItems_cons] at hsub
    refine ⟨h.1.orderByLevel hitems (fun x hx => hsub x (mem_append_left _ hx)) hdone, ?_⟩
    exact ih h.2 (fun x hx => hsub x (mem_append_right _ hx)) (hdone.append (orderByLevel_perm chunk))

end

theorem chunkItems_orderByLevel (chunks : List PlanChunk) :
    (chunkItems (chunks.map PlanChunk.orderByLevel)).Perm (chunkItems chunks) := by
  induction chunks with
  | nil => exact List.Perm.refl _
  | cons chunk chunks ih => exact (orderByLevel_perm chunk).append ih

theorem PlanValid.orderByLevel
    (h : PlanValid prompts items plan) : PlanValid prompts items (orderChunkItemsByLevel plan) where
  block := h.block
  segments := h.segments
  work := h.work
  perm := (chunkItems_orderByLevel plan.chunks).trans h.perm
  chunks := h.chunks.orderByLevel h.work (fun _ hx => h.perm.mem_iff.mp hx) (List.Perm.refl _)
  promptTokens := h.promptTokens
  computed := by
    have hperm := chunkItems_orderByLevel plan.chunks
    exact h.computed.trans (((hperm.filter _).map _).sum_eq).symm
  loaded := h.loaded
  peak := by
    have hsame : (plan.chunks.map PlanChunk.orderByLevel).map PlanChunk.poolPagesInUse =
        plan.chunks.map PlanChunk.poolPagesInUse := by
      rw [map_map]
      rfl
    exact h.peak.trans (congrArg (List.foldl max 0) hsame).symm

/-! ### Runs of rows -/

theorem levelRuns_append (items : List PlanItem) (item : PlanItem) :
    levelRuns (items ++ [item]) = addRow (levelRuns items) (item, items.length) := by
  rw [levelRuns, zipIdx_append, foldl_append]
  simp [levelRuns]

/-- Rows sorted by level give runs of rising depth. -/
theorem levelRuns_sorted (h : items.Pairwise fun x y => x.level ≤ y.level) :
    ((levelRuns items).map Prod.fst).Pairwise (· < ·) ∧
      ((levelRuns items).map Prod.fst).getLast? = items.getLast?.map PlanItem.level := by
  induction items using List.reverseRecOn with
  | nil => exact ⟨List.Pairwise.nil, rfl⟩
  | append_singleton items item ih =>
    obtain ⟨hitems, -, hbehind⟩ := pairwise_append.mp h
    obtain ⟨hsorted, hlast⟩ := ih hitems
    rw [levelRuns_append, getLast?_concat]
    rcases eq_nil_or_concat (levelRuns items) with hnil | ⟨runs, ⟨depth, start, stop⟩, hruns⟩
    · rw [hnil]
      exact ⟨pairwise_singleton _ _, rfl⟩
    rw [concat_eq_append] at hruns
    rw [hruns, map_append] at hsorted hlast
    have hdepth : items.getLast?.map PlanItem.level = some depth := by
      rw [← hlast]
      exact getLast?_concat
    obtain ⟨row, hrow, hlevel⟩ := Option.map_eq_some_iff.mp hdepth
    have hle : depth ≤ item.level := by
      rw [← hlevel]
      exact hbehind row (mem_of_getLast? hrow) item mem_cons_self
    rw [hruns, addRow, getLast?_concat]
    dsimp only
    split
    · rename_i heq
      rw [dropLast_concat, map_append]
      exact ⟨hsorted, by rw [map_cons, map_nil, getLast?_concat, heq]; rfl⟩
    rename_i hne
    rw [map_append, map_append]
    refine ⟨pairwise_append.mpr ⟨hsorted, pairwise_singleton _ _, ?_⟩, getLast?_concat⟩
    intro d hd d' hd'
    have hnew := mem_singleton.mp hd'
    rw [hnew]
    have hlt : depth < item.level := lt_of_le_of_ne hle hne
    rcases mem_append.mp hd with hold | hold
    · exact ((pairwise_append.mp hsorted).2.2 d hold depth mem_cons_self).trans hlt
    · rw [mem_singleton.mp hold]
      exact hlt

theorem chunkLevels_ok (h : items.Pairwise fun x y => x.level ≤ y.level)
    (rowBounds : List ℕ) : ∃ levels, chunkLevels items rowBounds = .ok levels := by
  have hsorted := (levelRuns_sorted h).1
  have hdepths : ((levelRuns items).map Prod.fst).dedup.insertionSort (· ≤ ·) = (levelRuns items).map Prod.fst := by
    rw [hsorted.nodup.dedup]
    exact (hsorted.imp le_of_lt).insertionSort_eq
  unfold chunkLevels
  dsimp only
  rw [if_neg (not_not.mpr hdepths.symm)]
  exact ⟨_, rfl⟩

/-! ### Accepted waves -/

/-- What the planner returns keeps the contract. -/
theorem planWave_valid {hits : List MaterializedPrefix} (hplan : planWavePrefixSharing cfg prompts hits = .ok plan) :
    (∀ tokens ∈ prompts, tokens ≠ []) ∧ ∃ items, PlanValid prompts items plan := by
  unfold planWavePrefixSharing at hplan
  split at hplan
  · cases hplan
  rename_i hsizes
  split at hplan
  · cases hplan
  rename_i hprompts
  split at hplan
  · cases hplan
  rename_i groups hgroups
  split at hplan
  · cases hplan
  have hblock : 0 < cfg.blockTokens := by omega
  have hnonempty : ∀ tokens ∈ prompts, tokens ≠ [] := fun tokens hmem hnil => hprompts ⟨tokens, hmem, hnil⟩
  have hschedule : ∀ threshold plan, schedule cfg (buildTree prompts cfg.blockTokens (groups.flatMap Prod.snd))
      (prompts.map List.length) threshold groups = .ok (some plan) →
      ∃ items, PlanValid prompts items plan := by
    intro threshold plan hplan
    obtain ⟨l, hlayout, -, hvalid⟩ :=
      @layoutOf_ok prompts cfg.blockTokens _ threshold groups (buildTree_valid prompts cfg.blockTokens _)
        (groupMaterializedPrefixes_valid hgroups)
    obtain ⟨-, hplanValid⟩ := schedule_valid hblock hlayout hvalid hplan
    exact ⟨_, hplanValid⟩
  have hfirst : ∀ ts plan, firstPlan (fun threshold => schedule cfg
      (buildTree prompts cfg.blockTokens (groups.flatMap Prod.snd)) (prompts.map List.length)
      (some threshold) groups) ts = .ok (some plan) → ∃ items, PlanValid prompts items plan := by
    intro ts
    induction ts with
    | nil => exact fun plan hnone => by cases hnone
    | cons t ts ih =>
      intro plan hfirst
      rw [firstPlan] at hfirst
      split at hfirst
      · cases hfirst
      · rename_i result hresult
        cases hfirst
        exact hschedule _ _ hresult
      · exact ih plan hfirst
  unfold planTree at hplan
  refine ⟨hnonempty, ?_⟩
  split at hplan
  · cases hplan
  · rename_i result hresult
    cases hplan
    exact hfirst _ _ hresult
  · split at hplan
    · cases hplan
    · rename_i result hresult
      cases hplan
      exact hschedule _ _ hresult
    · split at hplan <;> cases hplan

/-- Every plan the planner returns passes the validator, as it is and ordered by level, and the rows of an
ordered chunk are grouped by level. -/
theorem planWave_validates (cfg : PlanConfig) (prompts : List Tokens) (hits : List MaterializedPrefix)
    (plan : WavePrefixPlan) (hplan : planWavePrefixSharing cfg prompts hits = .ok plan) :
    validateWavePrefixPlan plan prompts = .ok () ∧
      validateWavePrefixPlan (orderChunkItemsByLevel plan) prompts = .ok () ∧
      ∀ chunk ∈ (orderChunkItemsByLevel plan).chunks, ∀ rowBounds,
        ∃ levels, chunkLevels (forwardItems chunk.items) rowBounds = .ok levels := by
  obtain ⟨hnonempty, items, hvalid⟩ := planWave_valid hplan
  refine ⟨hvalid.validate_ok hnonempty, hvalid.orderByLevel.validate_ok hnonempty, ?_⟩
  intro chunk hchunk rowBounds
  obtain ⟨original, -, rfl⟩ := mem_map.mp hchunk
  exact chunkLevels_ok ((orderByLevel_sorted original).filter _) rowBounds

/-- Three prompts, one of them behind a loaded block. -/
theorem planWave_validates_loaded :
    ∃ plan, planWavePrefixSharing { blockTokens := 2, poolPages := 3, chunkTokens := 5, sameChunkAncestors := true }
        [[1, 2, 3, 4, 5], [1, 2, 3, 4, 6], [1, 2, 7]] [⟨2, 2⟩] = .ok plan ∧
      validateWavePrefixPlan plan [[1, 2, 3, 4, 5], [1, 2, 3, 4, 6], [1, 2, 7]] = .ok () :=
  ⟨_, rfl, (planWave_validates { blockTokens := 2, poolPages := 3, chunkTokens := 5, sameChunkAncestors := true }
    [[1, 2, 3, 4, 5], [1, 2, 3, 4, 6], [1, 2, 7]] [⟨2, 2⟩] _ rfl).1⟩

end Batchgen.WavePlan
