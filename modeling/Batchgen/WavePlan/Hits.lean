import Batchgen.WavePlan.Order

/-!
# Hits, chains and the layout of a wave

What `group_materialized_prefixes` accepts (`GroupsValid`), that the checks of `_schedule` then pass,
and what the layout of the wave is (`LayoutValid`).
-/

namespace Batchgen.WavePlan

open List

variable {prompts : List Tokens} {blockTokens index seg up : ℕ} {seen : List ℤ} {groups' : HitGroups} {skip : List ℕ}
  {tree : Tree}

/-! ### Hits -/

/-- A group of hits with one prefix: a positive number of blocks that leaves every member its last
token, and the same tokens for all of them. -/
structure GroupValid (prompts : List Tokens) (blockTokens : ℕ) (group : ℕ × List ℕ) : Prop where
  pos : 0 < group.1
  aligned : blockTokens ∣ group.1
  nonempty : group.2 ≠ []
  inside : ∀ index ∈ group.2, ∃ tokens, prompts[index]? = some tokens ∧ group.1 ≤ tokens.length - 1
  agree : ∀ i ∈ group.2, ∀ j ∈ group.2, ∀ tokens tokens', prompts[i]? = some tokens →
    prompts[j]? = some tokens' → tokens.take group.1 = tokens'.take group.1

structure GroupsValid (prompts : List Tokens) (blockTokens : ℕ) (groups : List (ℕ × List ℕ)) :
    Prop where
  valid : ∀ group ∈ groups, GroupValid prompts blockTokens group
  nodup : (groups.flatMap Prod.snd).Nodup

/-- The loop state of `group_materialized_prefixes`. -/
structure Grouped (prompts : List Tokens) (blockTokens : ℕ) (seen : List ℤ) (groups : HitGroups) :
    Prop where
  nodup : (groups.flatMap Prod.snd).Nodup
  seen : ∀ index ∈ groups.flatMap Prod.snd, (index : ℤ) ∈ seen
  keys : ∀ group ∈ groups, 0 < group.1.1 ∧ blockTokens ∣ group.1.1 ∧ group.2 ≠ []
  members : ∀ group ∈ groups, ∀ index ∈ group.2, ∃ tokens, prompts[index]? = some tokens ∧
    group.1.1 ≤ tokens.length - 1 ∧ tokens.take group.1.1 = group.1.2

theorem HitGroups.mem_add {key : ℕ × Tokens} {groups : HitGroups} {group : (ℕ × Tokens) × List ℕ}
    (h : group ∈ groups.add key index) :
    group ∈ groups ∨ (group.1 = key ∧ index ∈ group.2 ∧
      ∀ other ∈ group.2, other = index ∨ ∃ old ∈ groups, old.1 = key ∧ other ∈ old.2) := by
  induction groups with
  | nil =>
    rw [HitGroups.add, mem_singleton] at h
    subst h
    exact Or.inr ⟨rfl, by simp, fun other hother => Or.inl (mem_singleton.mp hother)⟩
  | cons first groups ih =>
    obtain ⟨other, members⟩ := first
    rw [HitGroups.add] at h
    split at h
    · rename_i heq
      rcases mem_cons.mp h with rfl | h
      · refine Or.inr ⟨heq, by simp, fun m hm => ?_⟩
        rcases mem_append.mp hm with hm | hm
        · exact Or.inr ⟨(other, members), mem_cons_self, heq, hm⟩
        · exact Or.inl (mem_singleton.mp hm)
      · exact Or.inl (mem_cons_of_mem _ h)
    · rcases mem_cons.mp h with rfl | h
      · exact Or.inl mem_cons_self
      · rcases ih h with h | ⟨hkey, hindex, hmembers⟩
        · exact Or.inl (mem_cons_of_mem _ h)
        · refine Or.inr ⟨hkey, hindex, fun m hm => ?_⟩
          rcases hmembers m hm with hm | ⟨old, hold, hold'⟩
          · exact Or.inl hm
          · exact Or.inr ⟨old, mem_cons_of_mem _ hold, hold'⟩

theorem HitGroups.flatMap_add (key : ℕ × Tokens) (index : ℕ) (groups : HitGroups) :
    ((groups.add key index).flatMap Prod.snd).Perm (index :: groups.flatMap Prod.snd) := by
  induction groups with
  | nil => exact List.Perm.refl _
  | cons first groups ih =>
    obtain ⟨other, members⟩ := first
    rw [HitGroups.add]
    split
    · simp only [flatMap_cons]
      rw [append_assoc, singleton_append]
      exact perm_middle
    · simp only [flatMap_cons]
      exact (List.Perm.append_left members ih).trans perm_middle

/-- What an accepted hit passes, and what it adds. -/
theorem groupHit_ok {seen' : List ℤ} {groups : HitGroups} {hit : MaterializedPrefix}
    (h : groupHit prompts blockTokens seen groups hit = .ok (seen', groups')) :
    (0 ≤ hit.index ∧ hit.index < prompts.length) ∧ hit.index ∉ seen ∧ 0 < hit.tokens ∧ hit.tokens % blockTokens = 0 ∧
      hit.tokens ≤ (prompts.getD hit.index.toNat []).length - 1 ∧ seen' = hit.index :: seen ∧
      groups' = groups.add (hit.tokens.toNat, (prompts.getD hit.index.toNat []).take hit.tokens.toNat)
        hit.index.toNat := by
  unfold groupHit at h
  split at h
  · cases h
  rename_i hrange
  split at h
  · cases h
  rename_i hseen
  simp only at h
  split at h
  · cases h
  rename_i hgrid
  split at h
  · cases h
  rename_i hprivate
  cases h
  rw [not_not] at hrange
  rw [not_or, not_not, not_le] at hgrid
  exact ⟨hrange, hseen, hgrid.1, hgrid.2, not_lt.mp hprivate, rfl, rfl⟩

/-- **One accepted hit.** -/
theorem Grouped.groupHit {seen' : List ℤ} {groups : HitGroups} {hit : MaterializedPrefix}
    (h : Grouped prompts blockTokens seen groups)
    (hout : WavePlan.groupHit prompts blockTokens seen groups hit = .ok (seen', groups')) :
    Grouped prompts blockTokens seen' groups' := by
  obtain ⟨hrange, hseen, hpos, hgrid, hprivate, rfl, rfl⟩ := groupHit_ok hout
  have hlt : hit.index.toNat < prompts.length := by omega
  have hprompt : prompts[hit.index.toNat]? = some (prompts.getD hit.index.toNat []) := by
    rw [getD_eq_getElem?_getD, getElem?_eq_getElem hlt]
    rfl
  have hdvd : blockTokens ∣ hit.tokens.toNat := by
    have hint := Int.dvd_of_emod_eq_zero hgrid
    rw [← Int.natCast_dvd_natCast, Int.toNat_of_nonneg (by omega)]
    exact hint
  have hperm := HitGroups.flatMap_add
    (hit.tokens.toNat, (prompts.getD hit.index.toNat []).take hit.tokens.toNat) hit.index.toNat groups
  have hnew : hit.index.toNat ∉ groups.flatMap Prod.snd := by
    intro hmem
    have hin := h.seen _ hmem
    rw [Int.toNat_of_nonneg hrange.1] at hin
    exact hseen hin
  refine ⟨?_, fun index hindex => ?_, fun group hgroup => ?_, fun group hgroup index hindex => ?_⟩
  · rw [hperm.nodup_iff, nodup_cons]
    exact ⟨hnew, h.nodup⟩
  · rcases mem_cons.mp (hperm.mem_iff.mp hindex) with rfl | hindex
    · rw [Int.toNat_of_nonneg hrange.1]
      exact mem_cons_self
    · exact mem_cons_of_mem _ (h.seen index hindex)
  · rcases HitGroups.mem_add hgroup with hgroup | ⟨hkey, hmem, -⟩
    · exact h.keys group hgroup
    · rw [hkey]
      exact ⟨by show 0 < hit.tokens.toNat; omega, hdvd, ne_nil_of_mem hmem⟩
  · rcases HitGroups.mem_add hgroup with hgroup | ⟨hkey, -, hmembers⟩
    · exact h.members group hgroup index hindex
    · rcases hmembers index hindex with rfl | ⟨old, hold, holdKey, hin⟩
      · refine ⟨_, hprompt, ?_, ?_⟩
        · rw [hkey]
          show hit.tokens.toNat ≤ _
          omega
        · rw [hkey]
      · rw [hkey, ← holdKey]
        exact h.members old hold index hin

theorem Grouped.groupHits {groups : HitGroups} {hits : List MaterializedPrefix}
    (h : Grouped prompts blockTokens seen groups)
    (hout : WavePlan.groupHits prompts blockTokens seen groups hits = .ok groups') :
    ∃ seen', Grouped prompts blockTokens seen' groups' := by
  induction hits generalizing seen groups with
  | nil =>
    cases hout
    exact ⟨seen, h⟩
  | cons hit hits ih =>
    rw [WavePlan.groupHits] at hout
    cases hstep : WavePlan.groupHit prompts blockTokens seen groups hit with
    | error e =>
      rw [hstep] at hout
      cases hout
    | ok next =>
      rw [hstep] at hout
      exact ih (h.groupHit hstep) hout

/-- **Accepted hits** form valid groups. -/
theorem groupMaterializedPrefixes_valid {materialized : List MaterializedPrefix} {groups : List (ℕ × List ℕ)}
    (h : groupMaterializedPrefixes prompts blockTokens materialized = .ok groups) :
    GroupsValid prompts blockTokens groups := by
  unfold groupMaterializedPrefixes at h
  cases hgroups : groupHits prompts blockTokens [] [] materialized with
  | error e =>
    rw [hgroups] at h
    cases h
  | ok grouped =>
    rw [hgroups] at h
    cases h
    have hempty : Grouped prompts blockTokens [] [] :=
      ⟨nodup_nil, fun _ hmem => (by cases hmem), fun _ hmem => (by cases hmem), fun _ hmem => (by cases hmem)⟩
    obtain ⟨seen, hvalid⟩ := hempty.groupHits hgroups
    refine ⟨fun group hgroup => ?_, ?_⟩
    · obtain ⟨old, hold, rfl⟩ := mem_map.mp hgroup
      obtain ⟨hpos, haligned, hne⟩ := hvalid.keys old hold
      refine ⟨hpos, haligned, hne, fun index hindex => ?_, fun i hi j hj tokens tokens' hti htj => ?_⟩
      · obtain ⟨tokens, htokens, hlen, -⟩ := hvalid.members old hold index hindex
        exact ⟨tokens, htokens, hlen⟩
      · obtain ⟨tokens₁, htokens₁, -, heq₁⟩ := hvalid.members old hold i hi
        obtain ⟨tokens₂, htokens₂, -, heq₂⟩ := hvalid.members old hold j hj
        rw [hti] at htokens₁
        rw [htj] at htokens₂
        cases htokens₁
        cases htokens₂
        exact heq₁.trans heq₂.symm
    · have hflat : (grouped.map fun group => (group.1.1, group.2)).flatMap Prod.snd =
          grouped.flatMap Prod.snd := by
        rw [flatMap_map]
      rw [hflat]
      exact hvalid.nodup

/-! ### The readers of loaded segments -/

theorem lookup_none_iff {α β : Type*} [DecidableEq α] {pairs : List (α × β)} {key : α} :
    pairs.lookup key = none ↔ key ∉ pairs.map Prod.fst := by
  rw [lookup_eq_none_iff, mem_map]
  simp only [bne_iff_ne, not_exists, not_and]
  exact forall₂_congr fun _ _ => ne_comm

/-- `materialized_of` when no prompt is in two groups. -/
theorem foldlM_readers (pairs readers : List (ℕ × ℕ)) (hnodup : ((readers ++ pairs).map Prod.fst).Nodup) :
    pairs.foldlM (fun (readers : List (ℕ × ℕ)) reader =>
      if (readers.lookup reader.1).isSome then .error (PlanError.twoMaterializedSegments reader.1)
      else Except.ok (readers ++ [reader])) readers = .ok (readers ++ pairs) := by
  induction pairs generalizing readers with
  | nil =>
    rw [append_nil]
    rfl
  | cons pair pairs ih =>
    have hnone : readers.lookup pair.1 = none := by
      rw [map_append, nodup_append] at hnodup
      exact lookup_none_iff.mpr fun hin => hnodup.2.2 _ hin _ mem_cons_self rfl
    rw [foldlM_cons, hnone]
    have hrest := ih (readers ++ [pair]) (by rwa [append_assoc, singleton_append])
    rw [append_assoc, singleton_append] at hrest
    exact hrest

theorem lookup_eq_some_iff {α β : Type*} [DecidableEq α] {pairs : List (α × β)}
    (hnodup : (pairs.map Prod.fst).Nodup) {key : α} {value : β} :
    pairs.lookup key = some value ↔ (key, value) ∈ pairs := by
  rw [List.lookup_eq_some_iff]
  constructor
  · rintro ⟨before, after, rfl, -⟩
    exact mem_append_right _ mem_cons_self
  · intro hmem
    obtain ⟨before, after, rfl⟩ := append_of_mem hmem
    refine ⟨before, after, rfl, fun p hp => bne_iff_ne.mpr fun heq => ?_⟩
    rw [map_append, nodup_append] at hnodup
    exact hnodup.2.2 p.1 (mem_map_of_mem hp) key mem_cons_self heq.symm

/-- The members of a group and no others read its segment. -/
theorem materializedOf_ok {groups : List (ℕ × List ℕ)} (hnodup : (groups.flatMap Prod.snd).Nodup) :
    ∃ readers, materializedOf groups = .ok readers ∧ ∀ index segmentId, readers.lookup index = some segmentId ↔
        ∃ group, groups[segmentId]? = some group ∧ index ∈ group.2 := by
  have hfst : (readerPairs groups).map Prod.fst = groups.flatMap Prod.snd := by
    rw [readerPairs, map_flatMap]
    have hmap : ∀ group : (ℕ × List ℕ) × ℕ, (group.1.2.map fun index => (index, group.2)).map Prod.fst = group.1.2 := by
      intro group
      rw [map_map]
      exact map_id' _
    simp only [hmap]
    rw [← flatMap_map (f := Prod.fst) (g := Prod.snd), zipIdx_map_fst]
  have hkeys : ((readerPairs groups).map Prod.fst).Nodup := by
    rw [hfst]
    exact hnodup
  have hrun := foldlM_readers (readerPairs groups) [] (by rwa [nil_append])
  rw [nil_append] at hrun
  refine ⟨_, hrun, fun index segmentId => ?_⟩
  rw [lookup_eq_some_iff hkeys, readerPairs, mem_flatMap]
  constructor
  · rintro ⟨⟨group, k⟩, hgroup, hmem⟩
    obtain ⟨i, hi, heq⟩ := mem_map.mp hmem
    cases heq
    exact ⟨group, mem_zipIdx_iff_getElem?.mp hgroup, hi⟩
  · rintro ⟨group, hgroup, hindex⟩
    exact ⟨(group, segmentId), mem_zipIdx_iff_getElem?.mpr hgroup, mem_map.mpr ⟨index, hindex, rfl⟩⟩

/-! ### Chains -/

section

variable (h : TreeValid prompts blockTokens skip tree) (hseg : seg < tree.size) (hup : tree.parent seg = some up)
include h hseg hup

/-- A segment counts at least as many prompts as its children. -/
theorem TreeValid.count_parent : tree.count seg ≤ tree.count up := by
  have hlt := (h.parent seg hseg up hup).1
  rw [h.count seg hseg, h.count up (hlt.trans hseg)]
  refine countP_mono_left fun path hpath hmem => ?_
  simp only [decide_eq_true_eq] at hmem ⊢
  exact (h.linked path hpath).parent_mem hmem hup

theorem TreeValid.pooled_parent {threshold : Option ℤ} (hpooled : pooledSegment tree threshold seg = true) :
    pooledSegment tree threshold up = true := by
  cases threshold with
  | none => cases hpooled
  | some threshold =>
    simp only [pooledSegment, decide_eq_true_eq] at hpooled ⊢
    have hcount := h.count_parent hseg hup
    omega

end

/-- **The pooled set is closed under ancestors**, so the chains are front parts of the paths. -/
theorem pooledChains_ok {pooled : ℕ → Bool} {readers : List (ℕ × ℕ)} {paths : List (List ℕ)}
    (hfront : ∀ path ∈ paths, path.Pairwise fun a b => pooled b = true → pooled a = true)
    (hreaders : ∀ k path, paths[k]? = some path → (readers.lookup (index + k)).isSome → path = []) :
    pooledChains pooled readers index paths = .ok (paths.map (filter pooled)) := by
  induction paths generalizing index with
  | nil => rfl
  | cons path paths ih =>
    have hclosed := filter_eq_take (hfront path mem_cons_self)
    have hempty : ¬ ((readers.lookup index).isSome ∧ path.filter pooled ≠ []) := by
      rintro ⟨hsome, hne⟩
      rw [hreaders 0 path rfl hsome] at hne
      exact hne rfl
    have hrest := @ih (index + 1) (fun p hp => hfront p (mem_cons_of_mem _ hp))
      (fun k p hp hsome => hreaders (k + 1) p hp (by rwa [Nat.add_right_comm, Nat.add_assoc] at hsome))
    rw [pooledChains, if_neg (not_not.mpr hclosed), if_neg hempty, hrest]
    rfl

end Batchgen.WavePlan
