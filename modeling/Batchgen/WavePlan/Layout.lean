import Batchgen.WavePlan.Hits

/-!
# The layout of a wave

For a valid tree and valid groups the checks of `_schedule` pass (`layoutOf_ok`), and `LayoutValid` says
what the later steps rely on: who reads which loaded segment, the pooled chain of every prompt, and the
order of the pooled segments.
-/

namespace Batchgen.WavePlan

open List Option

variable {index old : ℕ}

structure LayoutValid (prompts : List Tokens) (blockTokens : ℕ) (tree : Tree)
    (threshold : Option ℤ) (l : Layout) : Prop where
  built : TreeValid prompts blockTokens (l.groups.flatMap Prod.snd) tree
  groups : GroupsValid prompts blockTokens l.groups
  readers : ∀ index segmentId, l.readers.lookup index = some segmentId ↔
    ∃ group, l.groups[segmentId]? = some group ∧ index ∈ group.2
  chains : l.chains = tree.paths.map (List.filter (pooledSegment tree threshold))
  nodup : l.order.Nodup
  mem : ∀ seg, seg ∈ l.order ↔ seg < tree.size ∧ pooledSegment tree threshold seg = true
  sorted : ∀ before seg after, l.order = before ++ seg :: after →
    ∀ up, tree.parent seg = some up → up ∈ before

section

variable {prompts : List Tokens} {blockTokens : ℕ} {tree : Tree} {threshold : Option ℤ}
  {groups : List (ℕ × List ℕ)}

/-- Along a path the pooled segments come first. -/
theorem TreeValid.pooled_front {skip : List ℕ} (h : TreeValid prompts blockTokens skip tree)
    (threshold : Option ℤ) {path : List ℕ} (hpath : path ∈ tree.paths) :
    path.Pairwise fun a b => pooledSegment tree threshold b = true → pooledSegment tree threshold a = true := by
  -- what is pooled has a pooled parent
  have htrans : IsTrans ℕ fun a b => pooledSegment tree threshold b = true → pooledSegment tree threshold a = true :=
    ⟨fun _ _ _ hab hbc hc => hab (hbc hc)⟩
  have hparent : ∀ x ∈ path, ∀ p, tree.parent x = some p →
      pooledSegment tree threshold x = true → pooledSegment tree threshold p = true :=
    fun x hx p hp => h.pooled_parent (h.bound path hpath x hx) hp
  exact ((h.linked path hpath).pairwise hparent).1

/-- **The checks of `_schedule` pass.** -/
theorem layoutOf_ok (htree : TreeValid prompts blockTokens (groups.flatMap Prod.snd) tree)
    (hgroups : GroupsValid prompts blockTokens groups) :
    ∃ l, layoutOf tree threshold groups = .ok l ∧ l.groups = groups ∧
      LayoutValid prompts blockTokens tree threshold l := by
  obtain ⟨readers, hreaders, hlookup⟩ := materializedOf_ok hgroups.nodup
  have hskipped : ∀ k path, tree.paths[k]? = some path → (readers.lookup (0 + k)).isSome → path = [] := by
    intro k path hpath hsome
    rw [Nat.zero_add] at hsome
    obtain ⟨segmentId, hsegment⟩ := isSome_iff_exists.mp hsome
    obtain ⟨group, hgroup, hmem⟩ := (hlookup k segmentId).mp hsegment
    refine htree.skipped k (mem_flatMap.mpr ⟨group, mem_of_getElem? hgroup, hmem⟩) path hpath
  have hchains := pooledChains_ok (fun path hpath => htree.pooled_front threshold hpath) hskipped
  have hclosed : ∀ seg < tree.size, pooledSegment tree threshold seg = true → ∀ up,
      tree.parent seg = some up → pooledSegment tree threshold up = true :=
    fun seg hseg hpooled up hup => htree.pooled_parent hseg hup hpooled
  obtain ⟨hnodup, hmem, hsorted⟩ := dfsOrder_spec (fun seg hseg up hup => (htree.parent seg hseg up hup).1) hclosed
  refine ⟨⟨groups, readers, _, _⟩, ?_, rfl, htree, hgroups, hlookup, rfl, hnodup, hmem, hsorted⟩
  simp only [layoutOf, hreaders, hchains]

end

namespace LayoutValid

variable {prompts : List Tokens} {blockTokens : ℕ} {tree : Tree} {threshold : Option ℤ} {l : Layout}
  (h : LayoutValid prompts blockTokens tree threshold l)

include h

theorem chains_length : l.chains.length = prompts.length := by
  rw [h.chains, length_map, h.built.paths]

/-- The chain of a prompt, with its path. -/
theorem chain_eq (hindex : index < prompts.length) : ∃ path tokens, tree.paths[index]? = some path ∧ path ∈ tree.paths ∧
      prompts[index]? = some tokens ∧ l.chain index = path.filter (pooledSegment tree threshold) := by
  have hlt : index < tree.paths.length := by rw [h.built.paths]; exact hindex
  refine ⟨tree.paths[index], prompts[index], getElem?_eq_getElem hlt, getElem_mem hlt, getElem?_eq_getElem hindex, ?_⟩
  rw [Layout.chain, h.chains, getD_eq_getElem?_getD, getElem?_map, getElem?_eq_getElem hlt]
  rfl

theorem chain_of_le (hindex : prompts.length ≤ index) : l.chain index = [] := by
  rw [Layout.chain, getD_eq_getElem?_getD, getElem?_eq_none (by rw [h.chains_length]; exact hindex)]
  rfl

theorem mem_chain {seg : ℕ} (hseg : seg ∈ l.chain index) : index < prompts.length ∧ seg ∈ l.order := by
  by_cases hindex : index < prompts.length
  · obtain ⟨path, tokens, -, hpath, -, hchain⟩ := h.chain_eq hindex
    rw [hchain, mem_filter] at hseg
    exact ⟨hindex, (h.mem seg).mpr ⟨h.built.bound path hpath seg hseg.1, hseg.2⟩⟩
  · rw [h.chain_of_le (not_lt.mp hindex)] at hseg
    cases hseg

/-- A chain is linked from the root. -/
theorem chain_linked (index : ℕ) : LinkedFrom tree.parent none (l.chain index) := by
  by_cases hindex : index < prompts.length
  · obtain ⟨path, tokens, -, hpath, -, hchain⟩ := h.chain_eq hindex
    have htake := filter_eq_take (h.built.pooled_front threshold hpath)
    have hlinked := h.built.linked path hpath
    rw [hchain, htake]
    rw [← take_append_drop (path.filter (pooledSegment tree threshold)).length path] at hlinked
    exact (linkedFrom_append.mp hlinked).1
  · rw [h.chain_of_le (not_lt.mp hindex)]
    trivial

/-- A prompt with a loaded prefix shares nothing. -/
theorem chain_of_reader {segmentId : ℕ} (hreader : l.readers.lookup index = some segmentId) : l.chain index = [] := by
  obtain ⟨group, hgroup, hmem⟩ := (h.readers index segmentId).mp hreader
  by_cases hindex : index < prompts.length
  · obtain ⟨path, tokens, hpath, -, -, hchain⟩ := h.chain_eq hindex
    have hnil := h.built.skipped index (mem_flatMap.mpr ⟨group, mem_of_getElem? hgroup, hmem⟩) path hpath
    rw [hchain, hnil]
    rfl
  · exact h.chain_of_le (not_lt.mp hindex)

theorem mem_members : index ∈ l.members old ↔ old ∈ l.chain index := by
  rw [Layout.members, mem_filter, mem_range, decide_eq_true_eq, h.chains_length]
  exact ⟨And.right, fun hmem => ⟨(h.mem_chain hmem).1, hmem⟩⟩

end LayoutValid

/-- Counting the positions of a list whose entries have a property. -/
theorem length_filter_range {α : Type*} (p : α → Bool) (d : α) (xs : List α) :
    ((range xs.length).filter fun i => p (xs.getD i d)).length = xs.countP p := by
  have hmap : (range xs.length).map (fun i => xs.getD i d) = xs := by
    refine ext_getElem (by simp) fun i hi hi' => ?_
    rw [getElem_map, getElem_range, getD_eq_getElem?_getD, getElem?_eq_getElem hi']
    rfl
  rw [← countP_eq_length_filter]
  exact countP_map.symm.trans (congrArg (countP p) hmap)

namespace LayoutValid

variable {prompts : List Tokens} {blockTokens : ℕ} {tree : Tree} {threshold : Option ℤ} {l : Layout}
  (h : LayoutValid prompts blockTokens tree threshold l)

include h

/-- A pooled segment has as many members as it counts. -/
theorem members_length (hold : old ∈ l.order) : (l.members old).length = tree.count old := by
  obtain ⟨hlt, hpooled⟩ := (h.mem old).mp hold
  have hcount := length_filter_range (fun chain => decide (old ∈ chain)) [] l.chains
  rw [h.built.count old hlt]
  refine hcount.trans ?_
  rw [h.chains, countP_map]
  refine countP_congr fun path _ => ?_
  simp [mem_filter, hpooled]

theorem two_le_members (hold : old ∈ l.order) : 2 ≤ (l.members old).length := by
  obtain ⟨hlt, hpooled⟩ := (h.mem old).mp hold
  rw [h.members_length hold]
  cases threshold with
  | none => cases hpooled
  | some threshold =>
    simp only [pooledSegment, decide_eq_true_eq] at hpooled
    omega

/-- The front of the path that leads to a pooled segment. -/
theorem path_to (hold : old ∈ l.order) :
    ∃ front, LinkedFrom tree.parent none (front ++ [old]) ∧ ∀ seg ∈ front, seg ∈ l.order := by
  have hmembers := h.two_le_members hold
  obtain ⟨index, hindex⟩ := exists_mem_of_length_pos (l := l.members old) (by omega)
  have hchain := h.mem_members.mp hindex
  have hlinked := h.chain_linked index
  obtain ⟨front, after, hsplit⟩ := append_of_mem hchain
  rw [hsplit, ← singleton_append, ← append_assoc] at hlinked
  refine ⟨front, (linkedFrom_append.mp hlinked).1, fun seg hseg => ?_⟩
  exact (h.mem_chain (hsplit ▸ mem_append_left _ hseg)).2

/-- What leads to a segment is listed before it. -/
theorem front_before {front before after : List ℕ} (hlinked : LinkedFrom tree.parent none (front ++ [old]))
    (hsplit : l.order = before ++ old :: after) : front ⊆ before := by
  induction front using List.reverseRecOn generalizing old before after with
  | nil => exact nil_subset _
  | append_singleton front last ih =>
    obtain ⟨hfront, hold⟩ := linkedFrom_append.mp hlinked
    have hparent : tree.parent old = some last := by
      have hup := hold.1
      rwa [getLast?_concat, some_or] at hup
    have hlast := h.sorted before old after hsplit last hparent
    obtain ⟨b, a, hb⟩ := append_of_mem hlast
    have hin := ih hfront (by rw [hsplit, hb, append_assoc, cons_append])
    intro seg hseg
    rcases mem_append.mp hseg with hseg | hseg
    · rw [hb]
      exact mem_append_left _ (hin hseg)
    · rw [mem_singleton.mp hseg]
      exact hlast

/-! ### New numbers -/

omit h in
theorem newId_lt (hold : old ∈ l.order) : l.newId old < l.groups.length + l.order.length :=
  Nat.add_lt_add_left (idxOf_lt_length_of_mem hold) _

omit h in
theorem newId_inj {old' : ℕ} (hold : old ∈ l.order) (heq : l.newId old = l.newId old') : old = old' := by
  have hidx : l.order.idxOf old = l.order.idxOf old' := Nat.add_left_cancel heq
  exact (idxOf_inj hold).mp hidx

theorem newId_parent {up : ℕ} (hold : old ∈ l.order) (hup : tree.parent old = some up) :
    up ∈ l.order ∧ l.newId up < l.newId old := by
  obtain ⟨before, after, hsplit⟩ := append_of_mem hold
  have hmem := h.sorted before old after hsplit up hup
  refine ⟨by rw [hsplit]; exact mem_append_left _ hmem, Nat.add_lt_add_left ?_ _⟩
  have hnodup := h.nodup
  rw [hsplit, nodup_append] at hnodup
  have hnot : old ∉ before := fun hin => hnodup.2.2 old hin old mem_cons_self rfl
  rw [hsplit, idxOf_append_of_mem hmem, idxOf_append_of_notMem hnot]
  exact (idxOf_lt_length_of_mem hmem).trans_le (Nat.le_add_right _ _)

end LayoutValid

end Batchgen.WavePlan
