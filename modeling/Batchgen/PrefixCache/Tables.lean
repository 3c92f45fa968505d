import Batchgen.PrefixCache.View

/-!
# The node index and the page reference table

Both tables are instances of open addressing with tombstones.  Every function on them, whatever the
table sizes, changes nothing but the tables (`TablesOnly`) and throws only a table error
(`TableFault`).

With capacities up to `2 ^ 30` the tables are twice as large as their contents can get, and then they
are exact:

* `IndexOk` — the index holds exactly the resident nodes, each under its digest: searches
  (`IndexOk.findNode_iff`), insertions, removals and rebuilds all return and keep it;
* `PageRefsOk` — the table stores exactly the multiplicities of a multiset of pages: increments,
  decrements and rebuilds all return and keep it.
-/

namespace Batchgen.PrefixCache

open MachineInt OpenAddressing Outcome Function List

variable {cfg : HostPrefixCacheCoordinator} {r r' : Region} {digest : PrefixDigest}

/-! ### What the table functions leave alone -/

/-- `r'` differs from `r` in its two tables only. -/
def TablesOnly (r r' : Region) : Prop :=
  ∃ indexSlots refSlots, r' = { r with nodeIndexSlots := indexSlots, pageRefSlots := refSlots }

theorem TablesOnly.refl (r : Region) : TablesOnly r r := ⟨r.nodeIndexSlots, r.pageRefSlots, rfl⟩

section

variable (h : TablesOnly r r')
include h

theorem TablesOnly.trans {r'' : Region} (h' : TablesOnly r' r'') : TablesOnly r r'' := by
  obtain ⟨_, _, rfl⟩ := h
  obtain ⟨i, p, rfl⟩ := h'
  exact ⟨i, p, rfl⟩

theorem TablesOnly.index (slots : ℕ → SharedNodeIndexSlot) : TablesOnly r { r' with nodeIndexSlots := slots } := by
  obtain ⟨_, p, rfl⟩ := h
  exact ⟨slots, p, rfl⟩

theorem TablesOnly.refs (slots : ℕ → SharedPageRefSlot) : TablesOnly r { r' with pageRefSlots := slots } := by
  obtain ⟨i, _, rfl⟩ := h
  exact ⟨i, slots, rfl⟩

theorem TablesOnly.arenaOk (hok : ArenaOk cfg r) : ArenaOk cfg r' := by
  obtain ⟨_, _, rfl⟩ := h
  exact (hok.frame (by rfl) (by rfl) (by rfl) (by intros; rfl) (by intros; rfl)).1

theorem TablesOnly.view : r'.view cfg = r.view cfg := by
  obtain ⟨_, _, rfl⟩ := h
  rfl

end

/-- The exceptions of the two tables. -/
def TableFault : Fault → Prop
  | .thrown .nodeIndexTableFull | .thrown .pageRefTableFull | .thrown .pageRefOverflow
  | .thrown .pageRefMissing | .thrown .pageRefUnderflow => True
  | _ => False

section

variable {r₀ : Region}

theorem insertNodeIndexLocked_keeps (digest : PrefixDigest) (nodeIndex : ℕ) :
    Keeps TableFault (TablesOnly r₀) (insertNodeIndexLocked cfg digest nodeIndex) := by
  apply Keeps.get_bind
  intro r hr
  split
  · exact ⟨trivial, hr⟩
  · exact hr.index _

theorem removeNodeIndexLocked_tables (digest : PrefixDigest) (h : TablesOnly r₀ r) :
    TablesOnly r₀ (removeNodeIndexLocked cfg digest r) := by
  unfold removeNodeIndexLocked
  split
  · exact h
  · exact h.index _

theorem rebuildNodeIndexLocked_keeps : Keeps TableFault (TablesOnly r₀) (rebuildNodeIndexLocked cfg) := by
  apply Keeps.bind (Keeps.modify fun r hr => hr.index _)
  intro _
  apply Keeps.forM
  intro nodeIndex _
  apply Keeps.get_bind
  intro r hr
  split
  · exact insertNodeIndexLocked_keeps _ _ r hr
  · exact hr

theorem insertOrGetPageRefSlotLocked_keeps (groupId pageId : ℕ) :
    Keeps TableFault (TablesOnly r₀) (insertOrGetPageRefSlotLocked cfg groupId pageId) := by
  apply Keeps.get_bind
  intro r hr
  split
  · exact ⟨trivial, hr⟩
  · split
    · exact hr
    · exact hr.refs _

theorem incrementPageRefLocked_keeps (groupId pageId : ℕ) :
    Keeps TableFault (TablesOnly r₀) (incrementPageRefLocked cfg groupId pageId) := by
  apply Keeps.bind (insertOrGetPageRefSlotLocked_keeps _ _)
  intro slot
  apply Keeps.get_bind
  intro r hr
  split
  · exact ⟨trivial, hr⟩
  · exact hr.refs _

theorem decrementPageRefLocked_keeps (groupId pageId : ℕ) :
    Keeps TableFault (TablesOnly r₀) (decrementPageRefLocked cfg groupId pageId) := by
  apply Keeps.get_bind
  intro r hr
  split
  · exact ⟨trivial, hr⟩
  · split
    · exact ⟨trivial, hr⟩
    · exact hr.refs _
    · exact hr.refs _

theorem rebuildPageRefIndexIfNeededLocked_keeps :
    Keeps TableFault (TablesOnly r₀) (rebuildPageRefIndexIfNeededLocked cfg) := by
  apply Keeps.get_bind
  intro r hr
  split
  · have hrebuild : Keeps TableFault (TablesOnly r₀) (rebuildPageRefIndexLocked cfg) := by
      apply Keeps.get_bind
      intro r hr
      rw [ends_bind, ends_set]
      have hloop : Keeps TableFault (TablesOnly r₀) ((residentPageRefs cfg r).forM (reinsertPageRef cfg)) := by
        apply Keeps.forM
        intro ref _
        apply Keeps.bind (insertOrGetPageRefSlotLocked_keeps _ _)
        intro slot
        exact Keeps.modify fun r hr => hr.refs _
      exact hloop _ (hr.refs _)
    exact hrebuild r hr
  · exact hr

end

/-! ### Table sizes -/

/-- The tables are as large as intended: doubling a capacity up to `2 ^ 30` and rounding it up to a
power of two stays within 32 bits. -/
structure TablesFit (cfg : HostPrefixCacheCoordinator) : Prop where
  maxNodes_le : cfg.maxNodes ≤ 2 ^ 30
  maxPageHandles_le : cfg.maxPageHandles ≤ 2 ^ 30

theorem slotCount_spec {capacity : ℕ} (hpos : 0 < capacity) (hle : capacity ≤ 2 ^ 30) :
    ∃ k, (if capacity = 0 then 1 else nextPowerOfTwo (u32 (capacity * 2))) = 2 ^ k ∧ capacity < 2 ^ k := by
  have hdouble : capacity * 2 ≤ 2 ^ 31 := by omega
  obtain ⟨k, _, hk, hle'⟩ := nextPowerOfTwo_spec hdouble
  refine ⟨k, ?_, by omega⟩
  rw [if_neg (by omega), u32_of_lt (by omega), hk]

theorem construct_capacities {config : HostPrefixCacheConfig} {out : ℕ × ℕ}
    (h : construct config = .ok out) : 0 < config.maxPageHandles := by
  unfold construct at h
  split at h
  · simp at h
  split at h
  · simp at h
  split at h
  · simp at h
  · omega

theorem TablesFit.nodeIndex (h : TablesFit cfg) :
    (∀ digest slot, slot ∈ nodeIndexProbes cfg digest ↔ slot < maxNodeIndexSlots cfg) ∧
      cfg.maxNodes < maxNodeIndexSlots cfg := by
  obtain ⟨k, hk, hlt⟩ := slotCount_spec cfg.valid.maxNodes_pos h.maxNodes_le
  have hslots : maxNodeIndexSlots cfg = 2 ^ k := hk
  refine ⟨fun digest slot => ?_, by omega⟩
  unfold nodeIndexProbes
  rw [hslots]
  exact mem_linearProbes

theorem TablesFit.pageRef (h : TablesFit cfg) :
    (∀ page slot, slot ∈ pageRefProbes cfg page ↔ slot < maxPageRefSlots cfg) ∧
      cfg.maxPageHandles < maxPageRefSlots cfg := by
  obtain ⟨k, hk, hlt⟩ := slotCount_spec (construct_capacities cfg.accepted) h.maxPageHandles_le
  have hslots : maxPageRefSlots cfg = 2 ^ k := hk
  refine ⟨fun page slot => ?_, by omega⟩
  unfold pageRefProbes
  rw [hslots]
  exact mem_linearProbes

/-! ### The node index -/

/-- **The index holds exactly the nodes of the view, each under its digest.** -/
structure IndexOk (cfg : HostPrefixCacheCoordinator) (slots : ℕ → SharedNodeIndexSlot) (v : View) :
    Prop where
  valid : Valid (nodeIndexProbes cfg) (maxNodeIndexSlots cfg) fun slot => (slots slot).kind
  sound : ∀ slot digest, slot < maxNodeIndexSlots cfg → (slots slot).kind = .live digest →
    ∃ node, v (slots slot).nodeIndex = some node ∧ node.digest = digest
  complete : ∀ index node, v index = some node →
    ∃ slot, slot < maxNodeIndexSlots cfg ∧ (slots slot).kind = .live node.digest ∧
      (slots slot).nodeIndex = index

variable {slots : ℕ → SharedNodeIndexSlot} {v v' : View}

/-- No two nodes of the view have one digest. -/
theorem IndexOk.digest_unique (h : IndexOk cfg slots v) {i j : ℕ} {m n : NodeSnapshot}
    (hi : v i = some m) (hj : v j = some n) (heq : m.digest = n.digest) : i = j := by
  obtain ⟨s, hs, hsk, hsi⟩ := h.complete i m hi
  obtain ⟨t, ht, htk, htj⟩ := h.complete j n hj
  rw [← heq] at htk
  rw [← hsi, ← htj, h.valid.unique m.digest s t hs ht hsk htk]

/-- Only the digests matter. -/
theorem IndexOk.congr (h : IndexOk cfg slots v)
    (hdigest : ∀ i, (v' i).map (·.digest) = (v i).map (·.digest)) : IndexOk cfg slots v' := by
  refine ⟨h.valid, ?_, ?_⟩
  · intro slot digest hslot hlive
    obtain ⟨node, hnode, hd⟩ := h.sound slot digest hslot hlive
    have hmap := hdigest (slots slot).nodeIndex
    rw [hnode, Option.map_some, Option.map_eq_some_iff] at hmap
    obtain ⟨node', hnode', hd'⟩ := hmap
    exact ⟨node', hnode', hd'.trans hd⟩
  · intro index node hnode
    have hmap := hdigest index
    rw [hnode, Option.map_some, eq_comm, Option.map_eq_some_iff] at hmap
    obtain ⟨node', hnode', hd'⟩ := hmap
    rw [← hd']
    exact h.complete index node' hnode'

/-- **A search returns exactly the resident node with the digest.** -/
theorem IndexOk.findNode_iff (h : IndexOk cfg r.nodeIndexSlots (r.view cfg)) {index : ℕ} :
    findNodeLocked cfg r digest = some index ↔ ∃ node, r.view cfg index = some node ∧ node.digest = digest := by
  have hfind : ∀ slot, findNodeIndexSlotLocked cfg r digest = some slot ↔
      slot < maxNodeIndexSlots cfg ∧ (r.nodeIndexSlots slot).kind = .live digest := fun slot =>
    h.valid.find_eq_some_iff
  unfold findNodeLocked
  constructor
  · intro hfound
    split at hfound
    · simp at hfound
    · next slot hslot =>
      dsimp only at hfound
      split at hfound
      · simp at hfound
      · split at hfound
        · simp at hfound
        · obtain rfl := Option.some.inj hfound
          obtain ⟨hlt, hlive⟩ := (hfind slot).mp hslot
          exact h.sound slot digest hlt hlive
  · rintro ⟨node, hnode, rfl⟩
    obtain ⟨slot, hlt, hlive, hindex⟩ := h.complete index node hnode
    have hslot := (hfind slot).mpr ⟨hlt, hlive⟩
    obtain ⟨hres, hsnap⟩ := view_eq_some_iff.mp hnode
    have hdigest : (r.nodes index).digest = node.digest := by rw [← hsnap]; rfl
    rw [hslot]
    dsimp only
    rw [hindex, if_neg (not_le.mpr hres.1), if_neg]
    rintro (hne | hne)
    · exact hne hres.2
    · exact hne hdigest

theorem IndexOk.findNode_eq_none_iff (h : IndexOk cfg r.nodeIndexSlots (r.view cfg)) :
    findNodeLocked cfg r digest = none ↔ ∀ index node, r.view cfg index = some node → node.digest ≠ digest := by
  rw [Option.eq_none_iff_forall_ne_some]
  constructor
  · intro hnone index node hnode hdigest
    exact hnone index (h.findNode_iff.mpr ⟨node, hnode, hdigest⟩)
  · intro hfree index hfound
    obtain ⟨node, hnode, hdigest⟩ := h.findNode_iff.mp hfound
    exact hfree index node hnode hdigest

/-- **Insertion into the index returns.**  The node is new to the view, and so is its digest. -/
theorem IndexOk.insert (hfit : TablesFit cfg) (h : IndexOk cfg r.nodeIndexSlots v)
    (hbound : ∀ i node, v i = some node → i < cfg.maxNodes) (index : ℕ) (node : NodeSnapshot)
    (hindex : v index = none) (hfresh : ∀ i m, v i = some m → m.digest ≠ node.digest) :
    ∃ slots', insertNodeIndexLocked cfg node.digest index r = .ok () { r with nodeIndexSlots := slots' } ∧
      IndexOk cfg slots' (update v index (some node)) := by
  have habsent : ∀ slot, slot < maxNodeIndexSlots cfg → (r.nodeIndexSlots slot).kind ≠ .live node.digest := by
    intro slot hslot hlive
    obtain ⟨m, hm, hd⟩ := h.sound slot _ hslot hlive
    exact hfresh _ m hm hd
  have hfind : find r.nodeIndexKind node.digest (nodeIndexProbes cfg node.digest) = none :=
    h.valid.find_eq_none_iff.mpr habsent
  -- there is room: live slots name distinct resident nodes
  have hroom : claim r.nodeIndexKind node.digest (nodeIndexProbes cfg node.digest) none ≠ none := by
    apply h.valid.claim_ne_none (Finset.range cfg.maxNodes) fun slot =>
      (r.nodeIndexSlots slot).nodeIndex
    · rw [Finset.card_range]
      exact hfit.nodeIndex.2
    · intro slot k hslot hlive
      obtain ⟨m, hm, _⟩ := h.sound slot k hslot hlive
      exact Finset.mem_range.mpr (hbound _ m hm)
    · intro s t k l hs ht hsk htl heq
      obtain ⟨m, hm, hmk⟩ := h.sound s k hs hsk
      obtain ⟨n, hn, hnl⟩ := h.sound t l ht htl
      rw [heq] at hm
      obtain rfl : m = n := Option.some.inj (hm.symm.trans hn)
      rw [← hnl, hmk] at htl
      exact h.valid.unique k s t hs ht hsk htl
  obtain ⟨slot, hclaim⟩ := Option.ne_none_iff_exists'.mp hroom
  obtain ⟨hlt, hreached, hkind⟩ := h.valid.claim_fresh hfind hclaim
  refine ⟨update r.nodeIndexSlots slot ⟨.resident, index, node.digest⟩, ?_, ?_⟩
  · rw [insertNodeIndexLocked, get_bind, hclaim]
    rfl
  have hkinds : (fun s => (update r.nodeIndexSlots slot ⟨.resident, index, node.digest⟩ s).kind) =
      update (fun s => (r.nodeIndexSlots s).kind) slot (.live node.digest) := comp_update SharedNodeIndexSlot.kind _ _ _
  -- a live slot is not the claimed one, so its entry is untouched
  have hne : ∀ s k, (r.nodeIndexSlots s).kind = .live k → s ≠ slot := by
    rintro s k hs rfl
    have hs' : r.nodeIndexKind s = .live k := hs
    rcases hkind with hkind | hkind <;> exact absurd (hs'.symm.trans hkind) (by simp)
  refine ⟨?_, ?_, ?_⟩
  · rw [hkinds]
    exact h.valid.insert habsent hreached
  · intro s digest hs hlive
    by_cases heq : s = slot
    · subst heq
      rw [update_self] at hlive ⊢
      refine ⟨node, update_self .., ?_⟩
      exact SlotKind.live.inj hlive
    · rw [update_of_ne heq] at hlive ⊢
      obtain ⟨m, hm, hd⟩ := h.sound s digest hs hlive
      refine ⟨m, ?_, hd⟩
      rw [update_of_ne _ _ _]
      · exact hm
      · intro hi
        rw [hi, hindex] at hm
        simp at hm
  · intro i m hm
    by_cases hi : i = index
    · subst hi
      rw [update_self] at hm
      obtain rfl := Option.some.inj hm
      exact ⟨slot, hlt, by rw [update_self]; rfl, by rw [update_self]⟩
    · rw [update_of_ne hi] at hm
      obtain ⟨s, hs, hsk, hsi⟩ := h.complete i m hm
      refine ⟨s, hs, ?_⟩
      rw [update_of_ne (hne s _ hsk)]
      exact ⟨hsk, hsi⟩

/-- **Removal from the index.** -/
theorem IndexOk.remove (h : IndexOk cfg r.nodeIndexSlots v) {index : ℕ} {node : NodeSnapshot}
    (hindex : v index = some node) :
    ∃ slots', removeNodeIndexLocked cfg node.digest r = { r with nodeIndexSlots := slots' } ∧
      IndexOk cfg slots' (update v index none) := by
  obtain ⟨slot, hlt, hlive, hslotIndex⟩ := h.complete index node hindex
  have hfind : findNodeIndexSlotLocked cfg r node.digest = some slot := h.valid.find_eq_some_iff.mpr ⟨hlt, hlive⟩
  refine ⟨update r.nodeIndexSlots slot ⟨.tombstone, 0, {}⟩, ?_, ?_⟩
  · rw [removeNodeIndexLocked, hfind]
  have hkinds : (fun s => (update r.nodeIndexSlots slot ⟨.tombstone, 0, {}⟩ s).kind) =
      update (fun s => (r.nodeIndexSlots s).kind) slot .tombstone := comp_update SharedNodeIndexSlot.kind _ _ _
  refine ⟨?_, ?_, ?_⟩
  · rw [hkinds]
    exact h.valid.remove slot
  · intro s digest hs hslive
    have hne : s ≠ slot := by
      rintro rfl
      rw [update_self] at hslive
      exact absurd hslive (by simp [SharedNodeIndexSlot.kind])
    rw [update_of_ne hne] at hslive ⊢
    obtain ⟨m, hm, hd⟩ := h.sound s digest hs hslive
    refine ⟨m, ?_, hd⟩
    rw [update_of_ne]
    · exact hm
    · intro hi
      rw [hi, hindex] at hm
      obtain rfl := Option.some.inj hm
      rw [← hd] at hslive
      exact hne (h.valid.unique node.digest s slot hs hlt hslive hlive)
  · intro i m hm
    have hi : i ≠ index := by
      rintro rfl
      simp at hm
    rw [update_of_ne hi] at hm
    obtain ⟨s, hs, hsk, hsi⟩ := h.complete i m hm
    have hne : s ≠ slot := by
      rintro rfl
      exact hi (hsi.symm.trans hslotIndex)
    refine ⟨s, hs, ?_⟩
    rw [update_of_ne hne]
    exact ⟨hsk, hsi⟩

/-- **A rebuild of the index returns**, whatever the index held before, when no two resident nodes have
one digest. -/
theorem IndexOk.rebuild (hfit : TablesFit cfg) (hdistinct : ∀ i j m n, r.view cfg i = some m → r.view cfg j = some n →
      m.digest = n.digest → i = j) :
    ∃ slots', rebuildNodeIndexLocked cfg r = .ok () { r with nodeIndexSlots := slots' } ∧
      IndexOk cfg slots' (r.view cfg) := by
  -- after `n` turns the index holds the nodes below `n`
  have hstep : ∀ i s, i < cfg.maxNodes → (∃ slots, s = { r with nodeIndexSlots := slots } ∧
      IndexOk cfg slots fun j => if j < i then r.view cfg j else none) →
      ∃ s', reindexNode cfg i s = .ok () s' ∧ ∃ slots, s' = { r with nodeIndexSlots := slots } ∧
        IndexOk cfg slots fun j => if j < i + 1 then r.view cfg j else none := by
    rintro i _ hi ⟨slots, rfl, hok⟩
    have hgrow : ∀ j, j ≠ i → (if j < i + 1 then r.view cfg j else none) =
        if j < i then r.view cfg j else none := by
      intro j hj
      by_cases hlt : j < i
      · rw [if_pos hlt, if_pos (by omega)]
      · rw [if_neg hlt, if_neg (by omega)]
    by_cases hres : (r.nodes i).state = .resident
    · have hview : r.view cfg i = some (r.snapshotNode (r.nodes i)) := view_of_resident ⟨hi, hres⟩
      have hbound : ∀ j m, (if j < i then r.view cfg j else none) = some m → j < cfg.maxNodes := by
        intro j m hj
        split at hj
        · omega
        · simp at hj
      have hfresh : ∀ j m, (if j < i then r.view cfg j else none) = some m →
          m.digest ≠ (r.snapshotNode (r.nodes i)).digest := by
        intro j m hj hdigest
        split at hj
        · have := hdistinct j i m _ hj hview hdigest
          omega
        · simp at hj
      have hnew : (if i < i then r.view cfg i else none) = none := if_neg (by omega)
      obtain ⟨slots', hrun, hok'⟩ := IndexOk.insert (r := { r with nodeIndexSlots := slots }) hfit hok
        hbound i (r.snapshotNode (r.nodes i)) hnew hfresh
      refine ⟨_, ?_, slots', rfl, hok'.congr fun j => ?_⟩
      · rw [reindexNode, get_bind, if_pos hres]
        exact hrun
      · by_cases hj : j = i
        · subst hj
          rw [update_self, if_pos (by omega), hview]
        · rw [update_of_ne hj, hgrow j hj]
    · refine ⟨_, ?_, slots, rfl, hok.congr fun j => ?_⟩
      · rw [reindexNode, get_bind, if_neg hres]
        rfl
      · by_cases hj : j = i
        · subst hj
          rw [if_pos (by omega), if_neg (by omega), view_eq_none_iff.mpr fun h => hres h.2]
        · rw [hgrow j hj]
  have hinit : ∃ slots, ({ r with nodeIndexSlots := fun _ => {} } : Region) = { r with nodeIndexSlots := slots } ∧
      IndexOk cfg slots fun j => if j < 0 then r.view cfg j else none :=
    ⟨_, rfl, valid_empty hfit.nodeIndex.1, by simp [SharedNodeIndexSlot.kind], by simp⟩
  obtain ⟨_, hrun, slots', rfl, hok⟩ := forM_range_ok _ hinit hstep
  refine ⟨slots', hrun, hok.congr fun i => ?_⟩
  by_cases hi : i < cfg.maxNodes
  · rw [if_pos hi]
  · rw [if_neg hi, view_eq_none_iff.mpr fun hres => hi hres.1]

/-! ### The page reference table -/

/-- **The table stores the multiplicities of a multiset of pages**, and has no slot for a page that is
not in it. -/
structure PageRefsOk (cfg : HostPrefixCacheCoordinator) (slots : ℕ → SharedPageRefSlot)
    (refs : Multiset (ℕ × ℕ)) : Prop where
  valid : Valid (pageRefProbes cfg) (maxPageRefSlots cfg) fun slot => (slots slot).kind
  sound : ∀ slot page, slot < maxPageRefSlots cfg → (slots slot).kind = .live page →
    page ∈ refs ∧ (slots slot).refCount = refs.count page
  complete : ∀ page ∈ refs, ∃ slot, slot < maxPageRefSlots cfg ∧ (slots slot).kind = .live page

variable {refSlots : ℕ → SharedPageRefSlot} {refs refs' : Multiset (ℕ × ℕ)} {page : ℕ × ℕ}

/-- A slot an insertion of `page` may write. -/
def SuitsPage (cfg : HostPrefixCacheCoordinator) (slots : ℕ → SharedPageRefSlot) (page : ℕ × ℕ)
    (slot : ℕ) : Prop :=
  (slots slot).kind = .live page ∨
    (∀ other, other < maxPageRefSlots cfg → (slots other).kind ≠ .live page) ∧
      Reached (fun other => (slots other).kind) (pageRefProbes cfg page) slot ∧
      ((slots slot).kind = .empty ∨ (slots slot).kind = .tombstone)

section

variable {slot : ℕ} (h : PageRefsOk cfg refSlots refs) (hlt : slot < maxPageRefSlots cfg)
  (hother : ∀ other, other ≠ page → refs'.count other = refs.count other)
include h hlt hother

/-- One slot is rewritten; it is the only one that is live with `page`, before and after. -/
theorem PageRefsOk.write {new : SharedPageRefSlot}
    (hvalid : Valid (pageRefProbes cfg) (maxPageRefSlots cfg) (update (fun s => (refSlots s).kind) slot new.kind))
    (hslot : ∀ other, (refSlots slot).kind = .live other → other = page)
    (honly : ∀ s, s < maxPageRefSlots cfg → (refSlots s).kind = .live page → s = slot)
    (hnew : ∀ other, new.kind = .live other → other = page ∧ page ∈ refs' ∧ new.refCount = refs'.count page)
    (hpage : page ∈ refs' → new.kind = .live page) :
    PageRefsOk cfg (update refSlots slot new) refs' := by
  have hmem : ∀ other, other ≠ page → (other ∈ refs' ↔ other ∈ refs) := by
    intro other hne
    rw [← Multiset.count_pos, ← Multiset.count_pos, hother other hne]
  have hkinds : (fun s => (update refSlots slot new s).kind) = update (fun s => (refSlots s).kind) slot new.kind :=
    comp_update SharedPageRefSlot.kind _ _ _
  refine ⟨hkinds ▸ hvalid, ?_, ?_⟩
  · intro s other hs hlive
    by_cases heq : s = slot
    · rw [heq, update_self] at hlive ⊢
      obtain ⟨rfl, hin, hcount⟩ := hnew other hlive
      exact ⟨hin, hcount⟩
    · rw [update_of_ne heq] at hlive ⊢
      have hne : other ≠ page := by
        rintro rfl
        exact heq (honly s hs hlive)
      obtain ⟨h1, h2⟩ := h.sound s other hs hlive
      exact ⟨(hmem other hne).mpr h1, h2.trans (hother other hne).symm⟩
  · intro other hin
    by_cases heq : other = page
    · subst heq
      exact ⟨slot, hlt, by rw [update_self, hpage hin]⟩
    · obtain ⟨s, hs, hlive⟩ := h.complete other ((hmem other heq).mp hin)
      have hne : s ≠ slot := by
        rintro rfl
        exact heq (hslot other hlive)
      exact ⟨s, hs, by rwa [update_of_ne hne]⟩

/-- **Write.**  A page gets a positive count. -/
theorem PageRefsOk.put {count : ℕ} (hsuits : SuitsPage cfg refSlots page slot) (hpos : 0 < count)
    (hcount : refs'.count page = count) :
    PageRefsOk cfg (update refSlots slot ⟨.resident, page.1, page.2, count⟩) refs' := by
  refine h.write hlt hother ?_ (fun other hs => ?_) (fun s hs hlive => ?_) (fun other hnew => ?_) fun _ => rfl
  · rcases hsuits with hlive | ⟨habsent, hreached, _⟩
    · have hsame : update (fun s => (refSlots s).kind) slot (.live page) = fun s => (refSlots s).kind := by
        rw [← hlive]
        exact update_eq_self slot fun s => (refSlots s).kind
      exact hsame.symm ▸ h.valid
    · exact h.valid.insert habsent hreached
  · rcases hsuits with hlive | ⟨_, _, hkind⟩
    · exact SlotKind.live.inj (hs.symm.trans hlive)
    · rcases hkind with hkind | hkind <;> exact absurd (hs.symm.trans hkind) (by simp)
  · rcases hsuits with hlive' | ⟨habsent, _⟩
    · exact h.valid.unique page s slot hs hlt hlive hlive'
    · exact absurd hlive (habsent s hs)
  · exact ⟨(SlotKind.live.inj hnew).symm, Multiset.count_pos.mp (hcount.symm ▸ hpos), hcount.symm⟩

/-- **Remove.**  The last reference to a page goes away. -/
theorem PageRefsOk.drop (hlive : (refSlots slot).kind = .live page) (hcount : refs'.count page = 0) :
    PageRefsOk cfg (update refSlots slot ⟨.tombstone, 0, 0, 0⟩) refs' :=
  h.write hlt hother (h.valid.remove slot) (fun _ hs => SlotKind.live.inj (hs.symm.trans hlive))
    (fun s hs hslive => h.valid.unique page s slot hs hlt hslive hlive) (fun _ hnew => by cases hnew)
    fun hin => absurd hcount (Multiset.count_pos.mpr hin).ne'

end

theorem SharedPageRefSlot.eq_of_kind {slot : SharedPageRefSlot} (h : slot.kind = .live page) :
    slot = ⟨.resident, page.1, page.2, slot.refCount⟩ := by
  obtain ⟨state, groupId, pageId, refCount⟩ := slot
  cases state with
  | empty => simp [SharedPageRefSlot.kind] at h
  | tombstone => simp [SharedPageRefSlot.kind] at h
  | resident =>
    obtain rfl : (groupId, pageId) = page := SlotKind.live.inj h
    rfl

section

variable (hfit : TablesFit cfg) (h : PageRefsOk cfg r.pageRefSlots refs) (hcard : refs.card ≤ cfg.maxPageHandles)
  (groupId pageId : ℕ)
include hfit h hcard groupId pageId

/-- **The slot of a page is found or made.**  A later write of its count is one write of the slot. -/
theorem PageRefsOk.insertOrGet : ∃ slot r', insertOrGetPageRefSlotLocked cfg groupId pageId r = .ok slot r' ∧
      slot < maxPageRefSlots cfg ∧ SuitsPage cfg r.pageRefSlots (groupId, pageId) slot ∧
      (r'.pageRefSlots slot).refCount = refs.count (groupId, pageId) ∧ ∀ count, setPageRefCount slot count r' = { r with
          pageRefSlots := update r.pageRefSlots slot ⟨.resident, groupId, pageId, count⟩ } := by
  -- there is room: live slots hold distinct pages of the multiset
  have hroom : claim r.pageRefKind (groupId, pageId) (pageRefProbes cfg (groupId, pageId)) none ≠
      none := by
    apply h.valid.claim_ne_none refs.toFinset fun slot =>
      ((r.pageRefSlots slot).groupId, (r.pageRefSlots slot).pageId)
    · have := Multiset.toFinset_card_le refs
      have := hfit.pageRef.2
      omega
    · intro slot page hslot hlive
      rw [SharedPageRefSlot.eq_of_kind hlive]
      exact Multiset.mem_toFinset.mpr (h.sound slot page hslot hlive).1
    · intro s t k l hs ht hsk htl heq
      rw [SharedPageRefSlot.eq_of_kind hsk, SharedPageRefSlot.eq_of_kind htl] at heq
      obtain rfl : k = l := heq
      exact h.valid.unique k s t hs ht hsk htl
  obtain ⟨slot, hclaim⟩ := Option.ne_none_iff_exists'.mp hroom
  by_cases hfind : find r.pageRefKind (groupId, pageId) (pageRefProbes cfg (groupId, pageId)) = none
  · obtain ⟨hlt, hreached, hkind⟩ := h.valid.claim_fresh hfind hclaim
    have habsent := h.valid.find_eq_none_iff.mp hfind
    have hnot : ¬ r.pageRefKind slot = .live (groupId, pageId) := habsent slot hlt
    refine ⟨slot, { r with pageRefSlots := update r.pageRefSlots slot ⟨.resident, groupId, pageId, 0⟩ },
      ?_, hlt, Or.inr ⟨habsent, hreached, hkind⟩, ?_, fun count => ?_⟩
    · rw [insertOrGetPageRefSlotLocked, get_bind, hclaim]
      dsimp only
      rw [if_neg hnot]
      rfl
    · simp only [update_self]
      rw [eq_comm, Multiset.count_eq_zero]
      intro hmem
      obtain ⟨s, hs, hlive⟩ := h.complete _ hmem
      exact habsent s hs hlive
    · simp only [setPageRefCount, update_self, update_idem]
  · obtain ⟨found, hfound⟩ := Option.ne_none_iff_exists'.mp hfind
    obtain rfl : found = slot := Option.some.inj ((claim_of_find hfound).symm.trans hclaim)
    obtain ⟨hlt, hlive⟩ := h.valid.find_eq_some_iff.mp hfound
    have hkind : r.pageRefKind found = .live (groupId, pageId) := hlive
    refine ⟨found, r, ?_, hlt, Or.inl hlive, (h.sound found _ hlt hlive).2, fun count => ?_⟩
    · rw [insertOrGetPageRefSlotLocked, get_bind, hclaim]
      dsimp only
      rw [if_pos hkind]
      rfl
    · rw [setPageRefCount, SharedPageRefSlot.eq_of_kind hlive]

/-- **One more reference.** -/
theorem PageRefsOk.increment :
    ∃ slots', incrementPageRefLocked cfg groupId pageId r = .ok () { r with pageRefSlots := slots' } ∧
      PageRefsOk cfg slots' ((groupId, pageId) ::ₘ refs) := by
  obtain ⟨slot, r', hrun, hlt, hsuits, hcount, hset⟩ := h.insertOrGet hfit hcard groupId pageId
  have hmax := hfit.maxPageHandles_le
  have hle := Multiset.count_le_card (groupId, pageId) refs
  refine ⟨_, ?_, h.put hlt ?_ hsuits (Nat.succ_pos (refs.count (groupId, pageId))) ?_⟩
  · rw [incrementPageRefLocked, bind_ok hrun, get_bind, if_neg (by omega), hset, hcount]
    rfl
  · intro other hne
    exact Multiset.count_cons_of_ne hne _
  · rw [Multiset.count_cons_self]

end

/-- **One reference less**, and whether it was the last. -/
theorem PageRefsOk.decrement (h : PageRefsOk cfg r.pageRefSlots refs) {groupId pageId : ℕ}
    (hmem : (groupId, pageId) ∈ refs) :
    ∃ slots', decrementPageRefLocked cfg groupId pageId r =
        .ok (decide (refs.count (groupId, pageId) = 1)) { r with pageRefSlots := slots' } ∧
      PageRefsOk cfg slots' (refs.erase (groupId, pageId)) := by
  obtain ⟨slot, hlt, hlive⟩ := h.complete _ hmem
  have hfind : findPageRefSlotLocked cfg r groupId pageId = some slot := h.valid.find_eq_some_iff.mpr ⟨hlt, hlive⟩
  have hcount := (h.sound slot _ hlt hlive).2
  have hother : ∀ other, other ≠ (groupId, pageId) →
      (refs.erase (groupId, pageId)).count other = refs.count other := fun other hne =>
    Multiset.count_erase_of_ne hne _
  have hself := Multiset.count_erase_self (groupId, pageId) refs
  have hpos := Multiset.count_pos.mpr hmem
  rw [decrementPageRefLocked, get_bind, hfind]
  dsimp only
  rcases hstored : (r.pageRefSlots slot).refCount with _ | _ | count
  · omega
  · refine ⟨_, ?_, h.drop hlt hother hlive (by omega)⟩
    rw [decide_eq_true (by omega)]
    rfl
  · refine ⟨_, ?_, h.put hlt hother (Or.inl hlive) (Nat.succ_pos count) (by omega)⟩
    rw [decide_eq_false (by omega)]
    dsimp only
    rw [setPageRefCount, SharedPageRefSlot.eq_of_kind hlive]
    rfl

/-- Reinserting slots one by one: `done` lists the pages that are back in the table. -/
theorem PageRefsOk.reinsert (hfit : TablesFit cfg) (hcard : refs.card ≤ cfg.maxPageHandles)
    (todo : List SharedPageRefSlot) (done : List (ℕ × ℕ)) (h : PageRefsOk cfg refSlots (refs.filter (· ∈ done)))
    (hcount : ∀ ref ∈ todo, 0 < ref.refCount ∧ refs.count (ref.groupId, ref.pageId) = ref.refCount)
    (hall : ∀ page ∈ refs, page ∈ done ∨ ∃ ref ∈ todo, (ref.groupId, ref.pageId) = page) :
    ∃ slots', todo.forM (reinsertPageRef cfg) { r with pageRefSlots := refSlots } =
        .ok () { r with pageRefSlots := slots' } ∧ PageRefsOk cfg slots' refs := by
  induction todo generalizing refSlots done with
  | nil =>
    have hself : refs.filter (· ∈ done) = refs := by
      rw [Multiset.filter_eq_self]
      intro page hpage
      rcases hall page hpage with hdone | ⟨ref, href, _⟩
      · exact hdone
      · simp at href
    rw [hself] at h
    exact ⟨refSlots, rfl, h⟩
  | cons ref todo ih =>
    obtain ⟨hpos, href⟩ := hcount ref mem_cons_self
    have hcard' : (refs.filter (· ∈ done)).card ≤ cfg.maxPageHandles :=
      (Multiset.card_le_card (Multiset.filter_le _ _)).trans hcard
    obtain ⟨slot, r', hrun, hlt, hsuits, _, hset⟩ :=
      PageRefsOk.insertOrGet (r := { r with pageRefSlots := refSlots }) hfit h hcard' ref.groupId ref.pageId
    have hput : PageRefsOk cfg (update refSlots slot ⟨.resident, ref.groupId, ref.pageId, ref.refCount⟩)
        (refs.filter (· ∈ (ref.groupId, ref.pageId) :: done)) := by
      refine h.put hlt ?_ hsuits hpos ?_
      · intro other hne
        rw [Multiset.count_filter, Multiset.count_filter]
        simp only [mem_cons, hne, false_or]
      · rw [Multiset.count_filter, if_pos mem_cons_self, href]
    obtain ⟨slots', hrest, hok⟩ := ih _ hput (fun other hother =>
      hcount other (mem_cons_of_mem ref hother)) (by
        intro page hpage
        rcases hall page hpage with hdone | ⟨other, hother, hpageEq⟩
        · exact Or.inl (mem_cons_of_mem _ hdone)
        · rcases mem_cons.mp hother with rfl | hother
          · exact Or.inl (hpageEq ▸ mem_cons_self)
          · exact Or.inr ⟨other, hother, hpageEq⟩)
    refine ⟨slots', ?_, hok⟩
    have hone : reinsertPageRef cfg ref { r with pageRefSlots := refSlots } = .ok () { r with
          pageRefSlots := update refSlots slot ⟨.resident, ref.groupId, ref.pageId, ref.refCount⟩ } := by
      rw [reinsertPageRef, bind_ok hrun, ← hset ref.refCount]
      rfl
    exact (bind_ok hone).trans hrest

/-- **A rebuild of the page reference table returns** and keeps every count. -/
theorem PageRefsOk.rebuild (hfit : TablesFit cfg) (h : PageRefsOk cfg r.pageRefSlots refs)
    (hcard : refs.card ≤ cfg.maxPageHandles) :
    ∃ slots', rebuildPageRefIndexLocked cfg r = .ok () { r with pageRefSlots := slots' } ∧
      PageRefsOk cfg slots' refs := by
  have hempty : PageRefsOk cfg (fun _ => {}) (refs.filter (· ∈ ([] : List (ℕ × ℕ)))) :=
    ⟨valid_empty hfit.pageRef.1, by simp [SharedPageRefSlot.kind], by simp⟩
  have hmem : ∀ ref, ref ∈ residentPageRefs cfg r ↔
      ∃ slot, slot < maxPageRefSlots cfg ∧ r.pageRefSlots slot = ref ∧ ref.state = .resident := by
    intro ref
    simp only [residentPageRefs, mem_filter, mem_map, mem_range, decide_eq_true_eq]
    constructor
    · rintro ⟨⟨slot, hlt, rfl⟩, hres⟩
      exact ⟨slot, hlt, rfl, hres⟩
    · rintro ⟨slot, hlt, rfl, hres⟩
      exact ⟨⟨slot, hlt, rfl⟩, hres⟩
  obtain ⟨slots', hrun, hok⟩ := PageRefsOk.reinsert (r := r) hfit hcard (residentPageRefs cfg r) [] hempty (by
      intro ref href
      obtain ⟨slot, hlt, rfl, hres⟩ := (hmem ref).mp href
      have hlive : (r.pageRefSlots slot).kind =
          .live ((r.pageRefSlots slot).groupId, (r.pageRefSlots slot).pageId) := by
        rw [SharedPageRefSlot.kind, hres]
      obtain ⟨hin, hcount⟩ := h.sound slot _ hlt hlive
      rw [hcount]
      exact ⟨Multiset.count_pos.mpr hin, rfl⟩) (by
      intro page hpage
      obtain ⟨slot, hlt, hlive⟩ := h.complete page hpage
      have heq := SharedPageRefSlot.eq_of_kind hlive
      refine Or.inr ⟨r.pageRefSlots slot, (hmem _).mpr ⟨slot, hlt, rfl, ?_⟩, ?_⟩
      · rw [heq]
      · rw [heq])
  refine ⟨slots', ?_, hok⟩
  rw [rebuildPageRefIndexLocked, get_bind, set_bind]
  exact hrun

end Batchgen.PrefixCache
