import Batchgen.PrefixCache.Consistency

/-!
# Eviction

All four eviction calls run one scan over a list of candidates.  `Evicts` says what a scan can do to
the view in any configuration: unprotected nodes leave, nothing else changes.  `scanView` is the scan
on the view alone, with the page reference table replaced by the multiset of references; with tables of
the intended size the scan of the code is that function (`evictScan_ends`).

* `evictNodeLocked_ends` — one node leaves, and with it its references;
* `evictScan_ends` — the scan;
* `evictUntilFree_ends`, `evictUntilReleasablePages_ends`, `clearUnprotected_scanEnds`,
  `clearNamespace_scanEnds` — the calls.
-/

namespace Batchgen.PrefixCache

open MachineInt Outcome Function List

variable {cfg : HostPrefixCacheCoordinator} {r r' : Region} {v v' v'' : View}
  {i minGroupEntries minPageHandles index : ℕ} {candidates : List ℕ} {node : NodeSnapshot}

/-- **Only unprotected nodes leave.** -/
def Evicts (v v' : View) : Prop :=
  ∀ i, v' i = v i ∨ v' i = none ∧ ∃ node, v i = some node ∧ node.isProtected = false

theorem Evicts.refl (v : View) : Evicts v v := fun _ => Or.inl rfl

theorem Evicts.of_eq (h : v' = v) : Evicts v v' := h ▸ Evicts.refl v

theorem Evicts.trans (h : Evicts v v') (h' : Evicts v' v'') : Evicts v v'' := by
  intro i
  rcases h i with heq | ⟨hnone, hnode⟩
  · rcases h' i with heq' | ⟨hnone', hnode'⟩
    · exact Or.inl (heq'.trans heq)
    · exact Or.inr ⟨hnone', heq ▸ hnode'⟩
  · rcases h' i with heq' | ⟨hnone', _⟩
    · exact Or.inr ⟨heq'.trans hnone, hnode⟩
    · exact Or.inr ⟨hnone', hnode⟩

theorem Evicts.remove (hnode : v index = some node)
    (hfree : node.isProtected = false) : Evicts v (update v index none) := by
  intro i
  by_cases hi : i = index
  · subst hi
    exact Or.inr ⟨update_self .., node, hnode, hfree⟩
  · exact Or.inl (update_of_ne hi ..)

theorem Evicts.eq_of_some (h : Evicts v v') (hi : v' i = some node) : v i = some node := by
  rcases h i with heq | ⟨hnone, _⟩
  · exact heq ▸ hi
  · rw [hnone] at hi
    simp at hi

/-! ### One node -/

/-- `AppendEvictedPagesLocked` on the multiset of references: a page is listed when its last reference
goes. -/
def releasePages : List (ℕ × ℕ) → Multiset (ℕ × ℕ) → List GroupCommitPages → List GroupCommitPages
  | [], _, evicted => evicted
  | page :: rest, refs, evicted =>
    releasePages rest (refs.erase page)
      (if refs.count page = 1 then appendEvictedPage page.1 page.2 evicted else evicted)

/-- What the eviction of a node adds to the result. -/
def NodeSnapshot.evictInto (node : NodeSnapshot) (refs : Multiset (ℕ × ℕ))
    (result : PrefixEvictionResult) : PrefixEvictionResult where
  evictedNodes := u32 (result.evictedNodes + 1)
  protectedNodes := result.protectedNodes
  freedGroupEntries := u32 (result.freedGroupEntries + node.groups.length)
  freedPageHandles := u32 (result.freedPageHandles + totalPages node.groups)
  evictedGroupPages := releasePages node.pageRefs refs result.evictedGroupPages

theorem evictPages_ok (pages : List (ℕ × ℕ)) {refs : Multiset (ℕ × ℕ)}
    (evicted : List GroupCommitPages) (h : PageRefsOk cfg r.pageRefSlots refs)
    (hle : (pages : Multiset (ℕ × ℕ)) ≤ refs) :
    ∃ slots, pages.foldlM (evictPageLocked cfg) evicted r =
        .ok (releasePages pages refs evicted) { r with pageRefSlots := slots } ∧
      PageRefsOk cfg slots (refs - pages) := by
  induction pages generalizing r refs evicted with
  | nil => exact ⟨r.pageRefSlots, rfl, by simpa using h⟩
  | cons page rest ih =>
    have hmem : page ∈ refs := Multiset.mem_of_le hle (by simp)
    have hrest : (rest : Multiset (ℕ × ℕ)) ≤ refs.erase page := by
      have := Multiset.erase_le_erase page hle
      simpa using this
    obtain ⟨slots, hdec, hok⟩ := h.decrement hmem
    obtain ⟨slots', hrun, hok'⟩ := ih (r := { r with pageRefSlots := slots })
      (if refs.count page = 1 then appendEvictedPage page.1 page.2 evicted else evicted) hok hrest
    refine ⟨slots', ?_, ?_⟩
    · have hone : evictPageLocked cfg evicted page r = .ok
          (if refs.count page = 1 then appendEvictedPage page.1 page.2 evicted else evicted)
          { r with pageRefSlots := slots } := by
        rw [evictPageLocked, bind_ok hdec]
        simp only [decide_eq_true_eq]
        rfl
      rw [foldlM_cons, bind_ok hone, hrun]
      rfl
    · have hsub : refs - ((page :: rest : List (ℕ × ℕ)) : Multiset (ℕ × ℕ)) = refs.erase page - rest := by
        rw [← Multiset.cons_coe, Multiset.sub_cons]
      rw [hsub]
      exact hok'

theorem appendEvictedPagesLocked_ends (h : RegionOk cfg r) (hnode : r.view cfg index = some node)
    (evicted : List GroupCommitPages) :
    Ends (appendEvictedPagesLocked cfg (r.nodes index) evicted) r (fun evicted' r' => TablesOnly r r' ∧ (TablesFit cfg →
        evicted' = releasePages node.pageRefs ((r.view cfg).pageRefs cfg.maxNodes) evicted ∧
          r'.nodeIndexSlots = r.nodeIndexSlots ∧
          PageRefsOk cfg r'.pageRefSlots ((r.view cfg).pageRefs cfg.maxNodes - node.pageRefs)))
      (fun e r' => TableBroken cfg e ∧ TablesOnly r r') := by
  obtain ⟨hres, hsnap⟩ := view_eq_some_iff.mp hnode
  rw [appendEvictedPagesLocked, ends_bind, ends_get, pageRefs_eq, hsnap]
  by_cases hfit : TablesFit cfg
  · obtain ⟨slots, hrun, hok⟩ := evictPages_ok node.pageRefs evicted (h.refs hfit) (View.pageRefs_le hres.1 hnode)
    unfold Ends
    rw [hrun]
    exact ⟨(TablesOnly.refl r).refs slots, fun _ => ⟨rfl, rfl, hok⟩⟩
  · have hkeeps : Keeps TableFault (TablesOnly r) (node.pageRefs.foldlM (evictPageLocked cfg) evicted) := by
      apply Keeps.foldlM
      intro evicted page _
      apply Keeps.bind (decrementPageRefLocked_keeps _ _)
      intro _
      exact Keeps.pure _
    refine (hkeeps r (TablesOnly.refl r)).mono ?_ ?_
    · intro _ r' htables
      exact ⟨htables, fun hfit' => absurd hfit' hfit⟩
    · intro e r' he
      exact ⟨⟨he.1, hfit⟩, he.2⟩

/-- What eviction leaves alone besides the nodes that stay. -/
structure EvictFrame (r r' : Region) : Prop where
  nextGroupEntry : r'.nextGroupEntry = r.nextGroupEntry
  nextPageHandle : r'.nextPageHandle = r.nextPageHandle
  globalEpoch : r'.globalEpoch = r.globalEpoch

theorem EvictFrame.refl (r : Region) : EvictFrame r r := ⟨rfl, rfl, rfl⟩

theorem EvictFrame.trans {r'' : Region} (h : EvictFrame r r') (h' : EvictFrame r' r'') : EvictFrame r r'' :=
  ⟨h'.nextGroupEntry.trans h.nextGroupEntry, h'.nextPageHandle.trans h.nextPageHandle,
    h'.globalEpoch.trans h.globalEpoch⟩

theorem EvictFrame.of_tables (h : TablesOnly r r') : EvictFrame r r' := by
  obtain ⟨_, _, rfl⟩ := h
  exact ⟨rfl, rfl, rfl⟩

/-- **One node leaves**, and with it its references. -/
theorem evictNodeLocked_ends (h : RegionOk cfg r) (hnode : r.view cfg index = some node)
    (result : PrefixEvictionResult) :
    Ends (evictNodeLocked cfg index result) r (fun result' r' => RegionOk cfg r' ∧ EvictFrame r r' ∧
        r'.view cfg = update (r.view cfg) index none ∧ result'.evictedNodes = u32 (result.evictedNodes + 1) ∧
        (TablesFit cfg → result' = node.evictInto ((r.view cfg).pageRefs cfg.maxNodes) result))
      (fun e r' => TableBroken cfg e ∧ RegionOk cfg r' ∧ EvictFrame r r' ∧ r'.view cfg = r.view cfg) := by
  obtain ⟨hres, hsnap⟩ := view_eq_some_iff.mp hnode
  have hdigest : (r.nodes index).digest = node.digest := by rw [← hsnap]; rfl
  have hgroups : (r.nodes index).groupEntryCount = node.groups.length := by
    rw [← hsnap]
    exact (h.arena.groups_length hres).symm
  have hhandles : ((r.residentEntries (r.nodes index)).map (·.pageHandleCount)).sum =
      totalPages node.groups := by
    rw [← hsnap]
    exact (totalPages_snapshotNode r _).symm
  simp only [evictNodeLocked, ends_bind, ends_get]
  refine (appendEvictedPagesLocked_ends h hnode result.evictedGroupPages).mono ?_ ?_
  · intro evicted r₁ hr₁
    obtain ⟨htables, hfitted⟩ := hr₁
    simp only [ends_modify, ends_pure]
    have htables' : TablesOnly r (removeNodeIndexLocked cfg (r.nodes index).digest r₁) :=
      removeNodeIndexLocked_tables _ htables
    obtain ⟨harena, hview⟩ := (htables'.arenaOk h.arena).tombstone index
    have hview' := hview.trans (by rw [htables'.view])
    obtain ⟨hnextE, hnextH, hepoch⟩ := EvictFrame.of_tables htables'
    refine ⟨⟨harena, fun hfit => ?_, fun hfit => ?_⟩, ⟨hnextE, hnextH, hepoch⟩, hview', trivial, fun hfit => ?_⟩
    · obtain ⟨_, hindex, _⟩ := hfitted hfit
      have hok₁ : IndexOk cfg r₁.nodeIndexSlots (r.view cfg) := hindex ▸ h.index hfit
      obtain ⟨slots, hremove, hok⟩ := hok₁.remove hnode
      rw [hview', hdigest, hremove]
      exact hok
    · obtain ⟨_, hindex, hrefs⟩ := hfitted hfit
      have hok₁ : IndexOk cfg r₁.nodeIndexSlots (r.view cfg) := hindex ▸ h.index hfit
      obtain ⟨slots, hremove, _⟩ := hok₁.remove hnode
      rw [hview', View.pageRefs_remove hres.1 hnode, hdigest, hremove]
      exact hrefs
    · rw [NodeSnapshot.evictInto, hgroups, hhandles, (hfitted hfit).1]
  · intro e r₁ he
    exact ⟨he.1, h.of_broken he.2 he.1.2, EvictFrame.of_tables he.2, he.2.view⟩

/-! ### The scan -/

/-- The scan on the view. -/
def scanView (maxNodes maxScanNodes : ℕ) (skip : NodeSnapshot → Bool)
    (stop : View → PrefixEvictionResult → Bool) :
    List ℕ → ℕ → View → PrefixEvictionResult → View × PrefixEvictionResult
  | [], _, v, result => (v, result)
  | nodeIndex :: rest, scanned, v, result =>
    if maxScanNodes ≠ 0 ∧ maxScanNodes ≤ scanned then (v, result)
    else
      match v nodeIndex with
      | none => scanView maxNodes maxScanNodes skip stop rest (scanned + 1) v result
      | some node =>
        if skip node then scanView maxNodes maxScanNodes skip stop rest (scanned + 1) v result
        else if node.isProtected then
          scanView maxNodes maxScanNodes skip stop rest (scanned + 1) v
            { result with protectedNodes := u32 (result.protectedNodes + 1) }
        else if stop (update v nodeIndex none)
            (node.evictInto (v.pageRefs maxNodes) result) then
          (update v nodeIndex none, node.evictInto (v.pageRefs maxNodes) result)
        else
          scanView maxNodes maxScanNodes skip stop rest (scanned + 1)
            (update v nodeIndex none) (node.evictInto (v.pageRefs maxNodes) result)

/-- What a scan that returned has done. -/
structure Scanned (cfg : HostPrefixCacheCoordinator) (maxScanNodes : ℕ)
    (skip : NodeSnapshot → Bool) (stop : Region → PrefixEvictionResult → Bool)
    (candidates : List ℕ) (r r' : Region) (result' : PrefixEvictionResult) : Prop where
  ok : RegionOk cfg r'
  frame : EvictFrame r r'
  evicts : Evicts (r.view cfg) (r'.view cfg)
  /-- A scan without a bound stops early only when it has enough. -/
  exhausted : maxScanNodes = 0 → (stop r' result' = true ∧ result'.evictedNodes ≠ 0) ∨
    ∀ i ∈ candidates, ∀ node, r'.view cfg i = some node → skip node = true ∨ node.isProtected = true

section

variable {maxScanNodes : ℕ} {skipNode : SharedPrefixNode → Bool} {skip : NodeSnapshot → Bool}
  {stop : Region → PrefixEvictionResult → Bool} {stopView : View → PrefixEvictionResult → Bool}

theorem Scanned.head {rest : List ℕ} {r₁ : Region} {result' : PrefixEvictionResult} (hframe : EvictFrame r r₁)
    (hevicts : Evicts (r.view cfg) (r₁.view cfg)) (h : Scanned cfg maxScanNodes skip stop rest r₁ r' result')
    (hhead : ∀ node, r₁.view cfg index = some node → skip node = true ∨ node.isProtected = true) :
    Scanned cfg maxScanNodes skip stop (index :: rest) r r' result' := by
  refine ⟨h.ok, hframe.trans h.frame, hevicts.trans h.evicts, fun hzero => ?_⟩
  rcases h.exhausted hzero with hstop | hall
  · exact Or.inl hstop
  · refine Or.inr fun i hi node hnode => ?_
    rcases mem_cons.mp hi with rfl | hi
    · exact hhead node (h.evicts.eq_of_some hnode)
    · exact hall i hi node hnode

/-- **The scan.**  In any configuration it only evicts unprotected nodes; with tables of the intended
size it returns, and it is `scanView`. -/
theorem evictScan_ends (hskip : ∀ (r : Region) (node : SharedPrefixNode),
      skipNode node = skip (r.snapshotNode node)) {r₀ : Region}
    (hstop : ∀ (r : Region) (result : PrefixEvictionResult), RegionOk cfg r → EvictFrame r₀ r →
      stop r result = stopView (r.view cfg) result)
    (candidates : List ℕ) (hbound : ∀ i ∈ candidates, i < cfg.maxNodes) (scanned : ℕ)
    (result : PrefixEvictionResult) (hcount : result.evictedNodes + candidates.length < 2 ^ 32)
    (h : RegionOk cfg r) (hframe : EvictFrame r₀ r) :
    Ends (evictScan cfg maxScanNodes skipNode stop candidates scanned result) r
      (fun result' r' => Scanned cfg maxScanNodes skip stop candidates r r' result' ∧
        (TablesFit cfg → (r'.view cfg, result') =
          scanView cfg.maxNodes maxScanNodes skip stopView candidates scanned (r.view cfg) result))
      (fun e r' => TableBroken cfg e ∧ RegionOk cfg r' ∧ Evicts (r.view cfg) (r'.view cfg)) := by
  induction candidates generalizing r scanned result with
  | nil =>
    refine ⟨⟨h, EvictFrame.refl r, Evicts.refl _, fun _ => Or.inr ?_⟩, fun _ => rfl⟩
    intro i hi
    simp at hi
  | cons index rest ih =>
    have hlt : index < cfg.maxNodes := hbound index mem_cons_self
    rw [length_cons] at hcount
    have ih' := fun (result : PrefixEvictionResult) (r : Region) =>
      ih (r := r) (fun i hi => hbound i (mem_cons_of_mem index hi)) (scanned + 1) result
    -- the node is passed over
    have hpass := fun (passed : PrefixEvictionResult) (hle : passed.evictedNodes + rest.length < 2 ^ 32)
        (hhead : ∀ node, r.view cfg index = some node → skip node = true ∨ node.isProtected = true) =>
      (ih' passed r hle h hframe).mono
        (fun _ _ => And.imp_left fun hs => Scanned.head (EvictFrame.refl r) (Evicts.refl _) hs hhead) fun _ _ => id
    rw [evictScan, scanView]
    split
    · next hdone =>
      refine ⟨⟨h, EvictFrame.refl r, Evicts.refl _, fun hzero => ?_⟩, fun _ => rfl⟩
      exact absurd hzero hdone.1
    rw [ends_bind, ends_get]
    by_cases hstate : (r.nodes index).state = .resident
    · have hview : r.view cfg index = some (r.snapshotNode (r.nodes index)) := view_of_resident ⟨hlt, hstate⟩
      rw [hview]
      dsimp only
      by_cases hsk : skipNode (r.nodes index) = true
      · have hsk' := (hskip r (r.nodes index)).symm.trans hsk
        rw [if_pos (Or.inr hsk), if_pos hsk']
        refine hpass result (by omega) fun node hnode => ?_
        rw [hview] at hnode
        exact Or.inl (Option.some.inj hnode ▸ hsk')
      · have hsk' : ¬ skip (r.snapshotNode (r.nodes index)) = true := fun hs =>
          hsk ((hskip r _).trans hs)
        rw [if_neg (by simp [hstate, hsk]), if_neg hsk', nodeIsProtectedLocked_eq]
        by_cases hprot : (r.snapshotNode (r.nodes index)).isProtected = true
        · rw [if_pos hprot, if_pos hprot]
          refine hpass _ (by dsimp only; omega) fun node hnode => ?_
          rw [hview] at hnode
          exact Or.inr (Option.some.inj hnode ▸ hprot)
        · rw [if_neg hprot, if_neg hprot, ends_bind]
          have hevicts : Evicts (r.view cfg) (update (r.view cfg) index none) :=
            Evicts.remove hview (by simpa using hprot)
          refine (evictNodeLocked_ends h hview result).mono ?_ ?_
          · intro result₁ r₁ hr₁
            obtain ⟨hok₁, hframe₁, hview₁, hcount₁, hresult₁⟩ := hr₁
            rw [u32_of_lt (by omega)] at hcount₁
            have hstop₁ := hstop r₁ result₁ hok₁ (hframe.trans hframe₁)
            rw [hview₁] at hstop₁
            rw [← hview₁] at hevicts
            rw [ends_bind, ends_get]
            split
            · next hyes =>
              refine ⟨⟨hok₁, hframe₁, hevicts, fun _ => Or.inl ⟨hyes, by omega⟩⟩, fun hfit => ?_⟩
              rw [← hresult₁ hfit, if_pos (hstop₁ ▸ hyes), hview₁]
            · next hno =>
              refine (ih' result₁ r₁ (by omega) hok₁ (hframe.trans hframe₁)).mono ?_ ?_
              · intro result' r' hr'
                refine ⟨Scanned.head hframe₁ hevicts hr'.1 ?_, fun hfit => ?_⟩
                · intro node hnode
                  rw [hview₁, update_self] at hnode
                  simp at hnode
                · rw [← hresult₁ hfit, if_neg (hstop₁ ▸ hno), hr'.2 hfit, hview₁]
              · intro e r' he
                exact ⟨he.1, he.2.1, hevicts.trans he.2.2⟩
          · intro e r₁ he
            exact ⟨he.1, he.2.1, Evicts.of_eq he.2.2.2⟩
    · have hview : r.view cfg index = none := view_eq_none_iff.mpr fun hres => hstate hres.2
      rw [if_pos (Or.inl hstate), hview]
      refine hpass result (by omega) fun node hnode => ?_
      rw [hview] at hnode
      simp at hnode

/-! ### The calls -/

/-- The compaction after a scan, and the statistics. -/
theorem finishEviction_ends (h : RegionOk cfg r) (minGroupEntries minPageHandles : ℕ) (result : PrefixEvictionResult) :
    Ends (finishEviction cfg minGroupEntries minPageHandles result) r
      (fun result' r' => result' = result ∧ SameNodes cfg r r' ∧
        (result.evictedNodes ≠ 0 → Repacked cfg minGroupEntries minPageHandles r r'))
      (fun e r' => TableBroken cfg e ∧ SameNodes cfg r r') := by
  have hcompact : Ends (compactAfterEvictScan cfg minGroupEntries minPageHandles result) r
      (fun _ r' => SameNodes cfg r r' ∧ (result.evictedNodes ≠ 0 → Repacked cfg minGroupEntries minPageHandles r r'))
      (fun e r' => TableBroken cfg e ∧ SameNodes cfg r r') := by
    unfold compactAfterEvictScan
    split
    · exact (compactArenasAfterEvictionIfUsefulLocked_ends h _ _).mono
        (fun _ r' hr' => ⟨hr'.toSameNodes, fun _ => hr'⟩) fun e r' he => he
    · next hzero => exact ⟨SameNodes.refl h, fun hne => absurd hne hzero⟩
  rw [finishEviction, ends_bind]
  refine hcompact.mono ?_ fun e r' he => he
  intro _ r₁ hr₁
  rw [ends_bind, ends_modify, ends_pure]
  have hok := hr₁.1.ok.header r₁.globalEpoch r₁.lookupHits r₁.lookupMisses (u64 (r₁.evictedNodes + result.evictedNodes))
    (u64 (r₁.evictionProtectedSkips + result.protectedNodes))
  have hsame : SameNodes cfg r _ := ⟨hok, hr₁.1.view, hr₁.1.globalEpoch⟩
  exact ⟨rfl, hsame, fun hne => ⟨hsame, (hr₁.2 hne).tail_iff⟩⟩

/-- What an eviction call that scans leaves behind: `r₁` is the region between the scan and the
compaction. -/
structure EvictionDone (cfg : HostPrefixCacheCoordinator) (maxScanNodes : ℕ)
    (skip : NodeSnapshot → Bool) (stop : Region → PrefixEvictionResult → Bool)
    (candidates : List ℕ) (minGroupEntries minPageHandles : ℕ) (r r₁ r' : Region)
    (result' : PrefixEvictionResult) : Prop where
  scanned : Scanned cfg maxScanNodes skip stop candidates r r₁ result'
  same : SameNodes cfg r₁ r'
  repacked : result'.evictedNodes ≠ 0 → Repacked cfg minGroupEntries minPageHandles r₁ r'

variable (cfg)

/-- How an eviction call that scans ends. -/
def ScanEnds (maxScanNodes : ℕ) (skip : NodeSnapshot → Bool) (stop : Region → PrefixEvictionResult → Bool)
    (stopView : View → PrefixEvictionResult → Bool) (candidates : List ℕ) (minGroupEntries minPageHandles : ℕ)
    (call : CacheM PrefixEvictionResult) (r : Region) : Prop :=
  Ends call r
    (fun result' r' => ∃ r₁, EvictionDone cfg maxScanNodes skip stop candidates minGroupEntries
        minPageHandles r r₁ r' result' ∧
      (TablesFit cfg → (r'.view cfg, result') =
        scanView cfg.maxNodes maxScanNodes skip stopView candidates 0 (r.view cfg) {}))
    (fun e r' => TableBroken cfg e ∧ RegionOk cfg r' ∧ Evicts (r.view cfg) (r'.view cfg))

/-- What every eviction call does, however it ends. -/
def EvictionEnds (call : CacheM PrefixEvictionResult) (r : Region) : Prop :=
  Ends call r (fun _ r' => RegionOk cfg r' ∧ Evicts (r.view cfg) (r'.view cfg))
    (fun e r' => TableBroken cfg e ∧ RegionOk cfg r' ∧ Evicts (r.view cfg) (r'.view cfg))

variable {cfg}

theorem ScanEnds.evictionEnds {call : CacheM PrefixEvictionResult}
    (h : ScanEnds cfg maxScanNodes skip stop stopView candidates minGroupEntries minPageHandles
      call r) : EvictionEnds cfg call r := by
  refine Ends.mono h ?_ fun e r' he => he
  intro _ r' hr'
  obtain ⟨r₁, hdone, _⟩ := hr'
  exact ⟨hdone.same.ok, hdone.scanned.evicts.trans (Evicts.of_eq hdone.same.view)⟩

section

variable (hskip : ∀ (r : Region) (node : SharedPrefixNode), skipNode node = skip (r.snapshotNode node))
include hskip

/-- **A scan and what follows it.** -/
theorem scanAndFinish_ends (hstop : ∀ (r' : Region) (result : PrefixEvictionResult), RegionOk cfg r' → EvictFrame r r' →
      stop r' result = stopView (r'.view cfg) result) (hbound : ∀ i ∈ candidates, i < cfg.maxNodes)
    (hlength : candidates.length ≤ cfg.maxNodes) (h : RegionOk cfg r) :
    ScanEnds cfg maxScanNodes skip stop stopView candidates minGroupEntries minPageHandles
      (evictScan cfg maxScanNodes skipNode stop candidates 0 {} >>=
        finishEviction cfg minGroupEntries minPageHandles) r := by
  have hmax := cfg.maxNodes_lt
  have hcount : ({} : PrefixEvictionResult).evictedNodes + candidates.length < 2 ^ 32 := by
    show 0 + candidates.length < 2 ^ 32
    omega
  rw [ScanEnds, ends_bind]
  refine (evictScan_ends hskip hstop candidates hbound 0 {} hcount h (EvictFrame.refl r)).mono ?_ fun e r' he => he
  intro result₁ r₁ hr₁
  obtain ⟨hscan, hfitted⟩ := hr₁
  refine (finishEviction_ends hscan.ok minGroupEntries minPageHandles result₁).mono ?_ ?_
  · intro result' r' hr'
    obtain ⟨rfl, hsame, hrepacked⟩ := hr'
    refine ⟨r₁, ⟨hscan, hsame, hrepacked⟩, fun hfit => ?_⟩
    rw [hsame.view]
    exact hfitted hfit
  · intro e r' he
    exact ⟨he.1, he.2.ok, hscan.evicts.trans (Evicts.of_eq he.2.view)⟩

/-- The scan `ClearUnprotected` and `ClearNamespace` make over the whole node table. -/
theorem clear_scanEnds (h : RegionOk cfg r) :
    ScanEnds cfg 0 skip (fun _ _ => false) (fun _ _ => false) (range cfg.maxNodes) 0 0
      (evictScan cfg 0 skipNode (fun _ _ => false) (range cfg.maxNodes) 0 {} >>= finishEviction cfg 0 0) r := by
  apply scanAndFinish_ends hskip
  · intro _ _ _ _
    rfl
  · intro i hi
    exact mem_range.mp hi
  · rw [length_range]
  · exact h

end

end

theorem clearUnprotected_scanEnds (h : RegionOk cfg r) :
    ScanEnds cfg 0 (fun _ => false) (fun _ _ => false) (fun _ _ => false) (range cfg.maxNodes)
      0 0 (clearUnprotected cfg) r :=
  clear_scanEnds (fun _ _ => rfl) h

/-- With tables of the intended size `ClearUnprotected` returns, and leaves only protected nodes. -/
theorem clearUnprotected_ok (hfit : TablesFit cfg) (h : RegionOk cfg r) :
    ∃ result r', clearUnprotected cfg r = .ok result r' ∧ Evicts (r.view cfg) (r'.view cfg) ∧
      ∀ i node, r'.view cfg i = some node → node.isProtected = true := by
  have hends : Ends (clearUnprotected cfg) r (fun _ r' => Evicts (r.view cfg) (r'.view cfg) ∧
      ∀ i node, r'.view cfg i = some node → node.isProtected = true) fun _ _ => False := by
    refine Ends.mono (clearUnprotected_scanEnds h) ?_ fun e r' he => he.1.2 hfit
    intro result r' hr'
    obtain ⟨r₁, hdone, _⟩ := hr'
    refine ⟨hdone.scanned.evicts.trans (Evicts.of_eq hdone.same.view), ?_⟩
    intro i node hnode
    have hlt := view_bound cfg r' i node hnode
    rw [hdone.same.view] at hnode
    rcases hdone.scanned.exhausted rfl with hstop | hrest
    · simp at hstop
    · simpa using hrest i (mem_range.mpr hlt) node hnode
  exact hends.exists_ok

theorem clearNamespace_scanEnds (h : RegionOk cfg r) (namespaceDigest : PrefixDigest) :
    ScanEnds cfg 0 (fun node => node.namespaceDigest ≠ namespaceDigest) (fun _ _ => false)
      (fun _ _ => false) (range cfg.maxNodes) 0 0 (clearNamespace cfg namespaceDigest) r :=
  clear_scanEnds (fun _ _ => rfl) h

section

variable {sort : StdSort}

theorem mem_evictionCandidates : i ∈ evictionCandidates cfg sort r ↔ r.Resident cfg i := by
  rw [evictionCandidates, (sort.perm _ _).mem_iff, mem_residentIndices]

theorem evictionCandidates_length : (evictionCandidates cfg sort r).length ≤ cfg.maxNodes := by
  rw [evictionCandidates, (sort.perm _ _).length_eq, residentIndices]
  exact (length_filter_le _ _).trans (length_range ..).le

section

variable (h : RegionOk cfg r) (requirements : List GroupPageRequirement) (maxScanNodes : ℕ)
include h requirements maxScanNodes

/-- The scan of `EvictUntilReleasablePages`, when something is required. -/
theorem evictUntilReleasablePages_scanEnds (hsome : normalizePageRequirements requirements ≠ []) :
    ScanEnds cfg maxScanNodes (fun _ => false)
      (fun _ result => hasEnoughReleasablePages (normalizePageRequirements requirements) result)
      (fun _ result => hasEnoughReleasablePages (normalizePageRequirements requirements) result)
      (evictionCandidates cfg sort r) 0 0 (evictUntilReleasablePages cfg sort requirements maxScanNodes) r := by
  rw [evictUntilReleasablePages, if_neg hsome]
  apply scanAndFinish_ends
  · intro _ _
    rfl
  · intro _ _ _ _
    rfl
  · intro i hi
    exact (mem_evictionCandidates.mp hi).1
  · exact evictionCandidates_length
  · exact h

theorem evictUntilReleasablePages_ends :
    EvictionEnds cfg (evictUntilReleasablePages cfg sort requirements maxScanNodes) r := by
  by_cases hsome : normalizePageRequirements requirements = []
  · rw [evictUntilReleasablePages, if_pos hsome]
    exact ⟨h, Evicts.refl _⟩
  · exact (evictUntilReleasablePages_scanEnds h requirements maxScanNodes hsome).evictionEnds

end

/-- Enough node slots, group entries and page handles are free in place. -/
def EnoughFree (cfg : HostPrefixCacheCoordinator)
    (minFreeNodes minFreeGroupEntries minFreePageHandles : ℕ) (r : Region) : Prop :=
  minFreeNodes ≤ (List.range cfg.maxNodes).countP (fun i => (r.view cfg i).isNone) ∧
    tailArenaCapacityEnoughLocked cfg minFreeGroupEntries minFreePageHandles r = true

theorem hasEnoughFreeCapacity_iff (minFreeNodes minFreeGroupEntries minFreePageHandles : ℕ) :
    hasEnoughFreeCapacity cfg minFreeNodes minFreeGroupEntries minFreePageHandles r = true ↔
      EnoughFree cfg minFreeNodes minFreeGroupEntries minFreePageHandles r := by
  simp only [hasEnoughFreeCapacity, EnoughFree, Bool.and_eq_true, decide_eq_true_eq, countFreeNodeSlotsLocked_eq]

/-- The stop test of `EvictUntilFree` on the view: `tail` is whether the request fits behind the used
part of the arenas. -/
def freeStop (cfg : HostPrefixCacheCoordinator)
    (minFreeNodes minFreeGroupEntries minFreePageHandles : ℕ) (tail : Bool) (v : View) : Bool :=
  let free := (List.range cfg.maxNodes).countP fun i => (v i).isNone
  (minFreeNodes ≤ free && tail) ||
    (minFreeNodes ≤ free &&
      (minFreeGroupEntries ≤ cfg.maxGroupEntries - v.entryCount cfg.maxNodes &&
        minFreePageHandles ≤ cfg.maxPageHandles - v.handleCount cfg.maxNodes))

/-- The scan of `EvictUntilFree`.  The tail of the arenas does not move during it. -/
theorem freeScan_scanEnds (h : RegionOk cfg r) (minFreeNodes minFreeGroupEntries minFreePageHandles maxScanNodes : ℕ) :
    ScanEnds cfg maxScanNodes (fun _ => false)
      (fun r _ => hasEnoughFreeCapacity cfg minFreeNodes minFreeGroupEntries minFreePageHandles r ||
        canSatisfyAfterCompact cfg minFreeNodes minFreeGroupEntries minFreePageHandles r)
      (fun v _ => freeStop cfg minFreeNodes minFreeGroupEntries minFreePageHandles
        (tailArenaCapacityEnoughLocked cfg minFreeGroupEntries minFreePageHandles r) v)
      (evictionCandidates cfg sort r) minFreeGroupEntries minFreePageHandles
      (evictScan cfg maxScanNodes (fun _ => false) (fun r _ =>
            hasEnoughFreeCapacity cfg minFreeNodes minFreeGroupEntries minFreePageHandles r ||
              canSatisfyAfterCompact cfg minFreeNodes minFreeGroupEntries minFreePageHandles r)
          (evictionCandidates cfg sort r) 0 {} >>= finishEviction cfg minFreeGroupEntries minFreePageHandles) r := by
  apply scanAndFinish_ends
  · intro _ _
    rfl
  · intro r' result hok hframe
    simp only [freeStop, hasEnoughFreeCapacity, canSatisfyAfterCompact,
      tailArenaCapacityEnoughLocked, compactedArenaCapacityEnoughLocked, hframe.nextGroupEntry,
      hframe.nextPageHandle, hok.arena.residentArenaUsage, countFreeNodeSlotsLocked_eq]
  · intro i hi
    exact (mem_evictionCandidates.mp hi).1
  · exact evictionCandidates_length
  · exact h

/-- **`EvictUntilFree`.**  Without a scan bound it ends with enough free space, or with nothing left
but protected nodes. -/
theorem evictUntilFree_ends (h : RegionOk cfg r)
    (minFreeNodes minFreeGroupEntries minFreePageHandles maxScanNodes : ℕ) :
    Ends (evictUntilFree cfg sort minFreeNodes minFreeGroupEntries minFreePageHandles maxScanNodes) r
      (fun _ r' => (RegionOk cfg r' ∧ Evicts (r.view cfg) (r'.view cfg)) ∧
        (maxScanNodes = 0 → EnoughFree cfg minFreeNodes minFreeGroupEntries minFreePageHandles r' ∨
          ∀ i node, r'.view cfg i = some node → node.isProtected = true))
      (fun e r' => TableBroken cfg e ∧ RegionOk cfg r' ∧ Evicts (r.view cfg) (r'.view cfg)) := by
  rw [evictUntilFree, ends_bind, ends_get]
  split
  · next henough =>
    exact ⟨⟨h, Evicts.refl _⟩, fun _ => Or.inl ((hasEnoughFreeCapacity_iff _ _ _).mp henough)⟩
  rw [ends_bind]
  refine (compactArenasForCapacityLocked_ends h _ _).mono ?_ fun e r₁ he => ⟨he.1, he.2.ok, Evicts.of_eq he.2.view⟩
  intro _ r₁ hr₁
  replace hr₁ := hr₁.1
  have hstart : Evicts (r.view cfg) (r₁.view cfg) := Evicts.of_eq hr₁.view
  rw [ends_bind, ends_get]
  split
  · next henough =>
    exact ⟨⟨hr₁.ok, hstart⟩, fun _ => Or.inl ((hasEnoughFreeCapacity_iff _ _ _).mp henough)⟩
  refine Ends.mono (freeScan_scanEnds hr₁.ok _ _ _ _) ?_ fun e r' he => ⟨he.1, he.2.1, hstart.trans he.2.2⟩
  intro result r' hr'
  obtain ⟨r₂, ⟨hscanned, hsame, hrepacked⟩, _⟩ := hr'
  refine ⟨⟨hsame.ok, hstart.trans (hscanned.evicts.trans (Evicts.of_eq hsame.view))⟩, fun hzero => ?_⟩
  rcases hscanned.exhausted hzero with ⟨hyes, hne⟩ | hall
  · left
    have hroom : minFreeNodes ≤ (List.range cfg.maxNodes).countP (fun i => (r₂.view cfg i).isNone) ∧
        (r₂.view cfg).roomBeside cfg minFreeGroupEntries minFreePageHandles := by
      rw [Bool.or_eq_true, hasEnoughFreeCapacity_iff, canSatisfyAfterCompact, Bool.and_eq_true,
        decide_eq_true_eq, countFreeNodeSlotsLocked_eq,
        compactedArenaCapacityEnoughLocked_iff hscanned.ok.arena] at hyes
      rcases hyes with hyes | hyes
      · exact ⟨hyes.1, roomBeside_of_tail hscanned.ok.arena hyes.2⟩
      · exact hyes
    refine ⟨?_, (hrepacked hne).tail_iff.mpr hroom.2⟩
    rw [hsame.view]
    exact hroom.1
  · right
    intro i node hnode
    rw [hsame.view] at hnode
    have hres := (view_eq_some_iff.mp (hscanned.evicts.eq_of_some hnode)).1
    rcases hall i (mem_evictionCandidates.mpr hres) node hnode with hskip | hprot
    · simp at hskip
    · exact hprot

end

end Batchgen.PrefixCache
