import Batchgen.PrefixCache.AttachmentRuns
import Batchgen.PrefixCache.Lookup

/-!
# Attachments protect their nodes

An attachment is live from the call that returns its handle to the header step of the call that
finalizes its release (`State.Live`, `Finalizes`); in between it may have left its process's table.  The
nodes it names are counted all that time (`Settled.counts_of_live`), and a counted node keeps its core
through every step, so they stay where they are with what they hold (`Run.protects`).
-/

namespace Batchgen.PrefixCache

open MachineInt OrderedMap Outcome Function Option

variable {cfg : HostPrefixCacheCoordinator} {sort : StdSort} {Pid : Type} [DecidableEq Pid] [Fintype Pid]
  {st st' : State Pid} {other pid : Pid} {result : CallResult} {process' process : Process} {handle : ℕ}
  {nodes : List ℕ}

/-! ### Attachments along runs -/

/-- **The attachment holds its nodes**: it is in its process's table, or the call that finalizes its
release has not taken the header mutex yet. -/
def State.Live (st : State Pid) (pid : Pid) (handle : ℕ) (nodes : List ℕ) : Prop :=
  (∃ attachment, lookup handle (st.locals pid).attachments = some attachment ∧
      attachment.nodeIndices = nodes) ∨
    (pid, .releasing handle nodes) ∈ st.inFlight ∨ (pid, .ending handle nodes true) ∈ st.inFlight

/-- **The header step of the call that finalizes the release**: of `ReleaseAttachment` when no load is
pending, or of the `EndAttachmentLoad` that ends the last load after a release was requested. -/
def Finalizes (pid : Pid) (handle : ℕ) (nodes : List ℕ) (st st' : State Pid) : Prop :=
  ∃ pending rest region, (pending = .releasing handle nodes ∨ pending = .ending handle nodes true) ∧
    st.inFlight = (pid, pending) ::ₘ rest ∧ headerSection pending st.region = .ok () region ∧
    st' = st.finish pid pending rest region

/-- The nodes of an attachment are counted. -/
theorem Settled.counts_of_live (h : Settled cfg st) (hlive : st.Live pid handle nodes) {i : ℕ}
    (hi : i ∈ nodes) : st.counts i ≠ (0, 0) := by
  have hpos := List.count_pos_iff.mpr hi
  have hle : nodes.count i ≤ (st.counts i).1 := by
    rcases hlive with ⟨attachment, hlookup, rfl⟩ | hmem | hmem
    · exact h.count_le_counts hlookup i
    · exact (State.inFlight_le hmem i).1
    · exact (State.inFlight_le hmem i).1
  intro hzero
  rw [hzero] at hle
  omega

theorem Settled.live_commit (h : Settled cfg st) {named : List ℕ}
    (hdone : HeaderDone cfg st.counts (st.process pid) named process)
    (hlive : st.Live other handle nodes) : (st.commit pid process).Live other handle nodes := by
  rcases hlive with ⟨attachment, hlookup, hnodes⟩ | hmem
  · exact Or.inl ⟨attachment, h.lookup_commit hdone hlookup, hnodes⟩
  · exact Or.inr hmem

theorem Settled.live_start (h : Settled cfg st) {call : AttachmentCall} {out : LocalState × Option InFlight}
    (hmatched : ∀ handle, call.closes handle ≤ st.openLoads pid handle) (hstep : LocalStep (st.locals pid) call out)
    (hlive : st.Live other handle nodes) : (st.start pid call out).Live other handle nodes := by
  have hnew : ∀ pending, out.2 = some pending → (pid, pending) ∈ (st.start pid call out).inFlight :=
    fun pending hout => State.mem_start.mpr (Or.inr ⟨pending, hout, rfl⟩)
  rcases hlive with ⟨attachment, hlookup, rfl⟩ | hrelease | hend
  · by_cases hother : other = pid
    · subst hother
      rcases hstep.lookup_stays (h.locals other) hmatched hlookup with
        ⟨attachment', hlookup', hnodes'⟩ | ⟨hout | hout, _⟩
      · refine Or.inl ⟨attachment', ?_, hnodes'⟩
        rwa [show (st.start other call out).locals other = out.1 from update_self ..]
      · exact Or.inr (Or.inl (hnew _ hout))
      · exact Or.inr (Or.inr (hnew _ hout))
    · refine Or.inl ⟨attachment, ?_, rfl⟩
      rwa [show (st.start pid call out).locals other = st.locals other from
        update_of_ne hother _ _]
  · exact Or.inr (Or.inl (State.mem_start.mpr (Or.inl hrelease)))
  · exact Or.inr (Or.inr (State.mem_start.mpr (Or.inl hend)))

/-- **A step ends no attachment but by finalizing its release.** -/
theorem Step.live {error : Option PrefixCacheError} (hstep : Step cfg sort (HeaderCall.PagesFit cfg) st error st')
    (h : Settled cfg st) (hfit : st.Fits) (hlive : st.Live pid handle nodes) :
    st'.Live pid handle nodes ∨ Finalizes pid handle nodes st st' := by
  cases hstep with
  | header other call hpages result process hrun =>
    obtain ⟨named, hdone, _⟩ := Ends.of_ok (h.header hfit other hpages) hrun
    exact Or.inl (h.live_commit hdone hlive)
  | headerFault other call hpages process st' hrun =>
    exact absurd (Ends.of_error (h.header hfit other hpages) hrun).1 id
  | headerThrow other call hpages error process hrun =>
    obtain ⟨_, named, hdone⟩ := Ends.of_error (h.header hfit other hpages) hrun
    exact Or.inl (h.live_commit hdone hlive)
  | start other call out hmatched hrun =>
    exact Or.inl (h.live_start hmatched (localSection_ok hrun) hlive)
  | startThrow other call error hmatched hrun => exact Or.inl hlive
  | finish other pending rest region hflight hpending hrun =>
    -- an entry in flight is the one that finishes, or stays in flight
    have hentry : ∀ own : InFlight, (pid, own) ∈ st.inFlight →
        (pid, own) ∈ (st.finish other pending rest region).inFlight ∨ (pid, own) = (other, pending) := by
      intro own hmem
      rw [hflight] at hmem
      exact (Multiset.mem_cons.mp hmem).symm
    rcases hlive with hlive | hmem | hmem
    · exact Or.inl (Or.inl hlive)
    · rcases hentry _ hmem with hstays | heq
      · exact Or.inl (Or.inr (Or.inl hstays))
      · obtain ⟨rfl, rfl⟩ := Prod.mk.inj heq
        exact Or.inr ⟨_, rest, region, Or.inl rfl, hflight, hrun, rfl⟩
    · rcases hentry _ hmem with hstays | heq
      · exact Or.inl (Or.inr (Or.inr hstays))
      · obtain ⟨rfl, rfl⟩ := Prod.mk.inj heq
        exact Or.inr ⟨_, rest, region, Or.inr rfl, hflight, hrun, rfl⟩
  | finishThrow other pending rest error region hflight _ hrun =>
    obtain ⟨region', hrun', _⟩ := h.finish hfit.counts hflight
    rw [hrun'] at hrun
    simp at hrun
  | beginThrow other handle nodes rest error region hflight hrun =>
    obtain ⟨region', hrun', _⟩ := h.finish hfit.counts hflight
    rw [hrun'] at hrun
    simp at hrun
  | undo other handle error rest hflight =>
    exact absurd (hflight ▸ Multiset.mem_cons_self _ _) (h.undoes other handle error)

/-- **The attachment still protects its nodes**: it is live, and each of them is resident where it was
in `st`, with the digest, the tokens and the pages it had. -/
def Protects (cfg : HostPrefixCacheCoordinator) (pid : Pid) (handle : ℕ) (nodes : List ℕ)
    (st st' : State Pid) : Prop :=
  st'.Live pid handle nodes ∧ ∀ i ∈ nodes, ∃ node node', st.region.view cfg i = some node ∧
    st'.region.view cfg i = some node' ∧ node'.core = node.core

theorem Settled.protects_self (h : Settled cfg st)
    (hlive : st.Live pid handle nodes) : Protects cfg pid handle nodes st st := by
  refine ⟨hlive, fun i hi => ?_⟩
  have hview := view_of_resident (h.balanced.resident (h.counts_of_live hlive hi))
  exact ⟨_, _, hview, hview, rfl⟩

/-- **An attachment protects its nodes along every run** until the header step that finalizes its
release. -/
theorem Run.protects (hrun : Run cfg sort st st') (h : Settled cfg st) (hfit : st.Fits)
    (hlive : st.Live pid handle nodes) :
    Protects cfg pid handle nodes st st' ∨ ∃ s s', Run cfg sort st s ∧ Protects cfg pid handle nodes st s ∧
        Finalizes pid handle nodes s s' ∧ Run cfg sort s' st' := by
  induction hrun with
  | refl => exact Or.inl (h.protects_self hlive)
  | @tail t t' hrun hstep ih =>
    rcases ih with hprotects | ⟨s, s', hbefore, hprotects, hfinal, hafter⟩
    · obtain ⟨hsettled, hfits⟩ := Run.settled hrun h hfit
      obtain ⟨⟨error, hsection⟩, _⟩ := hstep
      rcases hsection.live hsettled hfits hprotects.1 with hlive' | hfinal
      · refine Or.inl ⟨hlive', fun i hi => ?_⟩
        obtain ⟨node, node', hnode, hnode', hcore⟩ := hprotects.2 i hi
        have hkept := (hsection.settled hsettled hfits).2.1 i (hsettled.counts_of_live hprotects.1 hi)
        rw [hnode', map_some, map_eq_some_iff] at hkept
        obtain ⟨node'', hnode'', hcore'⟩ := hkept
        exact ⟨node, node'', hnode, hnode'', hcore'.trans hcore⟩
      · exact Or.inr ⟨t, t', hrun, hprotects, hfinal, .refl⟩
    · exact Or.inr ⟨s, s', hbefore, hprotects, hfinal, hafter.tail hstep⟩

/-- **A call that returns a handle has attached it**: the handle is in its process's table. -/
theorem Settled.lookup_handle (h : Settled cfg st) (hfit : st.Fits) {call : HeaderCall} (hpages : call.PagesFit cfg)
    (hrun : call.run cfg sort (st.process pid) = .ok result process) (hhandle : result.handle ≠ 0) :
    ∃ nodes, nodes ≠ [] ∧ lookup result.handle process.locals.attachments = some { nodeIndices := nodes } := by
  obtain ⟨nodes, hdone, hresult⟩ := Ends.of_ok (h.header hfit pid hpages) hrun
  have hne : nodes ≠ [] := by
    intro hnil
    rw [if_pos hnil] at hresult
    exact hhandle hresult
  have hlookup : lookup (st.locals pid).nextHandle ((st.locals pid).register nodes).2.attachments =
      some _ := lookup_alter_self (h.locals pid).ordered
  rw [(h.locals pid).lookup_nextHandle] at hlookup
  refine ⟨nodes, hne, ?_⟩
  rw [hresult, if_neg hne, hdone.locals, if_neg hne]
  exact hlookup

/-- **Protection.**  In every run whose commits bring pages that fit, whatever other processes do:

* the nodes of an attachment that a call has returned stay resident at their indices, with their
  digests, tokens and pages, up to the header step that finalizes its release;
* no call throws because a node is gone or a counter is too low. -/
theorem attachments_protect_until_finalized (hreach : Run cfg sort (initialState Pid) st) :
    (∀ pid call result process st', HeaderCall.PagesFit cfg call →
      HeaderCall.run cfg sort call (st.process pid) = .ok result process → result.handle ≠ 0 →
      (st.commit pid process).Fits → Run cfg sort (st.commit pid process) st' →
      ∃ nodes, nodes ≠ [] ∧ lookup result.handle process.locals.attachments = some { nodeIndices := nodes } ∧
        (Protects cfg pid result.handle nodes (st.commit pid process) st' ∨
          ∃ s s', Run cfg sort (st.commit pid process) s ∧
            Protects cfg pid result.handle nodes (st.commit pid process) s ∧
            Finalizes pid result.handle nodes s s' ∧ Run cfg sort s' st')) ∧
    (∀ error st', Step cfg sort (HeaderCall.PagesFit cfg) st (some error) st' → error.isLost = false) := by
  obtain ⟨h, hfit⟩ := hreach.settled_of_initial
  constructor
  · intro pid call result process st' hpages hcall hhandle hfit' hrun
    obtain ⟨nodes, hne, hlookup⟩ := h.lookup_handle hfit hpages hcall hhandle
    have hsettled := (Step.header pid call hpages result process hcall).settled h hfit
    refine ⟨nodes, hne, hlookup, hrun.protects hsettled.1 hfit' (Or.inl ⟨{ nodeIndices := nodes }, ?_, rfl⟩)⟩
    rw [show (st.commit pid process).locals pid = process.locals from update_self ..]
    exact hlookup
  · intro error st' hstep
    exact (hstep.settled h hfit).2.2 error rfl

/-! ### One process -/

/-- The state of one process alone, with no call in flight. -/
def State.solo (process : Process) : State Unit where
  region := process.region
  locals := fun _ => process.locals
  inFlight := 0
  openLoads := fun _ _ => 0

theorem State.solo_commit (process process' : Process) :
    (State.solo process).commit () process' = State.solo process' := by
  show (⟨process'.region, update _ () process'.locals, 0, fun _ _ => 0⟩ : State Unit) = _
  congr 1

theorem Step.solo (call : HeaderCall) (hpages : call.PagesFit cfg)
    (hrun : call.run cfg sort process = .ok result process') :
    ∃ error, Step cfg sort (HeaderCall.PagesFit cfg) (State.solo process) error (State.solo process') := by
  rw [← State.solo_commit process process']
  exact ⟨none, .header () call hpages result process' hrun⟩

theorem Lookups.steps {namespaceDigest : PrefixDigest} {tokenIds : List Int64}
    (h : Lookups cfg namespaceDigest tokenIds process process') :
    Relation.ReflTransGen (fun s s' => ∃ error, Step cfg sort (HeaderCall.PagesFit cfg) s error s')
      (State.solo process) (State.solo process') := by
  induction h with
  | refl => exact .refl
  | tail _ hstep ih =>
    obtain ⟨result, hrun⟩ := hstep
    exact ih.tail (Step.solo (.lookupAndAttach namespaceDigest tokenIds) trivial (map_ok hrun))

/-- A process with one attachment or none fits. -/
theorem State.solo_fits (hlocal : LocalOk process.locals (fun _ => 0) (fun _ => 0))
    (hnamed : ∀ i, process.locals.named i ≤ 1) (hnext : process.locals.nextHandle ≤ 2) : (State.solo process).Fits := by
  have hloading : ∀ i, process.locals.loading (fun _ => 0) i = 0 := by
    intro i
    unfold LocalState.loading
    simp [total]
  refine ⟨fun i => ?_, fun _ => ?_, fun _ q hq => ?_⟩
  · have hi := hnamed i
    have hcounts : (State.solo process).counts i = (process.locals.named i, 0) := by
      simp [State.counts, State.solo, hloading]
    rw [hcounts]
    dsimp only
    omega
  · show process.locals.nextHandle + 1 < 2 ^ 64
    omega
  · have hpending := hlocal.loads q.1 q.2 (hlocal.ordered.lookup_eq_some_iff.mpr hq)
    omega

/-- In the small cache a lookup attaches the two blocks, and they survive `ClearUnprotected`. -/
theorem twoBlock_survives_clearUnprotected :
    ∃ (st st' : State Unit) (result : CallResult) (process : Process),
      Run twoBlockCache StdSort.merge (initialState Unit) st ∧
      HeaderCall.run twoBlockCache StdSort.merge (.lookupAndAttach {} [5, 6]) (st.process ()) = .ok result process ∧
      result.handle = 1 ∧ Run twoBlockCache StdSort.merge (st.commit () process) st' ∧
      (∃ cleared, HeaderCall.run twoBlockCache StdSort.merge .clearUnprotected process = .ok cleared (st'.process ())) ∧
      ∃ nodes, nodes ≠ [] ∧ lookup 1 process.locals.attachments = some { nodeIndices := nodes } ∧
        (Protects twoBlockCache () 1 nodes (st.commit () process) st' ∨
          ∃ s s', Run twoBlockCache StdSort.merge (st.commit () process) s ∧
            Protects twoBlockCache () 1 nodes (st.commit () process) s ∧
            Finalizes () 1 nodes s s' ∧ Run twoBlockCache StdSort.merge s' st') := by
  obtain ⟨committed, p, hcommit, hok, hlocals, hb, hhits⟩ := twoBlockCommit_ok
  have hlocal : LocalOk p.locals (fun _ => 0) fun _ => 0 := hlocals ▸ .empty
  obtain ⟨result, p₁, hlookup, hdone, _, hhandle⟩ := lookupAndAttach_ok hok hb {} [5, 6]
  rw [hhits] at hdone
  rw [hhits, if_neg (List.cons_ne_nil _ _), hlocals] at hhandle
  have hregister : p₁.locals = (p.locals.register [0, 1]).2 := hdone.locals
  have hnext : p.locals.nextHandle + 1 < 2 ^ 64 := by
    rw [hlocals]
    show 1 + 1 < 2 ^ 64
    omega
  obtain ⟨cleared, r, hclear, _⟩ := clearUnprotected_ok twoBlockCache_fits hdone.ok
  -- the three states of the run
  have hfits : (State.solo p).Fits := by
    refine State.solo_fits hlocal (fun i => ?_) ?_
    · rw [hlocals]
      exact Nat.zero_le _
    · rw [hlocals]
      exact Nat.le_succ 1
  have hfits₁ : ∀ region : Region, (State.solo ⟨region, p₁.locals⟩).Fits := by
    intro region
    refine State.solo_fits ?_ (fun i => ?_) ?_
    · show LocalOk p₁.locals _ _
      rw [hregister]
      exact hlocal.register hnext [0, 1]
    · show p₁.locals.named i ≤ 1
      rw [hregister, hlocal.register_named, hlocals]
      exact (Nat.zero_add _).trans_le (List.nodup_iff_count_le_one.mp (by decide) i)
    · show p₁.locals.nextHandle ≤ 2
      rw [hregister, hlocals]
      decide
  have hreach : Run twoBlockCache StdSort.merge (initialState Unit) (State.solo p) :=
    Relation.ReflTransGen.single ⟨Step.solo twoBlockCommit twoBlockCommit_pagesFit hcommit, hfits⟩
  have hrun : HeaderCall.run twoBlockCache StdSort.merge (.lookupAndAttach {} [5, 6])
      ((State.solo p).process ()) = .ok (.lookedUp result) p₁ := map_ok hlookup
  have hcleared : HeaderCall.run twoBlockCache StdSort.merge .clearUnprotected p₁ =
      .ok (.evicted cleared) ⟨r, p₁.locals⟩ := map_ok (onRegion_ok hclear)
  have hfits₂ : ((State.solo p).commit () p₁).Fits := by
    rw [State.solo_commit]
    exact hfits₁ p₁.region
  have hrun' : Run twoBlockCache StdSort.merge ((State.solo p).commit () p₁) (State.solo ⟨r, p₁.locals⟩) := by
    rw [State.solo_commit]
    exact Relation.ReflTransGen.single ⟨Step.solo .clearUnprotected trivial hcleared, hfits₁ r⟩
  have hresult : (CallResult.lookedUp result).handle = 1 := hhandle
  have hprotects := (attachments_protect_until_finalized hreach).1 () (.lookupAndAttach {} [5, 6]) _ _ _ trivial hrun
    (by rw [hresult]; exact Nat.one_ne_zero) hfits₂ hrun'
  rw [hresult] at hprotects
  exact ⟨_, _, _, _, hreach, hrun, hresult, hrun', ⟨_, hcleared⟩, hprotects⟩

/-- **After `2 ^ 32` lookups an attachment protects nothing**: `ClearUnprotected` evicts the node that
handle 1 names, with no call in flight and no release requested. -/
theorem wrapped_attachment_loses_node :
    ∃ (s st : State Unit) (result : CallResult) (process : Process),
      Relation.ReflTransGen (fun s s' => ∃ error,
        Step twoBlockCache StdSort.merge (HeaderCall.PagesFit twoBlockCache) s error s') (initialState Unit) s ∧
      HeaderCall.run twoBlockCache StdSort.merge (.lookupAndAttach {} [5, 6]) (s.process ()) =
        .ok result process ∧ result.handle = 1 ∧
      Relation.ReflTransGen (fun s s' => ∃ error,
        Step twoBlockCache StdSort.merge (HeaderCall.PagesFit twoBlockCache) s error s')
        (s.commit () process) st ∧ lookup 1 (st.locals ()).attachments = some { nodeIndices := [0, 1] } ∧
      st.inFlight = 0 ∧ ¬ st.region.Resident twoBlockCache 0 := by
  obtain ⟨committed, p, hcommit, hok, hlocals, hb, hhits⟩ := twoBlockCommit_ok
  obtain ⟨p', hlookups, hok', hbalanced, hnamed, hattached⟩ :=
    twoBlockCache_lookups hok hlocals hb hhits (2 ^ 32) (by omega)
  have hcount : (2 ^ 32 * [0, 1].count 0 : ℕ) = 2 ^ 32 := by norm_num
  -- the first of the lookups
  have hfirst : ∃ p₁, (∃ result, lookupAndAttach twoBlockCache {} [5, 6] p = .ok result p₁) ∧
      Lookups twoBlockCache {} [5, 6] p₁ p' := by
    rcases hlookups.cases_head with heq | ⟨p₁, hstep, hrest⟩
    · have hzero := hnamed 0
      rw [← heq, hlocals, hcount] at hzero
      change 0 = 2 ^ 32 at hzero
      omega
    · exact ⟨p₁, hstep, hrest⟩
  obtain ⟨p₁, ⟨result, hlookup⟩, hrest⟩ := hfirst
  obtain ⟨result', p₁', hlookup', _, _, hhandle⟩ := lookupAndAttach_ok hok hb {} [5, 6]
  rw [hlookup] at hlookup'
  obtain ⟨rfl, rfl⟩ := EStateM.Result.ok.inj hlookup'
  rw [hhits, if_neg (List.cons_ne_nil _ _), hlocals] at hhandle
  -- the counter is zero again
  obtain ⟨cleared, r, hclear, hevicts, hprotected⟩ := clearUnprotected_ok twoBlockCache_fits hok'
  have hgone : ¬ r.Resident twoBlockCache 0 := by
    intro hres
    have hnode := view_of_resident hres
    have hold : p'.region.view twoBlockCache 0 = some _ := hevicts.eq_of_some hnode
    have hzero := (hbalanced.isProtected_iff hold).mp (hprotected 0 _ hnode)
    rw [hcount, u32, Nat.mod_self] at hzero
    simp [u32] at hzero
  refine ⟨State.solo p, State.solo ⟨r, p'.locals⟩, .lookedUp result, p₁, ?_, map_ok hlookup, hhandle,
    ?_, hattached 1 le_rfl (by omega), rfl, hgone⟩
  · exact Relation.ReflTransGen.single (Step.solo twoBlockCommit twoBlockCommit_pagesFit hcommit)
  · rw [State.solo_commit]
    exact hrest.steps.tail (Step.solo .clearUnprotected trivial (map_ok (onRegion_ok hclear)))

end Batchgen.PrefixCache
