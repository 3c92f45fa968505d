import Batchgen.WavePlan.Tree
import Mathlib.Data.List.Forall2

/-!
# The segments of the prefix tree

The ascending pass of `_build_tree` cuts the trie into segments.  `Compressed` is its loop invariant;
`buildTree_valid` is what the planner builds on: every prompt's path is a chain of segments from the
root, a segment starts where its parent ends, its count is the number of prompts whose path has it, and
those prompts agree on every token up to its end.
-/

namespace Batchgen.WavePlan

open Function List Option

variable {t : Trie} {label : ℕ → List Tokens} {α β : Type*} {xs : List α} {b keys run : List Tokens} {ys : List β}
  {st : SegmentTable} {p : α → Bool} {first node index : ℕ} {path nodes : List ℕ} {R : α → β → Prop}

/-- Each segment of the list hangs below the one before it, the first one below `up`. -/
def LinkedFrom (parent : ℕ → Option ℕ) : Option ℕ → List ℕ → Prop
  | _, [] => True
  | up, seg :: rest => parent seg = up ∧ LinkedFrom parent (some seg) rest

/-- The contract of `_build_tree`. -/
structure TreeValid (prompts : List Tokens) (blockTokens : ℕ) (skip : List ℕ) (tree : Tree) :
    Prop where
  paths : tree.paths.length = prompts.length
  nonempty : ∀ seg < tree.size, tree.startBlock seg < tree.endBlock seg
  root : ∀ seg < tree.size, tree.parent seg = none → tree.startBlock seg = 0
  parent : ∀ seg < tree.size, ∀ up, tree.parent seg = some up →
    up < seg ∧ tree.endBlock up = tree.startBlock seg
  bound : ∀ path ∈ tree.paths, ∀ seg ∈ path, seg < tree.size
  linked : ∀ path ∈ tree.paths, LinkedFrom tree.parent none path
  count : ∀ seg < tree.size, tree.count seg = tree.paths.countP (seg ∈ ·)
  inside : ∀ (index : ℕ) path (tokens : Tokens), tree.paths[index]? = some path → prompts[index]? = some tokens →
    ∀ seg ∈ path, tree.endBlock seg * blockTokens ≤ tokens.length - 1
  shared : ∀ (i j : ℕ) path path' (tokens tokens' : Tokens), tree.paths[i]? = some path →
    tree.paths[j]? = some path' → prompts[i]? = some tokens → prompts[j]? = some tokens' →
    ∀ seg ∈ path, seg ∈ path' →
      tokens.take (tree.endBlock seg * blockTokens) = tokens'.take (tree.endBlock seg * blockTokens)
  skipped : ∀ index ∈ skip, ∀ path, tree.paths[index]? = some path → path = []

/-! ### The ascending pass -/

/-- The nodes `1 .. k - 1` have been given their segments. -/
structure Compressed (t : Trie) (st : SegmentTable) (k : ℕ) : Prop where
  bound : ∀ node, 0 < node → node < k → st.segOf node < st.size
  joins : ∀ node, 0 < node → node < k → t.Continues node →
    st.segOf node = st.segOf (t.parentNode node)
  starts : ∀ node, 0 < node → node < k → ¬ t.Continues node →
    st.startBlock (st.segOf node) = t.depth node - 1 ∧
      st.parent (st.segOf node) =
        (if t.parentNode node = 0 then none else some (st.segOf (t.parentNode node))) ∧
      st.count (st.segOf node) = t.count node
  fresh : ∀ node, 0 < node → node < k → ¬ t.Continues node →
    ∀ other, 0 < other → other < node → st.segOf other < st.segOf node
  opened : ∀ seg < st.size, ∃ node, 0 < node ∧ node < k ∧ st.segOf node = seg ∧ ¬ t.Continues node
  last : ∀ seg < st.size, ∃ node, 0 < node ∧ node < k ∧ st.segOf node = seg ∧
    t.depth node = st.endBlock seg ∧ ∀ other, 0 < other → other < k → st.segOf other = seg →
      other ≤ node

theorem Compressed.addNode (hlabel : Labelled t label) {k : ℕ} (h : Compressed t st k) (hpos : 0 < k)
    (hk : k < t.size) : Compressed t (st.addNode t k) (k + 1) := by
  have hup := (hlabel.parent k hpos hk).1
  have hcases : ∀ node, node < k + 1 → node < k ∨ node = k := fun node hnode => by omega
  have hparent : ∀ node, 0 < node → node < k → t.parentNode node < k := fun node hn hnode =>
    ((hlabel.parent node hn (hnode.trans hk)).1).trans hnode
  have hold : ∀ node, node < k → (st.addNode t k).segOf node = st.segOf node := fun node hnode => by
    unfold SegmentTable.addNode
    split <;> exact update_of_ne (Nat.ne_of_lt hnode) ..
  -- the node joins the segment of its parent, or opens a segment
  have hjoin : t.Continues k → (st.addNode t k).segOf k = st.segOf (t.parentNode k) := fun hcont => by
    simp [SegmentTable.addNode, hcont]
  have hopen : ¬ t.Continues k → (st.addNode t k).segOf k = st.size ∧
      (st.addNode t k).startBlock st.size = t.depth k - 1 ∧
      (st.addNode t k).parent st.size =
        (if t.parentNode k = 0 then none else some (st.segOf (t.parentNode k))) ∧
      (st.addNode t k).count st.size = t.count k := fun hcont => by
    simp [SegmentTable.addNode, hcont]
  have hend : (st.addNode t k).endBlock ((st.addNode t k).segOf k) = t.depth k := by
    unfold SegmentTable.addNode
    split <;> simp
  have hkept : ∀ seg < st.size, (st.addNode t k).startBlock seg = st.startBlock seg ∧
      (st.addNode t k).parent seg = st.parent seg ∧ (st.addNode t k).count seg = st.count seg ∧
      (seg ≠ (st.addNode t k).segOf k → (st.addNode t k).endBlock seg = st.endBlock seg) := fun seg hseg => by
    unfold SegmentTable.addNode
    split <;> simp +contextual [Nat.ne_of_lt hseg]
  have hsize : ∀ seg, seg < (st.addNode t k).size ↔ seg < st.size ∨ ¬ t.Continues k ∧ seg = st.size := fun seg => by
    unfold SegmentTable.addNode
    split
    · simp [*]
    · simp only [*, not_false_eq_true, true_and]
      exact Nat.lt_succ_iff_lt_or_eq
  generalize st.addNode t k = st' at *
  have hbound : st'.segOf k < st'.size := by
    by_cases hcont : t.Continues k
    · rw [hjoin hcont, hsize]
      exact Or.inl (h.bound _ (Nat.pos_of_ne_zero hcont.1) hup)
    · rw [hsize]
      exact Or.inr ⟨hcont, (hopen hcont).1⟩
  refine ⟨?_, ?_, ?_, ?_, ?_, ?_⟩
  · intro node hn hnode
    rcases hcases node hnode with hnode | rfl
    · rw [hold node hnode, hsize]
      exact Or.inl (h.bound node hn hnode)
    · exact hbound
  · intro node hn hnode hc
    rcases hcases node hnode with hnode | rfl
    · rw [hold node hnode, hold _ (hparent node hn hnode)]
      exact h.joins node hn hnode hc
    · rw [hjoin hc, hold _ hup]
  · intro node hn hnode hc
    rcases hcases node hnode with hnode | rfl
    · obtain ⟨hstart, hroot, hcount, -⟩ := hkept _ (h.bound node hn hnode)
      rw [hold node hnode, hold _ (hparent node hn hnode), hstart, hroot, hcount]
      exact h.starts node hn hnode hc
    · rw [hold _ hup, (hopen hc).1]
      exact (hopen hc).2
  · intro node hn hnode hc other ho hother
    rcases hcases node hnode with hnode | rfl
    · rw [hold node hnode, hold other (hother.trans hnode)]
      exact h.fresh node hn hnode hc other ho hother
    · rw [(hopen hc).1, hold other hother]
      exact h.bound other ho hother
  · intro seg hlt
    rcases (hsize seg).mp hlt with hlt | ⟨hcont, rfl⟩
    · obtain ⟨node, hn, hnode, hof, hc⟩ := h.opened seg hlt
      exact ⟨node, hn, Nat.lt_succ_of_lt hnode, (hold node hnode).trans hof, hc⟩
    · exact ⟨k, hpos, Nat.lt_succ_self k, (hopen hcont).1, hcont⟩
  · -- `k` is the last node of its segment; every other segment keeps its last node
    intro seg hlt
    by_cases heq : seg = st'.segOf k
    · exact ⟨k, hpos, Nat.lt_succ_self k, heq.symm, heq ▸ hend.symm, fun other _ hother _ => Nat.le_of_lt_succ hother⟩
    have hlt : seg < st.size := ((hsize seg).mp hlt).resolve_right fun hnew => heq (hnew.2.trans (hopen hnew.1).1.symm)
    obtain ⟨node, hn, hnode, hof, hdepth, hmax⟩ := h.last seg hlt
    refine ⟨node, hn, Nat.lt_succ_of_lt hnode, (hold node hnode).trans hof, ?_, fun other ho hother hseg => ?_⟩
    · rw [hdepth, (hkept seg hlt).2.2.2 heq]
    · rcases hcases other hother with hother | rfl
      · exact hmax other ho hother ((hold other hother).symm.trans hseg)
      · exact absurd hseg.symm heq

/-- **The pass** gives every node of the trie its segment. -/
theorem compress_compressed (hlabel : Labelled t label) : Compressed t (compress t) t.size := by
  have hrun : ∀ m, m + 1 ≤ t.size → Compressed t ((List.range' 1 m).foldl (SegmentTable.addNode t) .empty) (m + 1) := by
    intro m
    induction m with
    | zero =>
      intro _
      refine ⟨?_, ?_, ?_, ?_, ?_, ?_⟩
      all_goals intro x hx
      all_goals first | exact absurd hx (Nat.not_lt_zero _) | (intro hlt; omega)
    | succ m ih =>
      intro hm
      rw [List.range'_1_concat, foldl_append, Nat.add_comm 1 m]
      exact (ih (by omega)).addNode hlabel (Nat.succ_pos m) hm
  have hpos := hlabel.pos
  have hall := hrun (t.size - 1) (by omega)
  rwa [Nat.sub_add_cancel hpos] at hall

/-! ### Nodes, segments and prompts -/

/-- Equal counts of a part and the whole leave nothing outside the part. -/
theorem forall_of_countP_eq {q : α → Bool} (himp : ∀ x ∈ xs, p x = true → q x = true)
    (hcount : xs.countP p = xs.countP q) : ∀ x ∈ xs, q x = true → p x = true := by
  have hall : (xs.filter q).countP p = (xs.filter q).length := by
    rw [countP_filter, ← countP_eq_length_filter, ← hcount]
    refine countP_congr fun x hx => ?_
    rw [Bool.and_eq_true, and_iff_left_iff_imp]
    exact himp x hx
  exact fun x hx hq => countP_eq_length.mp hall x (mem_filter.mpr ⟨hx, hq⟩)

section Nodes

variable {bs : List (List Tokens)} {other : ℕ}

variable (hl : Labelled t label) (hc : Counts t label bs) (h : Compressed t st t.size) (hpos : 0 < node)
  (hnode : node < t.size)
include hl hc h hpos hnode

omit hc h in
/-- The parent carries the run without its last block. -/
theorem Labelled.parent_eq (hother : other < t.size) {key : Tokens} (hlabel : label node = label other ++ [key]) :
    t.parentNode node = other := by
  obtain ⟨hlt, key', hkey'⟩ := hl.parent node hpos hnode
  rw [hkey'] at hlabel
  exact hl.inj _ (hlt.trans hnode) other hother (append_inj_left' hlabel rfl)

omit hc h hpos in
/-- A node whose run is shorter than another's but starts it is numbered before it. -/
theorem Labelled.lt_of_prefix
    (hother : other < t.size) (hbegins : label other <+: label node) (hne : other ≠ node) : other < node := by
  induction node using Nat.strong_induction_on with
  | _ node ih =>
    rcases Nat.eq_zero_or_pos node with rfl | hpos
    · rw [hl.root, prefix_nil] at hbegins
      exact absurd (hl.inj other hother 0 hl.pos (hbegins.trans hl.root.symm)) hne
    obtain ⟨hlt, key, hkey⟩ := hl.parent node hpos hnode
    rw [hkey] at hbegins
    rcases prefix_concat.mp hbegins with hbegins | heq
    · by_cases hup : other = t.parentNode node
      · omega
      · exact (ih _ hlt (hlt.trans hnode) hbegins hup).trans hlt
    · exact absurd (hl.inj other hother node hnode (heq.trans hkey.symm)) hne

omit h in
/-- A node that continues its parent's segment is passed by the same prompts. -/
theorem Counts.continues
    (hcont : t.Continues node) (hb : b ∈ bs) : label (t.parentNode node) <+: b ↔ label node <+: b := by
  obtain ⟨hlt, key, hkey⟩ := hl.parent node hpos hnode
  have himp : ∀ b ∈ bs, decide (label node <+: b) = true →
      decide (label (t.parentNode node) <+: b) = true := by
    intro b _ hbegins
    rw [hkey] at hbegins
    simp only [decide_eq_true_eq] at hbegins ⊢
    exact (prefix_append _ _).trans hbegins
  have hcount := hcont.2.2
  rw [hc.count _ (Nat.pos_of_ne_zero hcont.1) (hlt.trans hnode), hc.count node hpos hnode] at hcount
  have hback := forall_of_countP_eq himp hcount.symm b hb
  have hforth := himp b hb
  simp only [decide_eq_true_eq] at hback hforth
  exact ⟨hback, hforth⟩

/-- The node that opens the segment of `node`; the same prompts pass both. -/
theorem Compressed.opener :
    ∃ first, 0 < first ∧ first < t.size ∧ st.segOf first = st.segOf node ∧ ¬ t.Continues first ∧
      label first <+: label node ∧ ∀ b ∈ bs, label node <+: b ↔ label first <+: b := by
  induction node using Nat.strong_induction_on with
  | _ node ih =>
    by_cases hcont : t.Continues node
    · obtain ⟨hlt, key, hkey⟩ := hl.parent node hpos hnode
      obtain ⟨first, hf, hflt, hseg, hstart, hbegins, hiff⟩ := ih _ hlt (Nat.pos_of_ne_zero hcont.1) (hlt.trans hnode)
      refine ⟨first, hf, hflt, hseg.trans (h.joins node hpos hnode hcont).symm, hstart, ?_, fun b hb => ?_⟩
      · rw [hkey]
        exact hbegins.trans (prefix_append _ _)
      · exact (hc.continues hl hpos hnode hcont hb).symm.trans (hiff b hb)
    · exact ⟨node, hpos, hnode, rfl, hcont, prefix_refl _, fun _ _ => Iff.rfl⟩

omit hl hc in
/-- A segment is opened by one node. -/
theorem Compressed.opener_unique (hopos : 0 < other) (hother : other < t.size)
    (hstart : ¬ t.Continues node) (hstart' : ¬ t.Continues other)
    (hseg : st.segOf node = st.segOf other) : node = other := by
  rcases Nat.lt_trichotomy node other with hlt | heq | hlt
  · have hfresh := h.fresh other hopos hother hstart' node hpos hlt
    omega
  · exact heq
  · have hfresh := h.fresh node hpos hnode hstart other hopos hlt
    omega

/-- The prompts that pass a node pass every node of its segment. -/
theorem Compressed.passes (hb : b ∈ bs) (hopos : 0 < other) (hother : other < t.size)
    (hseg : st.segOf node = st.segOf other) : label node <+: b ↔ label other <+: b := by
  obtain ⟨first, hf, hflt, hfseg, hstart, -, hiff⟩ := h.opener hl hc hpos hnode
  obtain ⟨first', hf', hflt', hfseg', hstart', -, hiff'⟩ := h.opener hl hc hopos hother
  have heq := h.opener_unique hf hflt hf' hflt' hstart hstart' (by rw [hfseg, hfseg', hseg])
  rw [hiff b hb, hiff' b hb, heq]

omit hc in
/-- Between the opener of a segment and a node of it, all is of the segment. -/
theorem Compressed.between (hf : 0 < first) (hflt : first < t.size)
    (hstart : ¬ t.Continues first) (hseg : st.segOf first = st.segOf node)
    (hother : other < t.size) (hbegins : label other <+: label node)
    (hlen : (label first).length ≤ (label other).length) : st.segOf other = st.segOf node := by
  induction node using Nat.strong_induction_on with
  | _ node ih =>
    by_cases heq : label other = label node
    · rw [hl.inj other hother node hnode heq]
    obtain ⟨hlt, key, hkey⟩ := hl.parent node hpos hnode
    have hup : label other <+: label (t.parentNode node) := by
      rw [hkey] at hbegins heq
      exact (prefix_concat.mp hbegins).resolve_right heq
    by_cases hcont : t.Continues node
    · have hjoin := h.joins node hpos hnode hcont
      rw [hjoin] at hseg ⊢
      exact ih _ hlt (Nat.pos_of_ne_zero hcont.1) (hlt.trans hnode) hseg hup
    · -- `node` is the opener itself, so nothing above it is as long as it is
      have hsame := h.opener_unique hf hflt hpos hnode hstart hcont hseg
      have hshort := hup.length_le
      rw [hsame, hkey, length_append, length_singleton] at hlen
      omega

omit hpos hnode in
/-- **A segment ends at the node its children hang below.** -/
theorem Compressed.ends_at_parent
    (hf : 0 < first) (hflt : first < t.size) (hstart : ¬ t.Continues first) (hup : t.parentNode first ≠ 0) :
    st.endBlock (st.segOf (t.parentNode first)) = t.depth (t.parentNode first) := by
  obtain ⟨hlt, key, hkey⟩ := hl.parent first hf hflt
  have hupos := Nat.pos_of_ne_zero hup
  have huplt := hlt.trans hflt
  obtain ⟨final, hpos, hfinal, hseg, hdepth, hmax⟩ := h.last _ (h.bound _ hupos huplt)
  have hle := hmax _ hupos huplt rfl
  by_cases heq : final = t.parentNode first
  · rw [← hdepth, heq]
  -- a prompt below `first` passes the last node too, so `first` lies between
  exfalso
  obtain ⟨b, hb, hbegins⟩ := hc.used first hf hflt
  have hupprefix : label (t.parentNode first) <+: b := by
    rw [hkey] at hbegins
    exact (prefix_append _ _).trans hbegins
  have hfinalBegins := (h.passes hl hc hupos huplt hb hpos hfinal hseg.symm).mp hupprefix
  obtain ⟨opener, ho, holt, hoseg, hostart, hoprefix, -⟩ := h.opener hl hc hupos huplt
  rcases Nat.lt_or_ge (label (t.parentNode first)).length (label final).length with hlong | hshort
  · have hbelow : label first <+: label final := prefix_of_prefix_length_le hbegins hfinalBegins (by
        rw [hkey, length_append, length_singleton]
        omega)
    have hsame := h.between hl hpos hfinal ho holt hostart (hoseg.trans hseg.symm) hflt hbelow (by
        rw [hkey, length_append]
        exact hoprefix.length_le.trans (Nat.le_add_right _ _))
    have hfresh := h.fresh first hf hflt hstart _ hupos hlt
    rw [hsame, hseg] at hfresh
    exact Nat.lt_irrefl _ hfresh
  · have hbefore := prefix_of_prefix_length_le hfinalBegins hupprefix hshort
    have hlt' := hl.lt_of_prefix huplt hfinal hbefore heq
    omega

end Nodes

/-! ### Paths -/

section Paths

variable {bs : List (List Tokens)}

/-- Every node of a path carries a part of the prompt's run. -/
theorem Follows.of_mem (hl : Labelled t label) (h : Follows t label run keys path) (hnode : node ∈ path) :
    0 < node ∧ node < t.size ∧ label node <+: run ++ keys := by
  induction keys generalizing run path with
  | nil =>
    have hnil : path = [] := h
    rw [hnil] at hnode
    cases hnode
  | cons key keys ih =>
    cases path with
    | nil => exact h.elim
    | cons first path =>
      obtain ⟨hlt, hlabel, hrest⟩ := h
      rcases mem_cons.mp hnode with rfl | hnode
      · refine ⟨hl.pos_of_concat hlabel, hlt, keys, ?_⟩
        rw [hlabel, append_assoc, singleton_append]
      · have hmem := ih hrest hnode
        rwa [append_assoc, singleton_append] at hmem

/-- Every part of the prompt's run has its node on the path. -/
theorem Follows.mem_of_prefix (h : Follows t label run keys path) {part : List Tokens} (hpart : part <+: keys)
    (hne : part ≠ []) : ∃ node ∈ path, label node = run ++ part := by
  induction keys generalizing run path part with
  | nil => exact absurd (prefix_nil.mp hpart) hne
  | cons key keys ih =>
    cases path with
    | nil => exact h.elim
    | cons first path =>
      obtain ⟨-, hlabel, hrest⟩ := h
      cases part with
      | nil => exact absurd rfl hne
      | cons key' part =>
        obtain ⟨rfl, hrestPart⟩ := cons_prefix_cons.mp hpart
        by_cases hnil : part = []
        · exact ⟨first, mem_cons_self, by rw [hnil, hlabel]⟩
        · obtain ⟨node, hnode, hrun⟩ := ih hrest hrestPart hnil
          refine ⟨node, mem_cons_of_mem _ hnode, ?_⟩
          rw [hrun, append_assoc, singleton_append]

/-- **The segments of a path** form a chain, and they are the segments of its nodes. -/
theorem compressPath_spec (hl : Labelled t label) (h : Compressed t st t.size) {up : ℕ} {segs : List ℕ}
    (hup : up < t.size) (hfollows : Follows t label (label up) keys nodes)
    (hsegs : segs.getLast? = if up = 0 then none else some (st.segOf up)) :
    ∃ new, compressPath st.segOf segs nodes = segs ++ new ∧
      LinkedFrom st.parent segs.getLast? new ∧ (∀ seg ∈ new, ∃ node ∈ nodes, st.segOf node = seg) ∧
      ∀ node ∈ nodes, st.segOf node ∈ segs ++ new := by
  -- on the blocks; `up` is the node before the rest of the path
  induction keys generalizing nodes up segs with
  | nil =>
    have hnil : nodes = [] := hfollows
    subst hnil
    exact ⟨[], by rw [compressPath, append_nil], trivial, by simp, by simp⟩
  | cons key keys ih =>
    cases nodes with
    | nil => exact hfollows.elim
    | cons node nodes =>
      obtain ⟨hnode, hlabel, hrest⟩ := hfollows
      have hpos := hl.pos_of_concat hlabel
      have hparent := hl.parent_eq hpos hnode hup hlabel
      rw [← hlabel] at hrest
      by_cases hcont : t.Continues node
      · have hjoin := h.joins node hpos hnode hcont
        have hupne : up ≠ 0 := hparent ▸ hcont.1
        rw [hparent] at hjoin
        have hlast : segs.getLast? = some (st.segOf node) := by
          rw [hsegs, if_neg hupne, hjoin]
        rw [compressPath, if_pos hlast]
        obtain ⟨new, heq, hlinked, hnew, hmem⟩ := ih hnode hrest (by rw [hlast, if_neg (Nat.ne_of_gt hpos)])
        refine ⟨new, heq, hlinked, fun seg hseg => ?_, fun other hother => ?_⟩
        · obtain ⟨n, hn, hof⟩ := hnew seg hseg
          exact ⟨n, mem_cons_of_mem _ hn, hof⟩
        · rcases mem_cons.mp hother with rfl | hother
          · exact mem_append_left _ (mem_of_getLast? hlast)
          · exact hmem other hother
      · have hstart := (h.starts node hpos hnode hcont).2.1
        rw [hparent] at hstart
        have hlast : segs.getLast? ≠ some (st.segOf node) := by
          rw [hsegs]
          split
          · simp
          rename_i hupne
          have hfresh := h.fresh node hpos hnode hcont up (Nat.pos_of_ne_zero hupne)
            (hparent ▸ (hl.parent node hpos hnode).1)
          intro heq
          have hsame := Option.some.inj heq
          omega
        rw [compressPath, if_neg hlast]
        obtain ⟨new, heq, hlinked, hnew, hmem⟩ := ih hnode hrest (show (segs ++ [st.segOf node]).getLast? = _ by
            rw [getLast?_concat, if_neg (Nat.ne_of_gt hpos)])
        rw [append_assoc, singleton_append] at heq
        refine ⟨st.segOf node :: new, heq, ⟨hstart.trans hsegs.symm, ?_⟩, fun seg hseg => ?_, fun other hother => ?_⟩
        · rwa [getLast?_concat] at hlinked
        · rcases mem_cons.mp hseg with rfl | hseg
          · exact ⟨node, mem_cons_self, rfl⟩
          · obtain ⟨n, hn, hof⟩ := hnew seg hseg
            exact ⟨n, mem_cons_of_mem _ hn, hof⟩
        · rcases mem_cons.mp hother with rfl | hother
          · simp
          · have hin := hmem other hother
            rwa [append_assoc, singleton_append] at hin

/-- **A segment is on a prompt's path exactly when the prompt passes a node of it.** -/
theorem mem_path_iff (hl : Labelled t label) (hc : Counts t label bs) (h : Compressed t st t.size) (hb : b ∈ bs)
    (hfollows : Follows t label [] b nodes) (hpos : 0 < node) (hnode : node < t.size) :
    st.segOf node ∈ compressPath st.segOf [] nodes ↔ label node <+: b := by
  have hroot : Follows t label (label 0) b nodes := by rwa [hl.root]
  obtain ⟨new, heq, -, hnew, hmem⟩ := compressPath_spec hl h hl.pos hroot (show ([] : List ℕ).getLast? = _ by rfl)
  rw [heq, nil_append]
  rw [nil_append] at hmem
  constructor
  · intro hseg
    obtain ⟨other, hother, hof⟩ := hnew _ hseg
    obtain ⟨hopos, hlt, hbegins⟩ := hfollows.of_mem hl hother
    exact (h.passes hl hc hopos hlt hb hpos hnode hof).mp hbegins
  · intro hbegins
    have hne : label node ≠ [] := fun hnil =>
      Nat.ne_of_gt hpos (hl.inj node hnode 0 hl.pos (hnil.trans hl.root.symm))
    obtain ⟨other, hother, hlabel⟩ := hfollows.mem_of_prefix hbegins hne
    rw [← hl.inj other (hfollows.of_mem hl hother).2.1 node hnode hlabel]
    exact hmem other hother

end Paths

/-! ### The tree of a wave -/

theorem promptBlocks_length (blockTokens : ℕ) (tokens : Tokens) :
    (promptBlocks blockTokens tokens).length = (tokens.length - 1) / blockTokens := by
  simp [promptBlocks]

/-- The first blocks of a prompt are its first tokens. -/
theorem promptBlocks_take (blockTokens : ℕ) (tokens : Tokens) : ∀ k ≤ (tokens.length - 1) / blockTokens,
      ((promptBlocks blockTokens tokens).take k).flatten = tokens.take (k * blockTokens) := by
  intro k
  induction k with
  | zero => simp
  | succ k ih =>
    intro hk
    have hlt : k < (promptBlocks blockTokens tokens).length := by
      rw [promptBlocks_length]
      omega
    rw [take_succ_eq_append_getElem hlt, flatten_append, ih (by omega), Nat.succ_mul, take_add]
    simp [promptBlocks]

theorem waveBlocks_getElem? {prompts : List Tokens} {blockTokens : ℕ} {skip : List ℕ}
    (h : (waveBlocks prompts blockTokens skip)[index]? = some b) :
    ∃ tokens, prompts[index]? = some tokens ∧ b = if index ∈ skip then [] else promptBlocks blockTokens tokens := by
  rw [waveBlocks, getElem?_mapIdx, map_eq_some_iff] at h
  obtain ⟨tokens, htokens, rfl⟩ := h
  exact ⟨tokens, htokens, rfl⟩

theorem forall₂_getElem? (h : List.Forall₂ R xs ys) {y : β} (hy : ys[index]? = some y) :
    ∃ x, xs[index]? = some x ∧ R x y := by
  obtain ⟨hlength, hget⟩ := forall₂_iff_get.mp h
  obtain ⟨hindex, rfl⟩ := List.getElem?_eq_some_iff.mp hy
  exact ⟨_, getElem?_eq_getElem (hlength ▸ hindex), hget index _ hindex⟩

theorem countP_eq_of_forall₂ {q : β → Bool}
    (h : List.Forall₂ (fun x y => p x = q y) xs ys) : xs.countP p = ys.countP q := by
  induction h with
  | nil => rfl
  | cons hxy _ ih => rw [countP_cons, countP_cons, ih, hxy]

/-- The segments of a compressed trie, whatever prompts pass them. -/
theorem Compressed.segment_spec {bs : List (List Tokens)} (hl : Labelled t label) (hc : Counts t label bs)
    (h : Compressed t st t.size) {seg : ℕ} (hseg : seg < st.size) :
    st.startBlock seg < st.endBlock seg ∧ (st.parent seg = none → st.startBlock seg = 0) ∧
      (∀ up, st.parent seg = some up → up < seg ∧ st.endBlock up = st.startBlock seg) ∧
      ∃ final, 0 < final ∧ final < t.size ∧ st.segOf final = seg ∧
        (label final).length = st.endBlock seg ∧ st.count seg = bs.countP (label final <+: ·) := by
  obtain ⟨first, hf, hflt, hfseg, hstart⟩ := h.opened seg hseg
  obtain ⟨final, hpos, hfinal, hfinalSeg, hdepth, hmax⟩ := h.last seg hseg
  obtain ⟨hblock, hparent, hcount⟩ := h.starts first hf hflt hstart
  obtain ⟨hlt, key, hkey⟩ := hl.parent first hf hflt
  have hflen : t.depth first = (label (t.parentNode first)).length + 1 := by
    rw [hl.depth first hflt, hkey, length_append, length_singleton]
  obtain ⟨opener, ho, holt, hoseg, hostart, hoprefix, -⟩ := h.opener hl hc hpos hfinal
  have hsame := h.opener_unique hf hflt ho holt hstart hostart (by rw [hfseg, hoseg, hfinalSeg])
  rw [hfseg] at hblock hparent hcount
  refine ⟨?_, fun hnone => ?_, fun up hup => ?_, final, hpos, hfinal, hfinalSeg, ?_, ?_⟩
  · have hlen := hoprefix.length_le
    rw [← hsame, ← hl.depth first hflt, ← hl.depth final hfinal] at hlen
    omega
  · rw [hparent] at hnone
    split at hnone
    · rename_i hzero
      rw [hblock, hflen, hzero, hl.root]
      rfl
    · cases hnone
  · rw [hparent] at hup
    split at hup
    · cases hup
    rename_i hne
    cases hup
    have hfresh := h.fresh first hf hflt hstart _ (Nat.pos_of_ne_zero hne) hlt
    rw [hfseg] at hfresh
    refine ⟨hfresh, ?_⟩
    rw [h.ends_at_parent hl hc hf hflt hstart hne, hblock, hflen, hl.depth _ (hlt.trans hflt)]
    rfl
  · rw [← hdepth, hl.depth final hfinal]
  · rw [hcount, hc.count first hf hflt]
    refine countP_congr fun b hb => ?_
    simp only [decide_eq_true_eq]
    exact h.passes hl hc hf hflt hb hpos hfinal (by rw [hfseg, hfinalSeg])

/-- **`_build_tree` meets its contract.** -/
theorem buildTree_valid (prompts : List Tokens) (blockTokens : ℕ) (skip : List ℕ) :
    TreeValid prompts blockTokens skip (buildTree prompts blockTokens skip) := by
  obtain ⟨label, -, -, hl, hc, hpaths⟩ :=
    Trie.insertAll_spec labelled_root counts_root (waveBlocks prompts blockTokens skip)
  rw [nil_append] at hc
  have hcomp := compress_compressed hl
  unfold buildTree
  generalize Trie.root.insertAll (waveBlocks prompts blockTokens skip) = inserted at *
  obtain ⟨nodePaths, t⟩ := inserted
  simp only at hl hc hpaths hcomp ⊢
  generalize compress t = st at hcomp ⊢
  -- the blocks and the nodes behind a path
  have hpath : ∀ index path, (nodePaths.map (compressPath st.segOf []))[index]? = some path →
      ∃ b nodes tokens, b ∈ waveBlocks prompts blockTokens skip ∧ Follows t label [] b nodes ∧
        path = compressPath st.segOf [] nodes ∧ prompts[index]? = some tokens ∧
        b = if index ∈ skip then [] else promptBlocks blockTokens tokens := by
    intro index path hpath
    rw [getElem?_map, map_eq_some_iff] at hpath
    obtain ⟨nodes, hnodes, rfl⟩ := hpath
    obtain ⟨b, hb, hfollows⟩ := forall₂_getElem? hpaths hnodes
    obtain ⟨tokens, htokens, hbeq⟩ := waveBlocks_getElem? hb
    exact ⟨b, nodes, tokens, mem_of_getElem? hb, hfollows, rfl, htokens, hbeq⟩
  have hspec : ∀ (index : ℕ) path, (nodePaths.map (compressPath st.segOf []))[index]? = some path →
      LinkedFrom st.parent none path ∧ ∀ seg ∈ path, seg < st.size := by
    intro index path hindex
    obtain ⟨b, nodes, tokens, -, hfollows, rfl, -, -⟩ := hpath index path hindex
    have hroot : Follows t label (label 0) b nodes := by rwa [hl.root]
    obtain ⟨new, heq, hlinked, hnew, -⟩ := compressPath_spec hl hcomp hl.pos hroot
      (show ([] : List ℕ).getLast? = _ by rfl)
    rw [heq, nil_append]
    refine ⟨hlinked, fun seg hseg => ?_⟩
    obtain ⟨node, hnode, rfl⟩ := hnew seg hseg
    obtain ⟨hpos, hlt, -⟩ := hfollows.of_mem hl hnode
    exact hcomp.bound node hpos hlt
  -- the tokens a prompt brings into a segment of its path
  have htokens : ∀ (index : ℕ) path (tokens : Tokens), (nodePaths.map (compressPath st.segOf []))[index]? = some path →
      prompts[index]? = some tokens → ∀ seg ∈ path, ∀ final, 0 < final → final < t.size →
      st.segOf final = seg → (label final).length = st.endBlock seg →
        st.endBlock seg * blockTokens ≤ tokens.length - 1 ∧
          tokens.take (st.endBlock seg * blockTokens) = (label final).flatten := by
    intro index path tokens hindex hprompt seg hseg final hpos hfinal hof hlen
    obtain ⟨b, nodes, tokens', hb, hfollows, rfl, hprompt', hbeq⟩ := hpath index path hindex
    rw [hprompt] at hprompt'
    cases hprompt'
    rw [← hof, mem_path_iff hl hc hcomp hb hfollows hpos hfinal] at hseg
    by_cases hskip : index ∈ skip
    · rw [hbeq, if_pos hskip, prefix_nil] at hseg
      rw [hseg] at hlen
      simp [← hlen, hseg]
    · rw [hbeq, if_neg hskip] at hseg
      have hle := hseg.length_le
      rw [promptBlocks_length, hlen] at hle
      refine ⟨(Nat.mul_le_mul_right _ hle).trans (Nat.div_mul_le_self _ _), ?_⟩
      rw [← promptBlocks_take blockTokens tokens _ hle, ← hlen, ← prefix_iff_eq_take.mp hseg]
  refine ⟨?_, fun seg hseg => ?_, fun seg hseg => ?_, fun seg hseg => ?_, ?_, ?_, ?_, ?_, ?_, ?_⟩
  · rw [length_map, ← hpaths.length_eq, waveBlocks, length_mapIdx]
  · exact (hcomp.segment_spec hl hc hseg).1
  · exact (hcomp.segment_spec hl hc hseg).2.1
  · exact (hcomp.segment_spec hl hc hseg).2.2.1
  · intro path hmem seg hseg
    obtain ⟨index, hindex⟩ := getElem?_of_mem hmem
    exact (hspec index path hindex).2 seg hseg
  · intro path hmem
    obtain ⟨index, hindex⟩ := getElem?_of_mem hmem
    exact (hspec index path hindex).1
  · intro seg hseg
    obtain ⟨-, -, -, final, hpos, hfinal, hof, -, hcount⟩ := hcomp.segment_spec hl hc hseg
    refine hcount.trans (countP_eq_of_forall₂ (forall₂_map_right_iff.mpr ?_))
    refine ((forall₂_and_left _ _).mpr ⟨fun _ => id, hpaths⟩).imp fun b nodes hb => ?_
    rw [decide_eq_decide, ← hof]
    exact (mem_path_iff hl hc hcomp hb.1 hb.2 hpos hfinal).symm
  · intro index path tokens hindex hprompt seg hseg
    have hlt := (hspec index path hindex).2 seg hseg
    obtain ⟨-, -, -, final, hpos, hfinal, hof, hlen, -⟩ := hcomp.segment_spec hl hc hlt
    exact (htokens index path tokens hindex hprompt seg hseg final hpos hfinal hof hlen).1
  · intro i j path path' tokens tokens' hi hj hpi hpj seg hseg hseg'
    have hlt := (hspec i path hi).2 seg hseg
    obtain ⟨-, -, -, final, hpos, hfinal, hof, hlen, -⟩ := hcomp.segment_spec hl hc hlt
    exact (htokens i path tokens hi hpi seg hseg final hpos hfinal hof hlen).2.trans
      (htokens j path' tokens' hj hpj seg hseg' final hpos hfinal hof hlen).2.symm
  · intro index hskip path hindex
    obtain ⟨b, nodes, tokens, -, hfollows, rfl, -, hbeq⟩ := hpath index path hindex
    rw [if_pos hskip] at hbeq
    subst hbeq
    have hnil : nodes = [] := hfollows
    rw [hnil]
    rfl

end Batchgen.WavePlan
