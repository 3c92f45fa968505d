import Mathlib.Data.Int.Basic
import Mathlib.Data.List.Infix

/-!
# The prefix tree of a wave

`_build_tree` of `wave_plan.py`: a trie over token blocks, one node per distinct run of leading blocks,
then one ascending pass that joins every node to the segment of its parent when the parent neither
branches nor loses a prompt.  Lists that the source indexes by node or by segment are functions of the
index here, next to the number of entries.

* `Labelled`, `Counts` — the trie: a node is the run of blocks that leads to it, and its count is the
  number of prompts that start with that run;
* `insertAll_spec` — what the trie of a wave is.
-/

namespace Batchgen.WavePlan

open Function List

variable {node : ℕ}

/-- A prompt, or a part of one. -/
abbrev Tokens := List ℤ

variable {label : ℕ → List Tokens} {key : Tokens} {run : List Tokens} {bs : List (List Tokens)}

/-! ### The trie -/

/-- The four parallel lists of `_build_tree`.  The root has no parent; its entry is never read. -/
structure Trie where
  size : ℕ
  children : ℕ → List (Tokens × ℕ)
  parentNode : ℕ → ℕ
  depth : ℕ → ℕ
  count : ℕ → ℕ

variable {t : Trie}

def Trie.root : Trie where
  size := 1
  children := fun _ => []
  parentNode := fun _ => 0
  depth := fun _ => 0
  count := fun _ => 0

def Trie.addChild (t : Trie) (node : ℕ) (key : Tokens) : Trie where
  size := t.size + 1
  children := update
    (update t.children node (t.children node ++ [(key, t.size)])) t.size []
  parentNode := update t.parentNode t.size node
  depth := update t.depth t.size (t.depth node + 1)
  count := update t.count t.size 0

def Trie.countUp (t : Trie) (node : ℕ) : Trie :=
  { t with count := update t.count node (t.count node + 1) }

/-- One round of the block loop: the child for the block, made if it is missing, and counted. -/
def Trie.enter (t : Trie) (node : ℕ) (key : Tokens) : ℕ × Trie :=
  match (t.children node).lookup key with
  | some nxt => (nxt, t.countUp nxt)
  | none => (t.size, (t.addChild node key).countUp t.size)

/-- The block loop of one prompt: the nodes it passes. -/
def Trie.insert (t : Trie) (node : ℕ) : List Tokens → List ℕ × Trie
  | [] => ([], t)
  | key :: keys =>
    let entered := t.enter node key
    let rest := entered.2.insert entered.1 keys
    (entered.1 :: rest.1, rest.2)

def Trie.insertAll (t : Trie) : List (List Tokens) → List (List ℕ) × Trie
  | [] => ([], t)
  | keys :: others =>
    let inserted := t.insert 0 keys
    let rest := inserted.2.insertAll others
    (inserted.1 :: rest.1, rest.2)

/-- The blocks of a prompt that can be shared: the one that holds the last token never is. -/
def promptBlocks (blockTokens : ℕ) (tokens : Tokens) : List Tokens :=
  (List.range ((tokens.length - 1) / blockTokens)).map fun block =>
    (tokens.drop (block * blockTokens)).take blockTokens

/-- The blocks each prompt brings into the tree; a skipped prompt brings none. -/
def waveBlocks (prompts : List Tokens) (blockTokens : ℕ) (skip : List ℕ) : List (List Tokens) :=
  prompts.mapIdx fun index tokens =>
    if index ∈ skip then [] else promptBlocks blockTokens tokens

/-! ### Segments -/

/-- The node joins its parent's segment. -/
def Trie.Continues (t : Trie) (node : ℕ) : Prop :=
  t.parentNode node ≠ 0 ∧ (t.children (t.parentNode node)).length = 1 ∧
    t.count (t.parentNode node) = t.count node

instance (t : Trie) (node : ℕ) : Decidable (t.Continues node) :=
  inferInstanceAs (Decidable (_ ∧ _))

/-- The lists the ascending pass fills. -/
structure SegmentTable where
  size : ℕ
  segOf : ℕ → ℕ
  startBlock : ℕ → ℕ
  endBlock : ℕ → ℕ
  parent : ℕ → Option ℕ
  count : ℕ → ℕ

def SegmentTable.empty : SegmentTable where
  size := 0
  segOf := fun _ => 0
  startBlock := fun _ => 0
  endBlock := fun _ => 0
  parent := fun _ => none
  count := fun _ => 0

/-- One round of the ascending pass. -/
def SegmentTable.addNode (t : Trie) (st : SegmentTable) (node : ℕ) : SegmentTable :=
  let up := t.parentNode node
  if t.Continues node then
    { st with
      segOf := update st.segOf node (st.segOf up)
      endBlock := update st.endBlock (st.segOf up) (t.depth node) }
  else
    { size := st.size + 1
      segOf := update st.segOf node st.size
      startBlock := update st.startBlock st.size (t.depth node - 1)
      endBlock := update st.endBlock st.size (t.depth node)
      parent := update st.parent st.size (if up = 0 then none else some (st.segOf up))
      count := update st.count st.size (t.count node) }

def compress (t : Trie) : SegmentTable :=
  (List.range' 1 (t.size - 1)).foldl (SegmentTable.addNode t) .empty

/-- The segments of a node path, without repeats. -/
def compressPath (segOf : ℕ → ℕ) : List ℕ → List ℕ → List ℕ
  | segs, [] => segs
  | segs, node :: nodes =>
    if segs.getLast? = some (segOf node) then compressPath segOf segs nodes
    else compressPath segOf (segs ++ [segOf node]) nodes

structure Tree where
  size : ℕ
  startBlock : ℕ → ℕ
  endBlock : ℕ → ℕ
  parent : ℕ → Option ℕ
  count : ℕ → ℕ
  /-- Per prompt: its segments from the root to the leaf. -/
  paths : List (List ℕ)

def buildTree (prompts : List Tokens) (blockTokens : ℕ) (skip : List ℕ) : Tree :=
  let inserted := Trie.root.insertAll (waveBlocks prompts blockTokens skip)
  let st := compress inserted.2
  { size := st.size
    startBlock := st.startBlock
    endBlock := st.endBlock
    parent := st.parent
    count := st.count
    paths := inserted.1.map (compressPath st.segOf []) }

/-! ### What the trie is -/

/-- `label node` is the run of blocks that leads to the node. -/
structure Labelled (t : Trie) (label : ℕ → List Tokens) : Prop where
  pos : 0 < t.size
  root : label 0 = []
  child : ∀ node < t.size, ∀ key nxt, (t.children node).lookup key = some nxt ↔
    nxt < t.size ∧ label nxt = label node ++ [key]
  parent : ∀ node, 0 < node → node < t.size →
    t.parentNode node < node ∧ ∃ key, label node = label (t.parentNode node) ++ [key]
  depth : ∀ node < t.size, t.depth node = (label node).length
  inj : ∀ a < t.size, ∀ b < t.size, label a = label b → a = b

/-- The trie holds the block lists `bs` and counts how many of them pass each node. -/
structure Counts (t : Trie) (label : ℕ → List Tokens) (bs : List (List Tokens)) : Prop where
  count : ∀ node, 0 < node → node < t.size → t.count node = bs.countP (label node <+: ·)
  covers : ∀ b ∈ bs, ∀ run, run <+: b → ∃ node < t.size, label node = run
  used : ∀ node, 0 < node → node < t.size → ∃ b ∈ bs, label node <+: b

/-- The nodes of a path carry the runs that `keys` add to `run`, one by one. -/
def Follows (t : Trie) (label : ℕ → List Tokens) : List Tokens → List Tokens → List ℕ → Prop
  | _, [], path => path = []
  | _, _ :: _, [] => False
  | run, key :: keys, node :: path =>
    node < t.size ∧ label node = run ++ [key] ∧ Follows t label (run ++ [key]) keys path

theorem Labelled.pos_of_concat (h : Labelled t label) (hlabel : label node = run ++ [key]) : 0 < node := by
  rcases Nat.eq_zero_or_pos node with rfl | hpos
  · rw [h.root] at hlabel
    simp at hlabel
  · exact hpos

theorem Labelled.fresh (h : Labelled t label) (hnode : node < t.size) (hnone : (t.children node).lookup key = none)
    {other : ℕ} (hother : other < t.size) (rest : List Tokens) : label other ≠ label node ++ key :: rest := by
  -- the ancestor of `other` that carries `label node ++ [key]` would be the child that is missing
  induction rest using List.reverseRecOn generalizing other with
  | nil =>
    intro heq
    have hsome := (h.child node hnode key other).mpr ⟨hother, heq⟩
    rw [hnone] at hsome
    cases hsome
  | append_singleton rest last ih =>
    intro heq
    rw [← cons_append, ← append_assoc] at heq
    obtain ⟨hlt, key', hkey'⟩ := h.parent other (h.pos_of_concat heq) hother
    rw [hkey'] at heq
    exact ih (hlt.trans hother) (append_inj_left' heq rfl)

/-- Adding a missing child. -/
theorem Labelled.addChild (h : Labelled t label) (hnode : node < t.size) (hnone : (t.children node).lookup key = none) :
    Labelled (t.addChild node key) (update label t.size (label node ++ [key])) := by
  have hold : ∀ k < t.size, update label t.size (label node ++ [key]) k = label k :=
    fun k hk => update_of_ne (by omega) _ _
  have hnew : update label t.size (label node ++ [key]) t.size = label node ++ [key] := update_self ..
  have hlt : ∀ k, k < (t.addChild node key).size ↔ k < t.size ∨ k = t.size := by
    intro k
    show k < t.size + 1 ↔ _
    omega
  refine ⟨Nat.succ_pos _, by rw [hold 0 h.pos, h.root], ?_, ?_, ?_, ?_⟩
  · intro other hother k nxt
    rw [hlt] at hother ⊢
    rcases hother with hother | rfl
    · rw [hold other hother]
      by_cases hself : other = node ∧ k = key
      · obtain ⟨rfl, rfl⟩ := hself
        have hlookup : ((t.addChild other k).children other).lookup k = some t.size := by
          simp [Trie.addChild, Nat.ne_of_lt hother, lookup_append, hnone]
        rw [hlookup]
        constructor
        · rintro ⟨rfl⟩
          exact ⟨Or.inr rfl, hnew⟩
        · rintro ⟨hnxt | rfl, hlabel⟩
          · rw [hold nxt hnxt] at hlabel
            exact absurd hlabel (h.fresh hnode hnone hnxt [])
          · rfl
      · have hlookup : ((t.addChild node key).children other).lookup k = (t.children other).lookup k := by
          by_cases heq : other = node
          · have hk : k ≠ key := fun hk => hself ⟨heq, hk⟩
            simp [Trie.addChild, heq, Nat.ne_of_lt hnode, lookup_append, lookup_cons, beq_false_of_ne hk]
          · simp [Trie.addChild, heq, Nat.ne_of_lt hother]
        rw [hlookup, h.child other hother]
        constructor
        · rintro ⟨hnxt, hlabel⟩
          exact ⟨Or.inl hnxt, by rw [hold nxt hnxt, hlabel]⟩
        · rintro ⟨hnxt | rfl, hlabel⟩
          · exact ⟨hnxt, by rwa [hold nxt hnxt] at hlabel⟩
          · rw [hnew] at hlabel
            obtain ⟨hsame, hkeys⟩ := append_inj' hlabel rfl
            cases hkeys
            exact absurd ⟨(h.inj node hnode other hother hsame).symm, rfl⟩ hself
    · -- nothing hangs below the new node yet
      rw [hnew]
      have hchildren : (t.addChild node key).children t.size = [] := update_self ..
      rw [hchildren]
      refine ⟨fun hlookup => by simp at hlookup, ?_⟩
      rintro ⟨hnxt | rfl, hlabel⟩
      · rw [hold nxt hnxt, append_assoc] at hlabel
        exact absurd hlabel (h.fresh hnode hnone hnxt [k])
      · rw [hnew] at hlabel
        simp at hlabel
  · intro other hpos hother
    rcases (hlt other).mp hother with hother | rfl
    · obtain ⟨hparent, k, hk⟩ := h.parent other hpos hother
      have hup : (t.addChild node key).parentNode other = t.parentNode other := update_of_ne (by omega) _ _
      rw [hup, hold other hother, hold _ (hparent.trans hother)]
      exact ⟨hparent, k, hk⟩
    · have hup : (t.addChild node key).parentNode t.size = node := update_self ..
      rw [hup, hnew, hold node hnode]
      exact ⟨hnode, key, rfl⟩
  · intro other hother
    rcases (hlt other).mp hother with hother | rfl
    · rw [hold other hother, ← h.depth other hother]
      exact update_of_ne (by omega) _ _
    · rw [hnew, length_append, ← h.depth node hnode]
      exact update_self ..
  · intro a ha b hb hlabel
    rcases (hlt a).mp ha with ha | rfl
    · rw [hold a ha] at hlabel
      rcases (hlt b).mp hb with hb | rfl
      · rw [hold b hb] at hlabel
        exact h.inj a ha b hb hlabel
      · rw [hnew] at hlabel
        exact absurd hlabel (h.fresh hnode hnone ha [])
    · rw [hnew] at hlabel
      rcases (hlt b).mp hb with hb | rfl
      · rw [hold b hb] at hlabel
        exact absurd hlabel.symm (h.fresh hnode hnone hb [])
      · rfl

/-- A counter is no part of the labelling. -/
theorem Labelled.countUp (h : Labelled t label) (node : ℕ) : Labelled (t.countUp node) label :=
  { h with }

/-- A run one block longer starts with itself and with what the shorter one starts with. -/
theorem prefix_concat {q : List Tokens} : q <+: run ++ [key] ↔ q <+: run ∨ q = run ++ [key] := by
  rw [prefix_concat_iff, or_comm]

theorem countP_concat {p : List Tokens → Bool} (bs : List (List Tokens)) (b : List Tokens) :
    (bs ++ [b]).countP p = bs.countP p + if p b then 1 else 0 := by
  rw [countP_append, countP_singleton]

/-- Counting the node a prompt enters: it has passed one block more. -/
theorem Counts.countUp {nxt : ℕ} (h : Labelled t label)
    (hcount : ∀ k, 0 < k → k < t.size → t.count k = (bs ++ [run]).countP (label k <+: ·))
    (hcovers : ∀ b ∈ bs ++ [run], ∀ q, q <+: b → ∃ k < t.size, label k = q)
    (hused : ∀ k, 0 < k → k < t.size → k ≠ nxt → ∃ b ∈ bs ++ [run], label k <+: b) (hnxt : nxt < t.size)
    (hlabel : label nxt = run ++ [key]) : Counts (t.countUp nxt) label (bs ++ [run ++ [key]]) := by
  refine ⟨fun k hpos hk => ?_, fun b hb q hq => ?_, fun k hpos hk => ?_⟩
  · rw [countP_concat]
    have hold := hcount k hpos hk
    rw [countP_concat] at hold
    by_cases heq : k = nxt
    · have hnot : ¬ run ++ [key] <+: run := fun hp => by
        have hlen := hp.length_le
        rw [length_append, length_singleton] at hlen
        omega
      have hcell : (t.countUp nxt).count k = t.count nxt + 1 := by
        rw [heq]
        exact update_self ..
      rw [hcell, ← heq, hold, heq, hlabel]
      simp [hnot]
    · have hne : label k ≠ run ++ [key] := fun hk' =>
        heq (h.inj k hk nxt hnxt (hk'.trans hlabel.symm))
      have hcell : (t.countUp nxt).count k = t.count k := update_of_ne heq _ _
      rw [hcell, hold]
      simp [prefix_concat, hne]
  · rcases mem_append.mp hb with hb | hb
    · exact hcovers b (mem_append_left _ hb) q hq
    · rw [mem_singleton.mp hb] at hq
      rcases prefix_concat.mp hq with hq | rfl
      · exact hcovers run (by simp) q hq
      · exact ⟨nxt, hnxt, hlabel⟩
  · by_cases heq : k = nxt
    · exact ⟨run ++ [key], by simp, by rw [heq, hlabel]⟩
    · obtain ⟨b, hb, hbegins⟩ := hused k hpos hk heq
      rcases mem_append.mp hb with hb | hb
      · exact ⟨b, mem_append_left _ hb, hbegins⟩
      · rw [mem_singleton.mp hb] at hbegins
        exact ⟨run ++ [key], by simp, hbegins.trans (prefix_append _ _)⟩

/-- **Entering a block.**  The prompt that is being inserted has passed `run` so far. -/
theorem Trie.enter_spec (h : Labelled t label) (hcounts : Counts t label (bs ++ [run])) (hnode : node < t.size)
    (hlabel : label node = run) (key : Tokens) :
    ∃ label', (∀ k < t.size, label' k = label k) ∧ t.size ≤ (t.enter node key).2.size ∧
      Labelled (t.enter node key).2 label' ∧ Counts (t.enter node key).2 label' (bs ++ [run ++ [key]]) ∧
      (t.enter node key).1 < (t.enter node key).2.size ∧ label' (t.enter node key).1 = run ++ [key] := by
  subst hlabel
  unfold Trie.enter
  cases hlookup : (t.children node).lookup key with
  | some nxt =>
    obtain ⟨hnxt, hnxtLabel⟩ := (h.child node hnode key nxt).mp hlookup
    refine ⟨label, fun _ _ => rfl, le_rfl, h.countUp nxt, ?_, hnxt, hnxtLabel⟩
    exact .countUp h hcounts.count hcounts.covers (fun k hpos hk _ => hcounts.used k hpos hk) hnxt hnxtLabel
  | none =>
    have hadded := h.addChild hnode hlookup
    have hold : ∀ k < t.size, update label t.size (label node ++ [key]) k = label k :=
      fun k hk => update_of_ne (by omega) _ _
    have hnew : update label t.size (label node ++ [key]) t.size = label node ++ [key] := update_self ..
    have hcases : ∀ k, k < (t.addChild node key).size → k < t.size ∨ k = t.size := by
      intro k hk
      have hk' : k < t.size + 1 := hk
      omega
    refine ⟨_, hold, Nat.le_succ _, hadded.countUp t.size, ?_, Nat.lt_succ_self _, hnew⟩
    refine .countUp hadded ?_ ?_ ?_ (Nat.lt_succ_self _) hnew
    · intro k hpos hk
      rcases hcases k hk with hk | rfl
      · rw [hold k hk, ← hcounts.count k hpos hk]
        exact update_of_ne (by omega) _ _
      -- no prompt has passed the new node before
      rw [hnew]
      have hcell : (t.addChild node key).count t.size = 0 := update_self ..
      rw [hcell, eq_comm, countP_eq_zero]
      intro b hb hbegins
      obtain ⟨k, hk, hrun⟩ := hcounts.covers b hb _ (of_decide_eq_true hbegins)
      exact h.fresh hnode hlookup hk [] hrun
    · intro b hb q hq
      obtain ⟨k, hk, hrun⟩ := hcounts.covers b hb q hq
      exact ⟨k, Nat.lt_succ_of_lt hk, (hold k hk).trans hrun⟩
    · intro k hpos hk hne
      have hk' := (hcases k hk).resolve_right hne
      rw [hold k hk']
      exact hcounts.used k hpos hk'

/-- A path keeps its meaning while the trie grows. -/
theorem Follows.mono {t' : Trie} {label' : ℕ → List Tokens} (hlabel : ∀ k < t.size, label' k = label k)
    (hsize : t.size ≤ t'.size) {keys : List Tokens} {path : List ℕ}
    (h : Follows t label run keys path) : Follows t' label' run keys path := by
  induction keys generalizing run path with
  | nil => exact h
  | cons key keys ih =>
    cases path with
    | nil => exact h
    | cons node path =>
      obtain ⟨hnode, hrun, hrest⟩ := h
      exact ⟨hnode.trans_le hsize, (hlabel node hnode).trans hrun, ih hrest⟩

/-- **The block loop of one prompt.** -/
theorem Trie.insert_spec (h : Labelled t label) (hcounts : Counts t label (bs ++ [run])) (hnode : node < t.size)
    (hlabel : label node = run) (keys : List Tokens) :
    ∃ label', (∀ k < t.size, label' k = label k) ∧ t.size ≤ (t.insert node keys).2.size ∧
      Labelled (t.insert node keys).2 label' ∧ Counts (t.insert node keys).2 label' (bs ++ [run ++ keys]) ∧
      Follows (t.insert node keys).2 label' run keys (t.insert node keys).1 := by
  induction keys generalizing t label run node with
  | nil =>
    rw [append_nil]
    exact ⟨label, fun _ _ => rfl, le_rfl, h, hcounts, rfl⟩
  | cons key keys ih =>
    obtain ⟨label₁, hold₁, hsize₁, h₁, hcounts₁, hnxt, hnxtLabel⟩ := enter_spec h hcounts hnode hlabel key
    obtain ⟨label₂, hold₂, hsize₂, h₂, hcounts₂, hfollows⟩ := ih h₁ hcounts₁ hnxt hnxtLabel
    rw [append_assoc, singleton_append] at hcounts₂
    refine ⟨label₂, fun k hk => ?_, hsize₁.trans hsize₂, h₂, hcounts₂, ?_⟩
    · rw [hold₂ k (hk.trans_le hsize₁), hold₁ k hk]
    · exact ⟨hnxt.trans_le hsize₂, (hold₂ _ hnxt).trans hnxtLabel, hfollows⟩

/-- A prompt that has passed nothing yet is counted nowhere. -/
theorem Counts.begin (h : Labelled t label) (hcounts : Counts t label bs) : Counts t label (bs ++ [[]]) := by
  refine ⟨fun k hpos hk => ?_, fun b hb q hq => ?_, fun k hpos hk => ?_⟩
  · have hne : label k ≠ [] := fun hnil =>
      Nat.ne_of_gt hpos (h.inj k hk 0 h.pos (hnil.trans h.root.symm))
    rw [countP_concat, hcounts.count k hpos hk]
    simp [hne]
  · rcases mem_append.mp hb with hb | hb
    · exact hcounts.covers b hb q hq
    · rw [mem_singleton.mp hb] at hq
      exact ⟨0, h.pos, h.root.trans (prefix_nil.mp hq).symm⟩
  · obtain ⟨b, hb, hbegins⟩ := hcounts.used k hpos hk
    exact ⟨b, mem_append_left _ hb, hbegins⟩

/-- **The trie of a wave**: it counts every prompt's blocks, and every node path spells them. -/
theorem Trie.insertAll_spec (h : Labelled t label) (hcounts : Counts t label bs) (others : List (List Tokens)) :
    ∃ label', (∀ k < t.size, label' k = label k) ∧ t.size ≤ (t.insertAll others).2.size ∧
      Labelled (t.insertAll others).2 label' ∧ Counts (t.insertAll others).2 label' (bs ++ others) ∧
      List.Forall₂ (Follows (t.insertAll others).2 label' []) others (t.insertAll others).1 := by
  induction others generalizing t label bs with
  | nil =>
    rw [append_nil]
    exact ⟨label, fun _ _ => rfl, le_rfl, h, hcounts, .nil⟩
  | cons keys others ih =>
    obtain ⟨label₁, hold₁, hsize₁, h₁, hcounts₁, hfollows⟩ := insert_spec h (hcounts.begin h) h.pos h.root keys
    obtain ⟨label₂, hold₂, hsize₂, h₂, hcounts₂, hrest⟩ := ih h₁ hcounts₁
    rw [append_assoc, nil_append, singleton_append] at hcounts₂
    refine ⟨label₂, fun k hk => ?_, hsize₁.trans hsize₂, h₂, hcounts₂, ?_⟩
    · rw [hold₂ k (hk.trans_le hsize₁), hold₁ k hk]
    · exact .cons (hfollows.mono hold₂ hsize₂) hrest

theorem labelled_root : Labelled Trie.root (fun _ => []) := by
  have hzero : ∀ k, k < Trie.root.size → k = 0 := fun k hk => Nat.lt_one_iff.mp hk
  refine ⟨Nat.one_pos, rfl, fun node hnode key nxt => ?_, fun node hpos hnode => ?_,
    fun node hnode => rfl, fun a ha b hb _ => (hzero a ha).trans (hzero b hb).symm⟩
  · constructor
    · intro hlookup
      cases hlookup
    · rintro ⟨-, hlabel⟩
      simp at hlabel
  · exact absurd (hzero node hnode) (Nat.ne_of_gt hpos)

theorem counts_root : Counts Trie.root (fun _ => []) [] := by
  have hzero : ∀ k, 0 < k → ¬ k < Trie.root.size := fun k hpos hk =>
    Nat.ne_of_gt hpos (Nat.lt_one_iff.mp hk)
  exact ⟨fun k hpos hk => absurd hk (hzero k hpos), fun b hb => (by cases hb),
    fun k hpos hk => absurd hk (hzero k hpos)⟩

end Batchgen.WavePlan
