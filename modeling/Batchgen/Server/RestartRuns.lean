import Batchgen.Server.Restart

/-!
# Runs of coordinated restarts

`Inv` says that an `ok` ack is never written before the local part of its phase is done, so that a node that has
passed a barrier knows about every peer (`barriers_hold`), whatever fails, stops or is killed.

The end of a restart is not agreed on in the same way.  A node that has acked the last phase and then raises keeps
its old generation and leaves its ack behind, on which its peers go on: they serve the next generation.  If it raises
in the barrier it tells nobody (`acked_node_fails_silently`), and from the next restart on the generations differ
(`generations_drift`).  Where no node raises there, or only when a peer has given the epoch up before, both are
excluded.
-/

namespace Batchgen.Server.Restart

open Runs Function Finset

variable {k g : ℕ} {s s' : State k} {n m peer : Fin (k + 1)} {l : Label k} {p : Phase}

/-! ### The parts of the state after an update -/

namespace State

@[grind =] theorem setNode_node (node : Node k) : (s.setNode n node).node m = if m = n then node else s.node m :=
  update_apply ..

@[grind =] theorem setFinished_finished (epoch : ℕ) : (s.setFinished n epoch).finished m =
    if m = n then insert epoch (s.finished n) else s.finished m := update_apply ..

attribute [grind =]
  setNode_ack setNode_done setNode_down setNode_epoch setNode_finished
  setAck_node setAck_ack setAck_done setAck_down setAck_epoch setAck_finished
  setDone_node setDone_ack setDone_done setDone_down setDone_epoch setDone_finished
  setDown_node setDown_ack setDown_done setDown_down setDown_epoch setDown_finished
  setFinished_node setFinished_ack setFinished_done setFinished_down setFinished_epoch
  claimEpoch_node claimEpoch_ack claimEpoch_done claimEpoch_down claimEpoch_epoch claimEpoch_finished

end State

/-! ### What a barrier knows -/

structure Inv (s : State k) : Prop where
  acks : ∀ e p m, s.ack e p m = some .ok → s.done e p m = true
  seen : ∀ n p, (s.node n).pc = .barrier p → ∀ m ∈ (s.node n).seen, s.done (s.node n).epoch p m = true
  spawning : ∀ n, (s.node n).pc = .work .ready ∨ (s.node n).pc = .barrier .ready ∨ (s.node n).pc = .hooks →
    ∀ m, s.done (s.node n).epoch .tornDown m = true
  resuming : ∀ n, (s.node n).pc = .hooks → ∀ m, s.done (s.node n).epoch .ready m = true

theorem Inv.initial (g : ℕ) : Inv (initial k g) := by
  constructor <;> simp [Restart.initial]

theorem Inv.setFailed (h : Inv s) (e : ℕ) (p : Phase) : Inv (s.setAck n e p .failed) := by
  obtain ⟨hacks, hseen, hspawning, hresuming⟩ := h
  constructor <;> grind -linarith

theorem Inv.fail (h : Inv s) (hstep : s.fail n = some s') : Inv s' := by
  obtain ⟨hacks, hseen, hspawning, hresuming⟩ := h
  unfold State.fail State.setPc at hstep
  constructor <;> grind -linarith

/-- What reading an ack can do, for a node in the barrier of a phase. -/
theorem step_readAck (hstep : step s (.readAck n peer) = some s') :
    ∃ p, (s.node n).pc = .barrier p ∧ readAck s n peer p = some s' := by
  simp only [step] at hstep
  split at hstep
  · next p hpc =>
    split at hstep
    · cases hstep
    · exact ⟨p, hpc, hstep⟩
  · cases hstep

theorem Inv.readAck (h : Inv s) (hstep : step s (.readAck n peer) = some s') : Inv s' := by
  obtain ⟨p, hpc, hread⟩ := step_readAck hstep
  unfold Restart.readAck at hread
  split at hread
  · cases hread
    exact h
  · next hack =>
    -- the ack that was read says that the peer is done
    have hpeer := h.acks _ _ _ hack
    obtain ⟨hacks, hseen, hspawning, hresuming⟩ := h
    constructor <;> grind -linarith
  · exact h.fail hread

/-- What passing a barrier takes. -/
theorem step_passBarrier (hstep : step s (.passBarrier n) = some s') :
    ∃ p, (s.node n).pc = .barrier p ∧ (∀ m, m ∈ (s.node n).seen) ∧ s' = s.passBarrier n p := by
  simp only [step] at hstep
  split at hstep
  · next p hpc =>
    split at hstep
    · next hall =>
      cases hstep
      exact ⟨p, hpc, hall, rfl⟩
    · cases hstep
  · cases hstep

theorem Inv.step (h : Inv s) (hstep : step s l = some s') : Inv s' := by
  cases l with
  | passBarrier n =>
    obtain ⟨p, hpc, hall, rfl⟩ := step_passBarrier hstep
    have hknown : ∀ m, s.done (s.node n).epoch p m = true := fun m => h.seen n p hpc m (hall m)
    obtain ⟨hacks, hseen, hspawning, hresuming⟩ := h
    cases p <;> constructor <;> grind -linarith [State.passBarrier, State.setPc]
  | fail n => exact h.fail hstep
  | readAck n peer => exact h.readAck hstep
  | _ =>
    obtain ⟨hacks, hseen, hspawning, hresuming⟩ := h
    simp only [Restart.step] at hstep
    constructor <;> grind -linarith [State.setPc, State.enter, State.arriveAt, State.tearDownAlone, State.passBarrier]

/-- **No node spawns before every node is torn down, and no node resumes before every node is ready**, in the same
epoch, in every run. -/
theorem barriers_hold (k g : ℕ) (s : State k) (hreached : Reached step (fun _ _ => True) (initial k g) s)
    (n m : Fin (k + 1)) :
    ((s.node n).pc = .work .ready → s.done (s.node n).epoch .tornDown m = true) ∧
      ((s.node n).pc = .hooks → s.done (s.node n).epoch .ready m = true) := by
  have hinv : Inv s := hreached.invariant Inv (Inv.initial g) fun _ _ _ h _ hstep => h.step hstep
  exact ⟨fun hpc => hinv.spawning n (Or.inl hpc) m, fun hpc => hinv.resuming n hpc m⟩

/-- Two nodes go through a phase together. -/
def bothPass : List (Label 1) :=
  [.arrive 0, .arrive 1, .readAck 0 1, .readAck 1 0, .passBarrier 0, .passBarrier 1]

/-- Two nodes go through an epoch up to the scheduler hooks. -/
def bothReady (epoch : ℕ) : List (Label 1) :=
  [.beginRestart false, .join 1 epoch true] ++ bothPass ++ bothPass ++ bothPass

theorem barriers_hold_two_nodes :
    ∃ s, Reached step (fun _ _ => True) (initial 1 1) s ∧ (s.node 0).pc = .hooks ∧
      s.done (s.node 0).epoch .ready 1 = true := by
  have hend : ∃ s, Reached step (fun _ _ => True) (initial 1 1) s ∧ (s.node 0).pc = .hooks :=
    Reached.exists_of_run (bothReady 1) (by decide)
  obtain ⟨s, hreached, hpc⟩ := hend
  exact ⟨s, hreached, hpc, (barriers_hold 1 1 s hreached 0 1).2 hpc⟩

/-! ### Epochs and generations -/

/-- A generation counts the epochs that returned normally; an epoch is run once, and it returns normally only when
every node has acked its last phase. -/
structure Counted (g : ℕ) (s : State k) : Prop where
  inv : Inv s
  generation : ∀ n, (s.node n).generation = g + (s.finished n).card
  epoch : ∀ n, (s.node n).epoch ≤ s.epoch
  running : ∀ n, (s.node n).pc ≠ .idle → (s.node n).pc ≠ .dead → 0 < (s.node n).epoch
  finished : ∀ n, ∀ e ∈ s.finished n, 0 < e ∧ e ≤ (s.node n).epoch ∧
    (e = (s.node n).epoch → (s.node n).pc = .idle ∨ (s.node n).pc = .dead)
  everywhere : ∀ n, ∀ e ∈ s.finished n, ∀ m, s.done e .ready m = true
  serving : ∀ n, (s.node n).serving = true → (s.node n).pc = .idle

theorem Counted.initial (g : ℕ) : Counted g (initial k g) := by
  refine ⟨Inv.initial g, ?_, ?_, ?_, ?_, ?_, ?_⟩ <;> simp [Restart.initial]

section

variable (h : Counted g s)
include h

/-- A node that is running moves to another statement. -/
theorem Counted.setPc {pc : Pc} (hinv : Inv (s.setPc n pc)) (hidle : (s.node n).pc ≠ .idle)
    (hdead : (s.node n).pc ≠ .dead) : Counted g (s.setPc n pc) := by
  obtain ⟨-, hgeneration, hepoch, hrunning, hfinished, heverywhere, hserving⟩ := h
  unfold State.setPc at *
  refine ⟨hinv, ?_, ?_, ?_, ?_, ?_, ?_⟩ <;> grind -linarith

theorem Counted.fail (hstep : s.fail n = some s') : Counted g s' := by
  have hinv := h.inv.fail hstep
  obtain ⟨-, hgeneration, hepoch, hrunning, hfinished, heverywhere, hserving⟩ := h
  unfold State.fail State.setPc at hstep
  refine ⟨hinv, ?_, ?_, ?_, ?_, ?_, ?_⟩ <;> grind -linarith

theorem Counted.readAck (hstep : step s (.readAck n peer) = some s') : Counted g s' := by
  have hinv := h.inv.readAck hstep
  obtain ⟨p, hpc, hread⟩ := step_readAck hstep
  unfold Restart.readAck at hread
  split at hread
  · cases hread
    exact h
  · obtain ⟨-, hgeneration, hepoch, hrunning, hfinished, heverywhere, hserving⟩ := h
    refine ⟨hinv, ?_, ?_, ?_, ?_, ?_, ?_⟩ <;> grind -linarith
  · exact h.fail hread

theorem Counted.finish (hstep : step s (.finish n) = some s') : Counted g s' := by
  have hinv := h.inv.step hstep
  simp only [Restart.step] at hstep
  split at hstep
  · next hpc =>
    cases hstep
    have hready : ∀ m, s.done (s.node n).epoch .ready m = true := h.inv.resuming n hpc
    have hfresh : (s.node n).epoch ∉ s.finished n := fun hmem => by
      have hend := (h.finished n _ hmem).2.2 rfl
      simp [hpc] at hend
    obtain ⟨-, hgeneration, hepoch, hrunning, hfinished, heverywhere, hserving⟩ := h
    refine ⟨hinv, ?_, ?_, ?_, ?_, ?_, ?_⟩ <;> grind -linarith
  · cases hstep

theorem Counted.arrive (hstep : step s (.arrive n) = some s') : Counted g s' := by
  have hinv := h.inv.step hstep
  obtain ⟨-, hgeneration, hepoch, hrunning, hfinished, heverywhere, hserving⟩ := h
  simp only [Restart.step, State.tearDownAlone, State.arriveAt, State.setPc] at hstep
  refine ⟨hinv, ?_, ?_, ?_, ?_, ?_, ?_⟩ <;> grind -linarith

theorem Counted.failPhase {raises : Bool} (hstep : step s (.failPhase n raises) = some s') : Counted g s' := by
  have hinv := h.inv.step hstep
  simp only [Restart.step] at hstep
  split at hstep
  · next p everywhere hpc =>
    split at hstep
    · cases hstep
      exact h.setPc hinv (by simp [hpc]) (by simp [hpc])
    · cases hstep
      have hacked : Counted g (s.setAck n (s.node n).epoch p .failed) :=
        { h with inv := h.inv.setFailed _ p }
      exact hacked.setPc hinv (by simp [State.setAck, hpc]) (by simp [State.setAck, hpc])
  · cases hstep

/-- Node 0 or a follower starts to run a new epoch, or is kept from it. -/
theorem Counted.begin (hl : (∃ raises, l = .beginRestart raises) ∨ ∃ n e accepted, l = .join n e accepted)
    (hstep : step s l = some s') : Counted g s' := by
  have hinv := h.inv.step hstep
  obtain ⟨-, hgeneration, hepoch, hrunning, hfinished, heverywhere, hserving⟩ := h
  obtain ⟨raises, rfl⟩ | ⟨n, e, accepted, rfl⟩ := hl <;>
    simp only [Restart.step, State.enter] at hstep <;>
    refine ⟨hinv, ?_, ?_, ?_, ?_, ?_, ?_⟩ <;> grind -linarith

theorem Counted.step (hstep : step s l = some s') : Counted g s' := by
  cases l with
  | fail n => exact h.fail hstep
  | readAck n peer => exact h.readAck hstep
  | arrive n => exact h.arrive hstep
  | beginRestart raises => exact h.begin (Or.inl ⟨raises, rfl⟩) hstep
  | join n e accepted => exact h.begin (Or.inr ⟨n, e, accepted, rfl⟩) hstep
  | finish n => exact h.finish hstep
  | failPhase n raises => exact h.failPhase hstep
  | passBarrier n =>
    have hinv := h.inv.step hstep
    obtain ⟨p, hpc, -, rfl⟩ := step_passBarrier hstep
    cases p <;> exact h.setPc hinv (by simp [hpc]) (by simp [hpc])
  | _ =>
    have hinv := h.inv.step hstep
    obtain ⟨-, hgeneration, hepoch, hrunning, hfinished, heverywhere, hserving⟩ := h
    simp only [Restart.step, State.setPc] at hstep
    refine ⟨hinv, ?_, ?_, ?_, ?_, ?_, ?_⟩ <;> grind -linarith

end

/-- The step raises in the node: a failure of its own, or a failed ack of a peer that it reads. -/
def Raises (s : State k) (l : Label k) (n : Fin (k + 1)) : Prop :=
  l = .fail n ∨ ∃ peer, l = .readAck n peer ∧ s.ack (s.node n).epoch .ready peer = some .failed

instance : Decidable (Raises s l n) := inferInstanceAs (Decidable (_ ∨ _))

/-- Some node is past the epoch and has not acked its last phase, so that nobody ends the epoch normally. -/
def State.GivenUp (s : State k) (e : ℕ) : Prop :=
  ∃ n, s.done e .ready n = false ∧ e ≤ (s.node n).epoch ∧ ((s.node n).epoch = e → (s.node n).pc.entering = false)

instance : DecidablePred s.GivenUp := fun _ => inferInstanceAs (Decidable (∃ _, _ ∧ _ ∧ (_ → _)))

/-- An epoch stays given up while a node does its last part only in a phase of that epoch and enters a phase only of a
later one. -/
theorem State.GivenUp.mono {e : ℕ} (hgone : s.GivenUp e)
    (hdone : ∀ m, s'.done e .ready m = true →
      s.done e .ready m = true ∨ (s.node m).epoch = e ∧ (s.node m).pc.entering = true)
    (hle : ∀ m, (s.node m).epoch ≤ (s'.node m).epoch)
    (hpc : ∀ m, (s'.node m).epoch = (s.node m).epoch → (s'.node m).pc.entering = true →
      (s.node m).pc.entering = true) : s'.GivenUp e := by
  obtain ⟨n, hundone, hpast, hleft⟩ := hgone
  refine ⟨n, ?_, hpast.trans (hle n), ?_⟩ <;> grind

theorem State.GivenUp.step {e : ℕ} (hgone : s.GivenUp e) (h : Counted g s) (hstep : Restart.step s l = some s') :
    s'.GivenUp e := by
  cases l with
  | readAck m peer =>
    obtain ⟨p, hpc, hread⟩ := step_readAck hstep
    simp only [Restart.readAck, State.fail, State.setPc] at hread
    refine hgone.mono ?_ ?_ ?_ <;> grind -linarith [Pc.entering]
  | passBarrier m =>
    obtain ⟨p, hpc, -, rfl⟩ := step_passBarrier hstep
    cases p <;> refine hgone.mono (fun _ => Or.inl) ?_ ?_ <;>
      grind -linarith [Pc.entering, State.passBarrier, State.setPc]
  | _ =>
    have hepoch := h.epoch
    simp only [Restart.step, State.fail, State.setPc, State.enter, State.arriveAt, State.tearDownAlone] at hstep
    refine hgone.mono ?_ ?_ ?_ <;> grind -linarith [Pc.entering]

/-! ### One generation for all -/

/-- The node has acked the last phase and is still in `restart_workers`. -/
def State.Committed (s : State k) (n : Fin (k + 1)) : Prop :=
  (s.node n).pc = .barrier .ready ∨ (s.node n).pc = .hooks

/-- No node raises once it has acked the last phase, unless the epoch is given up. -/
def Steady (s : State k) (l : Label k) : Prop := ∀ n, s.Committed n → Raises s l n → s.GivenUp (s.node n).epoch

instance : Decidable (Steady s l) := inferInstanceAs (Decidable (∀ _, (_ ∨ _) → _ → _))

/-- A node that has acked the last phase of an epoch ends it normally, unless it is killed or nobody does. -/
def Kept (s : State k) : Prop := ∀ e m, s.done e .ready m = true →
  s.GivenUp e ∨ e ∈ s.finished m ∨ (s.node m).pc = .dead ∨ (s.node m).epoch = e ∧ s.Committed m

theorem Kept.step (h : Kept s) (hcounted : Counted g s) (hok : Steady s l) (hstep : step s l = some s') : Kept s' := by
  have hgone : ∀ e, s.GivenUp e → s'.GivenUp e := fun e he => he.step hcounted hstep
  unfold Kept State.Committed at *
  cases l with
  | fail n =>
    have hcalm := fun hn => hok n hn (Or.inl rfl)
    unfold State.Committed at hcalm
    simp only [Restart.step, State.fail, State.setPc] at hstep
    grind -linarith
  | readAck n peer =>
    obtain ⟨p, hpc, hread⟩ := step_readAck hstep
    have hcalm := fun hready hack => hok n (Or.inl hready) (Or.inr ⟨peer, rfl, hack⟩)
    simp only [Restart.readAck, State.fail, State.setPc] at hread
    grind -linarith
  | passBarrier n =>
    obtain ⟨p, hpc, -, rfl⟩ := step_passBarrier hstep
    cases p <;> grind -linarith [State.passBarrier, State.setPc]
  | _ =>
    simp only [Restart.step] at hstep
    grind -linarith [State.setPc, State.enter, State.arriveAt, State.tearDownAlone]

/-- As many polls as there are nodes report every peer whose down key is there. -/
theorem mem_polls (hne : m ≠ n) (hdown : s.down (s.node n).generation m = true) (count : ℕ)
    (reported : Finset (Fin (k + 1))) (hcount : k + 1 ≤ count + (#reported)) :
    m ∈ reported ∨ m ∈ s.polls n count reported := by
  induction count generalizing reported with
  | zero =>
    have hall : reported = univ := eq_of_subset_of_card_le (subset_univ _) (by simpa using hcount)
    exact Or.inl (hall ▸ mem_univ m)
  | succ count ih =>
    by_cases hm : m ∈ reported
    · exact Or.inl hm
    rw [State.polls]
    cases hpoll : s.pollPeerDown n reported with
    | none =>
      have hnone := List.find?_eq_none.mp hpoll m (List.mem_finRange m)
      simp [hne, hm, hdown] at hnone
    | some peer =>
      have hfresh : peer ∉ reported := by
        have := List.find?_some hpoll
        simp_all
      rcases ih (insert peer reported) (by rw [card_insert_of_notMem hfresh]; omega) with hmem | hmem
      · simp_all
      · simp [hmem]

/-- **Two nodes that serve at the same time serve the same generation**, so that each sees the other's down key, in
every run in which no node raises after its ack of the last phase of an epoch that is not given up. -/
theorem serving_generations_agree (k g : ℕ) (s : State k) (hreached : Reached step Steady (initial k g) s)
    (n m : Fin (k + 1)) (hn : (s.node n).serving = true) (hm : (s.node m).serving = true) :
    (s.node n).generation = (s.node m).generation ∧
      ∀ s' reported, n ≠ m → step s (.workerFailure n false) = some s' →
        n ∈ reported ∨ n ∈ s'.polls m (k + 1) reported := by
  have hinv : Counted g s ∧ Kept s := by
    refine hreached.invariant (fun s => Counted g s ∧ Kept s) ⟨Counted.initial g, ?_⟩
      fun _ _ _ h hok hstep => ⟨h.1.step hstep, h.2.step h.1 hok hstep⟩
    intro e m hdone
    cases hdone
  obtain ⟨hcounted, hkept⟩ := hinv
  -- an epoch that one of them finished was acked by the other, which is idle and hence finished it too
  have hsub : ∀ n m, (s.node m).serving = true → s.finished n ⊆ s.finished m := by
    intro n m hm e he
    have hidle := hcounted.serving m hm
    rcases hkept e m (hcounted.everywhere n e he m) with ⟨peer, hpeer, -⟩ | hfin | hdead | ⟨-, hcommitted⟩
    · cases hpeer.symm.trans (hcounted.everywhere n e he peer)
    · exact hfin
    · rw [hidle] at hdead
      cases hdead
    · rw [State.Committed, hidle] at hcommitted
      grind -linarith
  have hsame : s.finished n = s.finished m := Finset.Subset.antisymm (hsub n m hm) (hsub m n hn)
  have hgeneration : (s.node n).generation = (s.node m).generation := by
    rw [hcounted.generation, hcounted.generation, hsame]
  refine ⟨hgeneration, fun s' reported hne hstep => mem_polls hne ?_ _ _ (Nat.le_add_right _ _)⟩
  simp only [Restart.step] at hstep
  grind -linarith

theorem serving_generations_agree_two_nodes :
    ∃ s, Reached step Steady (initial 1 1) s ∧ (s.node 0).generation = 2 ∧
      (s.node 0).generation = (s.node 1).generation := by
  have hend : ∃ s, Reached step Steady (initial 1 1) s ∧ (s.node 0).generation = 2 ∧ (s.node 0).serving = true ∧
      (s.node 1).serving = true :=
    Reached.exists_of_run (bothReady 1 ++ [.finish 0, .finish 1]) (by decide)
  obtain ⟨s, hreached, hgeneration, hfirst, hsecond⟩ := hend
  exact ⟨s, hreached, hgeneration, (serving_generations_agree 1 1 s hreached 0 1 hfirst hsecond).1⟩

/-- The scheduler hooks of node 1 fail in the first epoch; the second epoch succeeds everywhere. -/
def driftingRun : List (Label 1) :=
  bothReady 1 ++ [.finish 0, .fail 1, .failPhase 1 false, .publishDown 1 false] ++ bothReady 2 ++ [.finish 0, .finish 1]

/-- Both nodes serve, one generation apart, and node 0 does not see that node 1 goes down. -/
theorem generations_drift :
    (run step driftingRun (initial 1 1)).any (fun s =>
        (s.node 0).serving ∧ (s.node 0).generation = 3 ∧ (s.node 1).serving ∧ (s.node 1).generation = 2) ∧
      (run step (driftingRun ++ [.workerFailure 1 false]) (initial 1 1)).any fun s =>
        (s.node 1).serving = false ∧ s.pollPeerDown 0 ∅ = none := by
  decide

/-! ### One epoch -/

/-- One epoch in which nothing is killed, no node raises in the last barrier once it has acked it unless the epoch is
given up, and a down key that a node announces is written. -/
def Calm (s : State k) (l : Label k) : Prop :=
  (∀ raises, l = .beginRestart raises → s.epoch = 0) ∧
    ∀ n, l ≠ .kill n ∧ l ≠ .publishDown n true ∧
      ((s.node n).pc = .barrier .ready → Raises s l n → s.GivenUp (s.node n).epoch)

instance : Decidable (Calm s l) := inferInstanceAs (Decidable (_ ∧ ∀ _, _ ∧ _ ∧ (_ → _ → _)))

/-- The node has acked the last phase and is still in `restart_workers`, maybe in its failure path. -/
def State.PastLastAck (s : State k) (n : Fin (k + 1)) : Prop :=
  (s.node n).pc = .barrier .ready ∨ (s.node n).pc = .hooks ∨ (s.node n).pc = .failed .ready true ∨
    (s.node n).pc = .announce

/-- What becomes of a node that has acked the last phase of the only epoch. -/
structure Announced (g : ℕ) (s : State k) : Prop where
  counted : Counted g s
  single : s.epoch ≤ 1
  kept : ∀ e m, s.done e .ready m = true →
    s.GivenUp e ∨ e ∈ s.finished m ∨ s.down (g + 1) m = true ∨ (s.node m).epoch = e ∧ s.PastLastAck m

/-- A node that runs the only epoch has its first generation. -/
theorem Announced.generation (h : Announced g s) (hidle : (s.node n).pc ≠ .idle)
    (hdead : (s.node n).pc ≠ .dead) : (s.node n).generation = g := by
  have hnone : s.finished n = ∅ := by
    refine eq_empty_of_forall_notMem fun e he => ?_
    obtain ⟨hpos, hle, hend⟩ := h.counted.finished n e he
    have hepoch := h.counted.epoch n
    have hsingle := h.single
    have hsame : e = (s.node n).epoch := by omega
    exact (hend hsame).elim hidle hdead
  rw [h.counted.generation, hnone, card_empty, Nat.add_zero]

theorem Announced.publishDown (h : Announced g s)
    (hstep : step s (.publishDown n false) = some s') : Announced g s' := by
  have hgone : ∀ e, s.GivenUp e → s'.GivenUp e := fun e he => he.step h.counted hstep
  refine ⟨h.counted.step hstep, ?_, ?_⟩ <;> simp only [Restart.step] at hstep
  · have hsingle := h.single
    grind -linarith [State.setPc]
  · split at hstep
    · next hpc =>
      have hgeneration := h.generation (n := n) (by simp [hpc]) (by simp [hpc])
      have hkept := h.kept
      unfold State.PastLastAck at *
      grind -linarith [State.setPc]
    · cases hstep

theorem Announced.step (h : Announced g s) (hok : Calm s l) (hstep : step s l = some s') : Announced g s' := by
  have hsingle := h.single
  have hkept := h.kept
  have hcounted := h.counted.step hstep
  have hgone : ∀ e, s.GivenUp e → s'.GivenUp e := fun e he => he.step h.counted hstep
  cases l with
  | publishDown n raises =>
    cases raises with
    | true => exact absurd rfl (hok.2 n).2.1
    | false => exact h.publishDown hstep
  | kill n => exact absurd rfl (hok.2 n).1
  | readAck n peer =>
    obtain ⟨p, hpc, hread⟩ := step_readAck hstep
    have hcalm := fun hready hack => (hok.2 n).2.2 hready (Or.inr ⟨peer, rfl, hack⟩)
    simp only [Restart.readAck, State.fail, State.setPc] at hread
    refine ⟨hcounted, by grind -linarith, ?_⟩
    unfold State.PastLastAck at *
    grind -linarith
  | passBarrier n =>
    obtain ⟨p, hpc, -, rfl⟩ := step_passBarrier hstep
    cases p <;> refine ⟨hcounted, hsingle, ?_⟩ <;> unfold State.PastLastAck at * <;>
      grind -linarith [State.passBarrier, State.setPc]
  | fail n =>
    have hcalm := fun hpc => (hok.2 n).2.2 hpc (Or.inl rfl)
    simp only [Restart.step, State.fail, State.setPc] at hstep
    refine ⟨hcounted, by grind -linarith, ?_⟩
    unfold State.PastLastAck at *
    grind -linarith
  | beginRestart raises =>
    have hepoch := hok.1 raises rfl
    simp only [Restart.step] at hstep
    refine ⟨hcounted, by grind -linarith [State.enter], ?_⟩
    unfold State.PastLastAck at *
    grind -linarith [State.enter]
  | _ =>
    simp only [Restart.step] at hstep
    refine ⟨hcounted, by grind -linarith [State.setPc, State.enter, State.arriveAt, State.tearDownAlone], ?_⟩
    unfold State.PastLastAck at *
    grind -linarith [State.setPc, State.enter, State.arriveAt, State.tearDownAlone]

/-- **If one node returns normally, no other node fails silently**: it returns normally too, or its down key for the
new generation is there, or it is still on the way from its last ack. -/
theorem restart_settles (k g : ℕ) (s : State k) (hreached : Reached step Calm (initial k g) s)
    (n : Fin (k + 1)) (hn : (s.finished n).Nonempty) (m : Fin (k + 1)) :
    (s.finished m).Nonempty ∨ s.down (g + 1) m = true ∨ s.PastLastAck m := by
  have hinv : Announced g s := by
    refine hreached.invariant (Announced g) ⟨Counted.initial g, Nat.zero_le 1, ?_⟩
      fun _ _ _ h hok hstep => h.step hok hstep
    intro e m hdone
    cases hdone
  obtain ⟨e, he⟩ := hn
  rcases hinv.kept e m (hinv.counted.everywhere n e he m) with ⟨peer, hpeer, -⟩ | hfin | hdown | ⟨-, hpast⟩
  · cases hpeer.symm.trans (hinv.counted.everywhere n e he peer)
  · exact Or.inl ⟨e, hfin⟩
  · exact Or.inr (Or.inl hdown)
  · exact Or.inr (Or.inr hpast)

theorem restart_settles_two_nodes :
    ∃ s, Reached step Calm (initial 1 1) s ∧ (s.finished 0).Nonempty ∧
      ((s.finished 1).Nonempty ∨ s.down 2 1 = true ∨ s.PastLastAck 1) := by
  have hend : ∃ s, Reached step Calm (initial 1 1) s ∧ (s.finished 0).Nonempty :=
    Reached.exists_of_run (bothReady 1 ++ [.finish 0, .fail 1, .failPhase 1 false, .publishDown 1 false]) (by decide)
  obtain ⟨s, hreached, hfirst⟩ := hend
  exact ⟨s, hreached, hfirst, restart_settles 1 1 s hreached 0 hfirst 1⟩

/-- Node 1 acks the last phase and gives up waiting before node 0 acks it. -/
def silentFailure : List (Label 1) :=
  [.beginRestart false, .join 1 1 true] ++ bothPass ++ bothPass ++
    [.arrive 1, .fail 1, .failPhase 1 false, .arrive 0, .readAck 0 1, .passBarrier 0, .finish 0]

/-- Node 0 serves the new generation; node 1 is down with its old one, and has published neither a failed ack nor a
down key. -/
theorem acked_node_fails_silently :
    (run step silentFailure (initial 1 1)).any fun s =>
      (s.node 0).serving ∧ (s.node 0).generation = 2 ∧ (s.node 1).serving = false ∧ (s.node 1).pc = .idle ∧
        (s.node 1).generation = 1 ∧ s.down 2 1 = false ∧
        s.ack 1 .armed 1 = some .ok ∧ s.ack 1 .tornDown 1 = some .ok ∧ s.ack 1 .ready 1 = some .ok := by
  decide

end Batchgen.Server.Restart
