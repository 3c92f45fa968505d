import Batchgen.Server.Account

/-!
# Delivery of completions

* `reaches_settled` — the steps of delivery alone bring everything that the pump forwards to the listener;
* `deliver_settles_iff` — what routing one completion does to its slot, its turn and its batch, unless the output
  parser raises on it;
* `completions_delivered_iff` — what was written before the end of the stream is routed and settled, unless the pump
  takes a completion with an error for the end of the stream or the parser raises.
-/

namespace Batchgen.Server

open Function List

variable {cfg : Config} {s s' s₀ : State} {trace trace' : List Event} {g : ℕ}
variable {maxIntakeCapacity : ℕ} {status : BatchId → Option BatchStatus}

variable {before after : Scheduler} {op : Op} {b : BatchId} {error : String} {c : Completion} {r : RequestId}

/-! ### Delivery comes to an end -/

/-- Nothing of the live generation is on its way, and its pump has nothing to read. -/
structure Settled (g : ℕ) (s : State) : Prop where
  loop : s.loop = []
  callbacks : s.sched.callbacks = []
  inbox : s.sched.completionInbox = []
  queue : (s.channel g).reading → (s.channel g).queue = []

/-- The state differs by operations of the loop only. -/
structure SameParties (s s' : State) : Prop where
  channel : s'.channel = s.channel
  callbacks : s'.sched.callbacks = s.sched.callbacks
  sched : SameInbox s.sched s'.sched

theorem SameParties.trans {s'' : State} (h : SameParties s s') (h' : SameParties s' s'') : SameParties s s'' :=
  ⟨h'.channel.trans h.channel, h'.callbacks.trans h.callbacks, h'.sched.inbox.trans h.sched.inbox,
    h'.sched.generation.trans h.sched.generation, h'.sched.stopped.trans h.sched.stopped⟩

/-- The loop can run the operations to their end. -/
def RunsThrough (cfg : Config) (ops : List Op) : Prop :=
  ∀ s rest, s.loop = ops ++ rest → ∃ trace s', Run cfg s trace s' ∧ s'.loop = rest ∧ SameParties s s' ∧
    ∀ g, puts g trace = []

theorem RunsThrough.nil : RunsThrough cfg [] := fun s _ hloop =>
  ⟨[], s, .start, hloop, ⟨by rfl, by rfl, .rfl⟩, fun _ => by rfl⟩

theorem RunsThrough.append {xs ys : List Op} (hx : RunsThrough cfg xs) (hy : RunsThrough cfg ys) :
    RunsThrough cfg (xs ++ ys) := by
  intro s rest hloop
  obtain ⟨trace, s', run, hloop', hsame, hputs⟩ := hx s (ys ++ rest) (by simpa using hloop)
  obtain ⟨trace', s'', run', hloop'', hsame', hputs'⟩ := hy s' rest hloop'
  exact ⟨trace ++ trace', s'', run.trans run', hloop'', hsame.trans hsame', fun g => by simp [hputs, hputs']⟩

theorem RunsThrough.of_forall {ops : List Op} (h : ∀ op ∈ ops, RunsThrough cfg [op]) : RunsThrough cfg ops := by
  induction ops with
  | nil => exact .nil
  | cons op ops ih =>
    exact (h op mem_cons_self).append (ih fun x hx => h x (mem_cons_of_mem op hx))

theorem Op.exec_callbacks (h : ∀ error, op ≠ .callCloseTurnGate error) (s : Scheduler) :
    (op.exec cfg s).1.callbacks = s.callbacks := by
  cases op with
  | deliver g' c => exact (SameInbox.deliver cfg c s).2
  | callCloseTurnGate error => exact absurd rfl (h error)
  | allocateSlots drained rest => cases rest <;> simp only [Op.exec] <;> split <;> rfl
  | poll b timedOut =>
    simp only [Op.exec]
    split <;> repeat' split
    all_goals rfl
  | failCheck b error =>
    simp only [Op.exec]
    split
    · rfl
    · split <;> rfl
  | updateBatchStatus | submitBatch | setCapacity | cancelCheck =>
    simp only [Op.exec]
    split <;> rfl
  | registerBatch | setTrackerError | removeBatchEntries | closeTurnGate | clearActiveSlots | writeOutput
  | forgetBatch | selectFromIntake => rfl

theorem puts_events_loopOp : puts g (events cfg .loopOp s) = [] := by
  simp only [events]
  split <;> simp [puts]

/-- An operation runs through when what it starts does. -/
theorem RunsThrough.of_exec (hcall : ∀ error, op ≠ .callCloseTurnGate error)
    (h : ∀ sched, RunsThrough cfg (op.exec cfg sched).2) : RunsThrough cfg [op] := by
  intro s rest hloop
  obtain ⟨trace, s', run, hloop', hsame, hputs⟩ :=
    h s.sched (s.afterOp cfg op rest) rest rfl
  refine ⟨_, s', (Run.start.next .loopOp (step_loopOp hloop)).trans run, hloop',
    .trans ⟨by rfl, Op.exec_callbacks hcall _, (op.exec_sameInbox (g := 0) cfg _).1⟩ hsame, fun g => ?_⟩
  simp [hputs, puts_events_loopOp]

/-- The operations that start no others. -/
def Op.Leaf : Op → Prop
  | .updateBatchStatus _ _ | .registerBatch _ _ | .deliver _ _ | .setCapacity _ | .setTrackerError _ _
  | .removeBatchEntries _ | .closeTurnGate _ | .clearActiveSlots | .writeOutput _ | .forgetBatch _ => True
  | _ => False

theorem Op.Leaf.runsThrough (h : op.Leaf) : RunsThrough cfg [op] := by
  refine .of_exec (fun error => by rintro rfl; exact h) fun sched => ?_
  have hnil : (op.exec cfg sched).2 = [] := by
    cases op with
    | updateBatchStatus | setCapacity =>
      simp only [Op.exec]
      split <;> rfl
    | registerBatch | deliver | setTrackerError | removeBatchEntries | closeTurnGate | clearActiveSlots
    | writeOutput | forgetBatch => rfl
    | submitBatch | failCheck | callCloseTurnGate | poll | cancelCheck | selectFromIntake
    | allocateSlots => exact absurd h id
  rw [hnil]
  exact .nil

theorem failCheck_runsThrough : RunsThrough cfg [.failCheck b error] := by
  refine .of_exec (by simp) fun sched => .of_forall fun op hop => Op.Leaf.runsThrough ?_
  simp only [Op.exec] at hop
  split at hop
  · simp at hop
  · split at hop
    · simp only [mem_cons, not_mem_nil, or_false] at hop
      rcases hop with rfl | rfl | rfl <;> trivial
    · simp at hop

theorem failAllActiveBatches_runsThrough {sched : Scheduler} :
    RunsThrough cfg (failAllActiveBatches .closeTurnGate error sched) := by
  refine .of_forall fun op hop => ?_
  simp only [failAllActiveBatches, mem_append, mem_map, mem_cons, not_mem_nil, or_false] at hop
  rcases hop with ⟨b, -, rfl⟩ | rfl | rfl
  · exact failCheck_runsThrough
  · exact Op.Leaf.runsThrough trivial
  · exact Op.Leaf.runsThrough trivial

theorem allocateSlots_runsThrough {drained rest : List IntakeEntry} :
    RunsThrough cfg [.allocateSlots drained rest] := by
  induction rest with
  | nil =>
    refine .of_exec (by simp) fun sched => ?_
    simp only [Op.exec]
    split <;> exact .nil
  | cons entry rest ih =>
    refine .of_exec (by simp) fun sched => ?_
    simp only [Op.exec]
    split
    · exact ih
    · exact failAllActiveBatches_runsThrough

theorem Op.runsThrough (hcall : ∀ error, op ≠ .callCloseTurnGate error) : RunsThrough cfg [op] := by
  cases op with
  | failCheck b error => exact failCheck_runsThrough
  | allocateSlots drained rest => exact allocateSlots_runsThrough
  | callCloseTurnGate error => exact absurd rfl (hcall error)
  | selectFromIntake =>
    refine .of_exec hcall fun sched => ?_
    simp only [Op.exec]
    split
    · exact .nil
    · exact allocateSlots_runsThrough
  | submitBatch | cancelCheck =>
    refine .of_exec hcall fun sched => ?_
    simp only [Op.exec]
    split <;> first | exact .nil | exact Op.Leaf.runsThrough trivial
  | poll b timedOut =>
    refine .of_exec hcall fun sched => .of_forall fun op hop => Op.Leaf.runsThrough ?_
    simp only [Op.exec] at hop
    split at hop <;> (repeat' split at hop) <;> simp at hop
    all_goals first | (subst hop; trivial) | (rcases hop with rfl | rfl | rfl <;> trivial)
  | updateBatchStatus | registerBatch | deliver | setCapacity | setTrackerError | removeBatchEntries
  | closeTurnGate | clearActiveSlots | writeOutput | forgetBatch => exact Op.Leaf.runsThrough trivial

/-- The loop finishes its task. -/
theorem loop_finishes (h : Ordered s) :
    ∃ trace s', Run cfg s trace s' ∧ s'.loop = [] ∧ SameParties s s' ∧ ∀ g, puts g trace = [] :=
  RunsThrough.of_forall (fun _ hop => Op.runsThrough fun error herror => h.onLoop error (herror ▸ hop)) s [] (by simp)

theorem Live.of_same (h : Live g s) (hsame : SameParties s s') : Live g s' :=
  ⟨by rw [hsame.channel]; exact h.started, hsame.sched.generation.trans h.generation,
    hsame.sched.stopped.trans h.running⟩

/-- How far delivery to generation `g` is from its end. -/
def backlog (g : ℕ) (s : State) : ℕ :=
  3 * (s.channel g).queue.length + 2 * s.sched.callbacks.length + s.sched.completionInbox.length

theorem runCallback_sameInbox_or {c : Callback} (sched : Scheduler) :
    (sched.runCallback c).callbacks = sched.callbacks ∧ (sched.runCallback c).pumpGeneration = sched.pumpGeneration ∧
      (sched.runCallback c).stopped = sched.stopped ∧
      (sched.runCallback c).completionInbox.length ≤ sched.completionInbox.length + 1 := by
  cases c with
  | offerCompletion g item =>
    simp only [Scheduler.runCallback, Scheduler.offerCompletion]
    split <;> simp
  | closeTurnGate | openTurnGate => simp [Scheduler.runCallback, Scheduler.closeTurnGate]

/-- With an idle loop, something of the live generation that is left moves one step on. -/
theorem exists_delivery_step (hlive : Live g s) (hclosed : (s.channel g).closed = false)
    (hloop : s.loop = []) (hsettled : ¬Settled g s) :
    ∃ label s', step cfg label s = some s' ∧ puts g (events cfg label s) = [] ∧ Live g s' ∧
      (s'.channel g).closed = false ∧ backlog g s' < backlog g s := by
  by_cases hinbox : s.sched.completionInbox = []
  · by_cases hcallbacks : s.sched.callbacks = []
    · obtain ⟨hreading, hqueue⟩ : (s.channel g).reading ∧ (s.channel g).queue ≠ [] := by
        by_contra hcontra
        exact hsettled ⟨hloop, hcallbacks, hinbox, by simpa using hcontra⟩
      obtain ⟨item, rest, hqueue⟩ := exists_cons_of_ne_nil hqueue
      refine ⟨.pumpRead g, _, step_pumpRead hreading hclosed hqueue, by rfl, ?_, ?_, ?_⟩
      · exact ⟨by simpa [State.forward, State.setChannel] using hlive.started, hlive.generation, hlive.running⟩
      · simp [State.forward, State.setChannel, hclosed]
      · simp only [backlog, State.forward, State.setChannel, update_self, hqueue, length_cons,
          length_append, length_nil]
        omega
    · obtain ⟨c, rest, hcallbacks⟩ := exists_cons_of_ne_nil hcallbacks
      obtain ⟨hc, hg, hs, hlen⟩ := runCallback_sameInbox_or (c := c) { s.sched with callbacks := rest }
      refine ⟨.callback, _, step_callback hloop hcallbacks, by rfl,
        ⟨hlive.started, hg.trans hlive.generation, hs.trans hlive.running⟩, hclosed, ?_⟩
      simp only [backlog, hc, hcallbacks, length_cons] at hlen ⊢
      omega
  · obtain ⟨⟨g', item⟩, rest, hinbox⟩ := exists_cons_of_ne_nil hinbox
    refine ⟨.listen, _, step_listen hloop hlive.running hinbox, by rfl,
      ⟨hlive.started, hlive.generation, hlive.running⟩, hclosed, ?_⟩
    simp [backlog, hinbox]

/-- The steps of delivery alone bring the live generation to a state where nothing is left to deliver. -/
theorem reaches_settled (hordered : Ordered s) (hlive : Live g s) (hclosed : (s.channel g).closed = false) :
    ∃ trace s', Run cfg s trace s' ∧ puts g trace = [] ∧ Live g s' ∧ Settled g s' := by
  obtain ⟨n, hn⟩ : ∃ n, backlog g s = n := ⟨_, rfl⟩
  induction n using Nat.strong_induction_on generalizing s with
  | _ n ih =>
    obtain ⟨trace, s₁, run, hloop, hsame, hputs⟩ := @loop_finishes cfg s hordered
    have hlive₁ := hlive.of_same hsame
    have hclosed₁ : (s₁.channel g).closed = false := by rw [hsame.channel, hclosed]
    have hbacklog : backlog g s₁ = n := by
      rw [← hn, backlog, backlog, hsame.channel, hsame.callbacks, hsame.sched.inbox]
    by_cases hsettled : Settled g s₁
    · exact ⟨trace, s₁, run, hputs g, hlive₁, hsettled⟩
    obtain ⟨label, s₂, hstep, hputs₂, hlive₂, hclosed₂, hlt⟩ :=
      @exists_delivery_step cfg _ _ hlive₁ hclosed₁ hloop hsettled
    have run₂ := run.next label hstep
    obtain ⟨trace', s', run', hputs', hlive', hsettled'⟩ := ih _ (by omega) (run₂.ordered hordered) hlive₂ hclosed₂ rfl
    exact ⟨_, s', run₂.trans run', by simp [hputs, hputs₂, hputs'], hlive', hsettled'⟩

/-! ### What routing a completion does -/

namespace Scheduler

/-- A pending turn is not an aborted one, and its future is open. -/
def TurnsOpen (s : Scheduler) : Prop :=
  ∀ r ∈ s.turnWaiters, r ∉ s.detachedTurns ∧ s.turnOutcomes.lookup r = none

end Scheduler

/-- The completion was handled: its slot is free again; a pending turn is resolved with it; otherwise its
batch, if it is tracked and did not count the request before, counts it. -/
structure Settles (c : Completion) (before after : Scheduler) : Prop where
  slot : ∀ r, c.requestId = some r → after.schedulingPool.activeSlots.lookup r = none ∧
    ∀ slot, before.schedulingPool.activeSlots.lookup r = some slot → slot ∈ after.schedulingPool.freeSlots
  turn : ∀ r, c.requestId = some r → r ∈ before.turnWaiters →
    after.turnOutcomes.lookup r = some (.result c) ∧ r ∉ after.turnWaiters
  tracker : ∀ b t, c.batchId = some b → (∀ r, c.requestId = some r → before.isTurn r = false) →
    before.schedulingPool.batchTrackers.lookup b = some t →
    (b, c.requestId) ∉ before.schedulingPool.completedRequests →
      after.schedulingPool.batchTrackers.lookup b =
        some { t with completedRequests := t.completedRequests + 1 }

/-- **The output parser raises on a completion that its batch waits for**: the request is no turn, the batch tracks it
and has not counted it, and its line cannot be built. -/
def Unparsed (cfg : Config) (c : Completion) (before : Scheduler) : Prop :=
  ∃ r b, c.requestId = some r ∧ c.batchId = some b ∧ before.isTurn r = false ∧
    (∃ t, before.schedulingPool.batchTrackers.lookup b = some t) ∧
    (b, some r) ∉ before.schedulingPool.completedRequests ∧ cfg.incrementalOutputDir = true ∧
    ∃ info, before.findMeta b r = some info ∧ resultItem cfg info c = none

theorem Scheduler.writePoolCompletion_eq_none_iff {s : Scheduler} : s.writePoolCompletion cfg b r c = none ↔
    cfg.incrementalOutputDir = true ∧ ∃ info, s.findMeta b r = some info ∧ resultItem cfg info c = none := by
  unfold Scheduler.writePoolCompletion
  split
  · rename_i hdir
    cases s.findMeta b r <;> simp [hdir]
  · rename_i hdir
    simp [hdir]

theorem Scheduler.resolveTurn_pending {s : Scheduler} (hs : s.TurnsOpen) (hr : r ∈ s.turnWaiters) :
    (s.resolveTurn r c).turnOutcomes.lookup r = some (.result c) ∧ r ∉ (s.resolveTurn r c).turnWaiters := by
  obtain ⟨hdetached, houtcome⟩ := hs r hr
  simp [Scheduler.resolveTurn, hdetached, houtcome]

theorem Scheduler.resolveTurn_schedulingPool {s : Scheduler} :
    (s.resolveTurn r c).schedulingPool = s.schedulingPool := by
  obtain ⟨_, _, _, heq⟩ := s.resolveTurn_frame r c
  rw [heq]

/-- **Routing a completion settles it unless its output does not parse.** -/
theorem deliver_settles_iff {s : Scheduler} (hs : s.TurnsOpen) : Settles c s (s.deliver cfg c) ↔ ¬Unparsed cfg c s := by
  constructor
  · rintro hsettles ⟨r, b, hr, hb, hturn, ⟨t, ht⟩, hnew, hwrite⟩
    -- the item is skipped with the slot freed, so the tracker is as it was
    have hskipped : s.deliver cfg c = { s with schedulingPool := s.schedulingPool.freeSlot r } := by
      have hturn' : ({ s with schedulingPool := s.schedulingPool.freeSlot r } : Scheduler).isTurn r = false := hturn
      have hnone := (Scheduler.writePoolCompletion_eq_none_iff
        (s := { s with schedulingPool := s.schedulingPool.freeSlot r })).mpr hwrite
      simp [Scheduler.deliver, hr, hb, hturn', hnone]
    have hcounted := hsettles.tracker b t hb (fun r' hr' => by cases hr.symm.trans hr'; exact hturn) ht (hr ▸ hnew)
    rw [hskipped, SchedulingPool.freeSlot_batchTrackers, ht] at hcounted
    have hcount := congrArg BatchTracker.completedRequests (Option.some.inj hcounted)
    simp at hcount
  intro hparsed
  unfold Scheduler.deliver
  split
  · rename_i hr hb
    exact ⟨by simp [hr], by simp [hr], by simp [hb]⟩
  · rename_i b hr hb
    refine ⟨by simp [hr], by simp [hr], fun b' t hb' _ ht hnew => ?_⟩
    cases hb.symm.trans hb'
    exact SchedulingPool.lookup_markRequestCompleted ht (hr ▸ hnew)
  · rename_i r hr
    dsimp only
    split
    · -- a turn: its slot is free and its waiter resolved
      rename_i hturn
      refine ⟨fun r' hr' => ?_, fun r' hr' hwaiting => ?_, fun b t _ hno _ _ => ?_⟩
      · cases hr.symm.trans hr'
        rw [Scheduler.resolveTurn_schedulingPool]
        exact ⟨SchedulingPool.lookup_freeSlot, fun _ => SchedulingPool.mem_freeSlot⟩
      · cases hr.symm.trans hr'
        exact Scheduler.resolveTurn_pending hs hwaiting
      · have : s.isTurn r = true := hturn
        simp [hno r hr] at this
    · rename_i hturn
      have hwaiting (r' : RequestId) (hr' : c.requestId = some r') (hmem : r' ∈ s.turnWaiters) : False := by
        cases hr.symm.trans hr'
        exact hturn (by simp [Scheduler.isTurn, hmem])
      split
      · rename_i hb
        refine ⟨fun r' hr' => ?_, fun r' hr' hmem => (hwaiting r' hr' hmem).elim, by simp [hb]⟩
        cases hr.symm.trans hr'
        exact ⟨SchedulingPool.lookup_freeSlot, fun _ => SchedulingPool.mem_freeSlot⟩
      · rename_i b hb
        split
        · rename_i hwrite
          refine ⟨fun r' hr' => ?_, fun r' hr' hmem => (hwaiting r' hr' hmem).elim, fun b' t hb' _ ht hnew => ?_⟩
          · cases hr.symm.trans hr'
            exact ⟨SchedulingPool.lookup_freeSlot, fun _ => SchedulingPool.mem_freeSlot⟩
          · cases hb.symm.trans hb'
            have hline := Scheduler.writePoolCompletion_eq_none_iff.mp hwrite
            exact absurd ⟨r, b, hr, hb, Bool.eq_false_iff.mpr hturn, ⟨t, ht⟩, hr ▸ hnew, hline⟩ hparsed
        rename_i s' hwrite
        obtain ⟨_, rfl, -⟩ := Scheduler.writePoolCompletion_frame hwrite
        refine ⟨fun r' hr' => ?_, fun r' hr' hmem => (hwaiting r' hr' hmem).elim, fun b' t hb' _ ht hnew => ?_⟩
        · cases hr.symm.trans hr'
          simp only [SchedulingPool.markRequestCompleted_slots]
          exact ⟨SchedulingPool.lookup_freeSlot, fun _ => SchedulingPool.mem_freeSlot⟩
        · cases hb.symm.trans hb'
          refine SchedulingPool.lookup_markRequestCompleted ?_ ?_
          · rw [SchedulingPool.freeSlot_batchTrackers, ht]
          · rw [SchedulingPool.freeSlot_completedRequests, ← hr]
            exact hnew

/-! ### Pending turns stay open -/

namespace Scheduler

variable {s s' : Scheduler}

theorem TurnsOpen.resolveTurn (h : s.TurnsOpen) : (s.resolveTurn r c).TurnsOpen := by
  unfold Scheduler.resolveTurn
  split
  · intro r' hr'
    obtain ⟨hdetached, houtcome⟩ := h r' hr'
    exact ⟨fun hmem => hdetached (mem_filter.1 hmem).1, houtcome⟩
  dsimp only
  split
  all_goals
    intro r' hr'
    obtain ⟨hmem, hne⟩ := mem_filter.1 hr'
    obtain ⟨hdetached, houtcome⟩ := h r' hmem
  · exact ⟨hdetached, houtcome⟩
  · exact ⟨hdetached, by simpa [AList.lookup_insert_ne (show r' ≠ r by simpa using hne)] using houtcome⟩

theorem TurnsOpen.deliver (h : s.TurnsOpen) : (s.deliver cfg c).TurnsOpen := by
  unfold Scheduler.deliver
  split
  · exact h
  · exact h
  dsimp only
  split
  · exact TurnsOpen.resolveTurn (s := { s with schedulingPool := _ }) h
  split
  · exact h
  · split
    · exact h
    · rename_i hwrite
      obtain ⟨_, rfl, -⟩ := Scheduler.writePoolCompletion_frame hwrite
      exact h

theorem TurnsOpen.closeTurnGate : (s.closeTurnGate error).TurnsOpen := by
  intro r hr
  simp [Scheduler.closeTurnGate] at hr

theorem TurnsOpen.submitTurn (h : s.TurnsOpen) (hsubmit : s.submitTurn r = some s') : s'.TurnsOpen := by
  unfold Scheduler.submitTurn at hsubmit
  split at hsubmit
  · cases hsubmit
  rename_i hopen
  obtain ⟨intake, -, rfl⟩ := Option.map_eq_some_iff.1 hsubmit
  intro r' hr'
  rcases mem_append.1 hr' with hmem | hmem
  · exact h r' hmem
  · obtain rfl := mem_singleton.1 hmem
    simp only [not_or, Scheduler.isTurn, decide_eq_true_eq, Bool.not_eq_true,
      Option.isSome_eq_false_iff, Option.isNone_iff_eq_none] at hopen
    exact ⟨hopen.2.1.2, hopen.2.2⟩

theorem TurnsOpen.cancelTurn (h : s.TurnsOpen) (hcancel : s.cancelTurn r = some s') : s'.TurnsOpen := by
  unfold Scheduler.cancelTurn at hcancel
  split at hcancel
  · cases hcancel
    intro r' hr'
    obtain ⟨hmem, hne⟩ := mem_filter.1 hr'
    replace hne : r' ≠ r := by simpa using hne
    obtain ⟨hdetached, houtcome⟩ := h r' hmem
    constructor
    · dsimp only
      split
      · exact hdetached
      · simp [hdetached, hne]
    · dsimp only
      split
      · exact houtcome
      · rw [AList.lookup_insert_ne hne, houtcome]
  · cases hcancel

end Scheduler

theorem Op.exec_turnsOpen {s : Scheduler} (h : s.TurnsOpen) : (op.exec cfg s).1.TurnsOpen := by
  cases op with
  | deliver g c => exact h.deliver
  | closeTurnGate error => exact .closeTurnGate
  | allocateSlots drained rest => cases rest <;> simp only [Op.exec] <;> split <;> exact h
  | poll b timedOut =>
    simp only [Op.exec]
    split <;> repeat' split
    all_goals exact h
  | failCheck b error =>
    simp only [Op.exec]
    split
    · exact h
    · split <;> exact h
  | updateBatchStatus | submitBatch | setCapacity | cancelCheck =>
    simp only [Op.exec]
    split <;> exact h
  | registerBatch | setTrackerError | removeBatchEntries | callCloseTurnGate | clearActiveSlots | writeOutput
  | forgetBatch | selectFromIntake => exact h

theorem runCallback_turnsOpen {c : Callback} {s : Scheduler} (h : s.TurnsOpen) : (s.runCallback c).TurnsOpen := by
  cases c with
  | offerCompletion g item =>
    simp only [Scheduler.runCallback, Scheduler.offerCompletion]
    split <;> exact h
  | closeTurnGate error => exact .closeTurnGate
  | openTurnGate => exact h

theorem step_turnsOpen {label : Label} (h : s.sched.TurnsOpen) (hstep : step cfg label s = some s') :
    s'.sched.TurnsOpen := by
  cases stepped_of_step hstep with
  | callback => exact runCallback_turnsOpen (s := { s.sched with callbacks := _ }) h
  | submitTurn r sched hsched => exact h.submitTurn hsched
  | cancelTurn r sched hsched => exact h.cancelTurn hsched
  | loopOp | threadOp => exact Op.exec_turnsOpen h
  | _ => exact h

section

variable (h : Run cfg s₀ trace s) (h₀ : s₀.sched.TurnsOpen)
include h h₀

theorem Run.turnsOpen : s.sched.TurnsOpen := by
  induction h with
  | start => exact h₀
  | next _ _ hstep ih => exact step_turnsOpen ih hstep

/-- Every completion of a run is routed from a state in which the pending turns are open. -/
theorem Run.delivered_turnsOpen (hmem : .delivered g c before after ∈ trace) :
    before.TurnsOpen ∧ after = before.deliver cfg c := by
  induction h with
  | start => simp at hmem
  | next label run _ ih =>
    rcases mem_append.1 hmem with hold | hnew
    · exact ih hold
    · cases label <;> simp only [events, mem_cons, not_mem_nil, or_false, reduceCtorEq] at hnew
      split at hnew <;> simp only [mem_cons, not_mem_nil, or_false, reduceCtorEq, Event.delivered.injEq] at hnew
      obtain ⟨rfl, rfl, rfl, rfl⟩ := hnew
      exact ⟨run.turnsOpen h₀, rfl⟩

end

/-! ### Every completion is routed, unless one with an error came before -/

/-- In a settled state the listener has routed what the pump forwards of the stream. -/
theorem Accounted.delivered_eq (h : Accounted g trace s) (hsettled : Settled g s) :
    delivered g trace = completions (throughTerminal (puts g trace)) := by
  obtain ⟨forwarded, hputs, haccount, hreading⟩ := h.account
  have hdelivered : delivered g trace = completions forwarded := by
    rw [← haccount, hsettled.loop, hsettled.inbox, hsettled.callbacks]
    simp [inboxItems, callbackItems, completions]
  rw [hdelivered, hputs]
  by_cases hopen : (s.channel g).reading
  · rw [if_pos hopen] at hreading
    rw [hsettled.queue hopen, append_nil, throughTerminal_eq_self hreading]
  · rw [if_neg hopen] at hreading
    rw [throughTerminal_append_of_mem hreading.1, hreading.2]

/-- While the pump of a generation is live, delivery always comes to an end; and then every completion that
the generation wrote before the end of its stream was routed, once and in order, and settled, exactly when
no completion was written after an item with an error and the output parser raised on none that its batch waited
for. -/
theorem completions_delivered_iff (run : Run cfg (initialState maxIntakeCapacity status) trace s) (hlive : Live g s) :
    (∃ trace' s', Run cfg s trace' s' ∧ puts g trace' = [] ∧ Live g s' ∧ Settled g s') ∧ (Settled g s →
        ((delivered g trace = completions (beforeEnd (puts g trace)) ∧
            ∀ c before after, .delivered g c before after ∈ trace → Settles c before after) ↔
          ¬CompletionAfterError (puts g trace) ∧
            ∀ c before after, .delivered g c before after ∈ trace → ¬Unparsed cfg c before)) := by
  have haccounted := run.accounted hlive
  refine ⟨reaches_settled (run.ordered initialState_ordered) hlive haccounted.closed, fun hsettled => ?_⟩
  rw [haccounted.delivered_eq hsettled, completions_throughTerminal]
  have hturns : (initialState maxIntakeCapacity status).sched.TurnsOpen := fun r hr => by
    simp [initialState, State.startCompletionPump, State.setGeneration, State.setChannel, State.stopPump] at hr
  refine and_congr_right fun _ => forall₃_congr fun c before after => forall_congr' fun hmem => ?_
  obtain ⟨hopen, rfl⟩ := run.delivered_turnsOpen hturns hmem
  exact deliver_settles_iff hopen

/-- The completion of a rejected request of batch 7. -/
def rejectedCompletion (r : RequestId) : Completion :=
  ⟨some r, some 7, some ⟨some "context_length_exceeded", some "Prompt length ? exceeds model context 8"⟩, "",
    0, 0, "stop"⟩

/-- Two completions cross the three threads. -/
def twoDeliveries : Option (List Event × State) :=
  runLabels plainConfig
    [.put 1 (.completion (textCompletion 1)), .put 1 (.completion (textCompletion 2)), .pumpRead 1,
      .pumpRead 1, .callback, .listen, .loopOp, .callback, .listen, .loopOp]
    (initialState 10 fun _ => none)

theorem twoDeliveries_delivered :
    ∃ trace s, twoDeliveries = some (trace, s) ∧ Settled 1 s ∧ ¬CompletionAfterError (puts 1 trace) ∧
      delivered 1 trace = [textCompletion 1, textCompletion 2] ∧
      delivered 1 trace = completions (beforeEnd (puts 1 trace)) := by
  obtain ⟨⟨trace, s⟩, h⟩ : ∃ p, twoDeliveries = some p := Option.isSome_iff_exists.1 (by decide +kernel)
  have hlive : Live 1 s := by
    cases h
    exact ⟨by decide +kernel, by decide +kernel, by decide +kernel⟩
  have hsettled : Settled 1 s := by
    cases h
    exact ⟨rfl, rfl, rfl, fun _ => rfl⟩
  have herror : ¬CompletionAfterError (puts 1 trace) := by
    cases h
    exact (completions_throughTerminal _).1 rfl
  have hparsed : ∀ c before after, .delivered 1 c before after ∈ trace → ¬Unparsed plainConfig c before := by
    rintro c before after - ⟨r, b, -, -, -, -, -, -, info, -, hnone⟩
    unfold resultItem at hnone
    split at hnone
    · cases hnone
    · split at hnone <;> cases hnone
  have hdelivered := ((completions_delivered_iff (runLabels_run h) hlive).2 hsettled).2 ⟨herror, hparsed⟩
  refine ⟨trace, s, h, hsettled, herror, ?_, hdelivered.1⟩
  cases h
  rfl

/-- The pump takes the rejection of request 1 for the end of the stream and never reads the completion of
request 2. -/
theorem completion_behind_rejection_lost :
    ∃ trace s, Run plainConfig (initialState 10 fun _ => none) trace s ∧ Live 1 s ∧ Settled 1 s ∧
      puts 1 trace = [.completion (rejectedCompletion 1), .completion (textCompletion 2)] ∧
      delivered 1 trace = [rejectedCompletion 1] ∧ (s.channel 1).reading = false := by
  obtain ⟨⟨trace, s⟩, h⟩ : ∃ p, runLabels plainConfig
      [.put 1 (.completion (rejectedCompletion 1)), .put 1 (.completion (textCompletion 2)), .pumpRead 1,
        .callback, .listen, .loopOp]
      (initialState 10 fun _ => none) = some p := Option.isSome_iff_exists.1 (by decide +kernel)
  refine ⟨trace, s, runLabels_run h, ?_⟩
  cases h
  exact ⟨⟨by decide +kernel, by decide +kernel, by decide +kernel⟩, ⟨rfl, rfl, rfl, nofun⟩, rfl, rfl, rfl⟩

end Batchgen.Server
