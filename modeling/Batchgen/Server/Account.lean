import Batchgen.Server.Interleaving

/-!
# The account of a worker generation

A completion crosses three threads: a worker writes it, the pump of its generation reads it and hands it to
the event loop, a callback puts it into the inbox, and the listener routes it.  `Accounted` follows the
completions of the live generation along that way: those routed, those on the way and those still in the
queue are, in this order, those that were written.

* `completions_throughTerminal` — which completions of a stream the pump forwards;
* `Tracked.step` — every step of every thread keeps the account;
* `Run.accounted` — the account holds in every state of every run.
-/

namespace Batchgen.Server

open Function List

variable {cfg : Config} {s s' s₀ : State} {trace trace' : List Event} {g g' : ℕ} {ys rest xs : List Item} {b : BatchId}
  {label : Label} {item : Item} {r : RequestId} {op : Op} {ops : List Op} {sched : Scheduler}

/-! ### What was written and what was routed -/

/-- The items written by a generation. -/
def puts (g : ℕ) (trace : List Event) : List Item :=
  trace.filterMap fun
    | .put g' item => if g' = g then some item else none
    | _ => none

/-- The completions of a generation that the listener routed. -/
def delivered (g : ℕ) (trace : List Event) : List Completion :=
  trace.filterMap fun
    | .delivered g' c _ _ => if g' = g then some c else none
    | _ => none

def completions (items : List Item) : List Completion :=
  items.filterMap fun
    | .completion c => some c
    | _ => none

/-- The two items by which a worker ends its stream. -/
def Item.ends : Item → Bool
  | .endOfStream => true
  | .poolShutdown _ => true
  | _ => false

def beforeEnd (items : List Item) : List Item := items.takeWhile fun item => !item.ends

/-- What the pump forwards of a stream. -/
def throughTerminal : List Item → List Item
  | [] => []
  | item :: rest => if item.terminal then [item] else item :: throughTerminal rest

/-- Some completion is written after an item with an error and before the end of the stream. -/
def CompletionAfterError (items : List Item) : Prop :=
  ∃ pre item post, beforeEnd items = pre ++ item :: post ∧ item.hasError ∧ completions post ≠ []

@[simp] theorem puts_append : puts g (trace ++ trace') = puts g trace ++ puts g trace' := filterMap_append

@[simp] theorem delivered_append : delivered g (trace ++ trace') = delivered g trace ++ delivered g trace' :=
  filterMap_append

@[simp] theorem completions_append (xs ys : List Item) : completions (xs ++ ys) = completions xs ++ completions ys :=
  filterMap_append

theorem completions_cons (item : Item) (rest : List Item) :
    completions (item :: rest) = completions [item] ++ completions rest :=
  completions_append [item] rest

theorem Item.terminal_of_ends (h : item.ends) : item.terminal := by
  cases item <;> simp_all [Item.ends, Item.terminal]

theorem Item.hasError_of_terminal (h : item.terminal) (hends : item.ends = false) : item.hasError := by
  cases item <;> simp_all [Item.ends, Item.terminal]

theorem completions_of_ends (h : item.ends) : completions [item] = [] := by
  cases item <;> simp_all [Item.ends, completions]

theorem beforeEnd_cons_of_ends (h : item.ends) : beforeEnd (item :: rest) = [] := by
  simp [beforeEnd, h]

theorem beforeEnd_cons_of_not_ends (h : item.ends = false) : beforeEnd (item :: rest) = item :: beforeEnd rest := by
  simp [beforeEnd, h]

theorem throughTerminal_append_of_mem (h : ∃ x ∈ xs, x.terminal) : throughTerminal (xs ++ ys) = throughTerminal xs := by
  induction xs with
  | nil => simp at h
  | cons x xs ih =>
    by_cases hx : x.terminal
    · simp [throughTerminal, hx]
    · have hrest : ∃ y ∈ xs, y.terminal := by simpa [hx] using h
      simp [throughTerminal, hx, ih hrest]

theorem throughTerminal_of_forall_not (h : ∀ x ∈ xs, x.terminal = false) :
    throughTerminal (xs ++ ys) = xs ++ throughTerminal ys := by
  induction xs with
  | nil => rfl
  | cons x xs ih =>
    simp [throughTerminal, h x (by simp), ih fun y hy => h y (mem_cons_of_mem x hy)]

theorem throughTerminal_eq_self (h : ∀ x ∈ xs, x.terminal = false) : throughTerminal xs = xs := by
  have hnil : throughTerminal (xs ++ []) = xs ++ throughTerminal [] := throughTerminal_of_forall_not h
  simpa [throughTerminal] using hnil

theorem not_completionAfterError_of_ends (h : item.ends) : ¬CompletionAfterError (item :: rest) := by
  rintro ⟨pre, x, post, hsplit, -⟩
  simp [beforeEnd_cons_of_ends h] at hsplit

theorem completionAfterError_of_error (hends : item.ends = false) (herror : item.hasError) :
    CompletionAfterError (item :: rest) ↔ completions (beforeEnd rest) ≠ [] := by
  constructor
  · rintro ⟨pre, x, post, hsplit, -, hpost⟩
    rw [beforeEnd_cons_of_not_ends hends] at hsplit
    cases pre with
    | nil =>
      obtain ⟨rfl, rfl⟩ := List.cons.inj hsplit
      exact hpost
    | cons y pre =>
      rw [cons_append] at hsplit
      obtain ⟨rfl, hrest⟩ := List.cons.inj hsplit
      rw [hrest, completions_append, completions_cons]
      simp [hpost]
  · intro h
    exact ⟨[], item, beforeEnd rest, beforeEnd_cons_of_not_ends hends, herror, h⟩

theorem completionAfterError_cons (hends : item.ends = false) (herror : item.hasError = false) :
    CompletionAfterError (item :: rest) ↔ CompletionAfterError rest := by
  constructor
  · rintro ⟨pre, x, post, hsplit, hx, hpost⟩
    rw [beforeEnd_cons_of_not_ends hends] at hsplit
    cases pre with
    | nil =>
      obtain ⟨rfl, -⟩ := List.cons.inj hsplit
      simp [herror] at hx
    | cons y pre => exact ⟨pre, x, post, (List.cons.inj hsplit).2, hx, hpost⟩
  · rintro ⟨pre, x, post, hsplit, hx, hpost⟩
    exact ⟨item :: pre, x, post, by rw [beforeEnd_cons_of_not_ends hends, hsplit]; rfl, hx, hpost⟩

/-- The pump forwards every completion of a stream exactly when no completion follows an error. -/
theorem completions_throughTerminal (items : List Item) :
    completions (throughTerminal items) = completions (beforeEnd items) ↔ ¬CompletionAfterError items := by
  induction items with
  | nil =>
    simp only [throughTerminal, beforeEnd, takeWhile_nil, true_iff]
    rintro ⟨pre, x, post, hsplit, -⟩
    simp [beforeEnd] at hsplit
  | cons item rest ih =>
    by_cases hends : item.ends
    · rw [throughTerminal, if_pos (Item.terminal_of_ends hends), beforeEnd_cons_of_ends hends,
        completions_of_ends hends]
      simpa [completions] using not_completionAfterError_of_ends hends
    replace hends : item.ends = false := by simpa using hends
    rw [beforeEnd_cons_of_not_ends hends, completions_cons item]
    by_cases hterminal : item.terminal
    · have herror := Item.hasError_of_terminal hterminal hends
      rw [throughTerminal, if_pos hterminal, completionAfterError_of_error hends herror, not_not, self_eq_append_right]
    · have herror : item.hasError = false := by
        cases item <;> simp_all [Item.terminal, Item.ends]
      rw [throughTerminal, if_neg hterminal, completions_cons item, append_cancel_left_eq,
        completionAfterError_cons hends herror, ih]

/-! ### The account of a generation -/

/-- The pump of generation `g` runs, is not superseded, and the scheduler is not stopped. -/
structure Live (g : ℕ) (s : State) : Prop where
  started : (s.channel g).started
  generation : s.sched.pumpGeneration = g
  running : s.sched.stopped = false

def callbackItems (g : ℕ) (callbacks : List Callback) : List Item :=
  callbacks.filterMap fun
    | .offerCompletion g' item => if g' = g then some item else none
    | _ => none

def inboxItems (g : ℕ) (inbox : List (ℕ × Item)) : List Item :=
  inbox.filterMap fun p => if p.1 = g then some p.2 else none

/-- The completions of a generation that the running loop task is about to route. -/
def routing (g : ℕ) (ops : List Op) : List Completion :=
  ops.filterMap fun
    | .deliver g' c => if g' = g then some c else none
    | _ => none

/-- A generation whose pump was not started yet. -/
structure Unstarted (g : ℕ) (trace : List Event) (s : State) : Prop where
  started : (s.channel g).started = false
  stop : (s.channel g).stop = false
  closed : (s.channel g).closed = false
  queue : (s.channel g).queue = puts g trace
  callbacks : callbackItems g s.sched.callbacks = []
  inbox : inboxItems g s.sched.completionInbox = []
  loop : routing g s.loop = []
  delivered : delivered g trace = []

/-- Where the completions written by the live generation are. -/
structure Accounted (g : ℕ) (trace : List Event) (s : State) : Prop where
  stop : (s.channel g).stop = false
  closed : (s.channel g).closed = false
  account : ∃ forwarded,
    puts g trace = forwarded ++ (s.channel g).queue ∧
    delivered g trace ++ routing g s.loop ++
      completions (inboxItems g s.sched.completionInbox ++ callbackItems g s.sched.callbacks) =
        completions forwarded ∧
    if (s.channel g).reading then ∀ item ∈ forwarded, item.terminal = false
    else (∃ item ∈ forwarded, item.terminal) ∧ throughTerminal forwarded = forwarded

/-! ### What a step does to the way of a completion -/

/-- The parts of the scheduler that carry items are unchanged. -/
structure SameInbox (s s' : Scheduler) : Prop where
  inbox : s'.completionInbox = s.completionInbox
  generation : s'.pumpGeneration = s.pumpGeneration
  stopped : s'.stopped = s.stopped

theorem SameInbox.rfl {s : Scheduler} : SameInbox s s := ⟨by rfl, by rfl, by rfl⟩

theorem SameInbox.deliver (cfg : Config) (c : Completion) (s : Scheduler) :
    SameInbox s (s.deliver cfg c) ∧ (s.deliver cfg c).callbacks = s.callbacks := by
  obtain ⟨_, _, _, _, _, _, -, -, -, heq⟩ := s.deliver_frame cfg c
  rw [heq]
  exact ⟨⟨by rfl, by rfl, by rfl⟩, by rfl⟩

/-- No operation touches the inbox, and a callback that one adds carries no item. -/
theorem Op.exec_sameInbox (cfg : Config) (op : Op) (s : Scheduler) :
    SameInbox s (op.exec cfg s).1 ∧ callbackItems g (op.exec cfg s).1.callbacks = callbackItems g s.callbacks := by
  cases op with
  | deliver g' c =>
    obtain ⟨h, hc⟩ := SameInbox.deliver cfg c s
    exact ⟨h, by rw [Op.exec, hc]⟩
  | callCloseTurnGate error =>
    exact ⟨⟨by rfl, by rfl, by rfl⟩, by simp [Op.exec, callbackItems]⟩
  | allocateSlots drained rest =>
    cases rest <;> simp only [Op.exec] <;> split <;> exact ⟨⟨by rfl, by rfl, by rfl⟩, by rfl⟩
  | poll b timedOut =>
    simp only [Op.exec]
    split <;> repeat' split
    all_goals exact ⟨⟨by rfl, by rfl, by rfl⟩, by rfl⟩
  | failCheck b error =>
    simp only [Op.exec]
    split
    · exact ⟨.rfl, by rfl⟩
    · split <;> exact ⟨.rfl, by rfl⟩
  | updateBatchStatus | submitBatch | setCapacity | cancelCheck =>
    simp only [Op.exec]
    split <;> exact ⟨⟨by rfl, by rfl, by rfl⟩, by rfl⟩
  | registerBatch | setTrackerError | removeBatchEntries | closeTurnGate | clearActiveSlots | writeOutput
  | forgetBatch | selectFromIntake => exact ⟨⟨by rfl, by rfl, by rfl⟩, by rfl⟩

/-- An operation that only `fail_in_flight` or the listener starts. -/
def Op.Entry : Op → Prop
  | .deliver _ _ => True
  | .callCloseTurnGate _ => True
  | _ => False

theorem Op.Follows.not_entry (h : op.Follows) : ¬op.Entry := by
  cases op <;> simp_all [Op.Follows, Op.Entry]

/-- An operation never queues a completion to be routed, nor a call onto the loop. -/
theorem Op.exec_not_entry {op' : Op} {s : Scheduler} (h : op' ∈ (op.exec cfg s).2) : ¬op'.Entry := by
  rcases Op.exec_next h with ⟨hfollows, -⟩ | ⟨-, hdrains⟩
  · exact hfollows.not_entry
  · cases op' <;> simp_all [Op.Drains, Op.Entry]

theorem routing_eq_nil (h : ∀ op ∈ ops, ¬op.Entry) : routing g ops = [] := by
  refine filterMap_eq_nil_iff.2 fun op hop => ?_
  have := h op hop
  cases op <;> simp_all [Op.Entry]

@[simp] theorem routing_nil : routing g [] = [] := rfl

@[simp] theorem inboxItems_cons_self (item : Item) (rest : List (ℕ × Item)) :
    inboxItems g ((g, item) :: rest) = item :: inboxItems g rest := by
  simp [inboxItems]

@[simp] theorem routing_append (xs ys : List Op) : routing g (xs ++ ys) = routing g xs ++ routing g ys :=
  filterMap_append

/-! ### The account along a run -/

/-- What is kept for a generation before its pump starts and while its pump is live. -/
structure Tracked (g : ℕ) (trace : List Event) (s : State) : Prop where
  unstarted : s.sched.pumpGeneration < g → Unstarted g trace s
  live : Live g s → Accounted g trace s

/-- Everything of a state that the account of generation `g` reads. -/
structure SameWay (g : ℕ) (s s' : State) : Prop where
  channel : s'.channel g = s.channel g
  callbacks : callbackItems g s'.sched.callbacks = callbackItems g s.sched.callbacks
  inbox : inboxItems g s'.sched.completionInbox = inboxItems g s.sched.completionInbox
  loop : routing g s'.loop = routing g s.loop
  generation : s'.sched.pumpGeneration = s.sched.pumpGeneration
  stopped : s'.sched.stopped = s.sched.stopped

theorem Tracked.of_sameWay (h : Tracked g trace s) (hsame : SameWay g s s') (hputs : puts g trace' = [])
    (hdelivered : delivered g trace' = []) : Tracked g (trace ++ trace') s' := by
  obtain ⟨hchannel, hcallbacks, hinbox, hloop, hgeneration, hstopped⟩ := hsame
  constructor
  · intro hlt
    obtain ⟨h1, h2, h3, h4, h5, h6, h7, h8⟩ := h.unstarted (hgeneration ▸ hlt)
    constructor <;> simp_all
  · intro hlive
    obtain ⟨h1, h2, h3⟩ := h.live ⟨hchannel ▸ hlive.started, hgeneration ▸ hlive.generation, hstopped ▸ hlive.running⟩
    constructor <;> simp_all

/-- Before its pump starts, the account of a generation reads neither the number of the live one nor `stopped`. -/
theorem Unstarted.of_channel (h : Unstarted g trace s) (hchannel : s'.channel g = s.channel g)
    (hcallbacks : s'.sched.callbacks = s.sched.callbacks)
    (hinbox : s'.sched.completionInbox = s.sched.completionInbox) (hloop : s'.loop = s.loop) :
    Unstarted g trace s' := by
  obtain ⟨h1, h2, h3, h4, h5, h6, h7, h8⟩ := h
  constructor <;> simp_all

theorem SameWay.of_sameInbox (h : SameInbox s.sched sched)
    (hcallbacks : callbackItems g sched.callbacks = callbackItems g s.sched.callbacks)
    (hloop : routing g ops = routing g s.loop) : SameWay g s { s with sched := sched, loop := ops } :=
  ⟨by rfl, hcallbacks, by rw [h.inbox], hloop, h.generation, h.stopped⟩

section

variable (h : Tracked g trace s)
include h

/-- A step of which generation `g` sees nothing. -/
theorem Tracked.silent (hsame : SameWay g s s') : Tracked g (trace ++ []) s' :=
  h.of_sameWay hsame (by rfl) (by rfl)

theorem Tracked.put (g' : ℕ) (item : Item) : Tracked g (trace ++ [.put g' item])
      (s.setChannel g' { s.channel g' with queue := (s.channel g').queue ++ [item] }) := by
  by_cases hg : g' = g
  · subst hg
    constructor
    · intro hlt
      obtain ⟨h1, h2, h3, h4, h5, h6, h7, h8⟩ := h.unstarted hlt
      constructor <;> simp_all [State.setChannel, puts, Server.delivered]
    · intro hlive
      obtain ⟨hstop, hclosed, forwarded, hputs, haccount, hreading⟩ :=
        h.live ⟨by simpa [State.setChannel] using hlive.started, hlive.generation, hlive.running⟩
      refine ⟨by simpa [State.setChannel], by simpa [State.setChannel], forwarded, ?_, ?_, ?_⟩
      · rw [puts_append, hputs]
        simp [State.setChannel, puts]
      · simpa [State.setChannel, Server.delivered] using haccount
      · simpa [State.setChannel] using hreading
  · refine h.of_sameWay ⟨?_, by rfl, by rfl, by rfl, by rfl, by rfl⟩ (by simp [puts, hg]) (by rfl)
    simp [State.setChannel, update_of_ne (Ne.symm hg)]

theorem Tracked.pumpRead (g' : ℕ) (hreading : (s.channel g').reading) (hqueue : (s.channel g').queue = item :: rest)
    (hstarted : ∀ g, (s.channel g).reading → (s.channel g).started) :
    Tracked g (trace ++ [])
      ((s.setChannel g' { s.channel g' with queue := rest, reading := !item.terminal }).forward g' item) := by
  by_cases hg : g' = g
  · subst hg
    constructor
    · intro hlt
      have := (h.unstarted hlt).started
      simp [hstarted g' hreading] at this
    · intro hlive
      obtain ⟨hstop, hclosed, forwarded, hputs, haccount, hopen⟩ :=
        h.live ⟨hstarted g' hreading, hlive.generation, hlive.running⟩
      rw [if_pos hreading] at hopen
      refine ⟨by simpa [State.setChannel, State.forward], by simpa [State.setChannel, State.forward],
        forwarded ++ [item], ?_, ?_, ?_⟩
      · simp [State.setChannel, State.forward, hputs, hqueue]
      · simpa [State.setChannel, State.forward, callbackItems, ← append_assoc] using haccount
      · simp only [State.setChannel, State.forward, update_self]
        by_cases hterminal : item.terminal
        · simp [hterminal, throughTerminal_of_forall_not hopen, throughTerminal]
        · simpa [hterminal, or_imp, forall_and] using hopen
  · refine h.silent ⟨?_, ?_, by rfl, by rfl, by rfl, by rfl⟩
    · simp [State.setChannel, State.forward, update_of_ne (Ne.symm hg)]
    · simp [State.setChannel, State.forward, callbackItems, hg]

theorem Tracked.callback {c : Callback} {rest : List Callback} (hcallbacks : s.sched.callbacks = c :: rest) :
    Tracked g (trace ++ []) { s with sched := { s.sched with callbacks := rest }.runCallback c } := by
  cases c with
  | closeTurnGate error =>
    exact h.silent ⟨by rfl, by simp [hcallbacks, callbackItems, Scheduler.runCallback,
      Scheduler.closeTurnGate], by rfl, by rfl, by rfl, by rfl⟩
  | openTurnGate =>
    exact h.silent ⟨by rfl, by simp [hcallbacks, callbackItems, Scheduler.runCallback], by rfl, by rfl, by rfl, by rfl⟩
  | offerCompletion g' item =>
    simp only [Scheduler.runCallback, Scheduler.offerCompletion]
    by_cases hg : g' = g
    · subst hg
      constructor
      · intro hlt
        have hlt : s.sched.pumpGeneration < g' := by split at hlt <;> exact hlt
        have := (h.unstarted hlt).callbacks
        simp [hcallbacks, callbackItems] at this
      · intro hlive
        have hgeneration : s.sched.pumpGeneration = g' := by
          have := hlive.generation
          split at this <;> exact this
        obtain ⟨hstop, hclosed, forwarded, hputs, haccount, hopen⟩ := h.live ⟨hlive.started, hgeneration, by
            have := hlive.running
            split at this <;> exact this⟩
        refine ⟨hstop, hclosed, forwarded, by simpa using hputs, ?_, hopen⟩
        rw [if_neg (by simp [hgeneration])]
        simpa [hcallbacks, callbackItems, inboxItems] using haccount
    · refine h.silent ⟨by rfl, ?_, ?_, by rfl, ?_, ?_⟩
      · split <;> simp [hcallbacks, callbackItems, hg]
      · split <;> simp [inboxItems, hg]
      · split <;> rfl
      · split <;> rfl

end

/-- The operations that route an item route its completion and no other. -/
theorem routing_route (sched : Scheduler) (g' : ℕ) (item : Item) :
    routing g (route sched g' item) = if g' = g then completions [item] else [] := by
  obtain ⟨c, rfl, heq⟩ | ⟨hitem, heq⟩ := route_cases sched g' item
  · rw [heq]
    by_cases h : g' = g <;> simp [routing, completions, h]
  · have hnone : completions [item] = [] := by
      cases item <;> simp_all [completions]
    rw [hnone, ite_self]
    refine routing_eq_nil fun op hop => ?_
    obtain heq | ⟨total, heq⟩ | ⟨error, heq⟩ := heq <;> rw [heq] at hop
    · cases hop
    · exact mem_singleton.1 hop ▸ id
    · exact (failAllActiveBatches_follows hop).not_entry

theorem Tracked.listen {rest : List (ℕ × Item)} (h : Tracked g trace s) (hloop : s.loop = [])
    (hinbox : s.sched.completionInbox = (g', item) :: rest) :
    Tracked g (trace ++ []) { s with
      sched := { s.sched with completionInbox := rest }
      loop := if g' = s.sched.pumpGeneration then route { s.sched with completionInbox := rest } g' item
        else [] } := by
  by_cases hg : g' = g
  · subst hg
    constructor
    · intro hlt
      have := (h.unstarted hlt).inbox
      simp [hinbox, inboxItems] at this
    · intro hlive
      obtain ⟨hstop, hclosed, forwarded, hputs, haccount, hopen⟩ :=
        h.live ⟨hlive.started, hlive.generation, hlive.running⟩
      have hgeneration : g' = s.sched.pumpGeneration := hlive.generation.symm
      refine ⟨hstop, hclosed, forwarded, by simpa using hputs, ?_, hopen⟩
      rw [if_pos hgeneration, routing_route, if_pos rfl, ← haccount]
      simp only [hinbox, hloop, inboxItems_cons_self, append_nil, routing_nil, cons_append]
      rw [completions_cons item (inboxItems g' rest ++ _)]
      simp
  · refine h.silent ⟨by rfl, by rfl, by simp [hinbox, inboxItems, hg], ?_, by rfl, by rfl⟩
    rw [hloop]
    split
    · rw [routing_route, if_neg hg, routing_nil]
    · rfl

theorem Tracked.loopOp {rest : List Op} (h : Tracked g trace s) (hloop : s.loop = op :: rest) :
    Tracked g (trace ++ events cfg .loopOp s) (s.afterOp cfg op rest) := by
  obtain ⟨hsame, hcallbacks⟩ := op.exec_sameInbox (g := g) cfg s.sched
  have hnext : routing g (op.exec cfg s.sched).2 = [] := routing_eq_nil fun _ hop => Op.exec_not_entry hop
  have hputs : puts g (events cfg .loopOp s) = [] := by
    simp only [events, hloop]
    split <;> simp [puts]
  by_cases hop : routing g [op] = []
  · refine h.of_sameWay (.of_sameInbox hsame hcallbacks ?_) hputs ?_
    · rw [hloop, routing_append, hnext, ← singleton_append, routing_append, hop]
    · simp only [events, hloop]
      split <;> simp_all [Server.delivered, routing]
  · obtain ⟨c, rfl⟩ : ∃ c, op = .deliver g c := by
      cases op <;> simp_all [routing]
    have hroute (ops : List Op) : routing g (.deliver g c :: ops) = c :: routing g ops := by simp [routing]
    have hdelivered : delivered g (events cfg .loopOp s) = [c] := by
      simp [events, hloop, Server.delivered]
    constructor
    · intro hlt
      have := (h.unstarted (hsame.generation ▸ hlt)).loop
      simp [hloop, hroute] at this
    · intro hlive
      obtain ⟨hstop, hclosed, forwarded, hwritten, haccount, hopen⟩ :=
        h.live ⟨hlive.started, hsame.generation ▸ hlive.generation, hsame.stopped ▸ hlive.running⟩
      refine ⟨hstop, hclosed, forwarded, by rw [puts_append, hputs, append_nil, hwritten], ?_, hopen⟩
      rw [delivered_append, hdelivered, routing_append, hnext, hsame.inbox, hcallbacks, ← haccount, hloop, hroute]
      simp

/-- What every state of a run satisfies, whatever the generation. -/
structure Ordered (s : State) : Prop where
  /-- only a pump that was started reads -/
  reading : ∀ g, (s.channel g).reading → (s.channel g).started
  /-- the loop calls nothing onto itself -/
  onLoop : ∀ error, Op.callCloseTurnGate error ∉ s.loop

section

variable (h : Tracked g trace s)
include h

theorem Tracked.generationReady : Tracked g (trace ++ []) s.startCompletionPump := by
  rw [append_nil]
  have hother (hg : s.sched.pumpGeneration + 1 < g) : s.startCompletionPump.channel g = s.channel g := by
    simp only [State.startCompletionPump, State.setGeneration, State.setChannel, State.stopPump]
    rw [update_of_ne (by omega), update_of_ne (by omega)]
  constructor
  · intro hlt
    replace hlt : s.sched.pumpGeneration + 1 < g := hlt
    exact (h.unstarted (by omega)).of_channel (hother hlt) rfl rfl rfl
  · intro hlive
    have hg : s.sched.pumpGeneration + 1 = g := hlive.generation
    obtain ⟨h1, h2, h3, h4, h5, h6, h7, h8⟩ := h.unstarted (by omega)
    subst hg
    have hchannel : s.startCompletionPump.channel (s.sched.pumpGeneration + 1) =
        { s.channel (s.sched.pumpGeneration + 1) with started := true, reading := true, stop := false } := by
      simp [State.startCompletionPump, State.setGeneration, State.setChannel, State.stopPump]
    refine ⟨by rw [hchannel], by rw [hchannel, h3], [], by rw [hchannel, ← h4]; rfl, ?_, by simp [hchannel]⟩
    show delivered _ trace ++ routing _ s.loop ++
      completions (inboxItems _ s.sched.completionInbox ++ callbackItems _ s.sched.callbacks) = _
    rw [h8, h7, h6, h5]
    rfl

theorem Tracked.stopCompletionPump :
    Tracked g (trace ++ []) (s.stopPump.setGeneration (s.sched.pumpGeneration + 1)) := by
  rw [append_nil]
  have hother (hg : s.sched.pumpGeneration < g) :
      (s.stopPump.setGeneration (s.sched.pumpGeneration + 1)).channel g = s.channel g := by
    simp only [State.setGeneration, State.setChannel, State.stopPump]
    rw [update_of_ne (by omega)]
  constructor
  · intro hlt
    replace hlt : s.sched.pumpGeneration + 1 < g := hlt
    exact (h.unstarted (by omega)).of_channel (hother (by omega)) rfl rfl rfl
  · intro hlive
    have hg : s.sched.pumpGeneration + 1 = g := hlive.generation
    have hlt : s.sched.pumpGeneration < g := by omega
    -- the new number belongs to no pump
    have := hlive.started
    rw [hother hlt, (h.unstarted hlt).started] at this
    cases this

theorem Tracked.stop :
    Tracked g (trace ++ []) { s.stopPump with sched := { s.stopPump.sched with stopped := true } } := by
  rw [append_nil]
  constructor
  · intro hlt
    replace hlt : s.sched.pumpGeneration < g := hlt
    refine (h.unstarted hlt).of_channel ?_ rfl rfl rfl
    simp only [State.setChannel, State.stopPump]
    rw [update_of_ne (by omega)]
  · intro hlive
    exact absurd hlive.running (by simp)

theorem Tracked.setChannel_of_ne (c : Channel) (hg : g' ≠ g) : Tracked g (trace ++ []) (s.setChannel g' c) :=
  h.silent ⟨by simp [State.setChannel, update_of_ne hg.symm], by rfl, by rfl, by rfl, by rfl, by rfl⟩

end

/-- Nothing is kept for a generation whose pump was started and is no longer live. -/
theorem Tracked.of_dead (hgeneration : ¬s.sched.pumpGeneration < g) (hlive : ¬Live g s) : Tracked g trace s :=
  ⟨fun h => absurd h hgeneration, fun h => absurd h hlive⟩

theorem Tracked.pumpExit (h : Tracked g trace s) (hordered : Ordered s) {c : Channel}
    (hreading : (s.channel g').reading) (hstop : (s.channel g').stop ∨ s.sched.stopped)
    (hc : c.started = (s.channel g').started) : Tracked g (trace ++ []) (s.setChannel g' c) := by
  by_cases hg : g' = g
  · subst hg
    refine .of_dead (fun hlt => ?_) fun hlive => ?_
    · have := (h.unstarted hlt).started
      simp [hordered.reading g' hreading] at this
    · have := (h.live ⟨by simpa [State.setChannel, hc] using hlive.started, hlive.generation, hlive.running⟩).stop
      have := hlive.running
      simp_all [State.setChannel]
  · exact h.setChannel_of_ne c hg

theorem Tracked.pumpFail (h : Tracked g trace s) (hordered : Ordered s) {error : String}
    (hreading : (s.channel g').reading) (hclosed : (s.channel g').closed) :
    Tracked g (trace ++ [])
      ((s.setChannel g' { s.channel g' with reading := false }).forward g' (.channelError error)) := by
  by_cases hg : g' = g
  · subst hg
    refine .of_dead (fun hlt => ?_) fun hlive => ?_
    · have := (h.unstarted hlt).started
      simp [hordered.reading g' hreading] at this
    · have := (h.live ⟨hordered.reading g' hreading, hlive.generation, hlive.running⟩).closed
      simp [hclosed] at this
  · refine h.silent ⟨?_, ?_, by rfl, by rfl, by rfl, by rfl⟩
    · simp [State.setChannel, State.forward, update_of_ne (Ne.symm hg)]
    · simp [State.setChannel, State.forward, callbackItems, hg]

theorem Tracked.abandonChannel (h : Tracked g trace s) (hstop : (s.channel g').stop) :
    Tracked g (trace ++ []) (s.setChannel g' { s.channel g' with closed := true }) := by
  by_cases hg : g' = g
  · subst hg
    refine .of_dead (fun hlt => ?_) fun hlive => ?_
    · simp [(h.unstarted hlt).stop] at hstop
    · have := (h.live ⟨by simpa [State.setChannel] using hlive.started, hlive.generation, hlive.running⟩).stop
      simp [hstop] at this
  · exact h.setChannel_of_ne _ hg

theorem Processing.ops_not_entry {p : Processing} (h : op ∈ p.ops b) : ¬op.Entry := by
  cases p <;> simp only [Processing.ops, mem_cons, not_mem_nil, or_false] at h
  · subst h; exact id
  · rcases h with rfl | rfl <;> exact id
  · subst h; exact id
  · rcases h with rfl | rfl | rfl <;> exact id

theorem Tracked.begin (h : Tracked g trace s) (hloop : s.loop = []) (hsame : SameInbox s.sched sched)
    (hcallbacks : sched.callbacks = s.sched.callbacks)
    (hops : ∀ op ∈ ops, ¬op.Entry) : Tracked g (trace ++ []) { s with sched := sched, loop := ops } :=
  h.silent (.of_sameInbox hsame (by rw [hcallbacks]) (by rw [hloop, routing_eq_nil hops, routing_nil]))

theorem Tracked.step (h : Tracked g trace s) (hordered : Ordered s)
    (hstep : step cfg label s = some s') : Tracked g (trace ++ events cfg label s) s' := by
  cases stepped_of_step hstep with
  | put g' item => exact h.put g' item
  | pumpRead g' item rest hreading hqueue => exact h.pumpRead g' hreading hqueue hordered.reading
  | pumpExit g' hreading hstop => exact h.pumpExit hordered hreading hstop (by rfl)
  | pumpFailStopped g' error hreading hstop => exact h.pumpExit hordered hreading hstop (by rfl)
  | pumpFail g' error hreading hclosed => exact h.pumpFail hordered hreading hclosed
  | callback c rest hloop hcallbacks => exact h.callback hcallbacks
  | listen g' item rest hloop hinbox => exact h.listen hloop hinbox
  | process p b rest status hloop =>
    exact h.begin hloop ⟨by rfl, by rfl, by rfl⟩ (by rfl) fun _ hop => Processing.ops_not_entry hop
  | poll b timedOut hloop => exact h.begin hloop .rfl (by rfl) (by simp [Op.Entry])
  | cancel b hloop => exact h.begin hloop .rfl (by rfl) (by simp [Op.Entry])
  | drain hloop => exact h.begin hloop .rfl (by rfl) (by simp [Op.Entry])
  | submitTurn r sched hsched =>
    rw [Scheduler.submitTurn_frame hsched]
    exact h.silent ⟨by rfl, by rfl, by rfl, by rfl, by rfl, by rfl⟩
  | cancelTurn r sched hsched =>
    rw [Scheduler.cancelTurn_frame hsched]
    exact h.silent ⟨by rfl, by rfl, by rfl, by rfl, by rfl, by rfl⟩
  | loopOp op rest hloop => exact h.loopOp hloop
  | threadOp op rest =>
    obtain ⟨hsame, hcallbacks⟩ := op.exec_sameInbox (g := g) cfg s.sched
    exact h.silent ⟨by rfl, hcallbacks, by rw [hsame.inbox], by rfl, hsame.generation, hsame.stopped⟩
  | resume => exact h.silent ⟨by rfl, by simp [callbackItems], by rfl, by rfl, by rfl, by rfl⟩
  | stopCompletionPump => exact h.stopCompletionPump
  | abandonChannel g' hstop => exact h.abandonChannel hstop
  | generationReady => exact h.generationReady
  | stop => exact h.stop
  | create | skip | failInFlight | quiesce =>
    exact h.silent ⟨by rfl, by rfl, by rfl, by rfl, by rfl, by rfl⟩

theorem Ordered.of_same (h : Ordered s) (hchannel : s'.channel = s.channel)
    (hloop : ∀ op ∈ s'.loop, op ∈ s.loop ∨ ¬op.Entry ∨ ∃ g c, op = .deliver g c) : Ordered s' := by
  refine ⟨by simpa [hchannel] using h.reading, fun error herror => ?_⟩
  rcases hloop _ herror with hold | hentry | ⟨g, c, hdeliver⟩
  · exact h.onLoop error hold
  · exact hentry trivial
  · cases hdeliver

theorem Ordered.setChannel (h : Ordered s) {g : ℕ} {c : Channel} (hc : c.reading → c.started) :
    Ordered (s.setChannel g c) := by
  refine ⟨fun g' hreading => ?_, h.onLoop⟩
  by_cases hg : g' = g
  · subst hg
    simp only [State.setChannel, update_self] at hreading ⊢
    exact hc hreading
  · simp only [State.setChannel, update_of_ne hg] at hreading ⊢
    exact h.reading g' hreading

theorem Ordered.stopPump (h : Ordered s) : Ordered s.stopPump := h.setChannel (h.reading _)

theorem route_not_call {g : ℕ} (h : op ∈ route sched g item) : ¬op.Entry ∨ ∃ g c, op = .deliver g c := by
  obtain ⟨c, -, heq⟩ | ⟨-, heq | ⟨total, heq⟩ | ⟨error, heq⟩⟩ := route_cases sched g item <;> rw [heq] at h
  · exact .inr ⟨g, c, mem_singleton.1 h⟩
  · cases h
  · exact .inl (mem_singleton.1 h ▸ id)
  · exact .inl (failAllActiveBatches_follows h).not_entry

theorem Ordered.step (h : Ordered s) (hstep : step cfg label s = some s') : Ordered s' := by
  have hbegin (sched : Scheduler) (ops : List Op) (hops : ∀ op ∈ ops, ¬op.Entry ∨ ∃ g c, op = .deliver g c) :
      Ordered { s with sched := sched, loop := ops } :=
    h.of_same rfl fun op hop => .inr (hops op hop)
  cases stepped_of_step hstep with
  | put | abandonChannel => exact h.setChannel (h.reading _)
  | pumpRead g item rest hreading =>
    exact ⟨(h.setChannel (c := { s.channel _ with queue := rest, reading := _ }) fun _ =>
      h.reading _ hreading).reading, h.onLoop⟩
  | pumpExit | pumpFailStopped => exact h.setChannel (by simp)
  | pumpFail => exact ⟨(h.setChannel (by simp)).reading, h.onLoop⟩
  | listen =>
    refine hbegin _ _ fun op hop => ?_
    split at hop
    · exact route_not_call hop
    · simp at hop
  | process => exact hbegin _ _ fun _ hop => .inl (Processing.ops_not_entry hop)
  | poll | cancel | drain => exact hbegin _ _ (by simp [Op.Entry])
  | loopOp op rest hloop =>
    refine h.of_same (by rfl) fun op' hop => ?_
    rcases mem_append.1 hop with hnext | hrest
    · exact .inr (.inl (Op.exec_not_entry hnext))
    · exact .inl (by simp [*])
  | stopCompletionPump | stop => exact ⟨h.stopPump.reading, h.onLoop⟩
  | generationReady => exact ⟨(h.stopPump.setChannel fun _ => rfl).reading, h.onLoop⟩
  | callback | create | skip | submitTurn | cancelTurn | threadOp | failInFlight | quiesce | resume =>
    exact h.of_same (by rfl) fun _ hop => .inl hop

theorem Run.ordered (h : Run cfg s₀ trace s) (h₀ : Ordered s₀) : Ordered s := by
  induction h with
  | start => exact h₀
  | next _ _ hstep ih => exact ih.step hstep

theorem Run.tracked (h : Run cfg s₀ trace s) (h₀ : Ordered s₀) (hg : Tracked g [] s₀) : Tracked g trace s := by
  induction h with
  | start => exact hg
  | next _ run hstep ih => exact ih.step (run.ordered h₀) hstep

variable {maxIntakeCapacity : ℕ} {status : BatchId → Option BatchStatus}

theorem initialState_ordered : Ordered (initialState maxIntakeCapacity status) := by
  refine ⟨fun g hreading => ?_, fun error herror => by simp [initialState, State.startCompletionPump,
    State.setGeneration, State.setChannel, State.stopPump] at herror⟩
  by_cases hg : g = 1
  · subst hg
    rfl
  simp only [initialState, State.startCompletionPump, State.setGeneration, State.setChannel,
    State.stopPump, Nat.zero_add, update_of_ne hg] at hreading
  by_cases hg0 : g = 0
  · subst hg0
    simp at hreading
  · simp [hg0] at hreading

theorem initialState_tracked : Tracked g [] (initialState maxIntakeCapacity status) := by
  have hbefore (s : State) (hchannel : s.channel g = ⟨[], false, false, false, false⟩)
      (hcallbacks : s.sched.callbacks = []) (hinbox : s.sched.completionInbox = []) (hloop : s.loop = []) :
      Tracked g [] s := by
    refine ⟨fun _ => ?_, fun hlive => ?_⟩
    · constructor <;> simp_all [puts, Server.delivered, callbackItems, inboxItems]
    · simpa [hchannel] using hlive.started
  exact (hbefore _ rfl rfl rfl rfl).generationReady

/-- The account holds in every state of every run, for every generation. -/
theorem Run.accounted (h : Run cfg (initialState maxIntakeCapacity status) trace s) (hlive : Live g s) :
    Accounted g trace s :=
  (h.tracked initialState_ordered initialState_tracked).live hlive

end Batchgen.Server
