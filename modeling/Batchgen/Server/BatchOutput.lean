import Batchgen.Server.Ledger
import Mathlib.Data.Finset.Card

/-!
# The output of a batch

Which lines the output file of a finalized batch has.  Every completion of a request in the metadata of its
batch is written as a line, whether it is counted or not; `Books` follows lines, counts and the state of the
finalization along a run.

* `Books.step`, `Run.books` — the books are right in every state of every run;
* `finalized_output_iff` — a finalized batch has one line for each of its requests exactly when no request
  was answered twice.
-/

namespace Batchgen.Server

open Function List

variable {cfg : Config} {b : BatchId} {v v' : View} {s s' s₀ : State} {trace : List Event} {label : Label}
  {maxIntakeCapacity : ℕ} {status : BatchId → Option BatchStatus} {requests : List BatchRequest} {op : Op}
  {t : BatchTracker} {sched : Scheduler} {rest : List Op} {output : List ResultItem}

/-! ### The books along a run -/

/-- The requests answered since the batch was last handed to the pools. -/
def answerStep (b : BatchId) (answers : List RequestId) : Event → List RequestId
  | .submitted b' _ => if b' = b then [] else answers
  | .delivered _ c _ _ => if c.batchId = some b then answers ++ c.requestId.toList else answers
  | _ => answers

def answered (b : BatchId) (trace : List Event) : List RequestId := trace.foldl (answerStep b) []

/-- Every completion routed for the batch answers one of its requests, which is not a turn, with an output
that parses. -/
def Answers (cfg : Config) (b : BatchId) (requests : List BatchRequest) (trace : List Event) : Prop :=
  ∀ g c before after, Event.delivered g c before after ∈ trace → c.batchId = some b →
    ∃ r ∈ requests.map BatchRequest.requestId, c.requestId = some r ∧ before.isTurn r = false ∧
      ∀ model, (cfg.parseOutput model c.text).isSome

def customIdOf (requests : List BatchRequest) (r : RequestId) : ℕ :=
  ((requests.find? (·.requestId = r)).map fun q => q.info.customId).getD 0

/-- Lines and counts of a batch in the pools. -/
structure Tally (b : BatchId) (requests : List BatchRequest) (trace : List Event) (s : Scheduler) : Prop where
  lines : (s.incremental b).map ResultItem.customId = (answered b trace).map (customIdOf requests)
  counted : ∀ r ∈ answered b trace, (b, some r) ∈ s.schedulingPool.completedRequests
  tracker : ∃ t, s.schedulingPool.batchTrackers.lookup b = some t ∧ t.totalRequests = requests.length ∧
    t.failedRequests = 0 ∧ t.completedRequests ≤ (answered b trace).toFinset.card
  known : ∀ r ∈ answered b trace, r ∈ requests.map BatchRequest.requestId

/-- How far a finalization that completes the batch is. -/
def Finishing (b : BatchId) (s : State) : Prop :=
  b ∉ s.sched.finalizers ∧
    (s.loop = [.writeOutput b, .updateBatchStatus b .completed, .forgetBatch b] ∨
      s.sched.output b = some (s.sched.incremental b) ∧
        (s.loop = [.updateBatchStatus b .completed, .forgetBatch b] ∨ s.loop = [.forgetBatch b]))

structure Books (cfg : Config) (b : BatchId) (trace : List Event) (s : State) : Prop where
  stage : Stage b (s.view b)
  early : (s.view b).Early → s.sched.poolRequestMeta b = none ∧ s.sched.incremental b = [] ∧
    ∀ requests, .submitted b requests ∉ trace
  submitted : ∀ requests, s.sched.poolRequestMeta b = some requests → .submitted b requests ∈ trace ∧
    ∀ requests', .submitted b requests' ∈ trace → requests' = requests
  finalizing : b ∈ s.sched.finalizers → s.sched.poolRequestMeta b ≠ none
  polling : ∀ timedOut, .poll b timedOut ∈ s.loop → s.loop = [.poll b timedOut] ∧ b ∈ s.sched.finalizers
  tally : ∀ requests, s.sched.poolRequestMeta b = some requests → Answers cfg b requests trace →
    Tally b requests trace s.sched
  completing : (∃ op ∈ s.loop, op.Completes b) → s.sched.poolRequestMeta b ≠ none ∧
    (∃ t, (s.view b).tracker = some t ∧ t.isComplete) ∧ Finishing b s

/-- A tracker stays, with its counts. -/
def SameCounts (tracker tracker' : Option BatchTracker) : Prop :=
  ∀ t, tracker = some t → ∃ t', tracker' = some t' ∧ t'.totalRequests = t.totalRequests ∧
    t'.completedRequests = t.completedRequests ∧ t'.failedRequests = t.failedRequests

/-- An event that says nothing about the batch but its end. -/
def Event.Silent (b : BatchId) : Event → Prop
  | .submitted b' _ => b' ≠ b
  | .delivered _ c _ _ => c.batchId ≠ some b
  | _ => True

theorem answered_silent {events : List Event} (h : ∀ e ∈ events, e.Silent b) :
    answered b (trace ++ events) = answered b trace := by
  rw [answered, foldl_append, ← answered]
  induction events with
  | nil => rfl
  | cons e events ih =>
    have he := h e mem_cons_self
    have hstep : answerStep b (answered b trace) e = answered b trace := by
      cases e <;> simp_all [answerStep, Event.Silent]
    rw [foldl_cons, hstep]
    exact ih fun x hx => h x (mem_cons_of_mem e hx)

theorem submitted_silent {events : List Event} (h : ∀ e ∈ events, e.Silent b) :
    .submitted b requests ∈ trace ++ events ↔ .submitted b requests ∈ trace := by
  refine mem_append.trans (or_iff_left fun hmem => ?_)
  exact h _ hmem rfl

theorem Answers.of_append {events : List Event}
    (h : Answers cfg b requests (trace ++ events)) : Answers cfg b requests trace :=
  fun g c before after hmem hb => h g c before after (mem_append_left _ hmem) hb

/-- The batch was not handed over by a step after it had been. -/
theorem ViewStep.not_early (hstep : ViewStep False b v v') (hthread : ∀ op ∈ v.thread, op.OffLoop)
    (h : ¬v.Early) : ¬v'.Early := by
  simp only [View.Early, not_or, not_not, not_exists, not_and] at h ⊢
  obtain ⟨hstatus, hqueued, hloop⟩ := h
  cases hstep with
  | loopOp op rest batch next hops _ hexec =>
    obtain ⟨-, -, h3, h4, h5⟩ := hexec.of_not_starts (hloop op (by simp [hops]))
    refine ⟨by simpa [h3] using hstatus, by simpa [h4] using hqueued, fun op' hop' => ?_⟩
    rcases mem_append.1 hop' with hn | hr
    · exact h5 op' hn
    · exact hloop op' (by simp [hops, hr])
  | threadOp op rest batch next hops hexec =>
    have hoff := hthread op (by simp [hops])
    have hop : ¬op.Starts := by cases op <;> simp_all [Op.OffLoop, Op.Starts]
    obtain ⟨-, -, h3, h4, -⟩ := hexec.of_not_starts hop
    exact ⟨by simpa [h3] using hstatus, by simpa [h4] using hqueued, hloop⟩
  | create hl hnone => exact absurd hnone hstatus
  | skip hl hq => exact absurd hqueued hq
  | process p status hl hq => exact absurd hqueued hq
  | failInFlight => exact ⟨hstatus, hqueued, hloop⟩
  | failAll | listen | poll | cancel => exact ⟨hstatus, hqueued, by simp [Op.Starts]⟩

section

variable (h : Books cfg b trace s) (hthread : ThreadOk s)
  (hview : s'.view b = s.view b ∨ ViewStep False b (s.view b) (s'.view b))
include h hthread hview

theorem Books.stage_next : Stage b (s'.view b) ∧ ((s'.view b).Early → (s.view b).Early) := by
  have hoff : ∀ op ∈ (s.view b).thread, op.OffLoop := fun op hop => hthread op (mem_filter.1 hop).1
  rcases hview with hsame | hstep
  · exact ⟨hsame ▸ h.stage, fun he => hsame ▸ he⟩
  · exact ⟨h.stage.step hstep hoff, fun he => by_contra fun hne => hstep.not_early hoff hne he⟩

/-- A step that neither writes to the ledger nor starts a completing finalization keeps the books. -/
theorem Books.frame {events : List Event} (hledger : SameLedger b s.sched s'.sched)
    (htracker : SameCounts (s.view b).tracker (s'.view b).tracker)
    (hfinalizing : b ∈ s'.sched.finalizers ↔ b ∈ s.sched.finalizers)
    (hloop : Opening b s'.sched s'.loop ∨ s'.loop = s.loop ∨
      s.loop = [.updateBatchStatus b .completed, .forgetBatch b] ∧ s'.loop = [.forgetBatch b])
    (hevents : ∀ e ∈ events, e.Silent b) : Books cfg b (trace ++ events) s' := by
  obtain ⟨hstage, hearly⟩ := h.stage_next hthread hview
  refine ⟨hstage, fun he => ?_, fun requests hinfo => ?_, fun hf => ?_, ?_, fun requests hinfo hanswers => ?_,
    fun ⟨op, hop, hcompletes⟩ => ?_⟩
  · obtain ⟨h1, h2, h3⟩ := h.early (hearly he)
    exact ⟨hledger.info.trans h1, hledger.lines.trans h2, fun requests hmem =>
      h3 requests ((submitted_silent hevents).1 hmem)⟩
  · obtain ⟨h1, h2⟩ := h.submitted requests (hledger.info ▸ hinfo)
    exact ⟨(submitted_silent hevents).2 h1, fun r hr => h2 r ((submitted_silent hevents).1 hr)⟩
  · rw [hledger.info]
    exact h.finalizing (hfinalizing.1 hf)
  · rcases hloop with hopens | hsame | ⟨-, hforget⟩
    · exact hopens.2
    · simpa only [hsame, hfinalizing] using h.polling
    · simp [hforget]
  · obtain ⟨h1, h2, ⟨t, ht, htotal, hfailed, hcompleted⟩, h4⟩ :=
      h.tally requests (hledger.info ▸ hinfo) hanswers.of_append
    obtain ⟨t', ht', htotal', hcompleted', hfailed'⟩ := htracker t ht
    refine ⟨?_, ?_, ⟨t', ht', by omega, by omega, ?_⟩, ?_⟩
    · rw [hledger.lines, answered_silent hevents, h1]
    · rw [answered_silent hevents]
      exact fun r hr => (hledger.counted _).2 (h2 r hr)
    · rw [answered_silent hevents]
      omega
    · rwa [answered_silent hevents]
  · have hcompleting : ∃ op ∈ s.loop, op.Completes b := by
      rcases hloop with hopens | hsame | ⟨hfinal, -⟩
      · exact absurd hcompletes (hopens.1 op hop)
      · exact ⟨op, hsame ▸ hop, hcompletes⟩
      · exact ⟨.forgetBatch b, by simp [hfinal], .inr (.inr rfl)⟩
    obtain ⟨h1, ⟨t, ht, hcomplete⟩, h3⟩ := h.completing hcompleting
    obtain ⟨t', ht', htotal', hcompleted', hfailed'⟩ := htracker t ht
    refine ⟨by rwa [hledger.info], ⟨t', ht', ?_⟩, ?_⟩
    · simp only [BatchTracker.isComplete, decide_eq_true_eq] at hcomplete ⊢
      omega
    · rcases hloop with hopens | hsame | ⟨hfinal, hforget⟩
      · exact absurd hcompletes (hopens.1 op hop)
      · simpa only [Finishing, hsame, hledger.output, hledger.lines, hfinalizing] using h3
      · simpa [Finishing, hfinal, hforget, hledger.output, hledger.lines, hfinalizing] using h3

/-- Steps that change no account. -/
theorem Books.of_accounts {events : List Event} (haccounts : s'.sched.accounts = s.sched.accounts)
    (hloop : Opening b s.sched s'.loop ∨ s'.loop = s.loop)
    (hevents : ∀ e ∈ events, e.Silent b) : Books cfg b (trace ++ events) s' := by
  simp only [Scheduler.accounts, Prod.mk.injEq] at haccounts
  obtain ⟨hpool, hfinalizers, hinfo, hlines, houtput⟩ := haccounts
  refine h.frame hthread hview ⟨by rw [hinfo], by rw [hlines], by rw [houtput], fun r => by rw [hpool]⟩ ?_
    (by rw [hfinalizers]) ?_ hevents
  · intro t ht
    exact ⟨t, by simpa [State.view, Scheduler.batch, hpool] using ht, rfl, rfl, rfl⟩
  · exact hloop.imp (by simpa only [Opening, hfinalizers] using id) .inl

end

/-! ### A completion of the batch -/

namespace Scheduler

variable {c : Completion} {r : RequestId}

/-- A completion does not change the metadata, and writes no line without metadata. -/
theorem deliver_files (cfg : Config) (c : Completion) (s : Scheduler) :
    (s.deliver cfg c).poolRequestMeta = s.poolRequestMeta ∧ (s.deliver cfg c).finalizers = s.finalizers ∧
      (s.poolRequestMeta b = none → (s.deliver cfg c).incremental b = s.incremental b) := by
  obtain ⟨_, _, _, _, _, lines, -, -, hlines, heq⟩ := s.deliver_frame cfg c
  rw [heq]
  exact ⟨rfl, rfl, fun hnone => hlines b (.inr hnone)⟩

theorem resultItem_isSome (info : RequestMeta) (hparse : ∀ model, (cfg.parseOutput model c.text).isSome) :
    ∃ item, resultItem cfg info c = some item ∧ item.customId = info.customId := by
  unfold resultItem
  split
  · exact ⟨_, rfl, rfl⟩
  · split
    · obtain ⟨out, hout⟩ := Option.isSome_iff_exists.1 (hparse info.model)
      exact ⟨_, by rw [hout]; rfl, rfl⟩
    · exact ⟨_, rfl, rfl⟩

theorem find?_requestId {r : RequestId} (h : r ∈ requests.map BatchRequest.requestId) :
    ∃ q ∈ requests, q.requestId = r ∧ requests.find? (·.requestId = r) = some q := by
  obtain ⟨q, hq, rfl⟩ := mem_map.1 h
  have hsome := (find?_isSome (p := (·.requestId = q.requestId))).2 ⟨q, hq, decide_eq_true rfl⟩
  obtain ⟨q', hq'⟩ := Option.isSome_iff_exists.1 hsome
  exact ⟨q', mem_of_find?_eq_some hq', by simpa using find?_some hq', hq'⟩

/-- The completion of a request of the batch is written and counted. -/
theorem deliver_request {s : Scheduler} (hdir : cfg.incrementalOutputDir)
    (hinfo : s.poolRequestMeta b = some requests) (hb : c.batchId = some b) (hr : c.requestId = some r)
    (hmem : r ∈ requests.map BatchRequest.requestId) (hturn : s.isTurn r = false)
    (hparse : ∀ model, (cfg.parseOutput model c.text).isSome) :
    ∃ item : ResultItem, item.customId = customIdOf requests r ∧
      (s.deliver cfg c).incremental b = s.incremental b ++ [item] ∧ (s.deliver cfg c).schedulingPool =
        (s.schedulingPool.freeSlot r).markRequestCompleted (some r) b := by
  obtain ⟨q, -, -, hq⟩ := find?_requestId hmem
  obtain ⟨item, hitem, hid⟩ := resultItem_isSome q.info hparse
  have hturn' : ({ s with schedulingPool := s.schedulingPool.freeSlot r } : Scheduler).isTurn r = false := hturn
  refine ⟨item, by simp [customIdOf, hq, hid], ?_, ?_⟩ <;>
    simp [deliver, hr, hb, hturn', writePoolCompletion, hdir, findMeta, hinfo, hq, hitem, appendPoolResultItem]

end Scheduler

/-- One more answer: at most one more request is counted. -/
theorem Tally.answer {sched' : Scheduler} {r : RequestId} {item : ResultItem} {e : Event}
    (h : Tally b requests trace sched) (he : answerStep b (answered b trace) e = answered b trace ++ [r])
    (hmem : r ∈ requests.map BatchRequest.requestId) (hid : item.customId = customIdOf requests r)
    (hlines : sched'.incremental b = sched.incremental b ++ [item])
    (hpool : sched'.schedulingPool = (sched.schedulingPool.freeSlot r).markRequestCompleted (some r) b) :
    Tally b requests (trace ++ [e]) sched' := by
  obtain ⟨h1, h2, ⟨t, ht, htotal, hfailed, hcompleted⟩, h4⟩ := h
  have hanswered : answered b (trace ++ [e]) = answered b trace ++ [r] := by
    rw [answered, foldl_append, ← answered]
    exact he
  have hcard : (answered b trace).toFinset ⊆ (answered b trace ++ [r]).toFinset := fun x hx => by
    simp only [toFinset_append, Finset.mem_union]
    exact .inl hx
  refine ⟨?_, fun r' hr' => ?_, ?_, fun r' hr' => ?_⟩
  · simp [hanswered, hlines, h1, hid]
  · rw [hpool, SchedulingPool.mem_markRequestCompleted, SchedulingPool.freeSlot_completedRequests]
    rw [hanswered, mem_append, mem_singleton] at hr'
    rcases hr' with hr' | rfl
    · exact .inr (h2 r' hr')
    · exact .inl rfl
  · rw [← SchedulingPool.freeSlot_batchTrackers (r := r)] at ht
    rw [hanswered, hpool]
    by_cases hcounted : (b, some r) ∈ (sched.schedulingPool.freeSlot r).completedRequests
    · refine ⟨t, ?_, htotal, hfailed, hcompleted.trans (Finset.card_le_card hcard)⟩
      rwa [SchedulingPool.markRequestCompleted_of_mem hcounted]
    refine ⟨_, SchedulingPool.lookup_markRequestCompleted ht hcounted, htotal, hfailed, ?_⟩
    have hnew : r ∉ (answered b trace).toFinset := fun hr => hcounted (by
      rw [SchedulingPool.freeSlot_completedRequests]
      exact h2 r (mem_toFinset.1 hr))
    have hlt := Finset.card_lt_card (Finset.ssubset_iff_of_subset hcard |>.2 ⟨r, by simp, hnew⟩)
    exact Nat.succ_le_of_lt (hcompleted.trans_lt hlt)
  · rw [hanswered, mem_append, mem_singleton] at hr'
    rcases hr' with hr' | rfl
    · exact h4 r' hr'
    · exact hmem

/-! ### Operations of the loop -/

/-- What an operation that is about the batch but not in its ledger keeps of the counts. -/
theorem BatchExec.keeps_counts {batch batch' : Batch} {next : List Op} (h : BatchExec b op batch batch' next)
    (habout : op.about b) (hbooks : op.books b = false)
    (hregister : ∀ n, op = .registerBatch b n → batch.tracker = none) : SameCounts batch.tracker batch'.tracker := by
  intro t ht
  cases h <;> simp_all [Op.books, Op.about]

theorem Op.exec_counts (sched : Scheduler) (hbooks : op.books b = false)
    (hregister : ∀ n, op = .registerBatch b n → (sched.batch b).tracker = none) :
    SameCounts (sched.batch b).tracker ((op.exec cfg sched).1.batch b).tracker := by
  by_cases habout : op.about b
  · exact (Op.exec_batch cfg sched habout).keeps_counts habout hbooks hregister
  · obtain ⟨hbatch, -⟩ := Op.exec_frame cfg sched (by simpa using habout)
    exact fun t ht => ⟨t, by rw [hbatch, ht], rfl, rfl, rfl⟩

theorem Op.exec_finalizers (sched : Scheduler) (hbooks : op.books b = false)
    (hpoll : ∀ timedOut, op ≠ .poll b timedOut) : b ∈ (op.exec cfg sched).1.finalizers ↔ b ∈ sched.finalizers := by
  have hmem (s' : Scheduler) (h : (s'.batch b).finalizing = (sched.batch b).finalizing) :
      b ∈ s'.finalizers ↔ b ∈ sched.finalizers := by
    rw [← count_pos_iff, ← count_pos_iff]
    exact iff_of_eq (congrArg (0 < ·) h)
  refine hmem _ ?_
  by_cases habout : op.about b
  · have hexec := Op.exec_batch cfg sched habout
    generalize (op.exec cfg sched).1.batch b = batch' at hexec ⊢
    generalize (op.exec cfg sched).2.filter (·.about b) = next at hexec
    cases hexec <;> simp_all [Op.books]
  · rw [(Op.exec_frame cfg sched (by simpa using habout)).1]

/-- A poll changes no more than who is finalizing, and only one that finds the batch complete goes on to
complete it. -/
theorem Op.exec_poll (cfg : Config) (b : BatchId) (timedOut : Bool) (sched : Scheduler) :
    ∃ finalizers ops, (Op.poll b timedOut).exec cfg sched = ({ sched with finalizers := finalizers }, ops) ∧
      (b ∈ finalizers → b ∈ sched.finalizers) ∧
      (Opening b { sched with finalizers := finalizers } ops ∨
        ops = [.writeOutput b, .updateBatchStatus b .completed, .forgetBatch b] ∧ b ∉ finalizers ∧
          ∃ t, sched.schedulingPool.batchTrackers.lookup b = some t ∧ t.isComplete) := by
  have hended : b ∉ sched.finalizers.filter (· ≠ b) := by simp
  simp only [Op.exec]
  split
  · split
    · exact ⟨_, _, rfl, fun h => absurd h hended, .inl ⟨by simp [Op.Completes], by simp⟩⟩
    · exact ⟨_, _, rfl, id, .inl .nil⟩
  rename_i t ht
  split
  · exact ⟨_, _, rfl, fun h => absurd h hended, .inr ⟨rfl, hended, t, ht, ‹_›⟩⟩
  · split
    · exact ⟨_, _, rfl, fun h => absurd h hended, .inl ⟨by simp [Op.Completes], by simp⟩⟩
    · exact ⟨_, _, rfl, id, .inl .nil⟩

variable (hdir : cfg.incrementalOutputDir) (hsave : cfg.noIncrementalSave = false)

section

variable (h : Books cfg b trace s)
include h

/-- What follows an operation other than a poll of the batch and those that finalize it. -/
theorem Books.opening (hloop : s.loop = op :: rest) (hpoll : ∀ timedOut, op ≠ .poll b timedOut)
    (hwrite : op ≠ .writeOutput b) (hcompleted : op ≠ .updateBatchStatus b .completed) :
    Opening b (op.exec cfg s.sched).1 ((op.exec cfg s.sched).2 ++ rest) := by
  refine ⟨fun op' hop' hcompletes => ?_, fun timedOut hop' => ?_⟩
  · rcases mem_append.1 hop' with hnext | hrest
    · rcases Op.exec_next hnext with ⟨-, hpolls⟩ | ⟨-, hdrains⟩
      · obtain ⟨timedOut, heq⟩ := hpolls b hcompletes
        exact hpoll timedOut heq
      · rcases hcompletes with rfl | rfl | rfl <;> exact hdrains
    · obtain ⟨-, -, -, hfinishing⟩ := h.completing ⟨op', by simp [hloop, hrest], hcompletes⟩
      simp only [hloop, cons.injEq, hwrite, hcompleted, false_and, false_or] at hfinishing
      simp [hfinishing] at hrest
  · rcases mem_append.1 hop' with hnext | hrest
    · rcases Op.exec_next hnext with ⟨h', -⟩ | ⟨-, h'⟩ <;> exact absurd h' id
    · have hone := (h.polling timedOut (by simp [hloop, hrest])).1
      rw [hloop] at hone
      simp [(List.cons.inj hone).2] at hrest

/-- What holds when the batch becomes completed. -/
theorem Books.at_completed (hloop : s.loop = .updateBatchStatus b .completed :: rest) :
    rest = [.forgetBatch b] ∧ s.sched.poolRequestMeta b ≠ none ∧
      (∃ t, (s.view b).tracker = some t ∧ t.isComplete) ∧ s.sched.output b = some (s.sched.incremental b) := by
  obtain ⟨hmeta, htracker, -, hfinishing⟩ := h.completing ⟨_, by simp [hloop], .inr (.inl rfl)⟩
  obtain ⟨houtput, hrest⟩ : s.sched.output b = some (s.sched.incremental b) ∧ rest = [.forgetBatch b] := by
    simpa [hloop] using hfinishing
  exact ⟨hrest, hmeta, htracker, houtput⟩

/-- When the batch is about to be handed over it has a tracker that counted nothing. -/
theorem Books.submitting (hloop : s.loop = .submitBatch b requests :: rest) :
    (∃ t, (s.view b).tracker = some t ∧ t.totalRequests = requests.length ∧ t.completedRequests = 0 ∧
      t.failedRequests = 0) ∧ (s.view b).status ≠ none ∧ (s.view b).queued = 0 ∧ rest.filter (·.about b) = [] := by
  have hview : (s.view b).loop = .submitBatch b requests :: rest.filter (·.about b) := by
    simp [State.view, hloop, Op.about]
  cases h.stage with
  | waiting _ _ _ hl | late _ _ hl => exact absurd trivial (hl (.submitBatch b requests) (by simp [hview]))
  | starting _ _ _ _ _ hl => rw [hview] at hl; simp [Processing.ops] at hl
  | submitting requests' t htracker htotal hcompleted hfailed _ hstatus hqueued hl =>
    rw [hview] at hl
    obtain ⟨heq, hrest⟩ := List.cons.inj hl
    cases heq
    exact ⟨⟨t, htracker, htotal, hcompleted, hfailed⟩, hstatus, hqueued, hrest⟩

variable (hsolo : Solo s) (hthread : ThreadOk s)
include hsolo hthread

theorem Books.stage_loopOp (hloop : s.loop = op :: rest) :
    Stage b ((s.afterOp cfg op rest).view b) ∧ (((s.afterOp cfg op rest).view b).Early → (s.view b).Early) :=
  h.stage_next hthread (loopOp_view hsolo nofun hloop)

/-- Operations that do not write to the ledger. -/
theorem Books.loopOp_frame (hloop : s.loop = op :: rest)
    (hbooks : op.books b = false) (hpoll : ∀ timedOut, op ≠ .poll b timedOut) :
    Books cfg b (trace ++ events cfg .loopOp s) (s.afterOp cfg op rest) := by
  refine h.frame hthread (loopOp_view hsolo nofun hloop) (Op.exec_ledger cfg s.sched hbooks)
    (Op.exec_counts s.sched hbooks fun n heq => ?_) (Op.exec_finalizers s.sched hbooks hpoll) ?_ ?_
  · -- A batch is registered once, before it has a tracker.
    subst heq
    have hhead : .registerBatch b n ∈ (s.view b).loop := by simp [State.view, hloop, Op.about]
    cases h.stage with
    | waiting htracker => exact htracker
    | starting _ htracker => exact htracker
    | submitting _ _ _ _ _ _ _ _ _ hl => simp [hl] at hhead
    | late _ _ hl => exact absurd trivial (hl _ hhead)
  · by_cases hcompleted : op = .updateBatchStatus b .completed
    · subst hcompleted
      obtain ⟨rfl, -⟩ := h.at_completed hloop
      refine .inr (.inr ⟨hloop, ?_⟩)
      simp only [Op.exec]
      split <;> rfl
    · refine .inl (h.opening hloop hpoll (fun heq => ?_) hcompleted)
      subst heq
      simp [Op.books] at hbooks
  · intro e he
    simp only [events, hloop] at he
    cases op with
    | deliver g c =>
      simp only [mem_singleton] at he
      subst he
      simpa [Op.books, Event.Silent] using hbooks
    | submitBatch b' requests =>
      simp only [mem_singleton] at he
      subst he
      simpa [Op.books, Event.Silent] using hbooks
    | updateBatchStatus b' status =>
      cases status <;> simp at he
      subst he
      trivial
    | _ => simp at he

/-- The batch is handed to the pools. -/
theorem Books.submit (hloop : s.loop = .submitBatch b requests :: rest) :
    Books cfg b (trace ++ events cfg .loopOp s) (s.afterOp cfg (.submitBatch b requests) rest) := by
  obtain ⟨hstage, -⟩ := h.stage_loopOp hsolo hthread hloop
  have hopening := h.opening hloop (by simp) (by simp) (by simp)
  have hhead : .submitBatch b requests ∈ (s.view b).loop := by simp [State.view, hloop, Op.about]
  obtain ⟨hinfo, hlines, hfresh⟩ := h.early (.inr (.inr ⟨_, hhead, trivial⟩))
  obtain ⟨⟨t, ht, htotal, hcompleted, hfailed⟩, hstatus, hqueued, hrest⟩ := h.submitting hloop
  have hevents : events cfg .loopOp s = [.submitted b requests] := by simp [events, hloop]
  have hlate (sched : Scheduler) (next : List Op) (hs : (sched.batch b).status = (s.view b).status)
      (hq : (sched.batch b).queued = (s.view b).queued) (hn : ∀ op ∈ next, ¬op.Starts) :
      ¬(({ s with sched := sched, loop := next ++ rest } : State).view b).Early := by
    rintro (he | he | ⟨op, hop, hstarts⟩)
    · exact hstatus (hs.symm.trans he)
    · exact he (hq.trans hqueued)
    · simp only [State.view, filter_append, hrest, append_nil] at hop
      exact hn op (mem_filter.1 hop).1 hstarts
  rw [hevents]
  cases hintake : s.sched.intakePool.submitBatch (requests.map fun r => ⟨r.requestId, b⟩) with
  | none =>
    simp only [State.afterOp, Op.exec, hintake] at hstage hopening ⊢
    exact ⟨hstage, fun he => absurd he (hlate s.sched _ rfl rfl (by simp [Op.Starts])), by simp [hinfo],
      h.finalizing, hopening.2, by simp [hinfo], fun hcompleting => absurd hcompleting hopening.not_completing⟩
  | some intake =>
    simp only [State.afterOp, Op.exec, hintake] at hstage hopening ⊢
    refine ⟨hstage, fun he => absurd he (hlate _ [] rfl rfl (by simp)), ?_, by simp, hopening.2, ?_,
      fun hcompleting => absurd hcompleting hopening.not_completing⟩
    · simp only [update_self, Option.some.injEq, forall_eq']
      refine ⟨by simp, fun requests' hmem => ?_⟩
      rcases mem_append.1 hmem with hold | hnew
      · exact absurd hold (hfresh _)
      · simpa using hnew
    · simp only [update_self, Option.some.injEq, forall_eq']
      intro _
      have hnone : answered b (trace ++ [.submitted b requests]) = [] := by
        simp [answered, foldl_append, answerStep]
      exact ⟨by simp [hnone, hlines], by simp [hnone], ⟨t, ht, htotal, hfailed, by simp [hcompleted]⟩, by simp [hnone]⟩

include hdir in
/-- A completion that names the batch is routed. -/
theorem Books.deliver {g : ℕ} {c : Completion} (hloop : s.loop = .deliver g c :: rest) (hb : c.batchId = some b) :
    Books cfg b (trace ++ events cfg .loopOp s) (s.afterOp cfg (.deliver g c) rest) := by
  obtain ⟨hstage, hearly⟩ := h.stage_loopOp hsolo hthread hloop
  have hopening := h.opening hloop (by simp) (by simp) (by simp)
  obtain ⟨hinfo, hfinalizers, hunknown⟩ := Scheduler.deliver_files (b := b) cfg c s.sched
  have hevents : events cfg .loopOp s = [.delivered g c s.sched (s.sched.deliver cfg c)] := by
    simp [events, hloop]
  have hsubmitted (requests : List BatchRequest) :
      .submitted b requests ∈ trace ++ events cfg .loopOp s ↔ .submitted b requests ∈ trace := by
    simp [hevents]
  simp only [State.afterOp, Op.exec, nil_append] at hstage hearly hopening ⊢
  refine ⟨hstage, fun he => ?_, fun requests hmeta => ?_, ?_, hopening.2, fun requests hmeta hanswers => ?_,
    fun hcompleting => absurd hcompleting hopening.not_completing⟩
  · obtain ⟨h1, h2, h3⟩ := h.early (hearly he)
    exact ⟨(congrFun hinfo b).trans h1, (hunknown h1).trans h2, fun requests hmem =>
      h3 requests ((hsubmitted requests).1 hmem)⟩
  · obtain ⟨h1, h2⟩ := h.submitted requests ((congrFun hinfo b).symm.trans hmeta)
    exact ⟨(hsubmitted requests).2 h1, fun requests' hmem => h2 requests' ((hsubmitted requests').1 hmem)⟩
  · dsimp only
    rw [hinfo, hfinalizers]
    exact h.finalizing
  · have hmeta' := (congrFun hinfo b).symm.trans hmeta
    obtain ⟨r, hmem, hr, hturn, hparse⟩ := hanswers g c s.sched (s.sched.deliver cfg c) (by simp [hevents]) hb
    obtain ⟨item, hid, hlines, hpool⟩ := Scheduler.deliver_request hdir hmeta' hb hr hmem hturn hparse
    rw [hevents] at hanswers ⊢
    exact (h.tally requests hmeta' hanswers.of_append).answer (by simp [answerStep, hb, hr]) hmem hid hlines hpool

/-! ### The end of a batch -/

include hdir hsave in
/-- The output is written. -/
theorem Books.writeOutput (hloop : s.loop = .writeOutput b :: rest) :
    Books cfg b (trace ++ events cfg .loopOp s) (s.afterOp cfg (.writeOutput b) rest) := by
  obtain ⟨hstage, hearly⟩ := h.stage_loopOp hsolo hthread hloop
  obtain ⟨hmeta, htracker, hended, hfinishing⟩ := h.completing ⟨.writeOutput b, by simp [hloop], .inl rfl⟩
  obtain rfl : rest = [.updateBatchStatus b .completed, .forgetBatch b] := by simpa [hloop] using hfinishing
  have hevents : events cfg .loopOp s = [] := by simp [events, hloop]
  rw [hevents, append_nil]
  refine ⟨hstage, fun he => h.early (hearly he), h.submitted, h.finalizing, by simp [Op.exec],
    fun requests hmeta ha => { h.tally requests hmeta ha with },
    fun _ => ⟨hmeta, htracker, hended, .inr ⟨?_, .inl rfl⟩⟩⟩
  simp [Op.exec, Scheduler.writeOutput, hdir, hsave]

/-- The batch is forgotten. -/
theorem Books.forget (hloop : s.loop = .forgetBatch b :: rest) :
    Books cfg b (trace ++ events cfg .loopOp s) (s.afterOp cfg (.forgetBatch b) rest) := by
  obtain ⟨hstage, hearly⟩ := h.stage_loopOp hsolo hthread hloop
  have hopening := h.opening hloop (by simp) (by simp) (by simp)
  obtain ⟨-, -, hended, -⟩ := h.completing ⟨_, by simp [hloop], .inr (.inr rfl)⟩
  have hevents : events cfg .loopOp s = [] := by simp [events, hloop]
  rw [hevents, append_nil]
  simp only [State.afterOp, Op.exec, nil_append] at hstage hearly hopening ⊢
  refine ⟨hstage, fun he => ?_, by simp, fun hf => absurd hf hended, hopening.2, by simp,
    fun hcompleting => absurd hcompleting hopening.not_completing⟩
  exact ⟨by simp, (h.early (hearly he)).2⟩

/-- The batch is polled. -/
theorem Books.poll {timedOut : Bool} (hloop : s.loop = .poll b timedOut :: rest) :
    Books cfg b (trace ++ events cfg .loopOp s) (s.afterOp cfg (.poll b timedOut) rest) := by
  obtain ⟨hstage, hearly⟩ := h.stage_loopOp hsolo hthread hloop
  obtain ⟨hone, hfinalizing⟩ := h.polling timedOut (by simp [hloop])
  obtain rfl : rest = [] := (List.cons.inj (hloop.symm.trans hone)).2
  have hevents : events cfg .loopOp s = [] := by simp [events, hloop]
  obtain ⟨finalizers, ops, hexec, hfewer, hnext⟩ := Op.exec_poll cfg b timedOut s.sched
  rw [hevents, append_nil]
  simp only [State.afterOp, hexec, append_nil] at hstage hearly ⊢
  refine ⟨hstage, fun he => h.early (hearly he), h.submitted, fun hf => h.finalizing (hfewer hf), ?_,
    fun requests hmeta ha => { h.tally requests hmeta ha with }, ?_⟩
  · rcases hnext with hopens | ⟨rfl, -⟩
    · exact hopens.2
    · simp
  · rintro ⟨op, hop, hcompletes⟩
    rcases hnext with hopens | ⟨rfl, hended, hcomplete⟩
    · exact absurd hcompletes (hopens.1 op hop)
    · exact ⟨h.finalizing hfinalizing, hcomplete, hended, .inl rfl⟩

/-! ### Every step and every run -/

include hdir hsave in
theorem Books.loopOp
    (hloop : s.loop = op :: rest) : Books cfg b (trace ++ events cfg .loopOp s) (s.afterOp cfg op rest) := by
  cases hbooks : op.books b with
  | true =>
    cases op with
    | submitBatch b' requests =>
      obtain rfl : b' = b := by simpa [Op.books] using hbooks
      exact h.submit hsolo hthread hloop
    | deliver g c => exact h.deliver hdir hsolo hthread hloop (by simpa [Op.books] using hbooks)
    | writeOutput b' =>
      obtain rfl : b' = b := by simpa [Op.books] using hbooks
      exact h.writeOutput hdir hsave hsolo hthread hloop
    | forgetBatch b' =>
      obtain rfl : b' = b := by simpa [Op.books] using hbooks
      exact h.forget hsolo hthread hloop
    | _ => simp [Op.books] at hbooks
  | false =>
    by_cases hpoll : ∃ timedOut, op = .poll b timedOut
    · obtain ⟨timedOut, rfl⟩ := hpoll
      exact h.poll hsolo hthread hloop
    · exact h.loopOp_frame hsolo hthread hloop hbooks fun timedOut heq => hpoll ⟨timedOut, heq⟩

end

theorem Books.threadOp (h : Books cfg b trace s) (hthread : ThreadOk s) (hops : s.thread = op :: rest) :
    Books cfg b (trace ++ events cfg .threadOp s)
      { s with sched := (op.exec cfg s.sched).1, thread := (op.exec cfg s.sched).2 ++ rest } := by
  have hoff := hthread op (by simp [hops])
  have hbooks : op.books b = false := by cases op <;> simp_all [Op.OffLoop, Op.books]
  refine h.frame hthread (threadOp_view hoff.not_drains hops) (Op.exec_ledger cfg s.sched hbooks)
    (Op.exec_counts s.sched hbooks fun n heq => ?_)
    (Op.exec_finalizers s.sched hbooks fun timedOut heq => ?_) (.inr (.inl rfl)) (by simp [events])
  · subst heq
    exact absurd hoff id
  · subst heq
    exact absurd hoff id

include hdir hsave in
theorem Books.step (h : Books cfg b trace s)
    (hsolo : Solo s) (hthread : ThreadOk s) (hstep : step cfg label s = some s') :
    Books cfg b (trace ++ events cfg label s) s' := by
  have hview : s'.view b = s.view b ∨ ViewStep False b (s.view b) (s'.view b) := step_view hsolo hthread nofun hstep
  have hsilent (hlabel : label ≠ .loopOp) : ∀ e ∈ events cfg label s, e.Silent b := by
    cases label <;> simp_all [events, Event.Silent]
  cases step_ledger b hstep with
  | loopOp op rest hloop => exact h.loopOp hdir hsave hsolo hthread hloop
  | threadOp op rest hops => exact h.threadOp hthread hops
  | opens label s' hlabel haccounts hops => exact h.of_accounts hthread hview haccounts (.inl hops) (hsilent hlabel)
  | quiet label s' hlabel haccounts hloop =>
    exact h.of_accounts hthread hview haccounts (.inr hloop) (hsilent hlabel)

theorem initialState_books : Books cfg b [] (initialState maxIntakeCapacity status) := by
  refine ⟨?_, fun _ => ⟨rfl, rfl, by simp⟩, nofun, nofun, nofun, nofun, nofun⟩
  cases hstatus : status b with
  | none => exact .waiting rfl rfl (.inl ⟨hstatus, rfl⟩) nofun
  | some old =>
    refine .late ?_ rfl nofun
    simp [State.view, initialState, Scheduler.batch, hstatus, State.startCompletionPump, State.stopPump,
      State.setGeneration, State.setChannel]

include hdir hsave in
theorem Run.books
    (run : Run cfg (initialState maxIntakeCapacity status) trace s) : Solo s ∧ ThreadOk s ∧ Books cfg b trace s := by
  induction run with
  | start => exact ⟨.of_no_drains nofun, nofun, initialState_books⟩
  | next label _ hstep ih =>
    obtain ⟨hsolo, hthread, hbooks⟩ := ih
    exact ⟨hsolo.step hstep, hthread.step hstep, hbooks.step hdir hsave hsolo hthread hstep⟩

/-! ### The output of a finalized batch -/

theorem events_finalized (before : List Event) {after : List Event}
    (h : events cfg label s = before ++ .finalized b output :: after) :
    before = [] ∧ ∃ rest, s.loop = .updateBatchStatus b .completed :: rest ∧ output = (s.sched.output b).getD [] := by
  have hone (e : Event) (he : [e] = before ++ .finalized b output :: after) :
      before = [] ∧ e = .finalized b output := by
    cases before with
    | nil => exact ⟨rfl, (List.cons.inj he).1⟩
    | cons e' before => simp at he
  cases label <;> simp only [events] at h
  case loopOp =>
    split at h
    · cases (hone _ h).2
    · cases (hone _ h).2
    · rename_i rest hloop
      obtain ⟨hbefore, heq⟩ := hone _ h
      cases heq
      exact ⟨hbefore, rest, hloop, rfl⟩
    · simp at h
  case put => cases (hone _ h).2
  all_goals simp at h

/-- The state in which a batch became completed. -/
theorem Run.finalized {before after : List Event} (run : Run cfg s₀ trace s)
    (h : trace = before ++ .finalized b output :: after) :
    ∃ s₁ rest, Run cfg s₀ before s₁ ∧ s₁.loop = .updateBatchStatus b .completed :: rest ∧
      output = (s₁.sched.output b).getD [] := by
  induction run generalizing after with
  | start => simp at h
  | next label run hstep ih =>
    rcases append_eq_append_iff.1 h with ⟨as, rfl, hevents⟩ | ⟨bs, htrace, hevents⟩
    · obtain ⟨rfl, rest, hloop, houtput⟩ := events_finalized as hevents
      exact ⟨_, rest, by simpa using run, hloop, houtput⟩
    cases bs with
    | nil =>
      obtain ⟨-, rest, hloop, houtput⟩ := events_finalized [] hevents.symm
      exact ⟨_, rest, by simpa [htrace] using run, hloop, houtput⟩
    | cons e bs =>
      obtain ⟨rfl, -⟩ := List.cons.inj hevents
      exact ih htrace

theorem customIdOf_map (h : (requests.map BatchRequest.requestId).Nodup) :
    (requests.map BatchRequest.requestId).map (customIdOf requests) = requests.map fun q => q.info.customId := by
  rw [map_map]
  refine map_congr_left fun q hq => ?_
  obtain ⟨q', hq', hid, hfind⟩ := Scheduler.find?_requestId (mem_map_of_mem hq)
  obtain rfl : q' = q := inj_on_of_nodup_map h hq' hq hid
  simp [customIdOf, hfind]

/-- A list with as many elements as its set repeats none. -/
theorem nodup_of_length_le_card {l : List RequestId} (h : l.length ≤ l.toFinset.card) : l.Nodup := by
  rw [← dedup_eq_self]
  refine (dedup_sublist l).eq_of_length_le ?_
  rwa [← card_toFinset]

/-- As many different answers as requests: the answers are the requests, up to order and repetition. -/
theorem Tally.covers (h : Tally b requests trace sched) (ht : sched.schedulingPool.batchTrackers.lookup b = some t)
    (hcomplete : t.isComplete) :
    (requests.map BatchRequest.requestId).Nodup ∧
      (answered b trace).toFinset = (requests.map BatchRequest.requestId).toFinset := by
  obtain ⟨-, -, ⟨t', ht', htotal, hfailed, hcompleted⟩, hknown⟩ := h
  obtain rfl : t = t' := Option.some.inj (ht.symm.trans ht')
  have hlength : requests.length ≤ (answered b trace).toFinset.card := by
    simp only [BatchTracker.isComplete, decide_eq_true_eq] at hcomplete
    omega
  have hsubset : (answered b trace).toFinset ⊆ (requests.map BatchRequest.requestId).toFinset := fun r hr =>
    mem_toFinset.2 (hknown r (mem_toFinset.1 hr))
  have hcard := toFinset_card_le (requests.map BatchRequest.requestId)
  rw [length_map] at hcard
  have heq := Finset.eq_of_subset_of_card_le hsubset (hcard.trans hlength)
  refine ⟨nodup_of_length_le_card ?_, heq⟩
  rw [length_map, ← heq]
  exact hlength

/-- With incremental saving on, a batch that becomes completed was handed to the pools once.  If the completions
routed for it answer its requests, its output has exactly one line for each request exactly when no request was
answered twice. -/
theorem finalized_output_iff {maxIntakeCapacity : ℕ} {status : BatchId → Option BatchStatus}
    (hdir : cfg.incrementalOutputDir) (hsave : cfg.noIncrementalSave = false) {before after : List Event}
    {output : List ResultItem}
    (run : Run cfg (initialState maxIntakeCapacity status) (before ++ .finalized b output :: after) s) :
    ∃ requests, (∀ requests', .submitted b requests' ∈ before ↔ requests' = requests) ∧ (Answers cfg b requests before →
        ((output.map ResultItem.customId).Perm (requests.map fun q => q.info.customId) ↔
          (answered b before).Nodup)) := by
  obtain ⟨s₁, rest, run₁, hloop, houtput⟩ := run.finalized rfl
  obtain ⟨-, -, hbooks⟩ := run₁.books (b := b) hdir hsave
  obtain ⟨-, hmeta, ⟨t, ht, hcomplete⟩, hfile⟩ := hbooks.at_completed hloop
  obtain ⟨requests, hrequests⟩ := Option.ne_none_iff_exists'.1 hmeta
  obtain ⟨hsubmitted, honly⟩ := hbooks.submitted requests hrequests
  refine ⟨requests, fun requests' => ⟨honly requests', fun heq => heq ▸ hsubmitted⟩, fun hanswers => ?_⟩
  have htally := hbooks.tally requests hrequests hanswers
  obtain ⟨hnodup, hcovers⟩ := htally.covers ht hcomplete
  have hlines : output.map ResultItem.customId = (answered b before).map (customIdOf requests) := by
    rw [houtput, hfile]
    exact htally.lines
  rw [hlines]
  constructor
  · -- As many lines as requests, and as many different answers: no answer is repeated.
    intro hperm
    have hlength := hperm.length_eq
    rw [length_map, length_map] at hlength
    refine nodup_of_length_le_card ?_
    rw [hlength, hcovers, toFinset_card_of_nodup hnodup, length_map]
  · intro hanswered
    rw [← customIdOf_map hnodup]
    exact (perm_of_nodup_nodup_toFinset_eq hanswered hnodup hcovers).map _

/-! ### Two runs -/

/-- What `Answers` asks of an event, apart from the parsing. -/
def Event.answers (b : BatchId) (requests : List BatchRequest) : Event → Bool
  | .delivered _ c before _ =>
    c.batchId ≠ some b ||
      c.requestId.any fun r => decide (r ∈ requests.map BatchRequest.requestId) && !before.isTurn r
  | _ => true

theorem answers_of_all (hparse : ∀ model text, (cfg.parseOutput model text).isSome)
    (h : trace.all (Event.answers b requests)) : Answers cfg b requests trace := by
  intro g c before after hmem hb
  have hevent := all_eq_true.1 h _ hmem
  simp only [Event.answers, hb, ne_eq, not_true_eq_false, decide_false, Bool.false_or, Option.any_eq_true_iff_get,
    Bool.and_eq_true, decide_eq_true_eq, Bool.not_eq_true'] at hevent
  obtain ⟨hsome, hrequest, hturn⟩ := hevent
  exact ⟨_, hrequest, by simp, hturn, fun model => hparse model c.text⟩

/-- The run up to the status write of a finalization, with the event of that write. -/
theorem runLabels_finalized {labels : List Label} (h : runLabels cfg labels s₀ = some (trace, s))
    (hloop : s.loop = [.updateBatchStatus b .completed, .forgetBatch b]) (houtput : s.sched.output b = some output) :
    ∃ s', Run cfg s₀ (trace ++ [.finalized b output]) s' := by
  have hevents : events cfg .loopOp s = [.finalized b output] := by simp [events, hloop, houtput]
  exact ⟨_, hevents ▸ (runLabels_run h).next .loopOp (step_loopOp hloop)⟩

/-- A batch of two requests, the second of which is answered first: its output has a line for each. -/
theorem two_answers_output :
    ∃ before output s, Run plainConfig (initialState 10 fun _ => none) (before ++ [.finalized 7 output]) s ∧
      Answers plainConfig 7 [chatRequest 1, chatRequest 2] before ∧ (output.map ResultItem.customId).Perm [0, 1] := by
  obtain ⟨⟨before, s⟩, hs⟩ : ∃ p, runLabels plainConfig
      (admitAll [chatRequest 1, chatRequest 2] ++ complete 2 ++ complete 1 ++ [.poll 7 false, .loopOp, .loopOp])
      (initialState 10 fun _ => none) = some p := Option.isSome_iff_exists.1 (by decide +kernel)
  obtain ⟨output, hloop, houtput⟩ : ∃ output, s.loop = [.updateBatchStatus 7 .completed, .forgetBatch 7] ∧
      s.sched.output 7 = some output := by
    cases hs
    exact ⟨_, rfl, rfl⟩
  obtain ⟨s', run⟩ := runLabels_finalized hs hloop houtput
  have hanswers : Answers plainConfig 7 [chatRequest 1, chatRequest 2] before := by
    refine answers_of_all (by simp [plainConfig]) ?_
    cases hs
    decide +kernel
  obtain ⟨requests, hsubmitted, hlines⟩ := finalized_output_iff rfl rfl run
  obtain rfl : [chatRequest 1, chatRequest 2] = requests := by
    refine (hsubmitted _).1 (mem_of_getElem? (i := 1) ?_)
    cases hs
    rfl
  refine ⟨before, output, s', run, hanswers, (hlines hanswers).2 ?_⟩
  cases hs
  decide +kernel

/-- A batch of one request, answered twice before it is polled: its output has two lines. -/
theorem repeated_answer_output :
    ∃ before output s, Run plainConfig (initialState 10 fun _ => none) (before ++ [.finalized 7 output]) s ∧
      .submitted 7 [chatRequest 1] ∈ before ∧ Answers plainConfig 7 [chatRequest 1] before ∧
      output.map ResultItem.customId = [0, 0] := by
  obtain ⟨⟨before, s⟩, hs⟩ : ∃ p, runLabels plainConfig
      (admitAll [chatRequest 1] ++ complete 1 ++ complete 1 ++ [.poll 7 false, .loopOp, .loopOp])
      (initialState 10 fun _ => none) = some p := Option.isSome_iff_exists.1 (by decide +kernel)
  obtain ⟨output, hloop, houtput, hlines⟩ : ∃ output,
      s.loop = [.updateBatchStatus 7 .completed, .forgetBatch 7] ∧ s.sched.output 7 = some output ∧
        output.map ResultItem.customId = [0, 0] := by
    cases hs
    exact ⟨_, rfl, rfl, rfl⟩
  obtain ⟨s', run⟩ := runLabels_finalized hs hloop houtput
  refine ⟨before, output, s', run, ?_, answers_of_all (by simp [plainConfig]) ?_, hlines⟩
  · refine mem_of_getElem? (i := 1) ?_
    cases hs
    rfl
  · cases hs
    decide +kernel

end Batchgen.Server
