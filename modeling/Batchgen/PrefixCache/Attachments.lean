import Batchgen.PrefixCache.HeaderCalls

/-!
# Counting attachments and loads

The counters in the region are shared; what they should be is scattered over the attachment tables of
the processes and the calls in flight.  `State.counts` adds it up: a node is counted once for each time
an attachment names it, and once for each load of such an attachment that is open, where a call that has
left its local section keeps the references it still has to drop.

* `LocalStep` — what a local section can do, one constructor for each way it can end;
* `LocalStep.named`, `LocalStep.loading` — no local section changes the counts;
* `LocalOk` — the attachment's own load count is the number of loads open or about to open.
-/

namespace Batchgen.PrefixCache

open MachineInt OrderedMap Option

variable {locals : LocalState} {opened begun opened' begun' : ℕ → ℕ} {attachment : LocalAttachment} {handle : ℕ}

/-! ### The references of one process -/

/-- How often the attachments of a process name a node. -/
def LocalState.named (locals : LocalState) (i : ℕ) : ℕ :=
  total (fun _ attachment => attachment.nodeIndices.count i) locals.attachments

/-- How many open loads of a process name a node. -/
def LocalState.loading (locals : LocalState) (opened : ℕ → ℕ) (i : ℕ) : ℕ :=
  total (fun handle attachment => opened handle * attachment.nodeIndices.count i) locals.attachments

theorem LocalState.named_eq (locals : LocalState) (i : ℕ) : locals.named i = locals.loading (fun _ => 1) i := by
  simp only [named, loading, Nat.one_mul]

/-- The active references a call in flight still has to drop. -/
def InFlight.holds : InFlight → ℕ → ℕ
  | .releasing _ nodeIndices, i => nodeIndices.count i
  | .ending _ nodeIndices true, i => nodeIndices.count i
  | _, _ => 0

/-- The load references a call in flight still has to drop. -/
def InFlight.loads : InFlight → ℕ → ℕ
  | .ending _ nodeIndices _, i => nodeIndices.count i
  | _, _ => 0

/-- **The table of a process is in order**: `opened` and `begun` are the loads of each handle that are
open and that are about to open. -/
structure LocalOk (locals : LocalState) (opened begun : ℕ → ℕ) : Prop where
  ordered : Ordered locals.attachments
  bound : ∀ p ∈ locals.attachments, p.1 < locals.nextHandle
  loads : ∀ handle attachment, lookup handle locals.attachments = some attachment →
    attachment.pendingLoadCount = opened handle + begun handle
  closed : ∀ handle, lookup handle locals.attachments = none → opened handle = 0 ∧ begun handle = 0

theorem LocalOk.empty : LocalOk {} (fun _ => 0) fun _ => 0 :=
  ⟨List.Pairwise.nil, by simp, by simp [lookup], fun _ _ => ⟨rfl, rfl⟩⟩

theorem LocalOk.lookup_nextHandle (h : LocalOk locals opened begun) :
    lookup locals.nextHandle locals.attachments = none := by
  rw [lookup_eq_none_iff]
  intro p hp
  exact (h.bound p hp).ne

/-! ### Registration -/

section

variable (h : LocalOk locals opened begun)
include h

theorem LocalOk.register_named (nodes : List ℕ) (i : ℕ) :
    (locals.register nodes).2.named i = locals.named i + nodes.count i := by
  have htotal : (locals.register nodes).2.named i + _ = _ := total_alter h.ordered
  rw [h.lookup_nextHandle] at htotal
  exact htotal

theorem LocalOk.register_loading (nodes : List ℕ) (i : ℕ) :
    (locals.register nodes).2.loading opened i = locals.loading opened i := by
  have htotal : (locals.register nodes).2.loading opened i + _ = _ := total_alter h.ordered
  rw [h.lookup_nextHandle, (h.closed _ h.lookup_nextHandle).1, Nat.zero_mul] at htotal
  exact htotal

theorem LocalOk.register (hnext : locals.nextHandle + 1 < 2 ^ 64)
    (nodes : List ℕ) : LocalOk (locals.register nodes).2 opened begun := by
  have hnone := h.lookup_nextHandle
  have hnew : (locals.register nodes).2.nextHandle = locals.nextHandle + 1 := u64_of_lt hnext
  refine ⟨h.ordered.alter, ?_, ?_, ?_⟩
  · intro p hp
    rw [hnew]
    rcases mem_alter_key hp with heq | hp
    · omega
    · have := h.bound p hp
      omega
  · intro handle attachment hlookup
    by_cases heq : handle = locals.nextHandle
    · subst heq
      have hself := (lookup_alter_self h.ordered).symm.trans hlookup
      rw [hnone] at hself
      obtain rfl := Option.some.inj hself
      rw [(h.closed _ hnone).1, (h.closed _ hnone).2]
      rfl
    · exact h.loads handle attachment ((lookup_alter_of_ne heq).symm.trans hlookup)
  · intro handle hlookup
    by_cases heq : handle = locals.nextHandle
    · subst heq
      exact h.closed _ hnone
    · exact h.closed handle ((lookup_alter_of_ne heq).symm.trans hlookup)

end

/-! ### Local sections -/

/-- **What a local section that returns can do.** -/
inductive LocalStep (locals : LocalState) : AttachmentCall → LocalState × Option InFlight → Prop where
  | releaseZero : LocalStep locals (.release 0) (locals, none)
  | requestRelease {handle : ℕ} {attachment : LocalAttachment}
      (hlookup : lookup handle locals.attachments = some attachment)
      (hpending : attachment.pendingLoadCount ≠ 0) :
      LocalStep locals (.release handle)
        (locals.put handle { attachment with releaseRequested := true }, none)
  | release {handle : ℕ} {attachment : LocalAttachment}
      (hlookup : lookup handle locals.attachments = some attachment)
      (hpending : attachment.pendingLoadCount = 0) :
      LocalStep locals (.release handle)
        (locals.erase handle, some (.releasing handle attachment.nodeIndices))
  | beginLoad {handle : ℕ} {attachment : LocalAttachment}
      (hlookup : lookup handle locals.attachments = some attachment) :
      LocalStep locals (.beginLoad handle)
        (locals.put handle
            { attachment with pendingLoadCount := u32 (attachment.pendingLoadCount + 1) },
          some (.beginning handle attachment.nodeIndices))
  | endLast {handle : ℕ} {attachment : LocalAttachment}
      (hlookup : lookup handle locals.attachments = some attachment)
      (hpending : attachment.pendingLoadCount = 1) :
      LocalStep locals (.endLoad handle)
        (locals.erase handle, some (.ending handle attachment.nodeIndices true))
  | endLoad {handle : ℕ} {attachment : LocalAttachment}
      (hlookup : lookup handle locals.attachments = some attachment)
      (hpending : attachment.pendingLoadCount ≠ 0) :
      LocalStep locals (.endLoad handle)
        (locals.put handle { attachment with pendingLoadCount := attachment.pendingLoadCount - 1 },
          some (.ending handle attachment.nodeIndices false))

section

variable {call : AttachmentCall} {out : LocalState × Option InFlight} {error : PrefixCacheError}

/-- A local section returns, or throws; only the end of a load that the table does not count says that the node is
gone. -/
theorem localSection_cases (locals : LocalState) (call : AttachmentCall) :
    (∃ out, localSection call locals = .ok out ∧ LocalStep locals call out) ∨
      ∃ error, localSection call locals = .error error ∧ (error.isLost = false ∨ ∃ handle attachment,
        call = .endLoad handle ∧ lookup handle locals.attachments = some attachment ∧
          attachment.pendingLoadCount = 0) := by
  cases call with
  | release handle =>
    rw [localSection, releaseSection]
    split
    · next hzero => exact .inl ⟨_, rfl, hzero ▸ .releaseZero⟩
    split
    · exact .inr ⟨_, rfl, .inl rfl⟩
    next attachment hlookup =>
    split
    · exact .inr ⟨_, rfl, .inl rfl⟩
    split
    · next hpending => exact .inl ⟨_, rfl, .requestRelease hlookup hpending⟩
    · next hpending => exact .inl ⟨_, rfl, .release hlookup (not_not.mp hpending)⟩
  | beginLoad handle =>
    rw [localSection, beginLoadSection]
    split
    · exact .inr ⟨_, rfl, .inl rfl⟩
    split
    · exact .inr ⟨_, rfl, .inl rfl⟩
    next attachment hlookup =>
    split
    · exact .inr ⟨_, rfl, .inl rfl⟩
    · exact .inl ⟨_, rfl, .beginLoad hlookup⟩
  | endLoad handle =>
    rw [localSection, endLoadSection]
    split
    · exact .inr ⟨_, rfl, .inl rfl⟩
    split
    · exact .inr ⟨_, rfl, .inl rfl⟩
    next attachment hlookup =>
    split
    · next hzero => exact .inr ⟨_, rfl, .inr ⟨handle, attachment, rfl, hlookup, hzero⟩⟩
    next hpending =>
    split
    · next hlast => exact .inl ⟨_, rfl, .endLast hlookup hlast.2⟩
    · exact .inl ⟨_, rfl, .endLoad hlookup hpending⟩

theorem closes_self (handle : ℕ) : AttachmentCall.closes (.endLoad handle) handle = 1 := if_pos rfl

theorem closes_of_ne {h : ℕ} (hne : h ≠ handle) : AttachmentCall.closes (.endLoad handle) h = 0 := if_neg hne

/-- The end of a load closes an open one. -/
theorem opened_of_matched (hmatched : ∀ h, AttachmentCall.closes (.endLoad handle) h ≤ opened h) :
    1 ≤ opened handle := by
  have hopen := hmatched handle
  rwa [closes_self] at hopen

theorem localSection_ok (h : localSection call locals = .ok out) : LocalStep locals call out := by
  rcases localSection_cases locals call with ⟨_, hout, hstep⟩ | ⟨_, herror, -⟩
  · cases h.symm.trans hout
    exact hstep
  · cases h.symm.trans herror

/-- A call on a load that is open does not find the count at zero. -/
theorem localSection_error (hok : LocalOk locals opened begun)
    (hmatched : ∀ handle, call.closes handle ≤ opened handle) (h : localSection call locals = .error error) :
    error.isLost = false := by
  rcases localSection_cases locals call with ⟨_, hout, -⟩ | ⟨_, herror, hlost⟩
  · cases h.symm.trans hout
  cases h.symm.trans herror
  rcases hlost with hlost | ⟨handle, attachment, rfl, hlookup, hzero⟩
  · exact hlost
  · have hopen := opened_of_matched hmatched
    have hloads := hok.loads handle attachment hlookup
    omega

end

section

variable {attachment' : LocalAttachment}

section

variable (hordered : Ordered locals.attachments) (hlookup : lookup handle locals.attachments = some attachment)
include hordered hlookup

/-- A write that keeps the nodes of an attachment keeps every sum over named nodes. -/
theorem loading_put (hnodes : attachment'.nodeIndices = attachment.nodeIndices) (weight : ℕ → ℕ) (i : ℕ) :
    (locals.put handle attachment').loading weight i = locals.loading weight i := by
  have htotal : (locals.put handle attachment').loading weight i + _ = _ := total_alter hordered
  rw [hlookup, elim_some, hnodes] at htotal
  exact Nat.add_right_cancel htotal

theorem loading_erase (weight : ℕ → ℕ) (i : ℕ) :
    (locals.erase handle).loading weight i + weight handle * attachment.nodeIndices.count i =
      locals.loading weight i := by
  have htotal : (locals.erase handle).loading weight i + _ = _ := total_erase hordered
  rw [hlookup, elim_some] at htotal
  exact htotal

/-- Closing a load of an attachment takes one reference to each of its nodes. -/
theorem loading_closed (hopen : 1 ≤ opened handle) (i : ℕ) :
    locals.loading (fun h => opened h - AttachmentCall.closes (.endLoad handle) h) i +
        attachment.nodeIndices.count i = locals.loading opened i := by
  have hpoint : locals.loading (fun h => opened h - AttachmentCall.closes (.endLoad handle) h) i + _ =
      locals.loading opened i + _ :=
    total_point handle hordered (by
      intro k hk
      funext a
      dsimp only
      rw [closes_of_ne hk, Nat.sub_zero])
  rw [hlookup, elim_some, elim_some] at hpoint
  dsimp only at hpoint
  obtain ⟨k, hk⟩ := Nat.exists_eq_add_of_le hopen
  rw [closes_self, hk, Nat.add_comm 1 k, Nat.add_sub_cancel, Nat.add_mul, Nat.one_mul] at hpoint
  omega

end

end

variable {call : AttachmentCall} {out : LocalState × Option InFlight}

section

variable (hstep : LocalStep locals call out) (hok : LocalOk locals opened begun)
include hstep hok

/-- **No local section changes how often a node is named**, counting the call in flight. -/
theorem LocalStep.named (i : ℕ) : out.1.named i + out.2.elim 0 (·.holds i) = locals.named i := by
  rw [LocalState.named_eq, LocalState.named_eq]
  cases hstep with
  | releaseZero => rfl
  | requestRelease hlookup _ => exact (Nat.add_zero _).trans (loading_put hok.ordered hlookup (by rfl) _ i)
  | release hlookup _ =>
    have := loading_erase hok.ordered hlookup (fun _ => 1) i
    rwa [Nat.one_mul] at this
  | beginLoad hlookup => exact (Nat.add_zero _).trans (loading_put hok.ordered hlookup (by rfl) _ i)
  | endLast hlookup _ =>
    have := loading_erase hok.ordered hlookup (fun _ => 1) i
    rwa [Nat.one_mul] at this
  | endLoad hlookup _ => exact (Nat.add_zero _).trans (loading_put hok.ordered hlookup (by rfl) _ i)

/-- **No local section changes how many loads name a node**, counting the call in flight. -/
theorem LocalStep.loading (hmatched : ∀ handle, call.closes handle ≤ opened handle) (i : ℕ) :
    out.1.loading (fun handle => opened handle - call.closes handle) i +
      out.2.elim 0 (·.loads i) = locals.loading opened i := by
  cases hstep with
  | releaseZero => rfl
  | requestRelease hlookup _ => exact (Nat.add_zero _).trans (loading_put hok.ordered hlookup (by rfl) opened i)
  | release hlookup hpending =>
    have hzero := hok.loads _ _ hlookup
    have := loading_erase hok.ordered hlookup opened i
    rw [show opened _ = 0 by omega, Nat.zero_mul] at this
    exact this
  | beginLoad hlookup => exact (Nat.add_zero _).trans (loading_put hok.ordered hlookup (by rfl) opened i)
  | @endLast handle attachment hlookup hpending =>
    have hopen := opened_of_matched hmatched
    have hloads := hok.loads _ _ hlookup
    have herased := loading_erase hok.ordered hlookup (fun h => opened h - AttachmentCall.closes (.endLoad handle) h) i
    have hzero : opened handle - AttachmentCall.closes (.endLoad handle) handle = 0 := by
      rw [closes_self]
      omega
    rw [hzero, Nat.zero_mul, Nat.add_zero] at herased
    rw [herased]
    exact loading_closed hok.ordered hlookup hopen i
  | @endLoad handle attachment hlookup _ =>
    rw [loading_put hok.ordered hlookup (by rfl)]
    exact loading_closed hok.ordered hlookup (opened_of_matched hmatched) i

end

/-- The loads that are about to open, with those of a call that is now in flight. -/
def begunWith (begun : ℕ → ℕ) (pending : Option InFlight) (handle : ℕ) : ℕ :=
  begun handle + pending.elim 0 (·.opens handle)

theorem LocalOk.put {attachment' : LocalAttachment} (hok : LocalOk locals opened begun)
    (hlookup : lookup handle locals.attachments = some attachment)
    (hself : attachment'.pendingLoadCount = opened' handle + begun' handle)
    (hother : ∀ h, h ≠ handle → opened' h = opened h ∧ begun' h = begun h) :
    LocalOk (locals.put handle attachment') opened' begun' := by
  refine ⟨hok.ordered.alter, ?_, ?_, ?_⟩
  · intro p hp
    rcases mem_alter_key hp with heq | hp
    · rw [heq]
      exact hok.bound _ (hok.ordered.lookup_eq_some_iff.mp hlookup)
    · exact hok.bound p hp
  · intro h a ha
    by_cases heq : h = handle
    · subst heq
      have hnew := (lookup_alter_self hok.ordered).symm.trans ha
      obtain rfl := Option.some.inj hnew
      exact hself
    · rw [(hother h heq).1, (hother h heq).2]
      exact hok.loads h a ((lookup_alter_of_ne heq).symm.trans ha)
  · intro h hnone
    by_cases heq : h = handle
    · subst heq
      have hnew := (lookup_alter_self hok.ordered).symm.trans hnone
      simp at hnew
    · rw [(hother h heq).1, (hother h heq).2]
      exact hok.closed h ((lookup_alter_of_ne heq).symm.trans hnone)

theorem LocalOk.erase (hok : LocalOk locals opened begun) (hself : opened' handle = 0 ∧ begun' handle = 0)
    (hother : ∀ h, h ≠ handle → opened' h = opened h ∧ begun' h = begun h) :
    LocalOk (locals.erase handle) opened' begun' := by
  refine ⟨hok.ordered.erase, fun p hp => hok.bound p (mem_erase.mp hp).1, ?_, ?_⟩
  · intro h a ha
    have hne : h ≠ handle := by
      intro heq
      subst heq
      rw [LocalState.erase, lookup_erase_self] at ha
      simp at ha
    rw [(hother h hne).1, (hother h hne).2]
    exact hok.loads h a ((lookup_erase_of_ne hne).symm.trans ha)
  · intro h hnone
    by_cases heq : h = handle
    · subst heq
      exact hself
    · rw [(hother h heq).1, (hother h heq).2]
      exact hok.closed h ((lookup_erase_of_ne heq).symm.trans hnone)

section

variable (hstep : LocalStep locals call out) (hok : LocalOk locals opened begun)
include hstep hok

section

variable (hmatched : ∀ handle, call.closes handle ≤ opened handle)
include hmatched

/-- **A local section keeps its table in order**, as long as the attachment's own count does not
wrap. -/
theorem LocalStep.ok (hfit : ∀ p ∈ locals.attachments, p.2.pendingLoadCount + 1 < 2 ^ 32) :
    LocalOk out.1 (fun handle => opened handle - call.closes handle) (begunWith begun out.2) := by
  cases hstep with
  | releaseZero => exact hok
  | requestRelease hlookup _ =>
    have hloads := hok.loads _ _ hlookup
    exact hok.put hlookup hloads fun _ _ => ⟨rfl, rfl⟩
  | release hlookup hpending =>
    have hloads := hok.loads _ _ hlookup
    refine hok.erase ⟨?_, ?_⟩ fun _ _ => ⟨rfl, rfl⟩
    · show opened _ - 0 = 0
      omega
    · show begun _ + 0 = 0
      omega
  | @beginLoad handle attachment hlookup =>
    have hloads := hok.loads _ _ hlookup
    have hlt := hfit _ (hok.ordered.lookup_eq_some_iff.mp hlookup)
    refine hok.put hlookup ?_ fun h hne => ⟨rfl, ?_⟩
    · show u32 (attachment.pendingLoadCount + 1) = opened handle - 0 +
        (begun handle + InFlight.opens (.beginning handle attachment.nodeIndices) handle)
      rw [u32_of_lt hlt, hloads, InFlight.opens, if_pos rfl]
      omega
    · show begun h + InFlight.opens (.beginning handle attachment.nodeIndices) h = begun h
      rw [InFlight.opens, if_neg hne, Nat.add_zero]
  | @endLast handle attachment hlookup hpending =>
    have hopen := opened_of_matched hmatched
    have hloads := hok.loads _ _ hlookup
    refine hok.erase ⟨?_, ?_⟩ fun h hne => ⟨?_, rfl⟩
    · rw [closes_self]
      omega
    · show begun handle + 0 = 0
      omega
    · rw [closes_of_ne hne, Nat.sub_zero]
  | @endLoad handle attachment hlookup _ =>
    have hopen := opened_of_matched hmatched
    have hloads := hok.loads _ _ hlookup
    refine hok.put hlookup ?_ fun h hne => ⟨?_, rfl⟩
    · show attachment.pendingLoadCount - 1 =
        opened handle - AttachmentCall.closes (.endLoad handle) handle + (begun handle + 0)
      rw [closes_self]
      omega
    · rw [closes_of_ne hne, Nat.sub_zero]

/-- An attachment stays, or goes with the call that finalizes its release; then none of its loads is
about to open. -/
theorem LocalStep.lookup_stays (hlookup : lookup handle locals.attachments = some attachment) :
    (∃ attachment', lookup handle out.1.attachments = some attachment' ∧
        attachment'.nodeIndices = attachment.nodeIndices) ∨ (out.2 = some (.releasing handle attachment.nodeIndices) ∨
        out.2 = some (.ending handle attachment.nodeIndices true)) ∧ begun handle = 0 := by
  have hput : ∀ {handle' : ℕ} {old new : LocalAttachment},
      lookup handle' locals.attachments = some old → new.nodeIndices = old.nodeIndices →
      ∃ attachment', lookup handle (locals.put handle' new).attachments = some attachment' ∧
        attachment'.nodeIndices = attachment.nodeIndices := by
    intro handle' old new hold hnodes
    by_cases heq : handle = handle'
    · subst heq
      obtain rfl := Option.some.inj (hold.symm.trans hlookup)
      exact ⟨new, lookup_alter_self hok.ordered, hnodes⟩
    · exact ⟨attachment, (lookup_alter_of_ne heq).trans hlookup, rfl⟩
  have herase : ∀ {handle' : ℕ}, handle ≠ handle' →
      ∃ attachment', lookup handle (locals.erase handle').attachments = some attachment' ∧
        attachment'.nodeIndices = attachment.nodeIndices := fun hne =>
    ⟨attachment, (lookup_erase_of_ne hne).trans hlookup, rfl⟩
  cases hstep with
  | releaseZero => exact Or.inl ⟨attachment, hlookup, rfl⟩
  | requestRelease hold _ => exact Or.inl (hput hold (by rfl))
  | @release handle' old hold hpending =>
    by_cases heq : handle = handle'
    · subst heq
      obtain rfl := Option.some.inj (hold.symm.trans hlookup)
      have hloads := hok.loads _ _ hold
      exact Or.inr ⟨Or.inl rfl, by omega⟩
    · exact Or.inl (herase heq)
  | beginLoad hold => exact Or.inl (hput hold (by rfl))
  | @endLast handle' old hold hpending =>
    by_cases heq : handle = handle'
    · subst heq
      obtain rfl := Option.some.inj (hold.symm.trans hlookup)
      have hloads := hok.loads _ _ hold
      have hopen := opened_of_matched hmatched
      exact Or.inr ⟨Or.inr rfl, by omega⟩
    · exact Or.inl (herase heq)
  | endLoad hold _ => exact Or.inl (hput hold (by rfl))

end

/-- The call a local section puts in flight works on an attachment of the table it leaves, when it is
about to open a load. -/
theorem LocalStep.begins {nodes : List ℕ} (hbegin : out.2 = some (.beginning handle nodes)) :
    ∃ attachment, lookup handle out.1.attachments = some attachment ∧ attachment.nodeIndices = nodes := by
  cases hstep with
  | releaseZero | requestRelease | release | endLast | endLoad => simp at hbegin
  | beginLoad hold =>
    simp only [Option.some.injEq, InFlight.beginning.injEq] at hbegin
    obtain ⟨rfl, rfl⟩ := hbegin
    exact ⟨_, lookup_alter_self hok.ordered, rfl⟩

end

theorem LocalOk.shift (hok : LocalOk locals opened begun)
    (hsum : ∀ handle, opened' handle + begun' handle = opened handle + begun handle) :
    LocalOk locals opened' begun' := by
  refine ⟨hok.ordered, hok.bound, ?_, ?_⟩
  · intro handle attachment hlookup
    rw [hsum]
    exact hok.loads handle attachment hlookup
  · intro handle hnone
    have hzero := hok.closed handle hnone
    have := hsum handle
    omega

end Batchgen.PrefixCache
