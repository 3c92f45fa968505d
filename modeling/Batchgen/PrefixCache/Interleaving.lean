import Batchgen.PrefixCache.Sections

/-!
# Processes calling the host prefix cache

Any number of processes share one region.  Each keeps its own table of attachments under its own
mutex, and any number of its threads call the coordinator.  A call is the sequence of its mutex
sections:

* the calls that take the header mutex once — commit, lookup, the four eviction calls — are one
  section; registering an attachment happens inside it (`HeaderCall.run`);
* `ReleaseAttachment`, `BeginAttachmentLoad` and `EndAttachmentLoad` first take the process's own
  mutex (`localSection`) and then the header mutex (`headerSection`), and are in flight in between;
* a load that fails to begin takes the local mutex a second time to undo its count.

`Step` is one section of one call, labelled with the exception it ends in, if any.  `AtomicStep` runs a
whole call at once.  In both, a call that writes outside the mapped arrays can leave any state behind, and
`allowed` is a condition on the calls that take the header mutex once.
-/

namespace Batchgen.PrefixCache

open MachineInt Function

/-! ### The attachment table of a process -/

structure LocalAttachment where
  nodeIndices : List ℕ
  pendingLoadCount : ℕ := 0
  releaseRequested : Bool := false
  deriving Repr, DecidableEq

/-- `local_attachments` and `next_local_attachment_handle`. -/
structure LocalState where
  attachments : List (ℕ × LocalAttachment) := []
  nextHandle : ℕ := 1
  deriving Repr, DecidableEq

/-- The last step of `AttachNodesLocked`: the handle it returns, and the table with it.  `emplace` does
not overwrite a handle that exists. -/
def LocalState.register (locals : LocalState) (nodeIndices : List ℕ) : ℕ × LocalState :=
  (locals.nextHandle,
    { attachments := OrderedMap.alter locals.nextHandle
        (fun attachment => attachment.getD { nodeIndices := nodeIndices }) locals.attachments
      nextHandle := u64 (locals.nextHandle + 1) })

def LocalState.put (locals : LocalState) (handle : ℕ) (attachment : LocalAttachment) : LocalState :=
  { locals with attachments := OrderedMap.alter handle (fun _ => attachment) locals.attachments }

def LocalState.erase (locals : LocalState) (handle : ℕ) : LocalState :=
  { locals with attachments := OrderedMap.erase handle locals.attachments }

/-! ### Calls with one section -/

/-- What a call of one process works on. -/
structure Process where
  region : Region
  locals : LocalState

abbrev CallM := EStateM Fault Process

/-- Run a header section inside a call. -/
def onRegion {α : Type} (section' : CacheM α) : CallM α := fun process =>
  match section' process.region with
  | .ok a region => .ok a { process with region := region }
  | .error e region => .error e { process with region := region }

variable (cfg : HostPrefixCacheCoordinator) (sort : StdSort)

def attachNodes (nodeIndices : List ℕ) : CallM ℕ := do
  onRegion (attachNodesLocked cfg nodeIndices)
  let process ← get
  set { process with locals := (process.locals.register nodeIndices).2 }
  pure (process.locals.register nodeIndices).1

def commitPrefixPages (namespaceDigest : PrefixDigest) (tokenIds : List Int64) (commitTokens : ℕ)
    (groupPages : List GroupCommitPages) (protectActive : Bool) : CallM PrefixCommitResult :=
  let commitTokens := commitLength cfg tokenIds commitTokens
  let byGroup := pagesByGroup groupPages
  if commitTokens = 0 then pure {}
  else
    match checkRequiredPages byGroup commitTokens (requiredSpecs cfg.groupSpecs) with
    | .error e => throw (.thrown e)
    | .ok () => do
        let chain := buildPrefixHashChain namespaceDigest tokenIds cfg.hashBlockTokens
        let committed ← onRegion (commitBlocksLocked cfg namespaceDigest byGroup commitTokens
          (commitBlocks cfg chain commitTokens))
        if protectActive ∧ committed.2 ≠ [] then do
          let handle ← attachNodes cfg committed.2
          pure { committed.1 with activeAttachmentHandle := handle }
        else pure committed.1

def lookupAndAttach (namespaceDigest : PrefixDigest) (tokenIds : List Int64) :
    CallM PrefixLookupResult := do
  let process ← get
  let chain := buildPrefixHashChain namespaceDigest tokenIds cfg.hashBlockTokens
  let hits := hitNodeIndices cfg process.region (lookupBlocks cfg chain)
  if hits = [] then do
    onRegion (modify fun r => { r with lookupMisses := u64 (r.lookupMisses + 1) })
    pure { missReasonMask := 1 }
  else do
    let handle ← attachNodes cfg hits
    let attached ← get
    match buildMaterializationSpansLocked cfg attached.region hits with
    | .error e => throw (.thrown e)
    | .ok spans => do
        onRegion (modify fun r => { r with lookupHits := u64 (r.lookupHits + 1) })
        pure
          { attachmentHandle := handle
            commonCachedTokens := commonCachedTokens process.region hits
            materializationSpans := spans }

/-- The calls that take the header mutex once and change the region. -/
inductive HeaderCall where
  | commitPrefixPages (namespaceDigest : PrefixDigest) (tokenIds : List Int64) (commitTokens : ℕ)
      (groupPages : List GroupCommitPages) (protectActive : Bool)
  | lookupAndAttach (namespaceDigest : PrefixDigest) (tokenIds : List Int64)
  | evictUntilFree (minFreeNodes minFreeGroupEntries minFreePageHandles maxScanNodes : ℕ)
  | evictUntilReleasablePages (requirements : List GroupPageRequirement) (maxScanNodes : ℕ)
  | clearUnprotected
  | clearNamespace (namespaceDigest : PrefixDigest)
  deriving Repr, DecidableEq

inductive CallResult where
  | committed (result : PrefixCommitResult)
  | lookedUp (result : PrefixLookupResult)
  | evicted (result : PrefixEvictionResult)
  deriving Repr, DecidableEq

def HeaderCall.run : HeaderCall → CallM CallResult
  | .commitPrefixPages namespaceDigest tokenIds commitTokens groupPages protectActive =>
    .committed <$>
      PrefixCache.commitPrefixPages cfg namespaceDigest tokenIds commitTokens groupPages protectActive
  | .lookupAndAttach namespaceDigest tokenIds =>
    .lookedUp <$> PrefixCache.lookupAndAttach cfg namespaceDigest tokenIds
  | .evictUntilFree minFreeNodes minFreeGroupEntries minFreePageHandles maxScanNodes =>
    .evicted <$> onRegion (PrefixCache.evictUntilFree cfg sort minFreeNodes minFreeGroupEntries
      minFreePageHandles maxScanNodes)
  | .evictUntilReleasablePages requirements maxScanNodes =>
    .evicted <$> onRegion (PrefixCache.evictUntilReleasablePages cfg sort requirements maxScanNodes)
  | .clearUnprotected => .evicted <$> onRegion (PrefixCache.clearUnprotected cfg)
  | .clearNamespace namespaceDigest =>
    .evicted <$> onRegion (PrefixCache.clearNamespace cfg namespaceDigest)

/-! ### Calls with a local section and a header section -/

inductive AttachmentCall where
  | release (handle : ℕ)
  | beginLoad (handle : ℕ)
  | endLoad (handle : ℕ)
  deriving Repr, DecidableEq

/-- A call between two of its sections, with the variables it still needs and its argument. -/
inductive InFlight where
  | releasing (handle : ℕ) (nodeIndices : List ℕ)
  | beginning (handle : ℕ) (nodeIndices : List ℕ)
  | ending (handle : ℕ) (nodeIndices : List ℕ) (finalizeRelease : Bool)
  | undoing (handle : ℕ) (error : PrefixCacheError)
  deriving Repr, DecidableEq

def releaseSection (handle : ℕ) (locals : LocalState) :
    Except PrefixCacheError (LocalState × Option InFlight) :=
  if handle = 0 then .ok (locals, none)
  else
    match OrderedMap.lookup handle locals.attachments with
    | none => .error .unknownHandle
    | some attachment =>
      if attachment.releaseRequested then .error .releaseAlreadyRequested
      else if attachment.pendingLoadCount ≠ 0 then
        .ok (locals.put handle { attachment with releaseRequested := true }, none)
      else .ok (locals.erase handle, some (.releasing handle attachment.nodeIndices))

def beginLoadSection (handle : ℕ) (locals : LocalState) :
    Except PrefixCacheError (LocalState × Option InFlight) :=
  if handle = 0 then .error .loadHandleZero
  else
    match OrderedMap.lookup handle locals.attachments with
    | none => .error .unknownHandle
    | some attachment =>
      if attachment.releaseRequested then .error .loadAfterRelease
      else
        .ok (locals.put handle
            { attachment with pendingLoadCount := u32 (attachment.pendingLoadCount + 1) },
          some (.beginning handle attachment.nodeIndices))

def endLoadSection (handle : ℕ) (locals : LocalState) :
    Except PrefixCacheError (LocalState × Option InFlight) :=
  if handle = 0 then .error .loadHandleZero
  else
    match OrderedMap.lookup handle locals.attachments with
    | none => .error .unknownHandle
    | some attachment =>
      if attachment.pendingLoadCount = 0 then .error .pendingLoadUnderflow
      else if attachment.releaseRequested ∧ attachment.pendingLoadCount = 1 then
        .ok (locals.erase handle, some (.ending handle attachment.nodeIndices true))
      else
        .ok (locals.put handle
            { attachment with pendingLoadCount := attachment.pendingLoadCount - 1 },
          some (.ending handle attachment.nodeIndices false))

/-- The checks and the local section of a call. -/
def localSection : AttachmentCall → LocalState → Except PrefixCacheError (LocalState × Option InFlight)
  | .release handle => releaseSection handle
  | .beginLoad handle => beginLoadSection handle
  | .endLoad handle => endLoadSection handle

/-- The header section of a call in flight. -/
def headerSection : InFlight → CacheM Unit
  | .releasing _ nodeIndices => decrementActiveRefsLocked nodeIndices
  | .beginning _ nodeIndices => addLoadRefsLocked nodeIndices
  | .ending _ nodeIndices finalizeRelease => do
      dropLoadRefsLocked nodeIndices
      if finalizeRelease then decrementActiveRefsLocked nodeIndices else pure ()
  | .undoing _ _ => pure ()

/-- The catch block of `BeginAttachmentLoad`. -/
def undoLoad (handle : ℕ) (locals : LocalState) : LocalState :=
  match OrderedMap.lookup handle locals.attachments with
  | none => locals
  | some attachment =>
    if attachment.pendingLoadCount = 0 then locals
    else locals.put handle
      { attachment with pendingLoadCount := attachment.pendingLoadCount - 1 }

/-! ### Runs, section by section -/

variable {Pid : Type} [DecidableEq Pid]

/-- The system between two sections.  `openLoads pid handle` is a history variable: the loads of the
handle whose `BeginAttachmentLoad` has returned and whose `EndAttachmentLoad` has not been called. -/
structure State (Pid : Type) where
  region : Region
  locals : Pid → LocalState
  inFlight : Multiset (Pid × InFlight)
  openLoads : Pid → ℕ → ℕ

def initialState (Pid : Type) : State Pid where
  region := constructSharedState
  locals := fun _ => {}
  inFlight := 0
  openLoads := fun _ _ => 0

def State.process (st : State Pid) (pid : Pid) : Process := ⟨st.region, st.locals pid⟩

def State.commit (st : State Pid) (pid : Pid) (process : Process) : State Pid :=
  { st with region := process.region, locals := update st.locals pid process.locals }

/-- The loads a call in flight opens when its header section returns. -/
def InFlight.opens : InFlight → ℕ → ℕ
  | .beginning handle _, other => if other = handle then 1 else 0
  | _, _ => 0

/-- The loads a call closes when it is made. -/
def AttachmentCall.closes : AttachmentCall → ℕ → ℕ
  | .endLoad handle, other => if other = handle then 1 else 0
  | _, _ => 0

/-- A call made by `pid` after its local section. -/
def State.start (st : State Pid) (pid : Pid) (call : AttachmentCall)
    (out : LocalState × Option InFlight) : State Pid where
  region := st.region
  locals := update st.locals pid out.1
  inFlight := (out.2.map fun pending => (pid, pending)).elim st.inFlight (· ::ₘ st.inFlight)
  openLoads := update st.openLoads pid fun handle =>
    st.openLoads pid handle - call.closes handle

/-- A call of `pid` after its header section has returned. -/
def State.finish (st : State Pid) (pid : Pid) (pending : InFlight)
    (rest : Multiset (Pid × InFlight)) (region : Region) : State Pid where
  region := region
  locals := st.locals
  inFlight := rest
  openLoads := update st.openLoads pid fun handle =>
    st.openLoads pid handle + pending.opens handle

variable (allowed : HeaderCall → Prop)

/-- **One section of one call**, and the exception it ends the call with.  A caller ends only loads
that are open. -/
inductive Step (st : State Pid) : Option PrefixCacheError → State Pid → Prop where
  | header (pid : Pid) (call : HeaderCall) (hallowed : allowed call) (result : CallResult) (process : Process)
      (hrun : call.run cfg sort (st.process pid) = .ok result process) :
      Step st none (st.commit pid process)
  | headerThrow (pid : Pid) (call : HeaderCall) (hallowed : allowed call) (error : PrefixCacheError)
      (process : Process) (hrun : call.run cfg sort (st.process pid) = .error (.thrown error) process) :
      Step st (some error) (st.commit pid process)
  | headerFault (pid : Pid) (call : HeaderCall) (hallowed : allowed call) (process : Process) (st' : State Pid)
      (hrun : call.run cfg sort (st.process pid) = .error .outOfBounds process) : Step st none st'
  | start (pid : Pid) (call : AttachmentCall) (out : LocalState × Option InFlight)
      (hmatched : ∀ handle, call.closes handle ≤ st.openLoads pid handle)
      (hrun : localSection call (st.locals pid) = .ok out) :
      Step st none (st.start pid call out)
  | startThrow (pid : Pid) (call : AttachmentCall) (error : PrefixCacheError)
      (hmatched : ∀ handle, call.closes handle ≤ st.openLoads pid handle)
      (hrun : localSection call (st.locals pid) = .error error) :
      Step st (some error) st
  | finish (pid : Pid) (pending : InFlight) (rest : Multiset (Pid × InFlight)) (region : Region)
      (hflight : st.inFlight = (pid, pending) ::ₘ rest)
      (hpending : ∀ handle error, pending ≠ .undoing handle error)
      (hrun : headerSection pending st.region = .ok () region) :
      Step st none (st.finish pid pending rest region)
  | finishThrow (pid : Pid) (pending : InFlight) (rest : Multiset (Pid × InFlight))
      (error : PrefixCacheError) (region : Region)
      (hflight : st.inFlight = (pid, pending) ::ₘ rest)
      (hpending : ∀ handle nodeIndices, pending ≠ .beginning handle nodeIndices)
      (hrun : headerSection pending st.region = .error (.thrown error) region) :
      Step st (some error) { st with region := region, inFlight := rest }
  | beginThrow (pid : Pid) (handle : ℕ) (nodeIndices : List ℕ) (rest : Multiset (Pid × InFlight))
      (error : PrefixCacheError) (region : Region)
      (hflight : st.inFlight = (pid, .beginning handle nodeIndices) ::ₘ rest)
      (hrun : headerSection (.beginning handle nodeIndices) st.region =
        .error (.thrown error) region) :
      Step st none { st with region := region, inFlight := (pid, .undoing handle error) ::ₘ rest }
  | undo (pid : Pid) (handle : ℕ) (error : PrefixCacheError) (rest : Multiset (Pid × InFlight))
      (hflight : st.inFlight = (pid, .undoing handle error) ::ₘ rest) :
      Step st (some error)
        { st with
          locals := update st.locals pid (undoLoad handle (st.locals pid))
          inFlight := rest }

/-! ### Runs, call by call -/

/-- A whole call on an attachment: its sections one after the other. -/
def AttachmentCall.run (call : AttachmentCall) : CallM Unit := fun process =>
  match localSection call process.locals with
  | .error e => .error (.thrown e) process
  | .ok (locals, none) => .ok () { process with locals := locals }
  | .ok (locals, some pending) =>
    match onRegion (headerSection pending) { process with locals := locals } with
    | .ok () process => .ok () process
    | .error fault process =>
      match pending with
      | .beginning handle _ =>
        .error fault { process with locals := undoLoad handle process.locals }
      | _ => .error fault process

/-- The region and the attachment tables between two calls. -/
structure AtomicState (Pid : Type) where
  region : Region
  locals : Pid → LocalState

def initialAtomicState (Pid : Type) : AtomicState Pid where
  region := constructSharedState
  locals := fun _ => {}

def AtomicState.process (st : AtomicState Pid) (pid : Pid) : Process := ⟨st.region, st.locals pid⟩

def AtomicState.commit (st : AtomicState Pid) (pid : Pid) (process : Process) : AtomicState Pid where
  region := process.region
  locals := update st.locals pid process.locals

/-- **One whole call of one process**, whether it returns, throws or writes out of bounds. -/
inductive AtomicStep (st : AtomicState Pid) : AtomicState Pid → Prop where
  | header (pid : Pid) (call : HeaderCall) (hallowed : allowed call) (result : CallResult) (process : Process)
      (hrun : call.run cfg sort (st.process pid) = .ok result process) :
      AtomicStep st (st.commit pid process)
  | headerThrow (pid : Pid) (call : HeaderCall) (hallowed : allowed call) (error : PrefixCacheError)
      (process : Process) (hrun : call.run cfg sort (st.process pid) = .error (.thrown error) process) :
      AtomicStep st (st.commit pid process)
  | headerFault (pid : Pid) (call : HeaderCall) (hallowed : allowed call) (process : Process) (st' : AtomicState Pid)
      (hrun : call.run cfg sort (st.process pid) = .error .outOfBounds process) : AtomicStep st st'
  | attachment (pid : Pid) (call : AttachmentCall) (process : Process)
      (hrun : call.run (st.process pid) = .ok () process) :
      AtomicStep st (st.commit pid process)
  | attachmentThrow (pid : Pid) (call : AttachmentCall) (error : PrefixCacheError) (process : Process)
      (hrun : call.run (st.process pid) = .error (.thrown error) process) :
      AtomicStep st (st.commit pid process)

end Batchgen.PrefixCache
