import Mathlib.Data.List.Dedup
import Sonar.Lib.Returns
import Sonar.P2P.Protocol

/-!
# The server role of a session

`ServerRole` matches what a peer demands with what is stored locally, and writes matched blocks to
the peer. Each request id has fetch **rounds**, keyed by the round number the peer chose. A round
collects supply (`available`) and demand (`demanded`); what matches goes out as a transfer. A store
job is reported once, and its blocks are pinned until then.

Rounds are objects: a transfer keeps its round when the round is no longer registered, and the code
compares rounds with `is`. They live in a heap, `rounds`, and `outbound` holds references. What the
transport and the tiering manager answer during a call is an argument of the call (`Transport`,
`Parent`). Sets are lists without repeats.

Three fields are histories that no branch reads: `accepted`, the jobs handed in, `outbox`, the
messages sent, and `live`, the transfers on the transport. A transfer is live from the write that the
transport accepts until the transport reports it done, failed or stopped, whatever the role's own
table `inflight` says.
-/

namespace Sonar.P2P

open Lib

/-- `_STORE_TIMEOUT_S`. -/
def storeTimeout : Time := 30000

/-- `_CANCEL_DRAIN_TIMEOUT_S`. -/
def cancelDrainTimeout : Time := 10000

/-- `_CANCEL_RETRY_INTERVAL_S`. -/
def cancelRetryInterval : Time := 100

/-- `_LOOKUP_PENDING_TIMEOUT_S`. -/
def lookupPendingTimeout : Time := 5000

/-- The reference of a round. -/
abbrev RoundRef := ℕ

/-- The id of a transfer. -/
abbrev TransferId := ℕ

/-- The end of a store job, as it is reported to the manager. -/
structure StoreResult where
  jobId : JobId
  success : Bool
deriving DecidableEq, Repr

/-- The blocks of a demand that are stored, with the jobs that hold them. -/
structure MatchResult where
  localIdxs : List ℕ
  remoteIdxs : List ℕ
  jobIds : List JobId
deriving DecidableEq

/-! ### Rounds -/

/-- `_OutboundRequestState`. -/
structure OutboundRound where
  lookupSupplied : Bool := false
  demandReceived : Bool := false
  available : Dict OffloadKey (JobId × ℕ) := ∅
  demanded : Dict OffloadKey ℕ := ∅
  remaining : ℕ := 0
  finishing : Bool := false
  inflight : ℕ := 0
  cancelled : Bool := false
  lastCancelAt : Option Time := none
  pendingJobIds : List JobId := []
deriving DecidableEq

namespace OutboundRound

/-- The loop of `add_stored_blocks`: the pairs matched, and the round. -/
def matchStored (jobId : JobId) : List (OffloadKey × ℕ) → OutboundRound →
    List (ℕ × ℕ) × OutboundRound
  | [], rnd => ([], rnd)
  | (key, localIdx) :: blocks, rnd =>
    match rnd.demanded.get? key with
    | some remoteIdx =>
      let rest := matchStored jobId blocks { rnd with demanded := rnd.demanded.erase key }
      ((localIdx, remoteIdx) :: rest.1, rest.2)
    | none =>
      matchStored jobId blocks
        { rnd with available := rnd.available.set key (jobId, localIdx) }

/-- `add_stored_blocks` of a round. -/
def addStoredBlocks (rnd : OutboundRound) (keys : List OffloadKey) (blockIds : List ℕ)
    (jobId : JobId) : MatchResult × OutboundRound :=
  let rnd := { rnd with pendingJobIds := insertSet jobId rnd.pendingJobIds }
  let out := matchStored jobId (keys.zip blockIds) rnd
  ({ localIdxs := out.1.map Prod.fst
     remoteIdxs := out.1.map Prod.snd
     jobIds := if out.1.isEmpty then [] else [jobId] }, out.2)

/-- The loop of `add_fetch_demand`: the jobs, local and remote blocks matched, and the round. -/
def matchDemand : List (OffloadKey × ℕ) → OutboundRound → List (JobId × ℕ × ℕ) × OutboundRound
  | [], rnd => ([], rnd)
  | (key, remoteIdx) :: blocks, rnd =>
    match rnd.available.get? key with
    | some (jobId, localIdx) =>
      let rest := matchDemand blocks { rnd with available := rnd.available.erase key }
      ((jobId, localIdx, remoteIdx) :: rest.1, rest.2)
    | none => matchDemand blocks { rnd with demanded := rnd.demanded.set key remoteIdx }

/-- The demand of a fetch: what is stored of it already, and the round that waits for the rest. -/
def addFetchDemand (rnd : OutboundRound) (keys : List OffloadKey) (blockIndexes : List ℕ) :
    MatchResult × OutboundRound :=
  let rnd := { rnd with demandReceived := true, remaining := keys.length }
  let out := matchDemand (keys.zip blockIndexes) rnd
  ({ localIdxs := out.1.map fun e => e.2.1
     remoteIdxs := out.1.map fun e => e.2.2
     jobIds := (out.1.map Prod.fst).dedup }, out.2)

end OutboundRound

/-- A transfer that was handed to the transport. -/
structure InflightXfer where
  kvRequestId : KvRequestId
  blockCount : ℕ
  jobIds : List JobId
  round : RoundRef
  roundKey : ℕ
  submittedAt : Time
deriving DecidableEq

/-- A lookup of the peer with keys that are not decided. -/
structure ActiveLookup where
  lookupId : ℕ
  kvRequestId : KvRequestId
  roundSeq : ℕ
  keys : List OffloadKey
  resolved : Dict OffloadKey Bool := ∅
  pending : List OffloadKey := []
  deadline : Time
deriving DecidableEq

/-- A lookup of the peer that was not served yet. -/
structure PendingLookup where
  keys : List OffloadKey
  enqueuedAt : Time
  roundSeq : ℕ
deriving DecidableEq

/-- What the server keeps for a request. -/
structure ServerRequestState where
  outbound : Dict ℕ RoundRef := ∅
  pendingLookups : List PendingLookup := []
  lookups : Dict ℕ ActiveLookup := ∅
  inflightTids : List TransferId := []
deriving DecidableEq

/-- Why the peer is faulted. -/
inductive PeerFault where
  | reported (reason : String)
  | stalled (age : Time)
deriving DecidableEq

/-- The role that serves blocks to a peer. -/
structure ServerRole where
  requests : Dict KvRequestId ServerRequestState := ∅
  servePending : List KvRequestId := []
  inflight : Dict TransferId InflightXfer := ∅
  storeJobs : Dict JobId Time := ∅
  pendingStoreResults : List StoreResult := []
  finishedLookupCtxs : List ℕ := []
  lookupIdCounter : ℕ := 0
  pendingAborts : Dict (KvRequestId × ℕ) Time := ∅
  slowAborts : List (KvRequestId × ℕ) := []
  peerFault : Option PeerFault := none
  transferStalled : Bool := false
  stallTimeout : Time := 0
  rounds : RoundRef → OutboundRound := fun _ => {}
  nextRound : RoundRef := 0
  nextTid : TransferId := 0
  accepted : List JobId := []
  outbox : List PeerMsg := []
  live : Dict TransferId InflightXfer := ∅

/-- What the transport answers during a call: which writes it accepts, and which transfers are still
running after a cancel that waits. -/
structure Transport where
  accepts : TransferId → Bool
  stuck : TransferId → Bool

/-- `PollResult` for one peer. -/
structure PollResult where
  done : List TransferId := []
  failed : List TransferId := []
  peerFault : Option String := none

/-- What the tiering manager answers during a call: the lookup of a key for a lookup id, on first
sight or again, the id of the `n`-th job, and the block a key is pinned in. -/
structure Parent where
  lookup : Bool → ℕ → OffloadKey → LookupResult
  jobId : ℕ → JobId
  chunkId : OffloadKey → ℕ

/-- Calls of the server role. -/
abbrev ServerM := ExceptT RoleError (StateM ServerRole)

namespace ServerRole

/-! ### State helpers -/

variable (s : ServerRole) (kvRequestId : KvRequestId)

/-- The entry of an id, a new one if there is none. -/
def request : ServerRequestState :=
  (s.requests.get? kvRequestId).getD {}

/-- An entry written back. -/
def setRequest (st : ServerRequestState) : ServerRole :=
  { s with requests := s.requests.set kvRequestId st }

/-- The round registered under an id and a round number. -/
def roundAt (roundKey : ℕ) : Option RoundRef :=
  (s.request kvRequestId).outbound.get? roundKey

/-- A round changed. -/
def modifyRound (ref : RoundRef) (f : OutboundRound → OutboundRound) : ServerRole :=
  { s with rounds := Function.update s.rounds ref (f (s.rounds ref)) }

/-- A message for the peer. -/
def send (msg : PeerMsg) : ServerRole := { s with outbox := s.outbox ++ [msg] }

/-- Whether an entry holds no live state. -/
def idle (st : ServerRequestState) : Bool :=
  st.outbound = ∅ && st.inflightTids.isEmpty && st.lookups = ∅ && st.pendingLookups.isEmpty &&
    !s.pendingAborts.keys.any fun e => e.1 = kvRequestId

/-- A request with nothing open is forgotten. -/
def maybePrune : ServerRole :=
  if (s.requests.get? kvRequestId).any (s.idle kvRequestId) then
    { s with requests := s.requests.erase kvRequestId }
  else s

/-- A new round is registered. -/
def registerRound (roundSeq : ℕ) : ServerRole :=
  let st := s.request kvRequestId
  { s.setRequest kvRequestId { st with outbound := st.outbound.set roundSeq s.nextRound } with
    rounds := Function.update s.rounds s.nextRound {}
    nextRound := s.nextRound + 1 }

/-- The round of an id and a round number, registered anew if there is none. -/
def getOrCreateRound (roundSeq : ℕ) : RoundRef × ServerRole :=
  match s.roundAt kvRequestId roundSeq with
  | some ref => (ref, s)
  | none => (s.nextRound, s.registerRound kvRequestId roundSeq)

/-- Pop jobs from the job table: the jobs that were there, and the table. -/
def popJobs : List JobId → Dict JobId Time → List JobId × Dict JobId Time
  | [], storeJobs => ([], storeJobs)
  | jobId :: jobIds, storeJobs =>
    match storeJobs.get? jobId with
    | none => popJobs jobIds storeJobs
    | some _ =>
      let rest := popJobs jobIds (storeJobs.erase jobId)
      (jobId :: rest.1, rest.2)

/-- One result for each job. -/
def resultsOf (success : Bool) (jobIds : List JobId) : List StoreResult :=
  jobIds.map fun jobId => ⟨jobId, success⟩

/-- The jobs whose blocks some transfer of the table reads. -/
def readJobIds : List JobId := s.inflight.values.flatMap InflightXfer.jobIds

/-- `_read_job_ids(rnd)`. -/
def readJobIdsOf (ref : RoundRef) : List JobId :=
  (s.inflight.values.filter fun x => x.round = ref).flatMap InflightXfer.jobIds

variable (tid : TransferId)

/-- A transfer enters the table, and the list of its request. -/
def inflightAdd (xfer : InflightXfer) : ServerRole :=
  let st := s.request xfer.kvRequestId
  { s.setRequest xfer.kvRequestId { st with inflightTids := insertSet tid st.inflightTids } with
    inflight := s.inflight.set tid xfer }

/-- What `_inflight_pop` does to a transfer that is in flight. -/
def popTransfer (xfer : InflightXfer) : ServerRole :=
  let s := { s with inflight := s.inflight.erase tid }.modifyRound xfer.round fun rnd =>
    { rnd with inflight := rnd.inflight - 1 }
  match s.requests.get? xfer.kvRequestId with
  | none => s
  | some st =>
    s.setRequest xfer.kvRequestId { st with inflightTids := discard tid st.inflightTids }

/-- `_inflight_pop`. A count that would fall below zero fails the assertion. -/
def inflightPop : ServerM (Option InflightXfer) := do
  let s ← get
  match s.inflight.get? tid with
  | none => pure none
  | some xfer =>
    if (s.rounds xfer.round).inflight = 0 then throw .assertionError
    else
      set (s.popTransfer tid xfer)
      pure (some xfer)

/-- The jobs of a transfer that ended, where no other transfer reads their blocks. -/
def settleXferJobs (xfer : InflightXfer) (success : Bool) : List StoreResult × ServerRole :=
  let stillPinned := if (s.rounds xfer.round).cancelled then s.readJobIds else []
  let popped := popJobs (xfer.jobIds.filter (· ∉ stillPinned)) s.storeJobs
  (resultsOf success popped.1, { s with storeJobs := popped.2 }.modifyRound xfer.round fun rnd =>
    { rnd with pendingJobIds := rnd.pendingJobIds.filter (· ∉ popped.1) })

/-- `_fail_round_jobs`, or the loop that lets a finished round's jobs succeed. -/
def settleRoundJobs (ref : RoundRef) (success : Bool) : List StoreResult × ServerRole :=
  let popped := popJobs (s.rounds ref).pendingJobIds s.storeJobs
  (resultsOf success popped.1, { s with storeJobs := popped.2 }.modifyRound ref fun rnd =>
    { rnd with pendingJobIds := [] })

/-- The jobs of a round that no transfer reads fail. -/
def failUnwrittenRoundJobs (ref : RoundRef) : List StoreResult × ServerRole :=
  let written := s.readJobIdsOf ref
  let popped := popJobs ((s.rounds ref).pendingJobIds.filter (· ∉ written)) s.storeJobs
  (resultsOf false popped.1, { s with storeJobs := popped.2 }.modifyRound ref fun rnd =>
    { rnd with pendingJobIds := rnd.pendingJobIds.filter (· ∈ written) })

/-- Queue results for the next poll. -/
def queueResults (out : List StoreResult × ServerRole) : ServerRole :=
  { out.2 with pendingStoreResults := out.2.pendingStoreResults ++ out.1 }

/-! ### Finalizing rounds -/

/-- What `_finalize_outbound` does to a registered round. -/
def finalizeRound (roundKey : ℕ) (ref : RoundRef)
    (success : Option Bool) (sendDone : Bool) : ServerRole :=
  let req := s.rounds ref
  let st := s.request kvRequestId
  let s := s.setRequest kvRequestId { st with outbound := st.outbound.erase roundKey }
  let success := !req.cancelled && success.getD (req.demandReceived && req.remaining = 0)
  let s := queueResults (s.settleRoundJobs ref success)
  let s := if sendDone && req.demandReceived then
      s.send (.transferDone kvRequestId success roundKey)
    else s
  s.maybePrune kvRequestId

/-- A round ends, unless it is cancelled and transfers of it still run. -/
def finalizeOutbound (roundKey : ℕ) (success : Option Bool) (sendDone : Bool) : ServerM PUnit := do
  let s ← get
  match s.roundAt kvRequestId roundKey with
  | none => throw .keyError
  | some ref =>
    if (s.rounds ref).cancelled && (s.rounds ref).inflight ≠ 0 then pure ⟨⟩
    else set (s.finalizeRound kvRequestId roundKey ref success sendDone)

/-- A cancelled round ends; no message is sent if the client asked for the abort. -/
def finalizeCancelled (roundKey : ℕ) : ServerM PUnit := do
  let s ← get
  finalizeOutbound kvRequestId roundKey (some false)
    (decide (s.pendingAborts.get? (kvRequestId, roundKey) = none))

/-- The abort is acknowledged. -/
def finalizeAbort (roundSeq : ℕ) : ServerRole :=
  ({ s with
    pendingAborts := s.pendingAborts.erase (kvRequestId, roundSeq)
    slowAborts := discard (kvRequestId, roundSeq) s.slowAborts }.send
      (.abortAck kvRequestId roundSeq)).maybePrune kvRequestId

/-- Whether a cancel of the transfers of a round is due. -/
def cancelDue (rnd : OutboundRound) (now : Time) : Bool :=
  rnd.lastCancelAt.all fun last => last + cancelRetryInterval ≤ now

/-! ### Transfers -/

variable (env : Transport) (now : Time)

/-- What a cancel that waits leaves on the transport. -/
def cancel (tids : List TransferId) : ServerRole :=
  { s with live := s.live.filter fun tid _ => tid ∉ tids || env.stuck tid }

/-- The blocks that match are handed to the transport; a refusal fails the round. -/
def submitTransfer (kvRequestId : KvRequestId)
    (result : MatchResult) (ref : RoundRef) (roundKey : ℕ) : ServerM PUnit := do
  let s ← get
  let tid := s.nextTid
  if s.peerFault = none && env.accepts tid then
    let xfer : InflightXfer :=
      { kvRequestId, blockCount := result.localIdxs.length, jobIds := result.jobIds,
        round := ref, roundKey, submittedAt := now }
    let s := { s with nextTid := tid + 1, live := s.live.set tid xfer }.modifyRound ref fun rnd =>
      { rnd with inflight := rnd.inflight + 1 }
    set (s.inflightAdd tid xfer)
  else
    let s := { s with nextTid := tid + 1 }.modifyRound ref fun rnd => { rnd with finishing := true }
    set s
    if s.roundAt kvRequestId roundKey = some ref && (s.rounds ref).inflight = 0 then
      finalizeOutbound kvRequestId roundKey (some false) true

/-- Blocks are stored for a round, and those in demand are sent. -/
def addStoredBlocks (kvRequestId : KvRequestId)
    (keys : List OffloadKey) (blockIds : List ℕ) (jobId : JobId) (roundSeq : ℕ)
    (fromLookup : Bool) : ServerM PUnit := do
  let s ← get
  let s := { s with
    accepted := s.accepted ++ [jobId]
    storeJobs := s.storeJobs.set jobId now }
  let found := s.getOrCreateRound kvRequestId roundSeq
  let ref := found.1
  let s := found.2
  if (s.rounds ref).cancelled then
    set { s with
      storeJobs := s.storeJobs.erase jobId
      pendingStoreResults := s.pendingStoreResults ++ [StoreResult.mk jobId false] }
  else
    let rnd := s.rounds ref
    let matched := { rnd with lookupSupplied := rnd.lookupSupplied || fromLookup }.addStoredBlocks
      keys blockIds jobId
    set (s.modifyRound ref fun _ => matched.2)
    if !matched.1.localIdxs.isEmpty && rnd.demandReceived then
      submitTransfer env now kvRequestId matched.1 ref roundSeq

/-! ### Lookups -/

/-- The lookups of a request are given up. -/
def finishInboundLookups : ServerRole :=
  match s.requests.get? kvRequestId with
  | none => s
  | some st =>
    { s.setRequest kvRequestId { st with pendingLookups := [], lookups := ∅ } with
      finishedLookupCtxs := s.finishedLookupCtxs ++ st.lookups.values.map ActiveLookup.lookupId
      servePending := discard kvRequestId s.servePending }.maybePrune kvRequestId

/-- A lookup waits for the next call that serves it. -/
def onLookup (kvRequestId : KvRequestId) (keys : List OffloadKey) (roundSeq : ℕ) : ServerRole :=
  let st := s.request kvRequestId
  { s.setRequest kvRequestId { st with
      pendingLookups := st.pendingLookups ++ [PendingLookup.mk keys now roundSeq] } with
    servePending := insertSet kvRequestId s.servePending }

/-- The loop of `_poll_lookup_keys`: the keys hit, and the lookup. -/
def pollKeys (answer : OffloadKey → LookupResult) : List OffloadKey → ActiveLookup →
    List OffloadKey × ActiveLookup
  | [], lookup => ([], lookup)
  | h :: keys, lookup =>
    if (lookup.resolved.get? h).isSome then pollKeys answer keys lookup
    else
      match answer h with
      | .hit =>
        let rest := pollKeys answer keys { lookup with
          resolved := lookup.resolved.set h true
          pending := discard h lookup.pending }
        (h :: rest.1, rest.2)
      | .miss => pollKeys answer keys { lookup with
          resolved := lookup.resolved.set h false
          pending := discard h lookup.pending }
      | .hitPending | .retry => pollKeys answer keys { lookup with
          pending := insertSet h lookup.pending }

variable (parent : Parent)

/-- `_poll_lookup_keys`, with `_pin_and_register_hits`. -/
def pollLookupKeys (now : Time) (again : Bool)
    (lookup : ActiveLookup) (keys : List OffloadKey) : ServerM ActiveLookup := do
  let polled := pollKeys (parent.lookup again lookup.lookupId) keys lookup
  if polled.1.isEmpty then pure polled.2
  else
    let s ← get
    addStoredBlocks env now lookup.kvRequestId polled.1 (polled.1.map parent.chunkId)
      (parent.jobId s.accepted.length) lookup.roundSeq true
    pure polled.2

/-- The answer to a lookup whose keys are all decided. -/
def finalizeLookup (lookup : ActiveLookup) : ServerM PUnit :=
  if lookup.keys.isEmpty then pure ⟨⟩
  else
    match lookup.keys.mapM lookup.resolved.get? with
    | none => throw .keyError
    | some hits => modify fun s => s.send (.lookupResp lookup.kvRequestId lookup.keys hits)

/-- A new lookup: its keys are polled, and what is left open is kept. -/
def processInboundLookup (now : Time)
    (kvRequestId : KvRequestId) (pl : PendingLookup) : ServerM PUnit := do
  let s ← get
  let lookupId := s.lookupIdCounter + 1
  set { s with lookupIdCounter := lookupId }
  let lookup ← pollLookupKeys env parent now false
    { lookupId, kvRequestId, roundSeq := pl.roundSeq, keys := pl.keys,
      deadline := pl.enqueuedAt + lookupPendingTimeout } pl.keys.dedup
  if lookup.pending.isEmpty then finalizeLookup lookup
  else modify fun s =>
    let st := s.request kvRequestId
    s.setRequest kvRequestId { st with lookups := st.lookups.set lookupId lookup }

/-- Keys still pending at the deadline are taken for missing. -/
def expireLookup (lookup : ActiveLookup) : ActiveLookup :=
  if !lookup.pending.isEmpty && decide (lookup.deadline ≤ now) then
    { lookup with
      resolved := lookup.pending.foldl (fun resolved h => resolved.set h false) lookup.resolved
      pending := [] }
  else lookup

/-- What `_resolve_pending_lookups` does to one parked lookup: whether it is resolved. -/
def repollLookup (now : Time) (kvRequestId : KvRequestId)
    (lookupId : ℕ) : ServerM (List ActiveLookup) := do
  let s ← get
  match (s.request kvRequestId).lookups.get? lookupId with
  | none => pure []
  | some lookup =>
    let lookup ← pollLookupKeys env parent now true lookup lookup.pending
    let lookup := expireLookup now lookup
    modify fun s =>
      let st := s.request kvRequestId
      s.setRequest kvRequestId { st with lookups := st.lookups.set lookupId lookup }
    pure (if lookup.pending.isEmpty then [lookup] else [])

/-- The second loop of `_resolve_pending_lookups`. -/
def popLookup (lookup : ActiveLookup) : ServerM PUnit := do
  modify fun s =>
    let st := s.request kvRequestId
    s.setRequest kvRequestId { st with lookups := st.lookups.erase lookup.lookupId }
  finalizeLookup lookup

/-- The open lookups of a request are polled again. -/
def resolvePendingLookups (now : Time) (kvRequestId : KvRequestId) : ServerM PUnit := do
  let s ← get
  let finished ← collect (repollLookup env parent now kvRequestId)
    (s.request kvRequestId).lookups.keys
  forAll (popLookup kvRequestId) finished

/-- The loop of `serve_external_requests`. -/
def serveRequest (now : Time) (kvRequestId : KvRequestId) : ServerM PUnit := do
  let s ← get
  match s.requests.get? kvRequestId with
  | none => set { s with servePending := discard kvRequestId s.servePending }
  | some st =>
    set (s.setRequest kvRequestId { st with pendingLookups := [] })
    forAll (processInboundLookup env parent now kvRequestId) st.pendingLookups
    resolvePendingLookups env parent now kvRequestId
    let s ← get
    let st := s.request kvRequestId
    if st.pendingLookups.isEmpty && st.lookups = ∅ then
      set ({ s with servePending := discard kvRequestId s.servePending }.maybePrune kvRequestId)

/-- The requests with lookups are served. -/
def serveExternalRequests (now : Time) : ServerM PUnit := do
  let s ← get
  forAll (serveRequest env parent now) s.servePending
  modify fun s => { s with finishedLookupCtxs := [] }

/-! ### Messages -/

/-- The demand of a round: what is stored is sent, and the round waits for the rest. -/
def onFetch (kvRequestId : KvRequestId) (keys : List OffloadKey)
    (blockIndexes : List ℕ) (roundSeq : ℕ) : ServerM PUnit := do
  let s ← get
  if (s.roundAt kvRequestId roundSeq).any fun ref => (s.rounds ref).demandReceived then
    throw .valueError
  else
    let found := s.getOrCreateRound kvRequestId roundSeq
    let ref := found.1
    let matched := (found.2.rounds ref).addFetchDemand keys blockIndexes
    let req := matched.2
    let s := found.2.modifyRound ref fun _ => req
    set s
    if keys.isEmpty then
      let s := s.finishInboundLookups kvRequestId
      set s
      forAll (fun key => finalizeOutbound kvRequestId key none false)
        (s.request kvRequestId).outbound.keys
    else if req.lookupSupplied && req.demanded ≠ ∅ then
      finalizeOutbound kvRequestId roundSeq (some false) true
    else if !matched.1.localIdxs.isEmpty then
      submitTransfer env now kvRequestId matched.1 ref roundSeq
    else if req.finishing && req.inflight = 0 then
      finalizeOutbound kvRequestId roundSeq none true

/-- Finalize an aborted round if it is still registered. -/
def finalizeAborted (roundSeq : ℕ) (rnd : Option RoundRef) : ServerM PUnit := do
  let s ← get
  if rnd ≠ none && s.roundAt kvRequestId roundSeq = rnd then
    finalizeOutbound kvRequestId roundSeq (some false) false

/-- The end of `_drain_abort`, once no transfer of the round is in flight. -/
def endAbort (roundSeq : ℕ) (rnd : Option RoundRef) : ServerM PUnit := do
  finalizeAborted kvRequestId roundSeq rnd
  modify fun s => s.finalizeAbort kvRequestId roundSeq

/-- The transfers of an id and a round number. -/
def inflightOf (roundSeq : ℕ) : List TransferId :=
  (s.inflight.entries.filter fun e =>
    e.2.kvRequestId = kvRequestId && e.2.roundKey = roundSeq).map Prod.fst

/-- The start of `_drain_abort`: the round is cancelled, and its jobs that no transfer reads fail. -/
def markAborted (rnd : Option RoundRef) : ServerRole :=
  match rnd with
  | none => s
  | some ref =>
    if (s.rounds ref).cancelled then s
    else queueResults ((s.modifyRound ref fun rnd =>
      { rnd with cancelled := true }).failUnwrittenRoundJobs ref)

/-- Note that an abort is slow. -/
def noteSlowAbort (key : KvRequestId × ℕ) (start : Time) : ServerRole :=
  if start + cancelDrainTimeout ≤ now then { s with slowAborts := insertSet key s.slowAborts }
  else s

/-- An abort that waits: the transfers of the round are cancelled, and it ends if none is left. -/
def drainAbort (kvRequestId : KvRequestId) (roundSeq : ℕ) : ServerM PUnit := do
  let s ← get
  if s.requests.get? kvRequestId = none then throw .keyError
  else
    let rnd := s.roundAt kvRequestId roundSeq
    let s := s.markAborted rnd
    set s
    match s.inflightOf kvRequestId roundSeq with
    | [] => endAbort kvRequestId roundSeq rnd
    | tid :: tids =>
      match s.pendingAborts.get? (kvRequestId, roundSeq), s.inflight.get? tid with
      | some start, some xfer =>
        let s := s.noteSlowAbort now (kvRequestId, roundSeq) start
        if cancelDue (s.rounds xfer.round) now then
          set ((s.modifyRound xfer.round fun rnd =>
            { rnd with lastCancelAt := some now }).cancel env (tid :: tids))
          forAll (fun tid => do let _ ← inflightPop tid)
            ((tid :: tids).filter fun tid => !env.stuck tid)
          if !(tid :: tids).any env.stuck then endAbort kvRequestId roundSeq rnd
        else set s
      | _, _ => throw .keyError

/-- The client gives a round up. -/
def onAbortFetch (kvRequestId : KvRequestId) (roundSeq : ℕ) : ServerM PUnit := do
  modify fun s =>
    { s.setRequest kvRequestId (s.request kvRequestId) with
      pendingAborts := if (s.pendingAborts.get? (kvRequestId, roundSeq)).isSome then
          s.pendingAborts
        else s.pendingAborts.set (kvRequestId, roundSeq) now }
  drainAbort env now kvRequestId roundSeq

/-- The aborts that wait are tried again. -/
def drainPendingAborts : ServerM PUnit := do
  let s ← get
  forAll (fun key => drainAbort env now key.1 key.2) s.pendingAborts.keys

/-- What `finish` does to one round. -/
def finishRound (entry : ℕ × RoundRef) : ServerM PUnit := do
  let s ← get
  let req := s.rounds entry.2
  set (s.modifyRound entry.2 fun rnd => { rnd with finishing := true })
  if req.demandReceived && req.inflight = 0 then
    finalizeOutbound kvRequestId entry.1 none true

/-- The request ends: its lookups are given up, and its rounds end or are cancelled. -/
def finish : ServerM PUnit := do
  modify fun s => s.finishInboundLookups kvRequestId
  let s ← get
  forAll (finishRound kvRequestId) (s.request kvRequestId).outbound.entries

/-! ### Polls -/

/-- A store job that `_timeout_pending_store_jobs` takes for timed out. -/
def timedOutJobs : List JobId :=
  (s.storeJobs.entries.filter fun e => e.2 + storeTimeout ≤ now).map Prod.fst

/-- The rounds `_timeout_pending_store_jobs` cancels. -/
def expiredRounds (expired : List JobId) : Dict (KvRequestId × ℕ) RoundRef :=
  (s.inflight.values.filter fun x =>
    (s.rounds x.round).cancelled || x.jobIds.any (· ∈ expired)).foldl
      (fun rounds x => rounds.set (x.kvRequestId, x.roundKey) x.round) ∅

/-- Pop a transfer that stopped and settle its jobs. -/
def popStopped : ServerM (List StoreResult) := do
  let xfer ← inflightPop tid
  match xfer with
  | none => throw .assertionError
  | some xfer =>
    let s ← get
    let settled := s.settleXferJobs xfer false
    set settled.2
    pure settled.1

/-- Finalize a cancelled round if it is registered and its last transfer stopped. -/
def finalizeStopped (roundKey : ℕ) (ref : RoundRef) : ServerM PUnit := do
  let s ← get
  if (s.rounds ref).inflight = 0 && s.roundAt kvRequestId roundKey = some ref then
    finalizeCancelled kvRequestId roundKey

/-- Cancel a round in `_timeout_pending_store_jobs`. -/
def cancelRound (entry : (KvRequestId × ℕ) × RoundRef) : ServerM (List StoreResult) := do
  let s ← get
  let ref := entry.2
  let s := s.modifyRound ref fun rnd => { rnd with cancelled := true }
  if !cancelDue (s.rounds ref) now then
    set s
    pure []
  else
    let tids := (s.inflight.entries.filter fun e => e.2.round = ref).map Prod.fst
    set ((s.modifyRound ref fun rnd => { rnd with lastCancelAt := some now }).cancel env tids)
    let results ← collect popStopped (tids.filter fun tid => !env.stuck tid)
    finalizeStopped entry.1.1 entry.1.2 ref
    pure results

/-- The blocks of expired jobs are no longer offered. -/
def dropExpired (expired : List JobId) (rnd : OutboundRound) : OutboundRound :=
  if rnd.pendingJobIds.any (· ∈ expired) then
    { rnd with
      pendingJobIds := rnd.pendingJobIds.filter (· ∉ expired)
      available := rnd.available.filter fun _ entry => entry.1 ∉ expired }
  else rnd

/-- The rounds that are registered. -/
def registered : List RoundRef :=
  s.requests.values.flatMap fun st => st.outbound.values

/-- The end of `_timeout_pending_store_jobs`. -/
def failTimedOut (timedOut : List JobId) : List StoreResult × ServerRole :=
  let read := s.readJobIds
  let popped := popJobs (timedOut.filter (· ∉ read)) s.storeJobs
  (resultsOf false popped.1, { s with
    storeJobs := popped.2
    rounds := fun ref => if ref ∈ s.registered then dropExpired timedOut (s.rounds ref)
      else s.rounds ref })

/-- The store jobs that wait too long fail, unless a transfer reads their blocks. -/
def timeoutPendingStoreJobs : ServerM (List StoreResult) := do
  let s ← get
  let timedOut := s.timedOutJobs now
  if s.storeJobs = ∅ || timedOut.isEmpty &&
      !s.inflight.values.any fun x => (s.rounds x.round).cancelled then
    pure []
  else
    let results ← collect (cancelRound env now) (s.expiredRounds timedOut).entries
    let s ← get
    let failed := s.failTimedOut timedOut
    set failed.2
    pure (results ++ failed.1)

/-- What `collect_results` does to the round of a transfer that is done. -/
def progressRound (xfer : InflightXfer) : ServerM PUnit := do
  let s ← get
  if s.roundAt xfer.kvRequestId xfer.roundKey = some xfer.round then
    if (s.rounds xfer.round).remaining < xfer.blockCount then throw .assertionError
    else
      let s := s.modifyRound xfer.round fun rnd =>
        { rnd with remaining := rnd.remaining - xfer.blockCount }
      set s
      let rnd := s.rounds xfer.round
      if rnd.cancelled then
        if rnd.inflight = 0 then finalizeCancelled xfer.kvRequestId xfer.roundKey
      else if rnd.remaining = 0 then
        finalizeOutbound xfer.kvRequestId xfer.roundKey (some true) true
      else if rnd.finishing && rnd.inflight = 0 then
        finalizeOutbound xfer.kvRequestId xfer.roundKey (some false) true

/-- What `collect_results` does for a transfer that is done. -/
def onDone : ServerM (List StoreResult) := do
  let xfer ← inflightPop tid
  match xfer with
  | none => pure []
  | some xfer =>
    let s ← get
    let settled := s.settleXferJobs xfer !(s.rounds xfer.round).cancelled
    set settled.2
    progressRound xfer
    modify fun s => s.maybePrune xfer.kvRequestId
    pure settled.1

/-- A failed transfer fails its round: the jobs that fail at once, and the state. -/
def cancelFailed (xfer : InflightXfer) : List StoreResult × ServerRole :=
  if s.roundAt xfer.kvRequestId xfer.roundKey = some xfer.round &&
      !(s.rounds xfer.round).cancelled then
    (s.modifyRound xfer.round fun rnd =>
      { rnd with cancelled := true }).failUnwrittenRoundJobs xfer.round
  else ([], s)

/-- What `collect_results` does for a transfer that failed. -/
def onFailed : ServerM (List StoreResult) := do
  let xfer ← inflightPop tid
  match xfer with
  | none => pure []
  | some xfer =>
    let s ← get
    let unwritten := s.cancelFailed xfer
    let settled := unwritten.2.settleXferJobs xfer false
    set settled.2
    finalizeStopped xfer.kvRequestId xfer.roundKey xfer.round
    modify fun s => s.maybePrune xfer.kvRequestId
    pure (unwritten.1 ++ settled.1)

/-- The oldest transfer runs for too long: the peer is at fault. -/
def checkStalledTransfers : ServerRole :=
  match (s.inflight.values.map InflightXfer.submittedAt).min? with
  | none => s
  | some oldest =>
    if s.stallTimeout = 0 || decide (now < oldest + s.stallTimeout) then s
    else { s with peerFault := some (.stalled (now - oldest)), transferStalled := true }

/-- What the transport reports, and the store jobs that ended with it. -/
def collectResults (poll : PollResult) (now : Time) : ServerM (List StoreResult) := do
  let timedOut ← timeoutPendingStoreJobs env now
  modify fun s => { s with
    peerFault := (poll.peerFault.map .reported).or s.peerFault
    live := s.live.filter fun tid _ => tid ∉ poll.done ++ poll.failed }
  let done ← collect onDone poll.done
  let failed ← collect onFailed poll.failed
  modify fun s => if s.peerFault = none then s.checkStalledTransfers now else s
  let s ← get
  set { s with pendingStoreResults := [] }
  pure (timedOut ++ done ++ failed ++ s.pendingStoreResults)

/-- Without a session only the timeouts are collected. -/
def collectIdleTimeouts : ServerM (List StoreResult) :=
  timeoutPendingStoreJobs env now

/-- What `close` returns. -/
structure CloseResult where
  failedStores : List JobId
  failedServes : List ℕ
  retained : List (TransferId × List JobId)

/-- The role without requests; jobs of transfers that do not stop are retained. -/
def close : CloseResult × ServerRole :=
  let retained := (s.inflight.entries.filter fun e => env.stuck e.1).map fun e => (e.1, e.2.jobIds)
  let held := retained.flatMap Prod.snd
  ({ failedStores := s.storeJobs.keys.filter (· ∉ held)
     failedServes := s.requests.values.flatMap (fun st =>
       st.lookups.values.map ActiveLookup.lookupId) ++ s.finishedLookupCtxs
     retained }, { s.cancel env s.inflight.keys with
      storeJobs := ∅
      inflight := ∅
      pendingStoreResults := []
      requests := ∅
      servePending := []
      pendingAborts := ∅
      slowAborts := []
      finishedLookupCtxs := [] })

end ServerRole

end Sonar.P2P
