import Sonar.P2P.Protocol

/-!
# The client role of a session

`ClientRole` drives the loads of one peer session. Each request id has an entry with its lookup
probes and its loads in flight, keyed by the round their fetch carried; the entry is dropped when
it is idle, and with it the count of rounds. A load is **aborted** when it times out or its request
finishes: it is reported failed at once, but its blocks may be reused only when an event is set,
since the peer may still write into them. Events are numbered, and `released` lists those that are
set.

`outbox` collects what is sent. Sets are lists without repeats.
-/

namespace Sonar.P2P

open Lib

/-- `_P2P_LOAD_TIMEOUT_S`. -/
def p2pLoadTimeout : Time := 10000

/-- `_PD_LOAD_TIMEOUT_S`. -/
def pdLoadTimeout : Time := 30000

/-- `_ABORT_ACK_TIMEOUT_S`. -/
def abortAckTimeout : Time := 5000

/-- `_LOOKUP_TIMEOUT_S`. -/
def lookupTimeout : Time := 8000

/-- A load that waits for the peer to write. -/
structure InboundLoadState where
  jobId : JobId
  submittedAt : Time
  timeout : Time
  abortedAt : Option Time := none
  release : Option ℕ := none
  ackExpired : Bool := false
deriving DecidableEq

/-- What the client keeps for a request. -/
structure ClientRequestState where
  probes : Dict OffloadKey (Option Bool) := ∅
  unsent : List OffloadKey := []
  roundSeq : ℕ := 0
  probed : Bool := false
  peerLookupOpen : Bool := false
  loads : Dict ℕ InboundLoadState := ∅
deriving DecidableEq

/-- The end of a load, as it is reported to the manager. -/
structure LoadResult where
  jobId : JobId
  kvRequestId : KvRequestId
  success : Bool
  deferredRelease : Option ℕ := none
deriving DecidableEq

/-- What a closed role gives up. -/
structure ClientCloseResult where
  failedJobs : List JobId
  failedReqIds : List KvRequestId
deriving DecidableEq

/-- The role that asks a peer for blocks. -/
structure ClientRole where
  requests : Dict KvRequestId ClientRequestState := ∅
  flushPending : List KvRequestId := []
  activeLoads : List KvRequestId := []
  completedLoads : List LoadResult := []
  lookupDeadlines : Dict KvRequestId Time := ∅
  expiredAbortAck : Option (KvRequestId × ℕ) := none
  nextEvent : ℕ := 0
  released : List ℕ := []
  outbox : List PeerMsg := []
deriving DecidableEq

namespace ClientRole

variable (c : ClientRole) (kvRequestId : KvRequestId)

/-- `_get_or_create_request`; the entry is stored when its caller writes it back. -/
def getOrCreateRequest : ClientRequestState :=
  (c.requests.get? kvRequestId).getD {}

variable (st : ClientRequestState)

/-- An entry written back. -/
def setRequest : ClientRole :=
  { c with requests := c.requests.set kvRequestId st }

/-- A message for the peer. -/
def send (msg : PeerMsg) : ClientRole := { c with outbox := c.outbox ++ [msg] }

/-- Whether an entry holds no live load or lookup state. -/
def idle : Bool := st.loads = ∅ && st.probes = ∅ && st.unsent.isEmpty

/-- A request with nothing open is forgotten. -/
def maybePrune : ClientRole :=
  if (c.requests.get? kvRequestId).any idle then
    { c with requests := c.requests.erase kvRequestId }
  else c

/-- The last load of a request has ended. -/
def onLoadTerminal : ClientRole :=
  if st.loads ≠ ∅ then c
  else { c with activeLoads := discard kvRequestId c.activeLoads }.maybePrune kvRequestId

/-- `_abort_load`: the load as it is afterwards, and the role. -/
def abortLoad (now : Time) (kvRequestId : KvRequestId) (roundSeq : ℕ) (load : InboundLoadState)
    (c : ClientRole) : InboundLoadState × ClientRole :=
  ({ load with abortedAt := some now, release := some c.nextEvent },
    { c.send (.abortFetch kvRequestId roundSeq) with
      nextEvent := c.nextEvent + 1
      completedLoads := c.completedLoads ++
        [{ jobId := load.jobId, kvRequestId, success := false,
           deferredRelease := some c.nextEvent }] })

/-- A loop over the loads of an entry that may change each load and the role. -/
def forLoads (body : ℕ → InboundLoadState → ClientRole → InboundLoadState × ClientRole) :
    List ℕ → ClientRequestState → ClientRole → ClientRequestState × ClientRole
  | [], st, c => (st, c)
  | roundSeq :: rounds, st, c =>
    match st.loads.get? roundSeq with
    | none => forLoads body rounds st c
    | some load =>
      let visited := body roundSeq load c
      forLoads body rounds { st with loads := st.loads.set roundSeq visited.1 } visited.2

/-- `request_blocks`. The assertions come after the load is registered and the fetch is sent. -/
def requestBlocks (jobId : JobId) (kvRequestId : KvRequestId)
    (keys : List OffloadKey) (blockIds : List ℕ) (now : Time) : Outcome ClientRole Unit :=
  let st := c.getOrCreateRequest kvRequestId
  let load : InboundLoadState :=
    { jobId, submittedAt := now, timeout := if st.probed then p2pLoadTimeout else pdLoadTimeout }
  let st' := { st with
    roundSeq := st.roundSeq + 1
    loads := st.loads.set st.roundSeq load
    peerLookupOpen := false }
  let c' := { c.setRequest kvRequestId st' with
    activeLoads := insertSet kvRequestId c.activeLoads }.send
      (.fetch kvRequestId keys blockIds st.roundSeq)
  if st.probed && !keys.isEmpty && (st.probes = ∅ ||
      !keys.all fun key => st.probes.get? key = some (some true)) then
    (.error .assertionError, c')
  else (.ok (), { c'.setRequest kvRequestId { st' with probes := ∅ } with
    lookupDeadlines := c.lookupDeadlines.erase kvRequestId })

/-- The request ends: its loads are aborted, and its lookups are given up. -/
def finish (now : Time) : ClientRole :=
  match c.requests.get? kvRequestId with
  | none => c
  | some st =>
    let visited := forLoads (fun roundSeq load c =>
      if load.abortedAt = none then abortLoad now kvRequestId roundSeq load c else (load, c))
      st.loads.keys st c
    let st := visited.1
    let c := if st.peerLookupOpen then visited.2.send (.fetch kvRequestId [] [] st.roundSeq)
      else visited.2
    let st := { st with peerLookupOpen := false, probes := ∅, unsent := [] }
    { c.setRequest kvRequestId st with
      lookupDeadlines := c.lookupDeadlines.erase kvRequestId
      flushPending := discard kvRequestId c.flushPending }.maybePrune kvRequestId

/-- The peer has written a round, or could not. -/
def onTransferDone (success : Bool) (roundSeq : ℕ) : ClientRole :=
  match c.requests.get? kvRequestId with
  | none => c
  | some st =>
    match st.loads.get? roundSeq with
    | none => c
    | some load =>
      let st := { st with loads := st.loads.erase roundSeq }
      let c := c.setRequest kvRequestId st
      match load.release with
      | some event =>
        { c with released := insertSet event c.released }.onLoadTerminal kvRequestId st
      | none =>
        let result : LoadResult := { jobId := load.jobId, kvRequestId, success }
        { c with completedLoads := c.completedLoads ++ [result] }.onLoadTerminal kvRequestId st

/-- `on_abort_ack`. The load is popped before the assertion. -/
def onAbortAck (roundSeq : ℕ) : Outcome ClientRole Unit :=
  match c.requests.get? kvRequestId with
  | none => (.ok (), c)
  | some st =>
    match st.loads.get? roundSeq with
    | none => (.ok (), c)
    | some load =>
      let st := { st with loads := st.loads.erase roundSeq }
      let c := c.setRequest kvRequestId st
      match load.release with
      | none => (.error .assertionError, c)
      | some event =>
        (.ok (), { c with released := insertSet event c.released }.onLoadTerminal kvRequestId st)

/-- What is known of a key. One that is new is asked for with the next flush. -/
def registerLookup (key : OffloadKey) : Option Bool × ClientRole :=
  let st := { c.getOrCreateRequest kvRequestId with probed := true }
  match st.probes.get? key with
  | some hit => (hit, c.setRequest kvRequestId st)
  | none => (none, { c.setRequest kvRequestId { st with
      probes := st.probes.set key none
      unsent := st.unsent ++ [key] } with
    flushPending := insertSet kvRequestId c.flushPending })

/-- The loop of `flush_pending_lookups`. -/
def flushLoop (now : Time) : List KvRequestId → ClientRole → ClientRole
  | [], c => c
  | reqId :: reqIds, c =>
    match c.requests.get? reqId with
    | none => flushLoop now reqIds c
    | some st =>
      if st.unsent.isEmpty then flushLoop now reqIds c
      else
        let deadlines := if (c.lookupDeadlines.get? reqId).isSome then c.lookupDeadlines
          else c.lookupDeadlines.set reqId (now + lookupTimeout)
        flushLoop now reqIds ({ c.setRequest reqId { st with
          peerLookupOpen := true
          unsent := [] } with
          lookupDeadlines := deadlines }.send (.lookup reqId st.unsent st.roundSeq))

/-- The keys that were not asked for yet, once the connection is ready. -/
def flushPendingLookups (sendReady : Bool) (now : Time) : ClientRole :=
  if sendReady then { flushLoop now c.flushPending c with flushPending := [] } else c

/-- The loop of `on_lookup_resp`: whether a probe was resolved, and the probes. -/
def resolveProbes : List (OffloadKey × Bool) → Dict OffloadKey (Option Bool) →
    Bool × Dict OffloadKey (Option Bool)
  | [], probes => (false, probes)
  | (key, hit) :: pairs, probes =>
    match probes.get? key with
    | none => resolveProbes pairs probes
    | some known =>
      let rest := resolveProbes pairs (probes.set key (some hit))
      (known.isNone || rest.1, rest.2)

/-- The answer of the peer to a lookup. -/
def onLookupResp (keys : List OffloadKey) (hits : List Bool) (now : Time) : ClientRole :=
  match c.requests.get? kvRequestId with
  | none => c
  | some st =>
    let resolved := resolveProbes (keys.zip hits) st.probes
    let c := c.setRequest kvRequestId { st with probes := resolved.2 }
    if resolved.2.values.all Option.isSome then
      { c with lookupDeadlines := c.lookupDeadlines.erase kvRequestId }
    else if resolved.1 then
      { c with lookupDeadlines := c.lookupDeadlines.set kvRequestId (now + lookupTimeout) }
    else c

/-- What `collect_results` does to one load: abort it when its time is up, or note that its
`AbortAck` is overdue. -/
def checkLoad (now : Time) (kvRequestId : KvRequestId) (roundSeq : ℕ) (load : InboundLoadState)
    (c : ClientRole) : InboundLoadState × ClientRole :=
  match load.abortedAt with
  | none =>
    if load.submittedAt + load.timeout ≤ now then abortLoad now kvRequestId roundSeq load c
    else (load, c)
  | some abortedAt =>
    if !load.ackExpired && decide (abortedAt + abortAckTimeout ≤ now) then
      ({ load with ackExpired := true }, if c.expiredAbortAck = none then
          { c with expiredAbortAck := some (kvRequestId, roundSeq) }
        else c)
    else (load, c)

/-- The loop of `collect_results` over the ids with loads. -/
def checkLoads (now : Time) : List KvRequestId → ClientRole → Outcome ClientRole Unit
  | [], c => (.ok (), c)
  | reqId :: reqIds, c =>
    match c.requests.get? reqId with
    | none => (.error .keyError, c)
    | some st =>
      if st.loads = ∅ then (.error .assertionError, c)
      else
        let visited := forLoads (checkLoad now reqId) st.loads.keys st c
        checkLoads now reqIds (visited.2.setRequest reqId visited.1)

/-- The loads that ended, after those that are overdue were given up. -/
def collectResults (now : Time) : Outcome ClientRole (List LoadResult) :=
  match checkLoads now c.activeLoads c with
  | (.error e, c) => (.error e, c)
  | (.ok _, c) => (.ok c.completedLoads, { c with completedLoads := [] })

/-- All loads in flight. -/
def allLoads : List InboundLoadState :=
  c.requests.values.flatMap fun st => st.loads.values

/-- The role without requests, and the jobs and requests that fail with it. -/
def close : ClientCloseResult × ClientRole :=
  ({ failedJobs := c.completedLoads.map LoadResult.jobId ++
       c.allLoads.filterMap fun load => if load.release = none then some load.jobId else none
     failedReqIds := (c.requests.entries.filter fun e =>
       e.2.loads ≠ ∅ || e.2.probes.values.any Option.isNone).map Prod.fst },
    { c with
      requests := ∅
      flushPending := []
      activeLoads := []
      completedLoads := []
      lookupDeadlines := ∅
      released := c.released ++ c.allLoads.filterMap InboundLoadState.release })

end ClientRole

end Sonar.P2P
