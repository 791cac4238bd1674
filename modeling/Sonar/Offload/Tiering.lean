import Sonar.Offload.PrimaryTier

/-!
# The tiering manager

`TieringOffloadingManager` puts secondary tiers behind the primary tier. What is stored in the primary
tier is **cascaded** to the secondary tiers, and what a secondary tier has is **promoted** to the primary
tier when it is looked up: the chunk is allocated at once, and the load is submitted at the end of the
schedule step, one for each tier and request.

The secondary tiers are not modelled: `TierAnswers` has what they return during a call, and two histories
that no branch reads say what they have received: `tierCalls`, the calls, and `running`, the jobs that were
handed to a tier and that it has not reported, whatever the manager's own table `jobs` says. A tier that serves its peers calls the manager back
from `serve_external_requests`. Such a call is one of `onNewRequest`, `lookup`, `createStoreJob` and
`onRequestFinished`, with the tier itself excluded from what the manager asks the tiers, so
`on_schedule_end` and `poll_tiers` are given here as what they do before and after.
-/

namespace Sonar.Offload

open Lib CPUOffloadingManager
open P2P (OffloadKey JobId LookupResult)

/-- Where a hit was found. -/
inductive CacheHitSource where
  | device
  | host
  | p2p
  | disk
  | externalUnspecified
deriving DecidableEq, Repr

/-- What is fixed about a secondary tier. -/
structure SecondaryTier where
  cacheHitSource : CacheHitSource
  toleratesOffThreadPolling : Bool
deriving DecidableEq, Repr

/-- A transfer between the primary tier and a secondary one. -/
structure TransferJob where
  jobId : JobId
  keys : List OffloadKey
  chunkIds : List ℕ
  isPromotion : Bool
  ctx : ReqContext

/-- A job and the tier it was handed to. -/
structure JobMetadata where
  transferJob : TransferJob
  tierIdx : ℕ

/-- `JobResult`. A deferred release comes with an event, which the tier sets later. -/
structure JobResult where
  jobId : JobId
  success : Bool
  successfulKeys : Option (List OffloadKey) := none
  deferredRelease : Bool := false
deriving DecidableEq, Repr

/-- The promotions of one request that are not submitted yet. -/
structure PendingPromotion where
  ctx : ReqContext
  keys : List OffloadKey := []
  chunkIds : List ℕ := []

/-- What the manager keeps for a request. -/
structure RequestState where
  ctx : ReqContext
  pendingPrimaryStores : ℕ := 0
  isFinished : Bool := false
  requestLevelTiers : List ℕ := []
  pendingCascadeKeys : List OffloadKey := []

/-- Chunk ids of a failed promotion that the tier may still write to. -/
structure DeferredRelease where
  tierIdx : ℕ
  chunkIds : List ℕ

/-- The calls a tier receives about requests. -/
inductive TierCall where
  | onNewRequest (ctx : ReqContext)
  | submitStore (job : TransferJob)
  | submitLoad (job : TransferJob)
  | onRequestFinished (ctx : ReqContext)

/-- What the tiers answer during a call of the manager, by the index of the tier. -/
structure TierAnswers where
  lookup : ℕ → LookupResult := fun _ => .miss
  /-- Whether `load_tier_filter` allows the tier. -/
  loadAllowed : ℕ → Bool := fun _ => true
  /-- Whether the tier wants the policy `REQUEST_LEVEL`. -/
  requestLevel : ℕ → Bool := fun _ => false
  finishedJobs : ℕ → List JobResult := fun _ => []
  /-- Whether the event of a deferred release is set. -/
  eventSet : JobId → Bool := fun _ => false
  /-- What the detector of back-pressure says about the cascade of a request to a tier. -/
  shouldStore : String → ℕ → Bool := fun _ _ => true

/-- The manager of a primary tier and secondary tiers. -/
structure TieringOffloadingManager (π : Type) where
  primaryTier : CPUPrimaryTier π
  secondaryTiers : List SecondaryTier
  jobIdCounter : JobId := 0
  jobs : Dict JobId JobMetadata := ∅
  deferredReleases : Dict JobId DeferredRelease := ∅
  promotionsHeld : Bool := false
  pendingLoadSubmissions : Dict ℕ (Dict String PendingPromotion) := ∅
  processedJobsThisStep : Bool := false
  reqState : Dict String RequestState := ∅
  requestLoadSources : Dict String (Dict OffloadKey CacheHitSource) := ∅
  /-- The calls the tiers have received. -/
  tierCalls : List (ℕ × TierCall) := []
  /-- The jobs the tiers have and have not reported, each with its tier. -/
  running : Dict JobId JobMetadata := ∅

/-- Calls of the tiering manager. -/
abbrev TieringM (π α : Type) := ExceptT OffloadError (StateM (TieringOffloadingManager π)) α

/-- The keys that a promotion has and has not loaded. -/
def JobResult.promotedKeys (result : JobResult) (job : TransferJob) :
    Except OffloadError (List OffloadKey × List OffloadKey) :=
  if result.success then .ok (job.keys, [])
  else
    match result.successfulKeys with
    | some (key :: keys) =>
      if (key :: keys).all (· ∈ job.keys) then
        .ok (key :: keys, job.keys.filter (· ∉ key :: keys))
      else .error (.assertionError "Finished promotion job_id %r reported unknown successful keys")
    | _ => .ok ([], job.keys)

namespace TieringOffloadingManager

variable {π : Type} [CachePolicy π]

/-- A call of the primary tier. -/
def primaryCall {α : Type} (call : PrimaryM π α) : TieringM π α :=
  zoom primaryTier (fun m primaryTier => { m with primaryTier }) call

/-- A call of the primary tier that is inherited from the CPU manager. -/
def cpuCall {α : Type} (call : ManagerM π α) : TieringM π α := primaryCall (CPUPrimaryTier.inherited call)

/-- A tier receives a call. -/
def callTier (tierIdx : ℕ) (call : TierCall) : TieringM π PUnit :=
  modify fun m => { m with tierCalls := m.tierCalls ++ [(tierIdx, call)] }

/-- `self._req_state[req_id]`. -/
def getReqState (reqId : String) : TieringM π RequestState := do
  let m ← get
  match m.reqState.get? reqId with
  | none => throw .keyError
  | some state => pure state

/-- The state of a request is changed. -/
def setReqState (reqId : String) (state : RequestState) : TieringM π PUnit :=
  modify fun m => { m with reqState := m.reqState.set reqId state }

/-- `_register_job`, with the next job id. -/
def registerJob (keys : List OffloadKey) (chunkIds : List ℕ) (isPromotion : Bool) (ctx : ReqContext)
    (tierIdx : ℕ) : TieringM π TransferJob := do
  let m ← get
  let job : TransferJob := { jobId := m.jobIdCounter, keys, chunkIds, isPromotion, ctx }
  set { m with
    jobIdCounter := m.jobIdCounter + 1
    jobs := m.jobs.set m.jobIdCounter ⟨job, tierIdx⟩ }
  pure job

/-- A tier has the job from now on. -/
def handOver (job : TransferJob) (tierIdx : ℕ) : TieringM π PUnit :=
  modify fun m => { m with running := m.running.set job.jobId ⟨job, tierIdx⟩ }

/-- A tier has reported the job. -/
def handBack (jobId : JobId) : TieringM π PUnit :=
  modify fun m => { m with running := m.running.erase jobId }

variable (m : TieringOffloadingManager π)

/-- The sources of a request forget keys that the tier failed to load. -/
def forgetSources (metadata : JobMetadata)
    (failedKeys : List OffloadKey) : TieringOffloadingManager π :=
  let reqId := metadata.transferJob.ctx.reqId
  match m.requestLoadSources.get? reqId, m.secondaryTiers[metadata.tierIdx]? with
  | some sources, some tier =>
    let sources := failedKeys.foldl (fun sources key =>
      if sources.get? key = some tier.cacheHitSource then sources.erase key else sources) sources
    { m with requestLoadSources := m.requestLoadSources.set reqId sources }
  | _, _ => m

/-- The end of `_complete_promotion`: the chunks of failed keys are released, now or later. -/
def releaseFailed (metadata : JobMetadata) (result : JobResult) (failedKeys : List OffloadKey) :
    TieringM π PUnit := do
  if failedKeys.isEmpty then
    if result.deferredRelease then throw (.assertionError "") else pure ⟨⟩
  else if result.deferredRelease then
    let chunkIds ← primaryCall (CPUPrimaryTier.deferWriteRelease failedKeys)
    modify fun m => { m with
      deferredReleases := m.deferredReleases.set result.jobId ⟨metadata.tierIdx, chunkIds⟩ }
  else cpuCall (completeStore failedKeys metadata.transferJob.ctx false)

/-- The end of a promotion: keys that were read can be used, those that failed are released. -/
def completePromotion (metadata : JobMetadata) (result : JobResult) : TieringM π PUnit := do
  match result.promotedKeys metadata.transferJob with
  | .error e => throw e
  | .ok (successfulKeys, failedKeys) =>
    modify fun m => m.forgetSources metadata failedKeys
    if successfulKeys.isEmpty then pure ⟨⟩
    else cpuCall (completeStore successfulKeys metadata.transferJob.ctx true)
    releaseFailed metadata result failedKeys

/-- What `_process_finished_jobs` does for one result of a tier. -/
def processFinishedJob (tierIdx : ℕ) (result : JobResult) : TieringM π PUnit := do
  handBack result.jobId
  let m ← get
  match m.jobs.get? result.jobId with
  | none => throw (.assertionError "Finished job_id %r from tier #%r (%r) not in _jobs")
  | some metadata =>
    set { m with jobs := m.jobs.erase result.jobId }
    if metadata.tierIdx ≠ tierIdx then
      throw (.assertionError "Finished job_id %r reported by tier #%r but belongs to tier #%r")
    else if !metadata.transferJob.isPromotion && result.deferredRelease then
      throw (.assertionError "")
    else if metadata.transferJob.isPromotion then completePromotion metadata result
    else cpuCall (completeLoad metadata.transferJob.keys)

/-- What `_complete_deferred_releases` does for one job. -/
def completeDeferredRelease (jobId : JobId) : TieringM π PUnit := do
  let m ← get
  match m.deferredReleases.get? jobId with
  | none => throw .keyError
  | some deferred =>
    set { m with deferredReleases := m.deferredReleases.erase jobId }
    primaryCall (CPUPrimaryTier.releaseDeferredWrite deferred.chunkIds)

variable (answers : TierAnswers)

/-- Releases that a tier has confirmed by now are made. -/
def completeDeferredReleases (tierIdx : ℕ) : TieringM π PUnit := do
  let m ← get
  forAll completeDeferredRelease (m.deferredReleases.filter fun jobId deferred =>
    deferred.tierIdx = tierIdx && answers.eventSet jobId).keys

/-- `_process_finished_jobs`, for the listed tiers. -/
def processFinishedJobs (tiers : List ℕ) : TieringM π PUnit :=
  forAll (fun tierIdx => do
    forAll (processFinishedJob tierIdx) (answers.finishedJobs tierIdx)
    completeDeferredReleases answers tierIdx) tiers

/-- The indexes of the tiers. -/
def tierIndexes : List ℕ := List.range m.secondaryTiers.length

/-- The indexes of `_polled_tiers`. -/
def polledTiers : List ℕ :=
  m.tierIndexes.filter fun i => (m.secondaryTiers[i]?).any SecondaryTier.toleratesOffThreadPolling

/-- Finished jobs are processed once a step. -/
def maybeProcessFinishedJobs : TieringM π PUnit := do
  let m ← get
  if m.processedJobsThisStep then pure ⟨⟩
  else
    set { m with processedJobsThisStep := true }
    processFinishedJobs answers m.tierIndexes

/-- A promotion that is queued for a tier and a request. -/
def queuePromotion (tierIdx : ℕ) (ctx : ReqContext)
    (out : PrepareStoreOutput) : TieringOffloadingManager π :=
  let tierPending := (m.pendingLoadSubmissions.get? tierIdx).getD ∅
  let entry := (tierPending.get? ctx.reqId).getD { ctx }
  let entry := { entry with
    keys := entry.keys ++ out.keysToStore
    chunkIds := entry.chunkIds ++ out.storeSpec }
  { m with
    pendingLoadSubmissions := m.pendingLoadSubmissions.set tierIdx (tierPending.set ctx.reqId entry) }

/-- The sources of a request learn where promoted keys come from. -/
def learnSources (tierIdx : ℕ) (ctx : ReqContext)
    (keys : List OffloadKey) : TieringOffloadingManager π :=
  match m.secondaryTiers[tierIdx]? with
  | some tier =>
    let sources := keys.foldl (fun sources key => sources.set key tier.cacheHitSource)
      ((m.requestLoadSources.get? ctx.reqId).getD ∅)
    { m with requestLoadSources := m.requestLoadSources.set ctx.reqId sources }
  | none => m

/-- A key that a tier holds gets a chunk, and is queued for that tier. -/
def initiatePromotion (tierIdx : ℕ) (key : OffloadKey) (ctx : ReqContext) : TieringM π Bool := do
  match ← cpuCall (prepareStore [key] ctx) with
  | none => pure false
  | some out =>
    modify fun m => (m.learnSources tierIdx ctx out.keysToStore).queuePromotion tierIdx ctx out
    pure true

/-- The loop of `lookup` over the tiers. -/
def lookupTiers (answers : TierAnswers) (key : OffloadKey) (ctx : ReqContext) :
    List ℕ → Bool → TieringM π LookupResult
  | [], anyRetry => pure (if anyRetry then .retry else .miss)
  | tierIdx :: tiers, anyRetry =>
    match answers.lookup tierIdx with
    | .hit => do
      let promoted ← initiatePromotion tierIdx key ctx
      pure (if promoted then .hitPending else .miss)
    | .retry => lookupTiers answers key ctx tiers true
    | _ => lookupTiers answers key ctx tiers anyRetry

/-- Whether a key is there, or becomes so because a tier holds it. -/
def lookup (key : OffloadKey) (ctx : ReqContext)
    (excludeTierIdx : Option ℕ) : TieringM π LookupResult := do
  maybeProcessFinishedJobs answers
  let m ← get
  match m.primaryTier.cpu.lookup key with
  | .hit => pure .hit
  | .hitPending => pure .hitPending
  | _ =>
    if m.promotionsHeld then pure .miss
    else lookupTiers answers key ctx (m.tierIndexes.filter fun i =>
      some i ≠ excludeTierIdx && answers.loadAllowed i) false

/-- Where a load comes from: the tier that promoted the key, or the host. -/
def getLoadSource (key : OffloadKey) (ctx : ReqContext) : CacheHitSource :=
  ((m.requestLoadSources.get? ctx.reqId).bind fun sources => sources.get? key).getD .host

/-- One load of `_flush_pending_promotions`. -/
def submitPromotion (tierIdx : ℕ) (entry : PendingPromotion) : TieringM π PUnit := do
  let job ← registerJob entry.keys entry.chunkIds true entry.ctx tierIdx
  handOver job tierIdx
  callTier tierIdx (.submitLoad job)

/-- The queued promotions become jobs. -/
def flushPendingPromotions : TieringM π PUnit := do
  let m ← get
  forAll (fun e : ℕ × Dict String PendingPromotion => forAll (submitPromotion e.1) e.2.values)
    m.pendingLoadSubmissions.entries
  modify fun m => { m with pendingLoadSubmissions := ∅ }

/-- `create_store_job`. The job goes to the tier: a tier that calls this for a peer gets it as the result,
and a cascade submits it at once. -/
def createStoreJob (keys : List OffloadKey) (ctx : ReqContext) (tierIdx : ℕ) :
    TieringM π TransferJob := do
  let chunkIds ← primaryCall (CPUPrimaryTier.prepareRead keys ctx)
  let job ← registerJob keys chunkIds false ctx tierIdx
  handOver job tierIdx
  pure job

/-- A store job is created and submitted, if the tier takes it. -/
def cascadeTo (keys : List OffloadKey) (ctx : ReqContext) (tierIdx : ℕ) : TieringM π PUnit := do
  if answers.shouldStore ctx.reqId tierIdx then
    let job ← createStoreJob keys ctx tierIdx
    callTier tierIdx (.submitStore job)
  else pure ⟨⟩

/-- `_cascade_existing_chunks_to_request_level_tiers`. -/
def cascadeExistingChunks (keys : List OffloadKey) (ctx : ReqContext)
    (requestLevelTiers : List ℕ) : TieringM π PUnit := do
  let state ← getReqState ctx.reqId
  let m ← get
  setReqState ctx.reqId { state with
    pendingCascadeKeys := state.pendingCascadeKeys ++
      keys.filter fun key => m.primaryTier.cpu.lookup key = .hitPending }
  let readyKeys := keys.filter fun key => m.primaryTier.cpu.lookup key = .hit
  if readyKeys.isEmpty then pure ⟨⟩
  else forAll (cascadeTo answers readyKeys ctx) requestLevelTiers

/-- The tiers hear of the end of a request that has nothing left to store. -/
def maybeFinalizeRequest (reqId : String) (excludeTierIdx : Option ℕ) : TieringM π PUnit := do
  let state ← getReqState reqId
  if !state.isFinished || state.pendingPrimaryStores ≠ 0 || !state.pendingCascadeKeys.isEmpty then
    pure ⟨⟩
  else
    let m ← get
    forAll (fun tierIdx => callTier tierIdx (.onRequestFinished state.ctx))
      (m.tierIndexes.filter fun i => some i ≠ excludeTierIdx)
    modify fun m => { m with
      requestLoadSources := m.requestLoadSources.erase reqId
      reqState := m.reqState.erase reqId }

/-- What `_flush_pending_cascades` does for one request. -/
def flushCascade (reqId : String) : TieringM π PUnit := do
  let state ← getReqState reqId
  if state.pendingCascadeKeys.isEmpty then pure ⟨⟩
  else if state.requestLevelTiers.isEmpty then throw (.assertionError "")
  else
    setReqState reqId { state with pendingCascadeKeys := [] }
    cascadeExistingChunks answers state.pendingCascadeKeys state.ctx state.requestLevelTiers
    maybeFinalizeRequest reqId none

/-- The pending cascades of all requests are tried again. -/
def flushPendingCascades : TieringM π PUnit := do
  let m ← get
  forAll (flushCascade answers) m.reqState.keys

/-- `prepare_load` of the primary tier. -/
def prepareLoad (keys : List OffloadKey) (ctx : ReqContext) : TieringM π (List ℕ) :=
  cpuCall (CPUOffloadingManager.prepareLoad keys ctx)

/-- `complete_load` of the primary tier. -/
def completeLoad (keys : List OffloadKey) : TieringM π PUnit :=
  cpuCall (CPUOffloadingManager.completeLoad keys)

/-- The part of `prepare_store` after the store to the primary tier. -/
def cascadeOffered (keys : List OffloadKey) (ctx : ReqContext)
    (out : PrepareStoreOutput) : TieringM π PUnit := do
  if out.keysToStore.isEmpty then pure ⟨⟩
  else
    let state ← getReqState ctx.reqId
    setReqState ctx.reqId { state with pendingPrimaryStores := state.pendingPrimaryStores + 1 }
  let state ← getReqState ctx.reqId
  let keysAlreadyInPrimary := keys.filter (· ∉ out.keysToStore)
  if state.requestLevelTiers.isEmpty || keysAlreadyInPrimary.isEmpty then pure ⟨⟩
  else cascadeExistingChunks answers keysAlreadyInPrimary ctx state.requestLevelTiers

/-- Finished jobs are processed, then the primary tier makes room. -/
def prepareStore (keys : List OffloadKey) (ctx : ReqContext) :
    TieringM π (Option PrepareStoreOutput) := do
  modify fun m => { m with processedJobsThisStep := true }
  let m ← get
  processFinishedJobs answers m.tierIndexes
  match ← cpuCall (CPUOffloadingManager.prepareStore keys ctx) with
  | none => pure none
  | some out =>
    cascadeOffered answers keys ctx out
    pure (some out)

/-- The primary tier has the chunks, and they cascade to the tiers. -/
def completeStore (keys : List OffloadKey) (ctx : ReqContext)
    (success : Bool) : TieringM π PUnit := do
  cpuCall (CPUOffloadingManager.completeStore keys ctx success)
  let m ← get
  if success then forAll (cascadeTo answers keys ctx) m.tierIndexes else pure ⟨⟩
  let state ← getReqState ctx.reqId
  if state.pendingPrimaryStores = 0 then throw (.assertionError "")
  else
    setReqState ctx.reqId { state with pendingPrimaryStores := state.pendingPrimaryStores - 1 }
    maybeFinalizeRequest ctx.reqId none

/-- `on_new_request`. The result says whether the policy is `REQUEST_LEVEL`. -/
def onNewRequest (ctx : ReqContext) (excludeTierIdx : Option ℕ) : TieringM π Bool := do
  let m ← get
  let tiers := m.tierIndexes.filter fun i => some i ≠ excludeTierIdx
  forAll (fun tierIdx => callTier tierIdx (.onNewRequest ctx)) tiers
  let requestLevelTiers := tiers.filter answers.requestLevel
  setReqState ctx.reqId { ctx, requestLevelTiers }
  pure !requestLevelTiers.isEmpty

/-- A request ends; the tiers hear of it when its stores are done. -/
def onRequestFinished (ctx : ReqContext) (excludeTierIdx : Option ℕ) : TieringM π PUnit := do
  cpuCall (CPUOffloadingManager.onRequestFinished ctx)
  let state ← getReqState ctx.reqId
  setReqState ctx.reqId { state with isFinished := true }
  maybeFinalizeRequest ctx.reqId excludeTierIdx

/-- `on_schedule_end` before the tiers serve their peers. -/
def onScheduleEndPoll : TieringM π PUnit := maybeProcessFinishedJobs answers

/-- `on_schedule_end` after the tiers have served their peers. -/
def onScheduleEndFlush : TieringM π PUnit := do
  modify fun m => { m with processedJobsThisStep := false }
  flushPendingPromotions
  flushPendingCascades answers

/-- `poll_tiers` before the tiers serve their peers. -/
def pollTiers : TieringM π PUnit := do
  modify fun m => { m with processedJobsThisStep := true }
  let m ← get
  processFinishedJobs answers m.polledTiers

/-- The end of `poll_tiers`, which puts the gate back. -/
def restoreGate (gate : Bool) : TieringM π PUnit := modify fun m => { m with processedJobsThisStep := gate }

end TieringOffloadingManager

end Sonar.Offload
