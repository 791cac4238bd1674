import Sonar.Offload.CachePolicy

/-!
# The manager of the CPU tier

`CPUOffloadingManager` hands out the chunks of CPU memory. A chunk id is **fresh** until it is first
allocated; afterwards it is in the free list or belongs to a resident chunk. `prepare_store` admits
new keys, evicting idle chunks if there is no room, and `complete_store` makes them readable or gives
them back. `prepare_load` and `complete_load` count the readers of a chunk.

The state that a manager attaches to a request is kept here in `accesses`, by the identity of the
request's context.
-/

namespace Sonar.Offload

open Lib P2P CachePolicy

/-- `OffloadingEvent`, as far as the CPU tier fills it. -/
structure OffloadingEvent where
  keys : List OffloadKey
  removed : Bool
  metadataOnly : Bool := false
  reqContext : Option ReqContext := none

/-- `PrepareStoreOutput`. The specification of the store lists the chunk ids. -/
structure PrepareStoreOutput where
  keysToStore : List OffloadKey
  storeSpec : List ℕ
  evictedKeys : List OffloadKey
deriving DecidableEq, Repr

/-- What a request did to the cache, up to its end. -/
structure RequestCacheAccess where
  cacheGeneration : ℕ
  keyGroups : Dict ℕ (List OffloadKey) := ∅
  seenKeys : List OffloadKey := []
  insertedKeys : List OffloadKey := []
  reusedKeys : List OffloadKey := []
  storeMissKeys : List OffloadKey := []
  finished : Bool := false

/-- `get_offload_group_idx`: the last four bytes, the most significant one first. -/
def getOffloadGroupIdx (key : OffloadKey) : ℕ :=
  (key.drop (key.length - 4)).foldl (fun n b => 256 * n + b.toNat) 0

/-- `update` of a set. -/
def updateSet (s keys : List OffloadKey) : List OffloadKey := keys.foldl (fun s key => insertSet key s) s

/-- The manager of the chunks in host memory, over a policy. -/
structure CPUOffloadingManager (π : Type) where
  numChunks : ℕ
  numAllocatedChunks : ℕ := 0
  freeList : List ℕ := []
  events : Option (List OffloadingEvent)
  policy : π
  /-- The number of resident chunks with `ref_cnt` 0. -/
  numEvictable : ℤ := 0
  /-- The number of chunks with a store in flight. -/
  numWritePending : ℤ := 0
  storeThreshold : ℕ
  maxTrackerSize : ℕ
  storesSkippedInCurrentBatch : ℕ := 0
  allocationSizesInCurrentBatch : List ℕ := []
  cacheGeneration : ℕ := 0
  counts : Option (Dict OffloadKey ℕ)
  accesses : Dict ℕ RequestCacheAccess := ∅

/-- Calls of the manager. -/
abbrev ManagerM (π α : Type) := ExceptT OffloadError (StateM (CPUOffloadingManager π)) α

namespace CPUOffloadingManager

variable {π : Type} [CachePolicy π]

/-- `__init__`. -/
def new (numChunks : ℕ) (enableEvents : Bool) (storeThreshold maxTrackerSize : ℕ) :
    CPUOffloadingManager π where
  numChunks
  events := if enableEvents then some [] else none
  policy := CachePolicy.new numChunks
  storeThreshold
  maxTrackerSize
  counts := if 2 ≤ storeThreshold then some ∅ else none

/-- A call of the policy. -/
def policyCall {α : Type} (call : PolicyM π α) : ManagerM π α :=
  zoom policy (fun m policy => { m with policy }) call

/-- The chunk object of a resident key is changed. -/
def putChunk (key : OffloadKey) (chunk : ChunkStatus) : ManagerM π PUnit :=
  modify fun m => { m with policy := put m.policy key chunk }

variable (m : CPUOffloadingManager π)

/-- The chunks that are free. -/
def getNumFreeChunks : ℕ :=
  m.freeList.length + m.numChunks - m.numAllocatedChunks

variable (keys : List OffloadKey)

/-- `_allocate_chunks`. Reused ids are popped from the end of the free list. -/
def allocateChunks : ManagerM π (List ChunkStatus) := do
  let m ← get
  let numFresh := min keys.length (m.numChunks - m.numAllocatedChunks)
  let numReused := keys.length - numFresh
  if m.freeList.length < numReused then throw (.assertionError "")
  else
    let numKept := m.freeList.length - numReused
    set { m with
      numAllocatedChunks := m.numAllocatedChunks + numFresh
      freeList := m.freeList.take numKept }
    pure ((List.range' m.numAllocatedChunks numFresh ++ (m.freeList.drop numKept).reverse).map
      fun chunkId => { chunkId })

/-- An event is added if events are enabled. -/
def addEvent (event : OffloadingEvent) : CPUOffloadingManager π :=
  { m with events := m.events.map fun events => events ++ [event] }

/-- The first loop of `_record_accesses`: keys that are tracked are counted. -/
def countTracked (counts : Dict OffloadKey ℕ) (keys : List OffloadKey) :
    Dict OffloadKey ℕ × List OffloadKey :=
  keys.foldl (fun s key =>
    match s.1.get? key with
    | some n => ((s.1.moveToEnd key).set key (n + 1), insertSet key s.2)
    | none => s) (counts, [])

/-- The second loop of `_record_accesses`: other keys get an entry, if an old one can make room. -/
def trackNew (maxTrackerSize : ℕ) (s : Dict OffloadKey ℕ × ℕ) (key : OffloadKey) :
    Dict OffloadKey ℕ × ℕ :=
  let (counts, numUnprotected) := s
  if (counts.get? key).isSome then s
  else if counts.entries.length < maxTrackerSize then (counts.set key 1, numUnprotected)
  else if numUnprotected = 0 then s
  else
    match counts.entries with
    | [] => s
    | (oldest, _) :: _ => ((counts.erase oldest).set key 1, numUnprotected - 1)

/-- The counts of lookups, where new keys push out the oldest ones that are not counted now. -/
def recordAccesses (maxTrackerSize : ℕ) (counts : Dict OffloadKey ℕ) (keys : List OffloadKey) :
    Dict OffloadKey ℕ :=
  let (counts, protectedKeys) := countTracked counts keys
  (keys.foldl (trackNew maxTrackerSize) (counts, counts.entries.length - protectedKeys.length)).1

variable (ctx : ReqContext)

/-- The record of a request, new after the cache was reset. -/
def getRequestCacheAccess : ManagerM π RequestCacheAccess := do
  let m ← get
  match (m.accesses.get? ctx.ident).filter fun s => s.cacheGeneration = m.cacheGeneration with
  | some state => pure state
  | none =>
    let state : RequestCacheAccess := { cacheGeneration := m.cacheGeneration }
    set { m with accesses := m.accesses.set ctx.ident state }
    pure state

/-- The state of a request is changed. -/
def setAccess (state : RequestCacheAccess) : ManagerM π PUnit :=
  modify fun m => { m with accesses := m.accesses.set ctx.ident state }

/-- The loop of `_record_request_cache_access`, with the new keys. -/
def observeKeys : RequestCacheAccess → List OffloadKey → List OffloadKey →
    Except OffloadError (RequestCacheAccess × List OffloadKey)
  | state, newKeys, [] => .ok (state, newKeys)
  | state, newKeys, key :: keys =>
    if key ∈ state.seenKeys then observeKeys state newKeys keys
    else if state.finished then
      .error (.assertionError "New cache keys observed after request finalization")
    else
      let group := getOffloadGroupIdx key
      let members := (state.keyGroups.get? group).getD []
      observeKeys { state with
        keyGroups := state.keyGroups.set group (members ++ [key])
        seenKeys := insertSet key state.seenKeys } (newKeys ++ [key]) keys

/-- The keys a request saw, stored and used, in its record; the policy hears of new ones. -/
def recordRequestCacheAccess (insertedKeys reusedKeys : List OffloadKey) : ManagerM π PUnit := do
  let state ← getRequestCacheAccess ctx
  match observeKeys state [] keys with
  | .error e => throw e
  | .ok (state, newKeys) =>
    if newKeys.isEmpty then pure ⟨⟩ else policyCall (onRequestAccess newKeys ctx)
    let insertedKeys := updateSet state.insertedKeys insertedKeys
    setAccess ctx { state with
      insertedKeys
      reusedKeys := updateSet state.reusedKeys (reusedKeys.filter (· ∉ insertedKeys)) }

/-- A request begins, with an empty record. -/
def onNewRequest : ManagerM π PUnit := do
  let _ ← getRequestCacheAccess ctx
  pure ⟨⟩

/-- Whether a chunk can be read, is being written or is not there. -/
def lookup (key : OffloadKey) : LookupResult :=
  match get m.policy key with
  | none => .miss
  | some chunk => if chunk.isReady then .hit else .hitPending

/-- What `_prepare_load` does for one key. -/
def prepareLoadKey (key : OffloadKey) : ManagerM π (List ℕ) := do
  let m ← get
  match get m.policy key with
  | none => throw (.assertionError "Chunk %r not found in cache" (some key))
  | some chunk =>
    if !chunk.isReady then throw (.assertionError "Chunk %r is not ready for reading" (some key))
    else
      if chunk.refCnt = 0 then
        policyCall (markNonEvictable key)
        modify fun m => { m with numEvictable := m.numEvictable - 1 }
        let m ← get
        if m.numEvictable < 0 then throw (.assertionError "") else pure ⟨⟩
      else pure ⟨⟩
      putChunk key (chunk.withRef (chunk.refCnt + 1))
      pure [chunk.chunkId]

/-- `_prepare_load`. -/
def prepareLoadWith (recordAccess : Bool) (keys : List OffloadKey) (ctx : ReqContext) :
    ManagerM π (List ℕ) := do
  let chunkIds ← collect prepareLoadKey keys
  if recordAccess then recordRequestCacheAccess keys ctx [] keys else pure ⟨⟩
  pure chunkIds

/-- `prepare_load`: the chunks are read from now on, and count as accessed. -/
def prepareLoad : ManagerM π (List ℕ) :=
  prepareLoadWith true keys ctx

/-- What `complete_load` does for one key. -/
def completeLoadKey (key : OffloadKey) : ManagerM π PUnit := do
  let m ← get
  match get m.policy key with
  | none => throw (.assertionError "Chunk %r not found" (some key))
  | some chunk =>
    if chunk.refCnt ≤ 0 then throw (.assertionError "Chunk %r ref_cnt is already 0" (some key))
    else
      putChunk key (chunk.withRef (chunk.refCnt - 1))
      if chunk.refCnt - 1 = 0 then
        modify fun m => { m with numEvictable := m.numEvictable + 1 }
        policyCall (markEvictable key)
      else pure ⟨⟩

/-- `complete_load`: the reads of the chunks end. -/
def completeLoad : ManagerM π PUnit := forAll completeLoadKey keys

/-- The keys of an offer that are not resident. -/
def storeCandidates (keys : List OffloadKey) : List OffloadKey :=
  keys.filter fun key => (get m.policy key).isNone

/-- The keys of an offer that are to be stored: with a threshold, those that were offered often. -/
def keysToStore (keys : List OffloadKey) : List OffloadKey :=
  match m.counts with
  | some counts => (m.storeCandidates keys).filter fun key =>
      m.storeThreshold ≤ (counts.get? key).getD 0
  | none => m.storeCandidates keys

/-- The part of `prepare_store` before the allocation, with the keys to store. -/
def admitKeys : ManagerM π (List OffloadKey) := do
  modify fun m => { m with
    counts := m.counts.map fun counts => recordAccesses m.maxTrackerSize counts keys }
  let m ← get
  let readyExistingKeys := keys.filter fun key =>
    (get m.policy key).any ChunkStatus.isReady
  let keysToStore := m.keysToStore keys
  set { m with storesSkippedInCurrentBatch :=
    m.storesSkippedInCurrentBatch + ((m.storeCandidates keys).length - keysToStore.length) }
  let state ← getRequestCacheAccess ctx
  let newStoreMisses := keysToStore.filter (· ∉ state.storeMissKeys)
  if newStoreMisses.isEmpty then pure ⟨⟩
  else
    policyCall (onStoreMiss newStoreMisses)
    setAccess ctx { state with storeMissKeys := updateSet state.storeMissKeys newStoreMisses }
  recordRequestCacheAccess
    (keys.filter fun key => key ∈ keysToStore ∨ key ∈ readyExistingKeys) ctx [] readyExistingKeys
  pure keysToStore

/-- The evictions of `prepare_store`: `none` if there is no room, else the keys that were evicted. -/
def makeRoom (keys keysToStore : List OffloadKey) : ManagerM π (Option (List OffloadKey)) := do
  modify fun m => { m with
    allocationSizesInCurrentBatch := m.allocationSizesInCurrentBatch ++ [keysToStore.length] }
  let m ← get
  let numChunksToEvict := keysToStore.length - m.getNumFreeChunks
  if numChunksToEvict = 0 then pure (some [])
  else if m.numEvictable < numChunksToEvict then pure none
  else
    match ← policyCall (evict numChunksToEvict keys) with
    | none => pure none
    | some evicted =>
      modify fun m => { m with numEvictable := m.numEvictable - evicted.length }
      let m ← get
      if m.numEvictable < 0 then throw (.assertionError "")
      else
        set { m with freeList := m.freeList ++ evicted.map fun e : OffloadKey × ChunkStatus => e.2.chunkId }
        pure (some (evicted.map Prod.fst))

/-- The insertions of `prepare_store`, with the chunk ids. -/
def insertChunks (keysToStore : List OffloadKey) (ctx : ReqContext) : ManagerM π (List ℕ) := do
  let chunks ← allocateChunks keysToStore
  if chunks.length ≠ keysToStore.length then
    throw (.assertionError "Chunk pool did not allocate the expected number of chunks")
  else
    forAll (fun e : OffloadKey × ChunkStatus => policyCall (insert e.1 e.2 ctx))
      (keysToStore.zip chunks)
    modify fun m => { m with numWritePending := m.numWritePending + keysToStore.length }
    let state ← getRequestCacheAccess ctx
    setAccess ctx { state with insertedKeys := updateSet state.insertedKeys keysToStore }
    pure (chunks.map ChunkStatus.chunkId)

/-- Chunk ids for the keys that are to be stored, after evictions; `none` without room. -/
def prepareStore : ManagerM π (Option PrepareStoreOutput) := do
  let keysToStore ← admitKeys keys ctx
  if keysToStore.isEmpty then pure (some ⟨[], [], []⟩)
  else
    match ← makeRoom keys keysToStore with
    | none => pure none
    | some toEvict =>
      modify fun m => if toEvict.isEmpty then m else m.addEvent { keys := toEvict, removed := true }
      let chunkIds ← insertChunks keysToStore ctx
      pure (some ⟨keysToStore, chunkIds, toEvict⟩)

/-- What `complete_store` does for one key of a store that succeeded, with the key if it was
pending. -/
def storeKey (key : OffloadKey) : ManagerM π (List OffloadKey) := do
  let m ← get
  match (get m.policy key).filter fun chunk => !chunk.isReady with
  | none => pure []
  | some chunk =>
    putChunk key (chunk.withRef 0)
    modify fun m => { m with
      numWritePending := m.numWritePending - 1
      numEvictable := m.numEvictable + 1 }
    policyCall (markEvictable key)
    pure [key]

/-- What `complete_store` does for one key of a store that failed, with the key if it was pending. -/
def dropKey (key : OffloadKey) : ManagerM π (List OffloadKey) := do
  let m ← get
  match (get m.policy key).filter fun chunk => !chunk.isReady with
  | none => pure []
  | some chunk =>
    modify fun m => { m with numWritePending := m.numWritePending - 1 }
    policyCall (remove key)
    modify fun m => { m with freeList := m.freeList ++ [chunk.chunkId] }
    pure [key]

/-- The writes end: the chunks can be read, or are dropped. -/
def completeStore (success : Bool) : ManagerM π PUnit := do
  if success then
    let storedKeys ← collect storeKey keys
    modify fun m => if storedKeys.isEmpty then m
      else m.addEvent { keys := storedKeys, removed := false, reqContext := some ctx }
  else
    let removedKeys ← collect dropKey keys
    modify fun m => if removedKeys.isEmpty then m
      else m.addEvent { keys := removedKeys, removed := true, metadataOnly := true }

/-- The policy hears of the end of a request, once. -/
def onRequestFinished : ManagerM π PUnit := do
  let m ← get
  match (m.accesses.get? ctx.ident).filter fun s =>
      s.cacheGeneration = m.cacheGeneration && !s.finished with
  | none => pure ⟨⟩
  | some state =>
    setAccess ctx { state with finished := true }
    let groups := state.keyGroups.entries.mergeSort fun a b => decide (a.1 ≤ b.1)
    policyCall (CachePolicy.onRequestFinished (groups.map fun g => orderRequestKeys [g.2] ctx)
      (state.insertedKeys.filter (· ∉ state.reusedKeys)) state.reusedKeys ctx)

/-- All chunks are given up, whoever holds them. -/
def resetCache : ManagerM π PUnit := modify fun m => { m with
  policy := clear m.policy
  cacheGeneration := m.cacheGeneration + 1
  numEvictable := 0
  numWritePending := 0
  freeList := []
  numAllocatedChunks := 0 }

end CPUOffloadingManager

end Sonar.Offload
