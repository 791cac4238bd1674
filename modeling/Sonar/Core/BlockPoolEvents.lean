import Sonar.Core.BlockPoolRuns
import Sonar.Lib.EventLog

/-!
# Events of a block pool

A pool can report what it caches to consumers outside the engine. It appends to a queue a
`BlockStored` event when keys are registered, a `BlockRemoved` event for each key it removes and
`AllBlocksCleared` when the cache is reset. Moving the keys of a block to another reports nothing.
`emit_cached_block_events` reports a hit again, for consumers that follow one session.

The events of an operation are functions of the pool before it and of its arguments, so they stand
beside the operations of `BlockPool`, and the loops here run along with theirs. `Option` is used
where building an event may raise. What the environment decides is in `EventConfig`.
-/

namespace Sonar

open Lib

/-! ### Keys as consumers see them -/

/-- `ExternalBlockHash`: the hash itself, or its low 64 bits as a number. -/
inductive ExternalBlockHash where
  | bytes (hash : BlockHash)
  | int (value : ℕ)
deriving DecidableEq, Repr

/-- `int.from_bytes(bytes, "big")`. -/
def intFromBytes (bytes : List UInt8) : ℕ := bytes.foldl (fun acc b => acc * 256 + b.toNat) 0

/-- The hash in a key. -/
def getBlockHash (key : BlockHashWithGroupId) : BlockHash := key.take (key.length - 4)

/-- The cache group in a key. -/
def getGroupId (key : BlockHashWithGroupId) : ℕ := intFromBytes (key.drop (key.length - 4))

@[simp] theorem getBlockHash_make (hash : BlockHash) (groupId : ℕ) :
    getBlockHash (makeBlockHashWithGroupId hash groupId) = hash := by
  simp [getBlockHash, makeBlockHashWithGroupId, groupIdBytes]

/-! ### Events -/

/-- The event that blocks became cached, chained to a parent. -/
structure BlockStored where
  blockHashes : List ExternalBlockHash
  parentBlockHash : Option ExternalBlockHash
  tokenIds : List ℤ
  blockSize : ℕ
  loraId : Option ℕ
  medium : String
  loraName : Option String
  extraKeys : Option (List PyVal)
  groupIdx : ℕ
  sessionId : Option String
  lookaheadTokenIds : Option (List (List ℤ))

/-- `KVCacheEventType`. -/
inductive KVCacheEvent where
  | blockStored (event : BlockStored)
  | blockRemoved (blockHashes : List ExternalBlockHash) (medium : String) (groupIdx : ℕ)
  | allBlocksCleared

/-- What an event means to a consumer: hashes of a group are added or removed. -/
def KVCacheEvent.effect : KVCacheEvent → LogEvent (ExternalBlockHash × ℕ)
  | .blockStored event => .added (event.blockHashes.map fun hash => (hash, event.groupIdx))
  | .blockRemoved blockHashes _ groupIdx => .removed (blockHashes.map fun hash => (hash, groupIdx))
  | .allBlocksCleared => .cleared

/-- The settings of a pool that its events depend on. -/
structure EventConfig where
  enableKvCacheEvents : Bool
  numHashLookaheadTokens : ℕ
  medium : String
  useIntBlockHashes : Bool
  sha256 : List UInt8 → List UInt8

/-- `key[1:] if key[0] == "mm" else key[1]`, for one tagged extra key. -/
def untagKey : PyVal → PyVal
  | .tuple (.str tag :: rest) =>
    if tag = "mm" then .tuple rest else rest.headD .none
  | key => key

/-- The extra keys as an event reports them, or none. -/
def toEventExtraKeys (extraKeys : List PyVal) : Option (List PyVal) :=
  if extraKeys.isEmpty then none
  else some (extraKeys.map fun
    | .tuple keys => .tuple (keys.map untagKey)
    | other => other)

namespace EventConfig

variable (cfg : EventConfig)

/-- A hash as events report it: the low 64 bits as an int, or the bytes. -/
def maybeConvertBlockHash (hash : BlockHash) : ExternalBlockHash :=
  if cfg.useIntBlockHashes then .int (intFromBytes hash % 2 ^ 64) else .bytes hash

/-- A key as it appears in an event. -/
def external (key : BlockHashWithGroupId) : ExternalBlockHash × ℕ :=
  (cfg.maybeConvertBlockHash (getBlockHash key), getGroupId key)

/-- An event reports the hash and the group that made the key. -/
theorem external_make {hash : BlockHash} {groupId : ℕ} (h : groupId < 2 ^ 32) :
    cfg.external (makeBlockHashWithGroupId hash groupId) =
      (cfg.maybeConvertBlockHash hash, groupId) := by
  rw [external, getBlockHash_make, Prod.mk.injEq]
  refine ⟨rfl, ?_⟩
  simp [getGroupId, makeBlockHashWithGroupId, groupIdBytes, intFromBytes]
  omega

/-- The extra keys of a range, with those of the lookahead tokens if there are any. -/
def generateEventExtraKeys (request : Request) (start stop : ℕ) (startMmIdx : ℤ) :
    Option (PyVal × ℤ) :=
  if cfg.numHashLookaheadTokens ≠ 0 then
    generateLookaheadBlockHashExtraKeys cfg.sha256 request start stop
      (stop + cfg.numHashLookaheadTokens) startMmIdx
  else generateBlockHashExtraKeys cfg.sha256 request start stop startMmIdx

/-- The extra keys of the blocks with the given indices, with the running item index. -/
def blockExtraKeys (request : Request) (blockSize : ℕ) : List ℕ → ℤ → Option (List PyVal)
  | [], _ => some []
  | i :: rest, currMmIdx => do
    let (extraKeys, currMmIdx) ← cfg.generateEventExtraKeys request (i * blockSize)
      (i * blockSize + blockSize) currMmIdx
    let others ← blockExtraKeys request blockSize rest currMmIdx
    return extraKeys :: others

/-- `_lookahead_token_ids`, for each block of an event. -/
def lookaheadTokenIds (request : Request) (blockEnds : List ℕ) : Option (List (List ℤ)) :=
  if cfg.numHashLookaheadTokens ≠ 0 then
    some (blockEnds.map fun blockEnd =>
      slice request.allTokenIds blockEnd (blockEnd + cfg.numHashLookaheadTokens))
  else none

/-- `_build_block_stored_event`, and the same construction in `cache_partial_block`. -/
def buildBlockStoredEvent (request : Request) (blockHashes : List BlockHash)
    (parentBlockHash : Option BlockHash) (startTokenIdx endTokenIdx blockSize groupId : ℕ)
    (extraKeysList : List PyVal) (blockEnds : List ℕ) : BlockStored where
  blockHashes := blockHashes.map cfg.maybeConvertBlockHash
  parentBlockHash := parentBlockHash.map cfg.maybeConvertBlockHash
  tokenIds := slice request.allTokenIds startTokenIdx endTokenIdx
  blockSize := blockSize
  loraId := request.loraRequest.map LoRARequest.loraIntId
  medium := cfg.medium
  loraName := request.loraRequest.map LoRARequest.loraName
  extraKeys := toEventExtraKeys extraKeysList
  groupIdx := groupId
  sessionId := request.sessionId
  lookaheadTokenIds := cfg.lookaheadTokenIds request blockEnds

/-- `_emit_block_removed_events`. -/
def removedEvents (keys : List BlockHashWithGroupId) : List KVCacheEvent :=
  if cfg.enableKvCacheEvents then
    keys.map fun key =>
      .blockRemoved [cfg.maybeConvertBlockHash (getBlockHash key)] cfg.medium (getGroupId key)
  else []

end EventConfig

namespace BlockPool

variable {n : ℕ}

/-! ### The events of each operation -/

/-- The keys `get_new_blocks` removes from the blocks it takes, in the order of its loop. -/
def takeBlocksRemoved : List (Fin n) → BlockPool n → List BlockHashWithGroupId
  | [], _ => []
  | b :: bs, p =>
    if p.enableCaching then
      (p.removeCachedBlockHashes b).1 ++
        takeBlocksRemoved bs ((p.removeCachedBlockHashes b).2.addRef b 1)
    else takeBlocksRemoved bs (p.addRef b 1)

variable (cfg : EventConfig) (p : BlockPool n)

/-- The events of `get_new_blocks`. -/
def getNewBlocksEvents (numBlocks : ℕ) : List KVCacheEvent :=
  if (numBlocks : ℤ) > p.getNumFreeBlocks then []
  else
    match p.freeBlockQueue.popleftN numBlocks with
    | none => []
    | some (ret, queue) =>
      cfg.removedEvents
        (takeBlocksRemoved ret ({ p with freeBlockQueue := queue }.notifyReuse ret))

/-- What the loop of `cache_full_blocks` collects from the `i`-th block on: the keys removed by
promotions, and the hashes of the blocks it registers. -/
def cacheFullBlocksLog (newBlockHashes : List BlockHash) (numCachedBlocks blockSize groupId : ℕ)
    (blockMask : Option (List Bool)) :
    List (Fin n) → ℕ → BlockPool n → List BlockHashWithGroupId × List BlockHash
  | [], _, _ => ([], [])
  | blk :: rest, i, p =>
    if p.isNull blk || blockMask.any (fun mask => !(mask[i]?.getD false)) then
      cacheFullBlocksLog newBlockHashes numCachedBlocks blockSize groupId blockMask rest (i + 1) p
    else
      match newBlockHashes[i]? with
      | none => ([], [])
      | some blockHash =>
        let removed := if p.blockHash blk = none then [] else (p.removeCachedBlockHashes blk).1
        let log := cacheFullBlocksLog newBlockHashes numCachedBlocks blockSize groupId blockMask
          rest (i + 1) (p.cacheFullBlock (makeBlockHashWithGroupId blockHash groupId) blk
            ((numCachedBlocks + i + 1) * blockSize)).2
        (removed ++ log.1, blockHash :: log.2)

/-- The indices of the blocks an event of `cache_full_blocks` lists; `blocks[i]` may raise. -/
def storedIndices (blocks : List (Fin n)) (numCachedBlocks numFullBlocks : ℕ)
    (blockMask : Option (List Bool)) : Option (List ℕ) :=
  (List.range' numCachedBlocks (numFullBlocks - numCachedBlocks)).filterM fun i =>
    (blocks[i]?).map fun blk =>
      !(p.isNull blk || blockMask.any (fun mask => !(mask[i - numCachedBlocks]?.getD false)))

variable (request : Request)

/-- The events of `cache_full_blocks`: removals as they happen, and one `BlockStored` at the end.
Its parent is the hash before the range, whether or not the first block of the range is listed. -/
def cacheFullBlocksEvents
    (blocks : List (Fin n)) (numCachedBlocks numFullBlocks blockSize groupId : ℕ)
    (blockMask : Option (List Bool)) : Option (List KVCacheEvent) :=
  if numCachedBlocks ≥ numFullBlocks || !cfg.enableKvCacheEvents then some []
  else do
    let blockHashes ←
      resolveBlockHashes request.blockHashes p.hashBlockSize blockSize false none
    let log := cacheFullBlocksLog (blockHashes.drop numCachedBlocks) numCachedBlocks blockSize
      groupId blockMask (slice blocks numCachedBlocks numFullBlocks) 0 p
    let parentBlockHash := if numCachedBlocks = 0 then none else blockHashes[numCachedBlocks - 1]?
    let indices ← p.storedIndices blocks numCachedBlocks numFullBlocks blockMask
    let extraKeysList ← cfg.blockExtraKeys request blockSize indices 0
    return cfg.removedEvents log.1 ++ [.blockStored (cfg.buildBlockStoredEvent request log.2
      parentBlockHash (numCachedBlocks * blockSize) (numFullBlocks * blockSize) blockSize groupId
      extraKeysList (indices.map fun i => i * blockSize + blockSize))]

/-- The parent of the last hash block of a partial block, and where that hash block begins. -/
def getPartialBlockParentHashAndStart (numTokens : ℕ) : Option BlockHash × ℕ :=
  let numHashBlocks := numTokens / p.hashBlockSize
  (if numHashBlocks > 1 then request.blockHashes[numHashBlocks - 2]? else none,
    (numHashBlocks - 1) * p.hashBlockSize)

/-- The item index from which the extra keys of a partial entry are generated. -/
def partialMmIdx (blockStart blockEnd : ℕ) : ℕ :=
  match request.mmFeatures.getLast? with
  | none => 0
  | some last =>
    if blockStart > 0 ∧ last.mmPosition.offset + last.mmPosition.length > blockStart then
      (getMmFeaturesInWindow request.mmFeatures blockStart blockEnd).1
    else 0

/-- The keys `cache_partial_block` removes. -/
def cachePartialBlockRemoved (key : BlockHashWithGroupId) (b : Fin n)
    (numHashTokens : ℕ) (replaceExistingHashes : Bool) : List BlockHashWithGroupId :=
  if p.dropsOldHashes key b numHashTokens replaceExistingHashes then
    (p.removeCachedBlockHashes b).1
  else []

/-- Whether `cache_partial_block` reports the entry: it was not there, or its block was cleared. -/
def reportsPartial (key : BlockHashWithGroupId) (b : Fin n) (replaceExistingHashes : Bool) : Bool :=
  replaceExistingHashes ||
    !(p.blockHash b = some key || p.cachedBlockHashToBlock.contain key b)

/-- The events of `cache_partial_block`. -/
def cachePartialBlockEvents (b : Fin n)
    (numTokens groupId : ℕ) (replaceExistingHashes : Bool) : Option (List KVCacheEvent) :=
  if p.isNull b || !cfg.enableKvCacheEvents then some []
  else do
    let blockHash ← p.getPartialBlockHash request numTokens
    let numHashTokens := numTokens / p.hashBlockSize * p.hashBlockSize
    let key := makeBlockHashWithGroupId blockHash groupId
    let removed := cfg.removedEvents
      (p.cachePartialBlockRemoved key b numHashTokens replaceExistingHashes)
    if p.reportsPartial key b replaceExistingHashes then
      let (parentHash, blockStart) := p.getPartialBlockParentHashAndStart request numTokens
      let (extraKeys, _) ← cfg.generateEventExtraKeys request blockStart numTokens
        (partialMmIdx request blockStart numTokens)
      return removed ++ [.blockStored (cfg.buildBlockStoredEvent request [blockHash] parentHash
        blockStart numTokens (numTokens - blockStart) groupId [extraKeys] [numTokens])]
    else return removed

/-- The keys `evict_blocks` removes. -/
def evictBlocksRemoved : List ℕ → BlockPool n → List BlockHashWithGroupId
  | [], _ => []
  | id :: ids, p =>
    if h : id < n then
      (p.removeCachedBlockHashes ⟨id, h⟩).1 ++
        evictBlocksRemoved ids (p.removeCachedBlockHashes ⟨id, h⟩).2
    else []

/-- The events of `reset_prefix_cache`. -/
def resetPrefixCacheEvents : List KVCacheEvent :=
  if p.resetPrefixCache.1 && cfg.enableKvCacheEvents then [.allBlocksCleared] else []

/-- `emit_cached_block_events`: the hashes of a hit are reported, and nothing is registered. -/
def emitCachedBlockEvents (numCachedBlocks blockSize groupId : ℕ) : Option (List KVCacheEvent) :=
  if !cfg.enableKvCacheEvents || numCachedBlocks = 0 then some []
  else do
    let blockHashes ←
      resolveBlockHashes request.blockHashes p.hashBlockSize blockSize false none
    if blockHashes.length < numCachedBlocks then none
    else
      let extraKeysList ← cfg.blockExtraKeys request blockSize (List.range numCachedBlocks) 0
      return [.blockStored (cfg.buildBlockStoredEvent request (blockHashes.take numCachedBlocks)
        none 0 (numCachedBlocks * blockSize) blockSize groupId extraKeysList
        ((List.range numCachedBlocks).map fun i => i * blockSize + blockSize))]

/-- The events of an operation on hashes. -/
def HashOp.events : HashOp n → Option (List KVCacheEvent)
  | .cacheFullBlocks request blocks numCachedBlocks numFullBlocks blockSize groupId blockMask =>
    p.cacheFullBlocksEvents cfg request blocks numCachedBlocks numFullBlocks blockSize groupId
      blockMask
  | .cachePartialBlock request b numTokens groupId _ replaceExistingHashes =>
    p.cachePartialBlockEvents cfg request b numTokens groupId replaceExistingHashes
  | .moveBlockHashes _ _ => some []
  | .evictBlocks ids => some (cfg.removedEvents (evictBlocksRemoved ids p))
  | .resetPrefixCache => some (p.resetPrefixCacheEvents cfg)

end BlockPool

end Sonar
