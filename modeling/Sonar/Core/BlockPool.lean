import Mathlib.Data.Fintype.Basic
import Mathlib.Data.List.FinRange
import Sonar.Core.BlockHashMap
import Sonar.Lib.LinkedList
import Sonar.Request.BlockHasher

/-!
# The block pool

A pool owns `n` KV cache blocks, identified by `Fin n`. It hands blocks out and takes them back by
reference count, keeps the free ones in an intrusive doubly linked list in eviction order, and
registers the hashes of cached blocks in a map from keys to blocks. A block that is freed keeps its
hashes, so it can still be hit; they are removed when the block is handed out again.

A block has a **primary** hash, stored in the block, and possibly **aliases**: keys of prefixes
that end inside the block, recorded per block on the side.

Every operation returns what it returns or raises, together with the pool it leaves behind, since
an exception does not undo what was done before it. The attributes of a block are maps of the pool.
Events and metrics are left out; `reuseWatchers` records which blocks have a reuse callback, and
the callbacks themselves act outside the pool.
-/

namespace Sonar

open Lib
open Function (update)

/-- The exceptions pool operations raise. -/
inductive PyError where
  | valueError
  | assertionError
  | runtimeError
  | indexError
deriving DecidableEq, Repr

/-- The state of a block pool with `n` blocks. -/
structure BlockPool (n : ℕ) where
  enableCaching : Bool
  hashBlockSize : ℕ
  refCnt : Fin n → ℤ
  blockHash : Fin n → Option BlockHashWithGroupId
  blockHashNumTokens : Fin n → Option ℕ
  isNull : Fin n → Bool
  nullBlock : Fin n
  freeBlockQueue : LinkedList (Fin n)
  cachedBlockHashToBlock : BlockHashToBlockMap BlockHashWithGroupId (Fin n)
  cachedBlockHashesByBlock : Fin n → List BlockHashWithGroupId
  reuseWatchers : Fin n → Bool

/-- The result of an operation that may raise, and the pool afterwards. -/
abbrev PoolResult (n : ℕ) (α : Type) := Except PyError α × BlockPool n

namespace BlockPool

variable {n : ℕ}

/-- A new pool. The first block of the free list becomes the null block. -/
def new (n : ℕ) (enableCaching : Bool) (hashBlockSize : ℕ) : Option (BlockPool n) :=
  match (LinkedList.ofList (List.finRange n)).popleft with
  | none => none
  | some (nullBlock, queue) => some
    { enableCaching := enableCaching
      hashBlockSize := hashBlockSize
      refCnt := fun _ => 0
      blockHash := fun _ => none
      blockHashNumTokens := fun _ => none
      isNull := fun b => b = nullBlock
      nullBlock := nullBlock
      freeBlockQueue := queue
      cachedBlockHashToBlock := .empty
      cachedBlockHashesByBlock := fun _ => []
      reuseWatchers := fun _ => false }

variable (p : BlockPool n)

/-- The number of blocks in the free queue. -/
def getNumFreeBlocks : ℤ := p.freeBlockQueue.size

/-- `get_cached_block`: one block per group, or a miss if any group misses. -/
def getCachedBlock (blockHash : BlockHash) (kvCacheGroupIds : List ℕ) : Option (List (Fin n)) :=
  kvCacheGroupIds.mapM fun groupId =>
    p.cachedBlockHashToBlock.getOneBlock (makeBlockHashWithGroupId blockHash groupId)

/-- Only a block with one owner and no hash may be written. -/
def isBlockWritable (b : Fin n) : Bool :=
  !p.isNull b && p.refCnt b == 1 && (p.blockHash b).isNone

/-! ### Hashes of a block -/

/-- The loop of `_remove_cached_block_hashes`: the keys that were removed, and the map left. -/
def popKeys (b : Fin n) : List BlockHashWithGroupId →
    BlockHashToBlockMap BlockHashWithGroupId (Fin n) →
    List BlockHashWithGroupId × BlockHashToBlockMap BlockHashWithGroupId (Fin n)
  | [], m => ([], m)
  | key :: keys, m =>
    let popped := m.pop key b
    let rest := popKeys b keys popped.2
    (if popped.1.isSome then key :: rest.1 else rest.1, rest.2)

/-- Every key on record for a block, the primary one first. -/
def keysOf (b : Fin n) : List BlockHashWithGroupId :=
  (p.blockHash b).toList ++ p.cachedBlockHashesByBlock b

/-- A block without hashes: the primary one reset, the aliases dropped. -/
def resetHash (b : Fin n) (m : BlockHashToBlockMap BlockHashWithGroupId (Fin n)) : BlockPool n :=
  { p with
    cachedBlockHashToBlock := m
    cachedBlockHashesByBlock := update p.cachedBlockHashesByBlock b []
    blockHash := update p.blockHash b none
    blockHashNumTokens := update p.blockHashNumTokens b none }

/-- A block leaves the cache: the keys it was cached under and had not lost, and the pool. -/
def removeCachedBlockHashes (b : Fin n) : List BlockHashWithGroupId × BlockPool n :=
  if p.keysOf b = [] then ([], p)
  else
    let popped := popKeys b (p.keysOf b) p.cachedBlockHashToBlock
    (popped.1, p.resetHash b popped.2)

variable (key : BlockHashWithGroupId)

/-- A block with a new primary hash, and the map entry for it. -/
def setBlockHash (b : Fin n) (numTokens : Option ℕ) : BlockPool n :=
  { p with
    blockHash := update p.blockHash b (some key)
    blockHashNumTokens := update p.blockHashNumTokens b numTokens
    cachedBlockHashToBlock := p.cachedBlockHashToBlock.insert key b }

/-- A block with one more alias, and the map entry for it. -/
def addAlias (b : Fin n) : BlockPool n :=
  let aliases := p.cachedBlockHashesByBlock b
  { p with
    cachedBlockHashesByBlock := update p.cachedBlockHashesByBlock b
      (if key ∈ aliases then aliases else aliases ++ [key])
    cachedBlockHashToBlock := p.cachedBlockHashToBlock.insert key b }

/-- `_insert_block_hash`: the key becomes the primary hash of a block without one, and an alias
otherwise. `set_block_hash` asserts that the block has no token count either. -/
def insertBlockHash (b : Fin n) (numTokens : Option ℕ) : PoolResult n Unit :=
  if p.blockHash b = some key then (.ok (), p)
  else if p.cachedBlockHashToBlock.contain key b then (.ok (), p)
  else if p.blockHash b = none then
    if p.blockHashNumTokens b = none then (.ok (), p.setBlockHash key b numTokens)
    else (.error .assertionError, p)
  else (.ok (), p.addAlias key b)

/-- The body of the loop of `cache_full_blocks` for a block that is not skipped. A block that has a
hash already is being promoted from partial to full, and loses its old keys. -/
def cacheFullBlock (blk : Fin n) (numHashTokens : ℕ) : PoolResult n Unit :=
  if p.blockHash blk = none then p.insertBlockHash key blk (some numHashTokens)
  else if (p.blockHashNumTokens blk).any (· < numHashTokens) then
    (p.removeCachedBlockHashes blk).2.insertBlockHash key blk (some numHashTokens)
  else (.error .assertionError, p)

/-- The loop of `cache_full_blocks` over the new full blocks from the `i`-th on. Null blocks and
blocks masked out are skipped. -/
def cacheFullBlocksLoop (newBlockHashes : List BlockHash) (numCachedBlocks blockSize groupId : ℕ)
    (blockMask : Option (List Bool)) : List (Fin n) → ℕ → BlockPool n → PoolResult n Unit
  | [], _, p => (.ok (), p)
  | blk :: rest, i, p =>
    if p.isNull blk || blockMask.any (fun mask => !(mask[i]?.getD false)) then
      cacheFullBlocksLoop newBlockHashes numCachedBlocks blockSize groupId blockMask rest (i + 1) p
    else
      match newBlockHashes[i]? with
      | none => (.error .indexError, p)
      | some blockHash =>
        match p.cacheFullBlock (makeBlockHashWithGroupId blockHash groupId) blk
            ((numCachedBlocks + i + 1) * blockSize) with
        | (.error e, p) => (.error e, p)
        | (.ok _, p) =>
          cacheFullBlocksLoop newBlockHashes numCachedBlocks blockSize groupId blockMask rest
            (i + 1) p

/-- The new full blocks that are not masked out become cached under their hashes. -/
def cacheFullBlocks (request : Request) (blocks : List (Fin n))
    (numCachedBlocks numFullBlocks blockSize groupId : ℕ) (blockMask : Option (List Bool)) :
    PoolResult n Unit :=
  if numCachedBlocks ≥ numFullBlocks then (.ok (), p)
  else
    let newFullBlocks := slice blocks numCachedBlocks numFullBlocks
    if blockMask.any (fun mask => mask.length ≠ newFullBlocks.length) then
      (.error .assertionError, p)
    else
      match resolveBlockHashes request.blockHashes p.hashBlockSize blockSize false none with
      | none => (.error .assertionError, p)
      | some blockHashes =>
        if blockHashes.length < numFullBlocks then (.error .assertionError, p)
        else
          cacheFullBlocksLoop (blockHashes.drop numCachedBlocks) numCachedBlocks blockSize groupId
            blockMask newFullBlocks 0 p

/-- `_get_partial_block_hash`: the prefix hash at `numTokens`. -/
def getPartialBlockHash (request : Request) (numTokens : ℕ) : Option BlockHash :=
  let numHashBlocks := numTokens / p.hashBlockSize
  if numTokens % p.hashBlockSize = 0 ∧ 0 < numHashBlocks then
    request.blockHashes[numHashBlocks - 1]?
  else none

/-- Whether `cache_partial_block` removes the keys a block has: its contents were replaced, or its
primary hash covers a shorter prefix than the new key. -/
def dropsOldHashes (b : Fin n) (numHashTokens : ℕ) (replaceExistingHashes : Bool) : Bool :=
  let alreadyCached := p.blockHash b = some key || p.cachedBlockHashToBlock.contain key b
  replaceExistingHashes || (!alreadyCached && (p.blockHash b).isSome &&
    (p.blockHashNumTokens b).any (· < numHashTokens))

/-- A block that is full up to `numTokens` only becomes cached under the hash of that many. -/
def cachePartialBlock (request : Request) (b : Fin n)
    (numTokens groupId blockSize : ℕ) (replaceExistingHashes : Bool) :
    PoolResult n (Option BlockHashWithGroupId) :=
  if p.isNull b then (.ok none, p)
  else if blockSize % p.hashBlockSize ≠ 0 then (.error .assertionError, p)
  else
    match p.getPartialBlockHash request numTokens with
    | none => (.error .assertionError, p)
    | some blockHash =>
      let numHashTokens := numTokens / p.hashBlockSize * p.hashBlockSize
      let key := makeBlockHashWithGroupId blockHash groupId
      let p := if p.dropsOldHashes key b numHashTokens replaceExistingHashes then
          (p.removeCachedBlockHashes b).2
        else p
      match p.insertBlockHash key b (some numHashTokens) with
      | (.error e, p) => (.error e, p)
      | (.ok _, p) => (.ok (some key), p)

/-- The loop of `move_block_hashes`. -/
def insertKeys (b : Fin n) (numTokens : Option ℕ) :
    List BlockHashWithGroupId → BlockPool n → PoolResult n Unit
  | [], p => (.ok (), p)
  | key :: keys, p =>
    match p.insertBlockHash key b numTokens with
    | (.error e, p) => (.error e, p)
    | (.ok _, p) => insertKeys b numTokens keys p

/-- The keys of one block pass to another one that has none. -/
def moveBlockHashes (src dst : Fin n) : PoolResult n Unit :=
  if p.blockHash dst ≠ none ∨ p.cachedBlockHashesByBlock dst ≠ [] then (.error .assertionError, p)
  else
    let numTokens := p.blockHashNumTokens src
    let removed := p.removeCachedBlockHashes src
    insertKeys dst numTokens removed.1 removed.2

/-- A block that is taken anew leaves the cache; the flag says whether it was cached. -/
def maybeEvictCachedBlock (b : Fin n) : Bool × BlockPool n :=
  let evicted := p.removeCachedBlockHashes b
  (!evicted.1.isEmpty, evicted.2)

/-! ### References -/

/-- Add to the reference count of a block. -/
def addRef (b : Fin n) (d : ℤ) : BlockPool n :=
  { p with refCnt := update p.refCnt b (p.refCnt b + d) }

/-- The loop of `get_new_blocks` over the blocks it took off the free list. -/
def takeBlocks : List (Fin n) → BlockPool n → PoolResult n Unit
  | [], p => (.ok (), p)
  | b :: bs, p =>
    let p := if p.enableCaching then (p.maybeEvictCachedBlock b).2 else p
    if p.refCnt b = 0 then takeBlocks bs (p.addRef b 1) else (.error .assertionError, p)

/-- `_notify_reuse`: each callback fires once. -/
def notifyReuse (bs : List (Fin n)) : BlockPool n :=
  { p with reuseWatchers := fun b => p.reuseWatchers b && !(bs.contains b) }

/-- The first blocks of the free queue, each with one owner and out of the cache. -/
def getNewBlocks (numBlocks : ℕ) : PoolResult n (List (Fin n)) :=
  if (numBlocks : ℤ) > p.getNumFreeBlocks then (.error .valueError, p)
  else
    match p.freeBlockQueue.popleftN numBlocks with
    | none => (.error .assertionError, p)
    | some (ret, queue) =>
      match takeBlocks ret ({ p with freeBlockQueue := queue }.notifyReuse ret) with
      | (.error e, p) => (.error e, p)
      | (.ok _, p) => (.ok ret, p)

/-- One more owner for each block. A block without an owner leaves the free queue. -/
def touch : List (Fin n) → BlockPool n → PoolResult n Unit
  | [], p => (.ok (), p)
  | b :: bs, p =>
    if p.isNull b then touch bs p
    else if p.refCnt b = 0 then
      match p.freeBlockQueue.remove b with
      | none => (.error .runtimeError, p)
      | some queue => touch bs ({ p with freeBlockQueue := queue }.addRef b 1)
    else touch bs (p.addRef b 1)

/-- The loop of `unpin_blocks`: the pool and the blocks released. -/
def unpinLoop : List (Fin n) → BlockPool n → PoolResult n (List (Fin n))
  | [], p => (.ok [], p)
  | b :: bs, p =>
    if p.refCnt b > 0 ∧ p.isNull b = false then
      let p := { p.addRef b (-1) with reuseWatchers := update p.reuseWatchers b true }
      match unpinLoop bs p with
      | (.error e, p') => (.error e, p')
      | (.ok released, p') => (.ok (if p.refCnt b = 0 then b :: released else released), p')
    else (.error .assertionError, p)

/-- One owner less for each block, which is watched for reuse; without one it is free again. -/
def unpinBlocks (blocks : List (Fin n)) : PoolResult n Unit :=
  match unpinLoop blocks p with
  | (.error e, p) => (.error e, p)
  | (.ok released, p) =>
    match p.freeBlockQueue.appendN released with
    | none => (.error .assertionError, p)
    | some queue => (.ok (), { p with freeBlockQueue := queue })

/-- The loop of `free_blocks`: the blocks to evict first, those to evict last, and the pool. -/
def freeLoop : List (Fin n) → BlockPool n → List (Fin n) × List (Fin n) × BlockPool n
  | [], p => ([], [], p)
  | b :: bs, p =>
    if p.isNull b then freeLoop bs p
    else
      let p := p.addRef b (-1)
      let rest := freeLoop bs p
      if p.refCnt b = 0 then
        if p.blockHash b = none ∨ p.enableCaching = false then
          (b :: rest.1, rest.2.1, rest.2.2)
        else (rest.1, b :: rest.2.1, rest.2.2)
      else rest

/-- `free_blocks`: blocks without a hash are reused first, cached ones last. -/
def freeBlocks (orderedBlocks : List (Fin n)) : PoolResult n Unit :=
  let released := freeLoop orderedBlocks p
  let p := released.2.2
  match p.freeBlockQueue.prependN released.1 with
  | none => (.error .assertionError, p)
  | some queue =>
    match queue.appendN released.2.1 with
    | none => (.error .assertionError, { p with freeBlockQueue := queue })
    | some queue => (.ok (), { p with freeBlockQueue := queue })

/-- Blocks, given by their ids, leave the cache. -/
def evictBlocks : List ℕ → BlockPool n → PoolResult n Unit
  | [], p => (.ok (), p)
  | id :: ids, p =>
    if h : id < n then evictBlocks ids (p.maybeEvictCachedBlock ⟨id, h⟩).2
    else (.error .assertionError, p)

/-- `reset_prefix_cache`: only when every block but the null block is free. -/
def resetPrefixCache : Bool × BlockPool n :=
  if (n : ℤ) - p.getNumFreeBlocks ≠ 1 then (false, p)
  else (true, { p with
    cachedBlockHashToBlock := .empty
    cachedBlockHashesByBlock := fun _ => []
    reuseWatchers := fun _ => false
    blockHash := fun _ => none
    blockHashNumTokens := fun _ => none })

end BlockPool

end Sonar
