import Sonar.Core.BlockPool
import Sonar.Lib.Search

/-!
# Prefix-cache lookups of the attention types

Given the block hashes of a request and a length, each attention type finds the longest prefix, up
to that length, whose blocks it can reuse: full attention needs every block, sliding-window
attention those of its window, chunked local attention those of the last chunk, and Mamba the one
state at the end of the prefix. Blocks that are not needed are stood in for by the null block.

A lookup serves all KV cache groups with the same spec at once. The lists of these groups are
extended and cut together, so one list of **rows** is kept: row `j` holds the `j`-th block of every
group.
-/

namespace Sonar

open Lib

/-- `cdiv` of `math_utils`: division rounding up. -/
def cdiv (a b : ℕ) : ℕ := (a + b - 1) / b

/-- The attention types, with the parameters their lookups depend on. -/
inductive AttentionKind where
  | fullAttention
  | slidingWindow (slidingWindow : ℕ)
  | chunkedLocalAttention (attentionChunkSize : ℕ)
  | mamba
deriving DecidableEq, Repr

/-- `supports_fine_grained_hash_lookup` of the manager of an attention type. -/
def AttentionKind.supportsFineGrainedHashLookup : AttentionKind → Bool
  | .fullAttention | .mamba => true
  | .slidingWindow _ | .chunkedLocalAttention _ => false

/-- KV cache groups that share one spec. `blockSize` is the block size of their managers. -/
structure SpecGroup where
  kind : AttentionKind
  blockSize : ℕ
  groupIds : List ℕ
  useEagle : Bool
deriving DecidableEq, Repr

/-- The blocks of the groups of one spec at one position of the block tables. -/
abbrev Row (n : ℕ) := List (Fin n)

namespace BlockPool

variable {n : ℕ} (pool : BlockPool n)

/-- `get_cached_block(block_hashes[i], kv_cache_group_ids)`. -/
def probe (blockHashes : List BlockHash) (groupIds : List ℕ) (i : ℕ) :
    Except PyError (Option (Row n)) :=
  match blockHashes[i]? with
  | none => .error .indexError
  | some blockHash => .ok (pool.getCachedBlock blockHash groupIds)

/-- The null block, once for each group. -/
def nullRow (g : SpecGroup) : Row n := g.groupIds.map fun _ => pool.nullBlock

/-- `resolve_block_hashes` as the lookups of an attention type call it. -/
def viewHashes (blockHashes : List BlockHash) (g : SpecGroup) (alignmentTokens : ℕ) :
    Except PyError (List BlockHash) :=
  match resolveBlockHashes blockHashes pool.hashBlockSize g.blockSize
      g.kind.supportsFineGrainedHashLookup (some alignmentTokens) with
  | none => .error .assertionError
  | some blockHashes => .ok blockHashes

end BlockPool

/-! ### Full attention -/

/-- Whether hits may end inside a block. -/
def SpecGroup.fineGrained (g : SpecGroup) (alignmentTokens : ℕ) : Bool :=
  alignmentTokens < g.blockSize && g.blockSize % alignmentTokens == 0

namespace FullAttentionManager

variable {n : ℕ} (pool : BlockPool n)

/-- The hit inside the block after `numFull` full ones, at the last cached fine hash. -/
def findPartialTail (blockHashes : List BlockHash) (maxLength : ℕ) (g : SpecGroup)
    (alignmentTokens numFull : ℕ) : Except PyError (Option (ℕ × Row n)) :=
  let scaleFactor := g.blockSize / alignmentTokens
  let firstPartialIdx := numFull * scaleFactor
  let maxPartialIdx :=
    min (min (firstPartialIdx + scaleFactor - 1) (maxLength / alignmentTokens)) blockHashes.length
  findDown (fun k => pool.probe blockHashes g.groupIds (firstPartialIdx + k)) (fun _ => true)
    (maxPartialIdx - firstPartialIdx)

/-- The end of `find_longest_cache_hit`: the EAGLE drop, the alignment and the cut. -/
def dropAndAlign (computed : List (Row n)) (hitLength : ℕ) (g : SpecGroup) (dropEagleBlock : Bool)
    (alignmentTokens : ℕ) : List (Row n) × ℕ :=
  let hitLength :=
    if dropEagleBlock && 0 < hitLength then hitLength - min alignmentTokens g.blockSize
    else hitLength
  let hitLength := hitLength - hitLength % alignmentTokens
  (computed.take (cdiv hitLength g.blockSize), hitLength)

/-- The blocks of the longest prefix that is cached, and its length in tokens. -/
def findLongestCacheHit (blockHashes : List BlockHash) (maxLength : ℕ) (g : SpecGroup)
    (dropEagleBlock : Bool) (alignmentTokens : ℕ) : Except PyError (List (Row n) × ℕ) :=
  match pool.viewHashes blockHashes g alignmentTokens with
  | .error e => .error e
  | .ok blockHashes =>
    let fineGrained := g.fineGrained alignmentTokens
    let fullBlockHashes :=
      if fineGrained then scaledBlockHashes blockHashes (g.blockSize / alignmentTokens)
      else blockHashes
    -- `islice` stops at the end of the hashes
    match runUp (pool.probe fullBlockHashes g.groupIds)
        (min (maxLength / g.blockSize) fullBlockHashes.length) 0 with
    | .error e => .error e
    | .ok computed =>
      let hitLength := computed.length * g.blockSize
      if fineGrained then
        match findPartialTail pool blockHashes maxLength g alignmentTokens computed.length with
        | .error e => .error e
        | .ok none => .ok (dropAndAlign computed hitLength g dropEagleBlock alignmentTokens)
        | .ok (some (k, cached)) =>
          let fineIdx := computed.length * (g.blockSize / alignmentTokens) + k
          .ok (dropAndAlign (computed ++ [cached]) ((fineIdx + 1) * alignmentTokens) g
            dropEagleBlock alignmentTokens)
      else .ok (dropAndAlign computed hitLength g dropEagleBlock alignmentTokens)

end FullAttentionManager

/-! ### Sliding window -/

namespace SlidingWindowManager

variable {n : ℕ} (pool : BlockPool n)

/-- How many blocks in a row a hit of the window takes. -/
def contiguousBlocksForHit (windowSize blockSize : ℕ) (useEagle : Bool) : ℕ :=
  cdiv (windowSize - 1) blockSize + if useEagle then 1 else 0

/-- How many of `k` blocks are left after blocks are popped until the length is aligned. -/
def numAligned (blockSize alignmentTokens : ℕ) : ℕ → ℕ
  | 0 => 0
  | k + 1 =>
    if blockSize ≠ alignmentTokens ∧ (k + 1) * blockSize % alignmentTokens ≠ 0 then
      numAligned blockSize alignmentTokens k
    else k + 1

/-- Whether a run of cached blocks may end with block `i`: what is left of it after the EAGLE drop
is aligned. -/
def mayEndAt (blockSize alignmentTokens : ℕ) (dropEagleBlock : Bool) (i : ℕ) : Bool :=
  blockSize == alignmentTokens ||
    (if dropEagleBlock then i else i + 1) * blockSize % alignmentTokens == 0

/-- The end of `find_longest_cache_hit`: without a match the blocks from the first on count, then
the EAGLE drop, keeping the length aligned. -/
def trim (computed : List (Row n)) (numContiguousBlocks : ℕ) (matchFound : Bool)
    (g : SpecGroup) (dropEagleBlock : Bool) (alignmentTokens : ℕ) : List (Row n) :=
  let computed := if matchFound then computed
    else computed.take (numAligned g.blockSize alignmentTokens numContiguousBlocks)
  if dropEagleBlock && !computed.isEmpty then
    computed.take (numAligned g.blockSize alignmentTokens (computed.length - 1))
  else computed

/-- The blocks of the last window that is cached, and the length of the prefix it ends. -/
def findLongestCacheHit (blockHashes : List BlockHash) (maxLength : ℕ) (g : SpecGroup)
    (slidingWindow : ℕ) (dropEagleBlock : Bool) (alignmentTokens : ℕ) :
    Except PyError (List (Row n) × ℕ) :=
  match pool.viewHashes blockHashes g alignmentTokens with
  | .error e => .error e
  | .ok blockHashes =>
    let slidingWindowContiguousBlocks :=
      contiguousBlocksForHit slidingWindow g.blockSize dropEagleBlock
    let maxNumBlocks := maxLength / g.blockSize
    match runDown (pool.probe blockHashes g.groupIds)
        (mayEndAt g.blockSize alignmentTokens dropEagleBlock) slidingWindowContiguousBlocks
        maxNumBlocks (List.replicate maxNumBlocks (pool.nullRow g)) 0 with
    | .error e => .error e
    | .ok (computed, numContiguousBlocks, matchFound) =>
      let computed := trim computed numContiguousBlocks matchFound g dropEagleBlock alignmentTokens
      .ok (computed, computed.length * g.blockSize)

end SlidingWindowManager

/-! ### Chunked local attention -/

/-- `ChunkedLocalAttentionManager.find_longest_cache_hit`: the blocks before the last chunk count as
computed without a lookup. -/
def ChunkedLocalAttentionManager.findLongestCacheHit {n : ℕ} (pool : BlockPool n)
    (blockHashes : List BlockHash) (maxLength : ℕ) (g : SpecGroup) (attentionChunkSize : ℕ)
    (dropEagleBlock : Bool) (alignmentTokens : ℕ) : Except PyError (List (Row n) × ℕ) :=
  if dropEagleBlock = true ∨ g.blockSize ≠ alignmentTokens then .error .assertionError
  else
    match pool.viewHashes blockHashes g alignmentTokens with
    | .error e => .error e
    | .ok blockHashes =>
      let maxNumBlocks := maxLength / g.blockSize
      let localAttentionStartIdx :=
        if 0 < maxLength then maxLength / attentionChunkSize * attentionChunkSize else 0
      let localAttentionStartBlockIdx := localAttentionStartIdx / g.blockSize
      match runUp (pool.probe blockHashes g.groupIds)
          (maxNumBlocks - localAttentionStartBlockIdx) localAttentionStartBlockIdx with
      | .error e => .error e
      | .ok cached =>
        let computed := List.replicate localAttentionStartBlockIdx (pool.nullRow g) ++ cached
        .ok (computed, computed.length * g.blockSize)

/-! ### Mamba -/

/-- `MambaManager.find_longest_cache_hit`: the last cached state, at a fine hash if hits may end
inside a block and at the end of a block otherwise. -/
def MambaManager.findLongestCacheHit {n : ℕ} (pool : BlockPool n) (blockHashes : List BlockHash)
    (maxLength : ℕ) (g : SpecGroup) (alignmentTokens : ℕ) : Except PyError (List (Row n) × ℕ) :=
  match pool.viewHashes blockHashes g alignmentTokens with
  | .error e => .error e
  | .ok blockHashes =>
    if g.fineGrained alignmentTokens then
      match findDown (pool.probe blockHashes g.groupIds) (fun _ => true)
          (min (maxLength / alignmentTokens) blockHashes.length) with
      | .error e => .error e
      | .ok none => .ok ([], 0)
      | .ok (some (fineIdx, cached)) =>
        let blockIdx := fineIdx / (g.blockSize / alignmentTokens)
        .ok (List.replicate blockIdx (pool.nullRow g) ++ [cached], (fineIdx + 1) * alignmentTokens)
    else
      match findDown (pool.probe blockHashes g.groupIds)
          (fun i => g.blockSize == alignmentTokens || (i + 1) * g.blockSize % alignmentTokens == 0)
          (maxLength / g.blockSize) with
      | .error e => .error e
      | .ok none => .ok ([], 0)
      | .ok (some (i, cached)) =>
        .ok (List.replicate i (pool.nullRow g) ++ [cached], (i + 1) * g.blockSize)

/-! ### All types -/

/-- `manager_cls.find_longest_cache_hit` for the groups of one spec. -/
def SpecGroup.findLongestCacheHit {n : ℕ} (g : SpecGroup) (pool : BlockPool n)
    (blockHashes : List BlockHash) (maxLength : ℕ) (dropEagleBlock : Bool)
    (alignmentTokens : ℕ) : Except PyError (List (Row n) × ℕ) :=
  match g.kind with
  | .fullAttention =>
    FullAttentionManager.findLongestCacheHit pool blockHashes maxLength g dropEagleBlock
      alignmentTokens
  | .slidingWindow slidingWindow =>
    SlidingWindowManager.findLongestCacheHit pool blockHashes maxLength g slidingWindow
      dropEagleBlock alignmentTokens
  | .chunkedLocalAttention attentionChunkSize =>
    ChunkedLocalAttentionManager.findLongestCacheHit pool blockHashes maxLength g
      attentionChunkSize dropEagleBlock alignmentTokens
  | .mamba => MambaManager.findLongestCacheHit pool blockHashes maxLength g alignmentTokens

end Sonar
