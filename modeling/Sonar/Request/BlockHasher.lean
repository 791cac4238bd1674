import Sonar.Request.Basic

/-!
# The request block hasher

`BlockHasher` is the closure `get_request_block_hasher` returns: a hash block size, the hash
function and the number `L` of **lookahead tokens**. A request is hashed in blocks of
`hashBlockSize` tokens; each hash covers its parent's hash, the block's tokens and the extra keys
of the block, and with `L > 0` also the `L` tokens after the block and the extra keys of those.

Functions that index a list or assert return `Option`; `none` is the raised exception. The hasher
keeps two running values over its loop, the parent hash and the index of the first multimodal
item that can still matter, and starts both from `request.blockHashes` when called again.

The hash function and SHA-256 are parameters. The per-range memo table of prompt embedding
digests is not part of the state: the embeddings of a request are never reassigned.
-/

namespace Sonar

/-- What `get_request_block_hasher` closes over, with the process-wide seed of `NONE_HASH`. -/
structure BlockHasher where
  hashBlockSize : ℕ
  cachingHashFn : PyVal → BlockHash
  numHashLookaheadTokens : ℕ
  noneHashSeed : String := "sonar-none-hash"
  sha256 : List UInt8 → List UInt8
  hashBlockSize_pos : 0 < hashBlockSize

/-- `NONE_HASH`, the hash that stands for the parent of a first block (`init_none_hash`). -/
def BlockHasher.noneHash (hasher : BlockHasher) : BlockHash :=
  hasher.cachingHashFn (.str hasher.noneHashSeed)

/-- Python's slice `xs[start:stop]` for nonnegative bounds. -/
def slice {α : Type*} (xs : List α) (start stop : ℕ) : List α := (xs.take stop).drop start

/-! ### Extra keys -/

/-- The loop of `_gen_mm_extra_hash_keys` over the items from index `currMmIdx` on. -/
def genMmExtraHashKeysLoop (startTokenIdx endTokenIdx : ℕ) :
    List MultiModalFeatureSpec → ℕ → List PyVal × ℕ
  | [], currMmIdx => ([], currMmIdx)
  | f :: rest, currMmIdx =>
    let offset := f.mmPosition.offset
    let length := f.mmPosition.length
    if endTokenIdx > offset then
      if startTokenIdx ≥ offset + length then
        -- this block has passed the current item
        genMmExtraHashKeysLoop startTokenIdx endTokenIdx rest (currMmIdx + 1)
      else
        let key : PyVal :=
          .tuple [.str "mm", .str f.identifier, .int ((offset : ℤ) - (startTokenIdx : ℤ))]
        if endTokenIdx ≥ offset + length then
          let r := genMmExtraHashKeysLoop startTokenIdx endTokenIdx rest (currMmIdx + 1)
          (key :: r.1, r.2)
        else ([key], currMmIdx)
    else ([], currMmIdx)

/-- `_gen_mm_extra_hash_keys`. A negative `startMmIdx` counts from the end. -/
def genMmExtraHashKeys (request : Request) (startTokenIdx endTokenIdx : ℕ) (startMmIdx : ℤ) :
    Option (List PyVal × ℤ) :=
  match request.mmFeatures.getLast? with
  | .none => some ([], startMmIdx)
  | some last =>
    if last.mmPosition.offset + last.mmPosition.length ≤ startTokenIdx then
      some ([], startMmIdx)
    else if startMmIdx < 0 ∧ ¬ -startMmIdx ≤ (request.mmFeatures.length : ℤ) then .none
    else
      let startMmIdx :=
        if startMmIdx < 0 then (request.mmFeatures.length : ℤ) + startMmIdx else startMmIdx
      let currMmIdx := startMmIdx.toNat
      let r := genMmExtraHashKeysLoop startTokenIdx endTokenIdx
        (request.mmFeatures.drop currMmIdx) currMmIdx
      some (r.1, (r.2 : ℤ))

/-- The key of the LoRA adapter, if the request has one. -/
def genLoraExtraHashKeys (request : Request) : List PyVal :=
  match request.loraRequest with
  | .none => []
  | some lora => [.tuple [.str "lora", .str lora.loraName, .str lora.loraPath]]

/-- The cache salt enters the first block only, and only if it is a nonempty string. -/
def cacheSaltKeys (request : Request) (startTokenIdx : ℕ) : List PyVal :=
  match request.cacheSalt with
  | .none => []
  | some salt =>
    if startTokenIdx = 0 ∧ salt ≠ "" then [.tuple [.str "cache_salt", .str salt]] else []

variable (sha256 : List UInt8 → List UInt8)

/-- The hash of the prompt embeddings in a range. -/
def genPromptEmbedsExtraHashKeys (request : Request) (startTokenIdx endTokenIdx : ℕ) : List PyVal :=
  match request.promptEmbeds with
  | .none => []
  | some embeds =>
    [.tuple [.str "prompt_embeds",
      .bytes (sha256 (slice embeds startTokenIdx endTokenIdx).flatten)]]

/-- A list of extra keys as one hash input: `None` when there are none. -/
def packExtraKeys (keys : List PyVal) : PyVal :=
  if keys.isEmpty then .none else .tuple keys

/-- All extra keys of a range, and the index of the first item that is left. -/
def generateBlockHashExtraKeys (request : Request)
    (startTokenIdx endTokenIdx : ℕ) (startMmIdx : ℤ) : Option (PyVal × ℤ) := do
  let (mmExtraKeys, newStartMmIdx) ←
    genMmExtraHashKeys request startTokenIdx endTokenIdx startMmIdx
  let extraKeys := genLoraExtraHashKeys request ++ mmExtraKeys ++
    cacheSaltKeys request startTokenIdx ++
    genPromptEmbedsExtraHashKeys sha256 request startTokenIdx endTokenIdx
  return (packExtraKeys extraKeys, newStartMmIdx)

/-- The loop of `generate_lookahead_block_hash_extra_keys` that rewinds the item index to the
first item not yet finished at `endTokenIdx`. -/
def rewindMmIdx (mmFeatures : List MultiModalFeatureSpec) (endTokenIdx : ℕ) : ℕ → Option ℕ
  | 0 => some 0
  | mmIdx + 1 =>
    match mmFeatures[mmIdx]? with
    | .none => .none
    | some f =>
      if f.mmPosition.offset + f.mmPosition.length ≤ endTokenIdx then some (mmIdx + 1)
      else rewindMmIdx mmFeatures endTokenIdx mmIdx

/-- The extra keys of a range with lookahead; the item index is that of the range. -/
def generateLookaheadBlockHashExtraKeys (request : Request)
    (startTokenIdx endTokenIdx hashEndTokenIdx : ℕ) (startMmIdx : ℤ) : Option (PyVal × ℤ) := do
  let (extraKeys, mmIdx) ←
    generateBlockHashExtraKeys sha256 request startTokenIdx hashEndTokenIdx startMmIdx
  if mmIdx > 0 then
    let mmIdx ← rewindMmIdx request.mmFeatures endTokenIdx mmIdx.toNat
    return (extraKeys, (mmIdx : ℤ))
  else
    return (extraKeys, mmIdx)

/-! ### Hashing -/

/-- `hash_block_tokens`: a missing or empty parent hash stands for `NONE_HASH`. -/
def hashBlockTokens (hashFunction : PyVal → BlockHash) (noneHash : BlockHash)
    (parentBlockHash : Option BlockHash) (currBlockTokenIds : List ℤ) (extraKeys : PyVal) :
    BlockHash :=
  let parent := match parentBlockHash with
    | .none => noneHash
    | some h => if h.isEmpty then noneHash else h
  hashFunction (.tuple [.bytes parent, .tuple (currBlockTokenIds.map .int), extraKeys])

namespace BlockHasher

variable (hasher : BlockHasher)

/-- The extra keys of one block as the hasher's loop computes them, and the item index for the
next block. -/
def blockExtraKeys (request : Request) (startTokenIdx endTokenIdx : ℕ) (currMmIdx : ℤ) :
    Option (PyVal × ℤ) :=
  if hasher.numHashLookaheadTokens ≠ 0 then do
    let hashEndTokenIdx := endTokenIdx + hasher.numHashLookaheadTokens
    let (extraKeys, currMmIdx) ← generateLookaheadBlockHashExtraKeys hasher.sha256 request
      startTokenIdx endTokenIdx hashEndTokenIdx currMmIdx
    if hasher.numHashLookaheadTokens = 1 then
      let token ← request.allTokenIds[endTokenIdx]?
      return (.tuple [extraKeys, .int token], currMmIdx)
    else
      return (.tuple (extraKeys ::
        (slice request.allTokenIds endTokenIdx hashEndTokenIdx).map .int), currMmIdx)
  else
    generateBlockHashExtraKeys hasher.sha256 request startTokenIdx endTokenIdx currMmIdx

/-- The `while True` loop of `request_block_hasher`, from `startTokenIdx` with the given item
index and parent hash. `fuel` bounds the number of blocks hashed. -/
def hashLoop (request : Request) (numTokens : ℤ) :
    ℕ → ℕ → ℤ → Option BlockHash → Option (List BlockHash)
  | 0, _, _, _ => some []
  | fuel + 1, startTokenIdx, currMmIdx, prevBlockHashValue =>
    let endTokenIdx := startTokenIdx + hasher.hashBlockSize
    if (endTokenIdx : ℤ) > numTokens then some []
    else do
      let (extraKeys, currMmIdx) ←
        hasher.blockExtraKeys request startTokenIdx endTokenIdx currMmIdx
      let blockTokens := slice request.allTokenIds startTokenIdx endTokenIdx
      let blockHash := hashBlockTokens hasher.cachingHashFn hasher.noneHash prevBlockHashValue
        blockTokens extraKeys
      let rest ← hashLoop request numTokens fuel (startTokenIdx + hasher.hashBlockSize) currMmIdx
        (some blockHash)
      return blockHash :: rest

/-- The item index the loop starts from: items that ended before the first block to hash are
skipped by a window search. -/
def startMmIdx (request : Request) (startTokenIdx : ℕ) : ℤ :=
  match request.mmFeatures.getLast? with
  | .none => 0
  | some last =>
    if startTokenIdx > 0 ∧ last.mmPosition.offset + last.mmPosition.length > startTokenIdx then
      ((getMmFeaturesInWindow request.mmFeatures startTokenIdx
        (startTokenIdx + hasher.hashBlockSize)).1 : ℤ)
    else 0

/-- `request_block_hasher`: the hashes of the full blocks not covered by
`request.blockHashes` yet. -/
def requestBlockHasher (request : Request) : Option (List BlockHash) :=
  let startTokenIdx := request.blockHashes.length * hasher.hashBlockSize
  let numTokens : ℤ := (request.numTokens : ℤ) - (hasher.numHashLookaheadTokens : ℤ)
  if ((startTokenIdx + hasher.hashBlockSize : ℕ) : ℤ) > numTokens then some []
  else hasher.hashLoop request numTokens request.numTokens startTokenIdx
    (hasher.startMmIdx request startTokenIdx) request.blockHashes.getLast?

end BlockHasher

namespace Request

/-- `update_block_hashes`; without a hasher (prefix caching off) nothing is hashed. -/
def updateBlockHashes (blockHasher : Option BlockHasher) (request : Request) : Option Request :=
  match blockHasher with
  | .none => some request
  | some hasher => do
    let new ← hasher.requestBlockHasher request
    return { request with blockHashes := request.blockHashes ++ new }

/-- The number of prompt positions; `none` when the prompt is missing or its two forms differ in
length. -/
def lengthFromPromptTokenIdsOrEmbeds (promptTokenIds : Option (List ℤ))
    (promptEmbeds : Option (List (List UInt8))) : Option ℕ :=
  match promptTokenIds, promptEmbeds with
  | .none, .none => .none
  | .none, some embeds => some embeds.length
  | some ids, .none => some ids.length
  | some ids, some embeds => if embeds.length ≠ ids.length then .none else some ids.length

/-- The token ids a request starts with. Positions that only embeddings cover hold zero. -/
def initialTokenIds (promptTokenIds : Option (List ℤ)) (promptIsTokenIds : Option (List Bool))
    (numPromptTokens : ℕ) : List ℤ :=
  match promptTokenIds, promptIsTokenIds with
  | .none, _ => List.replicate numPromptTokens 0
  | some ids, .none => ids
  | some ids, some isTok => (ids.zip isTok).map fun p => if p.2 then p.1 else 0

/-- A request as its constructor fills it in, before the prompt is hashed. -/
def unhashed (request : EngineCoreRequest) (blockHashes : Option (List BlockHash))
    (numPromptTokens : ℕ) : Request where
  promptTokenIds := request.promptTokenIds
  promptEmbeds := request.promptEmbeds
  promptIsTokenIds := request.promptIsTokenIds
  numPromptTokens := numPromptTokens
  allTokenIds := initialTokenIds request.promptTokenIds request.promptIsTokenIds numPromptTokens
  mmFeatures := request.mmFeatures.getD []
  loraRequest := request.loraRequest
  cacheSalt := request.cacheSalt
  sessionId := request.sessionId
  blockHashes := blockHashes.getD []
  resumable := request.resumable

/-- `Request.from_engine_core_request`: the constructor ends by hashing the prompt's full blocks
that the frontend has not hashed already. -/
def fromEngineCoreRequest (request : EngineCoreRequest) (blockHasher : Option BlockHasher)
    (blockHashes : Option (List BlockHash)) : Option Request := do
  let numPromptTokens ←
    lengthFromPromptTokenIdsOrEmbeds request.promptTokenIds request.promptEmbeds
  updateBlockHashes blockHasher (unhashed request blockHashes numPromptTokens)

/-- The token ids one call of `append_output_token_ids` adds: it takes one id or a list of them. -/
def batchTokens : ℤ ⊕ List ℤ → List ℤ
  | .inl tokenId => [tokenId]
  | .inr tokenIds => tokenIds

/-- A request with more output tokens, not hashed yet. -/
def extend (request : Request) (tokens : List ℤ) : Request :=
  { request with
    outputTokenIds := request.outputTokenIds ++ tokens
    allTokenIds := request.allTokenIds ++ tokens }

/-- Tokens are appended, and the blocks they fill are hashed. -/
def appendOutputTokenIds (blockHasher : Option BlockHasher) (request : Request)
    (tokenIds : ℤ ⊕ List ℤ) : Option Request :=
  updateBlockHashes blockHasher (request.extend (batchTokens tokenIds))

end Request

end Sonar
