import Sonar.Request.Incremental

/-!
# Prompt block hashes computed in the frontend

The Rust frontend hashes the prompt of a request before it sends it, so that the engine does not
have to. `Frontend.PromptBlockHasher` is that hasher: it rebuilds the engine's keys
`(parent hash, block tokens, extra keys)`, writes each one as the bytes `pickle` or `cbor2` would
write, and digests them. Where it cannot write the same bytes it returns `none` and leaves the
prompt to the engine.

The two programs share no code. `loggedLoop` is the engine's loop with the keys it hands to the
hash function kept, and `hashBlocks` returns each key beside its hash; the two lists of keys are
compared block by block. Equal keys become equal hashes by the one fact about code outside the
repository, `WritesAs`: for the keys of the request the engine's `dumps` gives the bytes the frontend
writes. From there the engine cannot tell the frontend's hashes from its own, so every later hash is
the same too.

`cborDumps` and `pickleDumps` are models of the two libraries. CBOR meets `WritesAs` for every key.
The pickler writes an object that comes again as a reference to the first, and meets it because
`hash_request` leaves requests to the engine in which an object can come again.
-/

namespace Sonar

open Lib List
open Option (bind_eq_some_iff bind_some map_some)

/-- What a block contributes to its key; the parent is the hash of the key before it. -/
def BlockKey.content (key : BlockKey) : List ℤ × PyVal := (key.blockTokens, key.extraKeys)

namespace BlockHasher

variable (hasher : BlockHasher)

/-- A digest that is not empty is its own parent. -/
private theorem blockKey_parent {parent : Option BlockHash} (h : ∀ p ∈ parent, p ≠ [])
    (c : List ℤ × PyVal) : (hasher.blockKey parent c).parent = parent.getD hasher.noneHash := by
  cases parent with
  | none => rfl
  | some p => simp [blockKey, h p rfl]

variable {request : Request}

private theorem keysFrom_content (prev : Option BlockHash) (cs : List (List ℤ × PyVal)) :
    (hasher.keysFrom prev cs).map BlockKey.content = cs := by
  induction cs generalizing prev with
  | nil => rfl
  | cons c cs ih =>
    rw [keysFrom, map_cons, ih]
    rfl

/-- The hasher, called on a request without hashes, passes on the keys of all its blocks. -/
private theorem requestBlockKeys_eq (hs : request.FeaturesSorted) (hnil : request.blockHashes = []) :
    hasher.requestBlockKeys request =
      some (hasher.keysFrom .none ((range' 0 (hasher.numHashable request.numTokens)).map
        (hasher.content request))) := by
  rw [hasher.requestBlockKeys_resume hs, hnil]
  rfl

end BlockHasher

/-- What the engine tells its frontends about its hasher. -/
structure PrefixHashConfig where
  hashAlgo : String
  hashBlockSize : ℕ
  noneHash : BlockHash
  numLookaheadTokens : ℕ

/-- The config an engine publishes for its own hasher. -/
def BlockHasher.prefixHashConfig (hasher : BlockHasher) (hashAlgo : String) : PrefixHashConfig where
  hashAlgo := hashAlgo
  hashBlockSize := hasher.hashBlockSize
  noneHash := hasher.noneHash
  numLookaheadTokens := hasher.numHashLookaheadTokens

/-- `frontend_block_hashes`: hashes sent along are used when there are as many as the prompt
has hashable blocks. -/
def frontendBlockHashes (promptTokenIds : Option (List ℤ))
    (blockHashes : Option (List BlockHash)) (prefixHashConfig : Option PrefixHashConfig) :
    Option (List BlockHash) :=
  match blockHashes with
  | .none => .none
  | some blockHashes =>
    let promptLen := (promptTokenIds.getD []).length
    match prefixHashConfig with
    | .none => .none
    | some config =>
      if (blockHashes.length : ℤ) ≠
          max ((promptLen : ℤ) - config.numLookaheadTokens) 0 / config.hashBlockSize then .none
      else some blockHashes

namespace Frontend

/-! ### Keys of the frontend -/

/-- The request as the frontend holds it; token ids are `u32`. -/
structure EngineCoreRequest where
  promptTokenIds : Option (List UInt32) := .none
  promptEmbeds : Option (List (List UInt8)) := .none
  promptIsTokenIds : Option (List Bool) := .none
  mmFeatures : Option (List MultiModalFeatureSpec) := .none
  loraRequest : Option LoRARequest := .none
  cacheSalt : Option String := .none
  sessionId : Option String := .none
  resumable : Bool := false

/-- A `u32` token id as the engine reads it. -/
def tokenId (token : UInt32) : ℤ := (token.toNat : ℤ)

/-- The request as it arrives in the engine. -/
def EngineCoreRequest.received (request : EngineCoreRequest) : Sonar.EngineCoreRequest where
  promptTokenIds := request.promptTokenIds.map (List.map tokenId)
  promptEmbeds := request.promptEmbeds
  promptIsTokenIds := request.promptIsTokenIds
  mmFeatures := request.mmFeatures
  loraRequest := request.loraRequest
  cacheSalt := request.cacheSalt
  sessionId := request.sessionId
  resumable := request.resumable

/-- How the engine serializes a key before it digests it. -/
inductive KeyEncoding where
  /-- Algorithm `sha256`: `pickle.dumps(key, protocol=5)`. -/
  | pickle
  /-- Algorithm `sha256_cbor`: `cbor2.dumps(key, canonical=True)`. -/
  | cbor
deriving DecidableEq

/-- A Python value in a block's extra keys, of the kinds the frontend writes. -/
inductive ExtraKey where
  | none
  | int (value : UInt32)
  | str (s : String)
  | tuple (items : List ExtraKey)

mutual

/-- The Python object an extra key stands for. -/
def ExtraKey.toPyVal : ExtraKey → PyVal
  | .none => .none
  | .int value => .int (tokenId value)
  | .str s => .str s
  | .tuple items => .tuple (ExtraKey.toPyVals items)

/-- The objects of the items of a tuple. -/
def ExtraKey.toPyVals : List ExtraKey → List PyVal
  | [] => []
  | item :: items => ExtraKey.toPyVal item :: ExtraKey.toPyVals items

end

/-- The request-level inputs of a block's extra keys. -/
structure RequestExtraKeys where
  lora : Option ExtraKey
  cacheSalt : Option String

/-- The extra keys of the block that starts at `start`: the LoRA key, and on the first block the
cache salt, or `None` without either. -/
def RequestExtraKeys.forBlock (keys : RequestExtraKeys) (start : ℕ) : ExtraKey :=
  let cacheSalt := (keys.cacheSalt.filter fun _ => start = 0).map fun salt =>
    ExtraKey.tuple [.str "cache_salt", .str salt]
  let keys := keys.lora.toList ++ cacheSalt.toList
  if keys.isEmpty then .none else .tuple keys

/-- One key the frontend digests. -/
structure HashKey where
  parent : BlockHash
  block : List UInt32
  extraKeys : ExtraKey

/-- The key as the engine would build it. -/
def HashKey.toBlockKey (key : HashKey) : BlockKey :=
  ⟨key.parent, key.block.map tokenId, key.extraKeys.toPyVal⟩

/-! ### Writing a key as pickle -/

/-- The low `n` bytes of `value`, least significant first. -/
def toLeBytes : ℕ → ℕ → List UInt8
  | 0, _ => []
  | n + 1, value => UInt8.ofNat value :: toLeBytes n (value / 256)

/-- The UTF-8 bytes of a string. -/
def asBytes (s : String) : List UInt8 := s.toUTF8.data.toList

/-- The opcode that memoizes the object on top of the stack. -/
def MEMOIZE : UInt8 := 0x94

/-- The size at which Python's pickler starts a new frame. -/
def PICKLE_FRAME_SIZE_TARGET : ℕ := 64 * 1024

/-- The opcode that makes a tuple of the objects on the stack. -/
def tupleOpcode : ℕ → UInt8
  | 1 => 0x85
  | 2 => 0x86
  | 3 => 0x87
  | _ => 0x74

/-- `write_pickle_tuple`, for a tuple of `len` items whose bytes are `items`. -/
def writePickleTuple (len : ℕ) (items : Option (List UInt8)) : Option (List UInt8) :=
  if len = 0 then some [0x29]
  else do
    let body ← items
    return (if len > 3 then [0x28] else []) ++ body ++ [tupleOpcode len, MEMOIZE]

/-- A number as `pickle` writes it, up to 31 bits. -/
def writePickleInt (value : UInt32) : Option (List UInt8) :=
  let value := value.toNat
  if value ≤ 0xff then some (0x4b :: toLeBytes 1 value)
  else if value ≤ 0xffff then some (0x4d :: toLeBytes 2 value)
  else if value ≤ 0x7fffffff then some (0x4a :: toLeBytes 4 value)
  else .none

mutual

/-- An extra key as `pickle` writes it. -/
def writePickleValue : ExtraKey → Option (List UInt8)
  | .none => some [0x4e]
  | .int value => writePickleInt value
  | .str s =>
    let len := (asBytes s).length
    if len < 2 ^ 8 then some ([0x8c, UInt8.ofNat len] ++ asBytes s ++ [MEMOIZE])
    else if len < 2 ^ 32 then some (0x58 :: toLeBytes 4 len ++ asBytes s ++ [MEMOIZE])
    else .none
  | .tuple items => writePickleTuple items.length (writePickleValues items)

/-- The items of a tuple, one after the other. -/
def writePickleValues : List ExtraKey → Option (List UInt8)
  | [] => some []
  | item :: items => do
    let head ← writePickleValue item
    let tail ← writePickleValues items
    return head ++ tail

end

/-- A whole key as `pickle` writes it, with its frame; `none` where the Rust side gives up. -/
def encodePickleKey (key : HashKey) : Option (List UInt8) := do
  let parentLen ← if key.parent.length < 2 ^ 8 then some (UInt8.ofNat key.parent.length) else .none
  let block ← writePickleTuple key.block.length
    ((key.block.mapM writePickleInt).map List.flatten)
  let extraKeys ← writePickleValue key.extraKeys
  let frame := [0x43, parentLen] ++ key.parent ++ [MEMOIZE] ++ block ++ extraKeys ++
    [0x87, MEMOIZE, 0x2e]
  if frame.length ≥ PICKLE_FRAME_SIZE_TARGET then .none
  else return [0x80, 0x05, 0x95] ++ toLeBytes 8 frame.length ++ frame

/-! ### Writing a key as canonical CBOR -/

/-- The major type of bytes. -/
def CBOR_BYTES : UInt8 := 0x40

/-- The major type of texts. -/
def CBOR_TEXT : UInt8 := 0x60

/-- The major type of arrays. -/
def CBOR_ARRAY : UInt8 := 0x80

/-- The value `null`. -/
def CBOR_NULL : UInt8 := 0xf6

/-- `write_cbor_head`: an item head in its shortest form. -/
def writeCborHead (major : UInt8) (value : ℕ) : List UInt8 :=
  if value ≤ 23 then [major ||| UInt8.ofNat value]
  else if value ≤ 0xff then [major ||| 24, UInt8.ofNat value]
  else if value ≤ 0xffff then (major ||| 25) :: (toLeBytes 2 value).reverse
  else if value ≤ 0xffffffff then (major ||| 26) :: (toLeBytes 4 value).reverse
  else (major ||| 27) :: (toLeBytes 8 value).reverse

mutual

/-- An extra key in CBOR. -/
def writeCborValue : ExtraKey → List UInt8
  | .none => [CBOR_NULL]
  | .int value => writeCborHead 0x00 value.toNat
  | .str s => writeCborHead CBOR_TEXT (asBytes s).length ++ asBytes s
  | .tuple items => writeCborHead CBOR_ARRAY items.length ++ writeCborValues items

/-- The items of an array, one after the other. -/
def writeCborValues : List ExtraKey → List UInt8
  | [] => []
  | item :: items => writeCborValue item ++ writeCborValues items

end

/-- A whole key in CBOR, an array of three. -/
def encodeCborKey (key : HashKey) : List UInt8 :=
  [CBOR_ARRAY ||| 3] ++ writeCborHead CBOR_BYTES key.parent.length ++ key.parent ++
    writeCborHead CBOR_ARRAY key.block.length ++
    key.block.flatMap (fun token => writeCborHead 0x00 token.toNat) ++ writeCborValue key.extraKeys

/-- The bytes of a key; `none` for a key that cannot be written exactly. -/
def KeyEncoding.encode (encoding : KeyEncoding) (key : HashKey) : Option (List UInt8) :=
  match encoding with
  | .pickle => encodePickleKey key
  | .cbor => some (encodeCborKey key)

/-! ### Hashing a prompt -/

/-- The hasher a frontend sets up for an engine. -/
structure PromptBlockHasher where
  encoding : KeyEncoding
  blockSize : ℕ
  noneHash : BlockHash
  numLookaheadTokens : ℕ

/-- The encoding of a hash algorithm; `none` for those the frontend does not support. -/
def KeyEncoding.ofHashAlgo (hashAlgo : String) : Option KeyEncoding :=
  if hashAlgo = "sha256" then some .pickle
  else if hashAlgo = "sha256_cbor" then some .cbor
  else .none

/-- `PromptBlockHasher::new`; `none` when the engine's hashes cannot be reproduced. -/
def PromptBlockHasher.new (config : PrefixHashConfig) : Option PromptBlockHasher := do
  let encoding ← KeyEncoding.ofHashAlgo config.hashAlgo
  if config.hashBlockSize > 0 ∧ config.noneHash.length < 256 then
    return ⟨encoding, config.hashBlockSize, config.noneHash, config.numLookaheadTokens⟩
  else .none

/-- The strings CPython keeps one object of: the empty one and those of a single Latin-1
character. -/
def sharedByCpython (s : String) : Bool :=
  match s.toList with
  | [] => true
  | [c] => c.toNat < 0x100
  | _ => false

/-- Whether CPython may hold two equal strings as one object, which its pickler writes once. -/
def maySharePickledObjects : List String → Bool
  | [] => false
  | s :: strings =>
    ["lora", "cache_salt"].contains s || (sharedByCpython s && strings.contains s) ||
      maySharePickledObjects strings

namespace PromptBlockHasher

variable (hasher : PromptBlockHasher) (sha256 : List UInt8 → List UInt8)

/-- The key of the block at `index`. With lookahead its extra keys become `(E, *tokens)`. -/
def promptKey (tokenIds : List UInt32) (keys : RequestExtraKeys) (index : ℕ)
    (parent : BlockHash) : HashKey :=
  let start := index * hasher.blockSize
  let stop := start + hasher.blockSize
  let extraKeys := keys.forBlock start
  let extraKeys :=
    if hasher.numLookaheadTokens > 0 then
      ExtraKey.tuple (extraKeys ::
        (slice tokenIds stop (stop + hasher.numLookaheadTokens)).map .int)
    else extraKeys
  ⟨parent, slice tokenIds start stop, extraKeys⟩

/-- The loop of `hash_prompt` over `remaining` blocks from `index` on, each key beside its
hash. -/
def hashBlocks (tokenIds : List UInt32) (keys : RequestExtraKeys) :
    ℕ → ℕ → BlockHash → Option (List (HashKey × BlockHash))
  | 0, _, _ => some []
  | remaining + 1, index, parent => do
    let key := hasher.promptKey tokenIds keys index parent
    let bytes ← hasher.encoding.encode key
    let hash := sha256 bytes
    let rest ← hashBlocks tokenIds keys remaining (index + 1) hash
    return (key, hash) :: rest

/-- `hash_prompt`, with the keys. -/
def hashPrompt (tokenIds : List UInt32) (keys : RequestExtraKeys) :
    Option (List (HashKey × BlockHash)) :=
  let numBlocks := (tokenIds.length - hasher.numLookaheadTokens) / hasher.blockSize
  hasher.hashBlocks sha256 tokenIds keys numBlocks 0 hasher.noneHash

variable (request : EngineCoreRequest)

/-- A cache salt that is not empty. -/
def saltOf : Option String :=
  request.cacheSalt.filter fun salt => ¬ salt.isEmpty

/-- The request's own extra keys. -/
def extraKeysOf : RequestExtraKeys where
  lora := request.loraRequest.map fun lora =>
    .tuple [.str "lora", .str lora.loraName, .str lora.loraPath]
  cacheSalt := saltOf request

/-- The strings of a request that its keys hold. -/
def strings : List String :=
  (request.loraRequest.toList.flatMap fun lora => [lora.loraName, lora.loraPath]) ++
    (saltOf request).toList

/-- `hash_request`, with the keys: `none` if the engine has to hash the prompt. -/
def hashRequestLogged : Option (List (HashKey × BlockHash)) :=
  let unsupported := (request.mmFeatures.any fun features => ¬ features.isEmpty) ||
    request.promptEmbeds.isSome || request.promptIsTokenIds.isSome
  if unsupported then .none
  else if hasher.encoding = .pickle ∧ maySharePickledObjects (strings request) then .none
  else do
    let tokenIds ← request.promptTokenIds
    hasher.hashPrompt sha256 tokenIds (extraKeysOf request)

/-- `hash_request`: the prompt's block hashes. -/
def hashRequest : Option (List BlockHash) :=
  (hasher.hashRequestLogged sha256 request).map (List.map Prod.snd)

end PromptBlockHasher

/-! ### The frontend's keys are the engine's -/

private theorem toPyVals_map_int (tokens : List UInt32) :
    ExtraKey.toPyVals (tokens.map .int) = (tokens.map tokenId).map .int := by
  induction tokens with
  | nil => rfl
  | cons token tokens ih => simp [ExtraKey.toPyVals, ExtraKey.toPyVal, ih]

private theorem map_slice {α β : Type*} (f : α → β) (xs : List α) (start stop : ℕ) :
    (slice xs start stop).map f = slice (xs.map f) start stop := by
  simp [slice]

private theorem toPyVals_append (xs ys : List ExtraKey) :
    ExtraKey.toPyVals (xs ++ ys) = ExtraKey.toPyVals xs ++ ExtraKey.toPyVals ys := by
  induction xs with
  | nil => rfl
  | cons x xs ih => simp [ExtraKey.toPyVals, ih]

private theorem toPyVal_pack (items : List ExtraKey) :
    (if items.isEmpty then ExtraKey.none else .tuple items).toPyVal =
      packExtraKeys (ExtraKey.toPyVals items) := by
  cases items <;> rfl

/-- A request whose extra keys the frontend can build: text only, with a prompt. -/
structure TextOnly (request : EngineCoreRequest) (tokenIds : List UInt32) : Prop where
  prompt : request.promptTokenIds = some tokenIds
  noFeatures : request.mmFeatures.getD [] = []
  noEmbeds : request.promptEmbeds = .none
  noMask : request.promptIsTokenIds = .none

/-- The engine's request before its prompt is hashed. -/
def EngineCoreRequest.unhashed (request : EngineCoreRequest) (tokenIds : List UInt32) : Request :=
  Request.unhashed request.received .none tokenIds.length

variable {request : EngineCoreRequest} {tokenIds : List UInt32}

private theorem loraKeys_eq : ExtraKey.toPyVals (PromptBlockHasher.extraKeysOf request).lora.toList =
      genLoraExtraHashKeys (request.unhashed tokenIds) := by
  rw [genLoraExtraHashKeys, PromptBlockHasher.extraKeysOf,
    show (request.unhashed tokenIds).loraRequest = request.loraRequest from rfl]
  cases request.loraRequest <;> rfl

/-- An empty salt counts on neither side, and any other only on the first block. -/
private theorem saltKeys_eq {start : ℕ} :
    ExtraKey.toPyVals ((((PromptBlockHasher.extraKeysOf request).cacheSalt.filter
      fun _ => start = 0).map fun salt => .tuple [.str "cache_salt", .str salt]).toList) =
      cacheSaltKeys (request.unhashed tokenIds) start := by
  rw [cacheSaltKeys, PromptBlockHasher.extraKeysOf, PromptBlockHasher.saltOf,
    show (request.unhashed tokenIds).cacheSalt = request.cacheSalt from rfl]
  cases request.cacheSalt with
  | none => rfl
  | some salt =>
    by_cases hs : salt = "" <;> by_cases hz : start = 0 <;>
      simp [hs, hz, Option.filter, ExtraKey.toPyVal, ExtraKey.toPyVals]

section TextOnly

variable {request : EngineCoreRequest} {tokenIds : List UInt32}

section

variable (h : TextOnly request tokenIds)

include h

private theorem TextOnly.allTokenIds : (request.unhashed tokenIds).allTokenIds = tokenIds.map tokenId := by
  simp [EngineCoreRequest.unhashed, Request.unhashed, EngineCoreRequest.received, h.prompt,
    h.noMask, Request.initialTokenIds]

private theorem TextOnly.featuresSorted : (request.unhashed tokenIds).FeaturesSorted := by
  have hnil : (request.unhashed tokenIds).mmFeatures = [] := h.noFeatures
  rw [Request.FeaturesSorted, hnil]
  exact .nil

/-- Both sides key the LoRA adapter on every block and the salt on the first. -/
private theorem TextOnly.forBlock_toPyVal {sha256 : List UInt8 → List UInt8} {start stop : ℕ} :
    ((PromptBlockHasher.extraKeysOf request).forBlock start).toPyVal =
      windowExtraKeys sha256 (request.unhashed tokenIds) start stop := by
  have hmm : mmKeys start stop (request.unhashed tokenIds).mmFeatures = [] := by
    rw [show (request.unhashed tokenIds).mmFeatures = [] from h.noFeatures]
    rfl
  have hembeds : genPromptEmbedsExtraHashKeys sha256 (request.unhashed tokenIds) start stop = [] := by
    rw [genPromptEmbedsExtraHashKeys,
      show (request.unhashed tokenIds).promptEmbeds = .none from h.noEmbeds]
  rw [RequestExtraKeys.forBlock, toPyVal_pack, toPyVals_append, loraKeys_eq,
    saltKeys_eq, windowExtraKeys, hmm, hembeds, append_nil, append_nil]

end

end TextOnly

/-- The frontend's hasher was set up from the engine's own config. -/
structure Configured (hasher : PromptBlockHasher) (engine : BlockHasher) : Prop where
  blockSize : hasher.blockSize = engine.hashBlockSize
  noneHash : hasher.noneHash = engine.noneHash
  lookahead : hasher.numLookaheadTokens = engine.numHashLookaheadTokens

private theorem Configured.of_new {engine : BlockHasher} {hashAlgo : String} {hasher : PromptBlockHasher}
    (h : PromptBlockHasher.new (engine.prefixHashConfig hashAlgo) = some hasher) :
    Configured hasher engine := by
  obtain ⟨encoding, -, h⟩ := bind_eq_some_iff.mp h
  split_ifs at h
  obtain rfl := Option.some.inj h
  exact ⟨rfl, rfl, rfl⟩

/-- The engine's digest is the SHA-256 of what `dumps` writes, which for each of the given keys is
the bytes the frontend writes for it; digests are not empty. -/
structure WritesAs (encoding : KeyEncoding) (engine : BlockHasher) (dumps : PyVal → List UInt8)
    (keys : List HashKey) : Prop where
  digest : ∀ v, engine.cachingHashFn v = engine.sha256 (dumps v)
  encode : ∀ key ∈ keys, ∀ bytes, encoding.encode key = some bytes →
    dumps key.toBlockKey.toPyVal = bytes
  sha256_ne_nil : ∀ bytes, engine.sha256 bytes ≠ []

namespace PromptBlockHasher

variable {hasher : PromptBlockHasher} {engine : BlockHasher} {request : EngineCoreRequest}
  {tokenIds : List UInt32}

section

variable (h : TextOnly request tokenIds) (hc : Configured hasher engine)

include h hc

/-- Block by block, the frontend keys the content the engine keys. -/
private theorem promptKey_content (i : ℕ) (parent : BlockHash) :
    (hasher.promptKey tokenIds (extraKeysOf request) i parent).toBlockKey.content =
      engine.content (request.unhashed tokenIds) i := by
  rw [promptKey, BlockHasher.content, BlockHasher.blockKeys, hc.blockSize, hc.lookahead]
  simp only [HashKey.toBlockKey, BlockKey.content, h.allTokenIds, ← map_slice, Prod.mk.injEq,
    true_and]
  by_cases hL : engine.numHashLookaheadTokens = 0
  · simp only [hL]
    exact h.forBlock_toPyVal
  · rw [if_pos (Nat.pos_of_ne_zero hL), if_neg hL, ExtraKey.toPyVal, ExtraKey.toPyVals,
      toPyVals_map_int, h.forBlock_toPyVal]

variable {sha256 : List UInt8 → List UInt8} {log : List (HashKey × BlockHash)}
  {hashes : List BlockHash}

/-- The contents the loop keys, without any assumption on the encodings. -/
private theorem hashBlocks_content {n i : ℕ} {parent : BlockHash}
    (hlog : hasher.hashBlocks sha256 tokenIds (extraKeysOf request) n i parent = some log) :
    log.map (fun entry => entry.1.toBlockKey.content) =
      (range' i n).map (engine.content (request.unhashed tokenIds)) := by
  induction n generalizing i parent log with
  | zero =>
    obtain rfl := Option.some.inj hlog
    rfl
  | succ n ih =>
    obtain ⟨bytes, -, hlog⟩ := bind_eq_some_iff.mp hlog
    obtain ⟨rest, hrest, hlog⟩ := bind_eq_some_iff.mp hlog
    obtain rfl := Option.some.inj hlog
    rw [map_cons, ih hrest, promptKey_content h hc, range'_succ, map_cons]

/-- With equal encodings the loop walks the engine's chain: its keys are the engine's, and each
hash is the engine's digest of its key. -/
private theorem hashBlocks_keys
    {dumps : PyVal → List UInt8} {n i : ℕ} {prev : Option BlockHash} (hprev : ∀ p ∈ prev, p ≠ [])
    (hlog : hasher.hashBlocks engine.sha256 tokenIds (extraKeysOf request) n i
      (prev.getD engine.noneHash) = some log)
    (hw : WritesAs hasher.encoding engine dumps (log.map Prod.fst)) :
    log.map (fun entry => entry.1.toBlockKey) = engine.keysFrom prev
        ((range' i n).map (engine.content (request.unhashed tokenIds))) ∧
      ∀ entry ∈ log, entry.2 = engine.cachingHashFn entry.1.toBlockKey.toPyVal := by
  induction n generalizing i prev log with
  | zero =>
    obtain rfl := Option.some.inj hlog
    exact ⟨rfl, fun _ hentry => by cases hentry⟩
  | succ n ih =>
    obtain ⟨bytes, hbytes, hlog⟩ := bind_eq_some_iff.mp hlog
    obtain ⟨rest, hrest, hlog⟩ := bind_eq_some_iff.mp hlog
    obtain rfl := Option.some.inj hlog
    set key := hasher.promptKey tokenIds (extraKeysOf request) i (prev.getD engine.noneHash)
    have hhash : engine.sha256 bytes = engine.cachingHashFn key.toBlockKey.toPyVal := by
      rw [hw.digest, hw.encode key mem_cons_self bytes hbytes]
    have hsame : key.toBlockKey =
        engine.blockKey prev (engine.content (request.unhashed tokenIds) i) := by
      have hcontent := promptKey_content h hc i (prev.getD engine.noneHash)
      have hparent := engine.blockKey_parent hprev
        (engine.content (request.unhashed tokenIds) i)
      rw [← hcontent] at hparent ⊢
      exact BlockKey.ext hparent.symm rfl rfl
    have hnext : ∀ p ∈ some (engine.sha256 bytes), p ≠ [] :=
      fun p hp => Option.some.inj hp ▸ hw.sha256_ne_nil bytes
    obtain ⟨hkeys, hhashes⟩ := ih hnext hrest
      { hw with encode := fun key hkey => hw.encode key (mem_cons_of_mem _ hkey) }
    refine ⟨?_, forall_mem_cons.mpr ⟨hhash, hhashes⟩⟩
    rw [map_cons, hkeys, range'_succ, map_cons, BlockHasher.keysFrom, hhash, hsame]

end

/-- What `hash_request` accepts, and what it then does. -/
private theorem hashRequestLogged_cases (hlog : hasher.hashRequestLogged sha256 request = some log) :
    ∃ tokenIds, TextOnly request tokenIds ∧
      (hasher.encoding = .pickle → maySharePickledObjects (strings request) = false) ∧
      hasher.hashPrompt sha256 tokenIds (extraKeysOf request) = some log := by
  rw [hashRequestLogged] at hlog
  split_ifs at hlog with hsupported hshared
  obtain ⟨tokenIds, hids, hlog⟩ := bind_eq_some_iff.mp hlog
  simp only [Bool.or_eq_true, not_or, Bool.not_eq_true, Option.isSome_eq_false_iff,
    Option.isNone_iff_eq_none] at hsupported
  refine ⟨tokenIds, ⟨hids, ?_, hsupported.1.2, hsupported.2⟩, fun hpickle => ?_, hlog⟩
  swap
  · rw [← Bool.not_eq_true]
    exact fun hmay => hshared ⟨hpickle, hmay⟩
  have hany := hsupported.1.1
  rcases hf : request.mmFeatures with _ | features
  · rfl
  · rw [hf] at hany
    simpa using hany

/-- The hashes of an accepted prompt pass the engine's count check. -/
private theorem frontendBlockHashes_hashPrompt (h : TextOnly request tokenIds) {hashAlgo : String}
    (hlen : hashes.length = engine.numHashable tokenIds.length) :
    frontendBlockHashes request.received.promptTokenIds (some hashes)
      (some (engine.prefixHashConfig hashAlgo)) = some hashes := by
  have hids : (request.received.promptTokenIds.getD []).length = tokenIds.length := by
    simp [EngineCoreRequest.received, h.prompt]
  have hmax : max ((tokenIds.length : ℤ) - engine.numHashLookaheadTokens) 0 =
      ((tokenIds.length - engine.numHashLookaheadTokens : ℕ)) := by omega
  have hcount : hashes.length =
      max ((tokenIds.length : ℤ) - engine.numHashLookaheadTokens) 0 / engine.hashBlockSize := by
    rw [hlen, hmax, BlockHasher.numHashable, Int.natCast_div]
  simp only [frontendBlockHashes, hids]
  exact if_neg (not_not.mpr hcount)

/-- Hashes that are the engine's own lead to the request the engine would build alone. -/
private theorem fromEngineCoreRequest_hashes (h : TextOnly request tokenIds)
    (hown : hashes = engine.hashList (request.unhashed tokenIds)) :
    ∃ r, Request.fromEngineCoreRequest request.received (some engine) (some hashes) = some r ∧
      Request.fromEngineCoreRequest request.received (some engine) .none = some r ∧
      engine.Hashed r := by
  have hn : Request.lengthFromPromptTokenIdsOrEmbeds request.received.promptTokenIds
      request.received.promptEmbeds = some tokenIds.length := by
    simp [EngineCoreRequest.received, h.prompt, h.noEmbeds,
      Request.lengthFromPromptTokenIdsOrEmbeds]
  have hsorted := h.featuresSorted
  refine ⟨{ request.unhashed _ with
    blockHashes := engine.hashList (request.unhashed tokenIds) }, ?_, ?_, hsorted, rfl⟩
  · have hgiven : (Request.unhashed request.received (some hashes) tokenIds.length).blockHashes <+:
        engine.hashList (Request.unhashed request.received (some hashes) tokenIds.length) := by
      rw [hown]
      exact prefix_rfl
    rw [Request.fromEngineCoreRequest, hn]
    exact engine.updateBlockHashes_eq hsorted hgiven
  · rw [Request.fromEngineCoreRequest, hn]
    exact engine.updateBlockHashes_eq hsorted nil_prefix

/-- **The frontend hashes a prompt as the engine would.** For a request `hash_request` accepts,
with a hasher set up from the engine's config: block by block it keys the tokens and extra keys the
engine's hasher passes to the hash function, and as many hashes come out as the engine counts. If
the engine encodes each of these keys to the bytes the frontend writes, then they are the engine's,
parents included, and a request built from the frontend's hashes goes through any batches of
output tokens exactly as one whose prompt the engine hashed. -/
theorem hashRequest_eq_engine (engine : BlockHasher) (hashAlgo : String)
    (hasher : PromptBlockHasher)
    (hnew : PromptBlockHasher.new (engine.prefixHashConfig hashAlgo) = some hasher)
    (request : EngineCoreRequest) (log : List (HashKey × BlockHash))
    (hlog : hasher.hashRequestLogged engine.sha256 request = some log) :
    ∃ tokenIds keys, request.promptTokenIds = some tokenIds ∧
      engine.requestBlockKeys (request.unhashed tokenIds) = some keys ∧
      log.map (fun entry => entry.1.toBlockKey.content) = keys.map BlockKey.content ∧
      hasher.hashRequest engine.sha256 request = some (log.map Prod.snd) ∧
      frontendBlockHashes request.received.promptTokenIds (some (log.map Prod.snd))
        (some (engine.prefixHashConfig hashAlgo)) = some (log.map Prod.snd) ∧
      ∀ dumps, WritesAs hasher.encoding engine dumps (log.map Prod.fst) →
        log.map (fun entry => entry.1.toBlockKey) = keys ∧ ∀ batches, ∃ r,
          (Request.fromEngineCoreRequest request.received (some engine)
            (some (log.map Prod.snd))).bind (·.appendAll engine batches) = some r ∧
          (Request.fromEngineCoreRequest request.received (some engine) .none).bind
            (·.appendAll engine batches) = some r := by
  have hc := Configured.of_new hnew
  obtain ⟨tokenIds, h, -, hprompt⟩ := hashRequestLogged_cases hlog
  rw [hashPrompt, hc.blockSize, hc.lookahead, hc.noneHash, ← BlockHasher.numHashable] at hprompt
  have hkeys := engine.requestBlockKeys_eq h.featuresSorted rfl
  rw [Request.numTokens, h.allTokenIds, length_map] at hkeys
  have hcontent := hashBlocks_content h hc hprompt
  have hlen : (log.map Prod.snd).length = engine.numHashable tokenIds.length := by
    simpa using congrArg length hcontent
  refine ⟨tokenIds, _, h.prompt, hkeys, ?_, by rw [hashRequest, hlog, map_some],
    frontendBlockHashes_hashPrompt h hlen, fun dumps hw => ?_⟩
  · rw [hcontent, BlockHasher.keysFrom_content]
  · obtain ⟨hsame, hhashes⟩ := hashBlocks_keys h hc
      (fun p hp => absurd hp (Option.not_mem_none p)) hprompt hw
    -- the engine's own hashes are the digests of these keys
    have hown : log.map Prod.snd = engine.hashList (request.unhashed tokenIds) := by
      have hlist := engine.requestBlockHasher_eq_map_keys (request.unhashed tokenIds)
      rw [show engine.requestBlockHasher (request.unhashed tokenIds) = _ from
        engine.requestBlockHasher_nil h.featuresSorted, hkeys] at hlist
      rw [Option.some.inj hlist, ← hsame, map_map]
      exact map_congr_left hhashes
    obtain ⟨r, hgiven, halone, hhashed⟩ := fromEngineCoreRequest_hashes h hown
    refine ⟨hsame, fun batches => ?_⟩
    obtain ⟨r', hr', -⟩ := Request.appendAll_hashed hhashed batches
    exact ⟨r', by rw [hgiven, bind_some, hr'], by rw [halone, bind_some, hr']⟩

end PromptBlockHasher

/-! ### An engine that encodes in CBOR -/

mutual

/-- Canonical CBOR of a Python object. -/
def cborDumps : PyVal → List UInt8
  | .none => [CBOR_NULL]
  | .int i =>
    if 0 ≤ i then writeCborHead 0x00 i.toNat else writeCborHead 0x20 (-i - 1).toNat
  | .str s => writeCborHead CBOR_TEXT (asBytes s).length ++ asBytes s
  | .bytes b => writeCborHead CBOR_BYTES b.length ++ b
  | .tuple xs => writeCborHead CBOR_ARRAY xs.length ++ cborDumpsAll xs

/-- The items of an array, one after the other. -/
def cborDumpsAll : List PyVal → List UInt8
  | [] => []
  | x :: xs => cborDumps x ++ cborDumpsAll xs

end

private theorem cborDumps_tokenId {token : UInt32} :
    cborDumps (.int (tokenId token)) = writeCborHead 0x00 token.toNat := by
  have hpos : 0 ≤ tokenId token := Int.natCast_nonneg _
  rw [cborDumps, if_pos hpos, tokenId, Int.toNat_natCast]

private theorem length_toPyVals (items : List ExtraKey) :
    (ExtraKey.toPyVals items).length = items.length := by
  induction items with
  | nil => rfl
  | cons item items ih => simp [ExtraKey.toPyVals, ih]

mutual

private theorem cborDumps_toPyVal : ∀ key : ExtraKey, cborDumps key.toPyVal = writeCborValue key
  | .none => rfl
  | .int value => cborDumps_tokenId
  | .str _ => rfl
  | .tuple items => by
    rw [ExtraKey.toPyVal, cborDumps, writeCborValue, length_toPyVals, cborDumpsAll_toPyVals items]

/-- The items of a tuple, in CBOR. -/
theorem cborDumpsAll_toPyVals :
    ∀ items : List ExtraKey, cborDumpsAll (ExtraKey.toPyVals items) = writeCborValues items
  | [] => rfl
  | item :: items => by
    rw [ExtraKey.toPyVals, cborDumpsAll, writeCborValues, cborDumps_toPyVal item,
      cborDumpsAll_toPyVals items]

end

private theorem cborDumpsAll_tokens (tokens : List UInt32) : cborDumpsAll ((tokens.map tokenId).map .int) =
      tokens.flatMap fun token => writeCborHead 0x00 token.toNat := by
  induction tokens with
  | nil => rfl
  | cons token tokens ih =>
    rw [map_cons, map_cons, cborDumpsAll, cborDumps_tokenId, ih, flatMap_cons]

/-- The frontend writes canonical CBOR. -/
private theorem encodeCborKey_eq_cborDumps {key : HashKey} :
    cborDumps key.toBlockKey.toPyVal = encodeCborKey key := by
  have hhead : writeCborHead CBOR_ARRAY 3 = [CBOR_ARRAY ||| 3] := rfl
  simp only [HashKey.toBlockKey, BlockKey.toPyVal, cborDumps, cborDumpsAll, encodeCborKey,
    length_map, cborDumpsAll_tokens, cborDumps_toPyVal, length_cons, length_nil,
    hhead, append_assoc, append_nil]

/-- CBOR meets the assumption for every key. -/
private theorem writesAs_cborDumps {engine : BlockHasher}
    (hdigest : ∀ v, engine.cachingHashFn v = engine.sha256 (cborDumps v))
    (hne : ∀ bytes, engine.sha256 bytes ≠ []) (keys : List HashKey) :
    WritesAs .cbor engine cborDumps keys where
  digest := hdigest
  encode _ _ _ h := by
    obtain rfl := Option.some.inj h
    exact encodeCborKey_eq_cborDumps
  sha256_ne_nil := hne

/-! ### An engine that pickles -/

/-- The strings of which a key can hold one object twice: those CPython shares, and the literals
the engine builds keys with. -/
def oneObject (s : String) : Bool := ["lora", "cache_salt"].contains s || sharedByCpython s

/-- An int as CPython's pickler writes it. Beyond 32 bits the ints of a key take five bytes. -/
def pickleInt (i : ℤ) : List UInt8 :=
  if 0 ≤ i ∧ i ≤ 0xff then 0x4b :: toLeBytes 1 i.toNat
  else if 0 ≤ i ∧ i ≤ 0xffff then 0x4d :: toLeBytes 2 i.toNat
  else if -0x80000000 ≤ i ∧ i ≤ 0x7fffffff then 0x4a :: toLeBytes 4 (i % 0x100000000).toNat
  else [0x8a, 5] ++ toLeBytes 5 (i % 0x10000000000).toNat

mutual

/-- What CPython's pickler writes for an object, and its memo afterwards: the objects written so
far, of which only strings can come again. Such a string is written as its place in the memo. -/
def pickleSave : PyVal → List (Option String) → List UInt8 × List (Option String)
  | .none, memo => ([0x4e], memo)
  | .int i, memo => (pickleInt i, memo)
  | .str s, memo =>
    if oneObject s ∧ some s ∈ memo then ([0x68, UInt8.ofNat (memo.idxOf (some s))], memo)
    else
      let len := (asBytes s).length
      ((if len < 2 ^ 8 then [0x8c, UInt8.ofNat len] else 0x58 :: toLeBytes 4 len) ++ asBytes s ++
        [MEMOIZE], memo ++ [some s])
  | .bytes b, memo =>
    ((if b.length < 2 ^ 8 then [0x43, UInt8.ofNat b.length] else 0x42 :: toLeBytes 4 b.length) ++ b ++
      [MEMOIZE], memo ++ [.none])
  | .tuple [], memo => ([0x29], memo)
  | .tuple (x :: xs), memo =>
    let (body, memo) := pickleSaveAll (x :: xs) memo
    ((if xs.length + 1 > 3 then [0x28] else []) ++ body ++ [tupleOpcode (xs.length + 1), MEMOIZE],
      memo ++ [.none])

/-- The items of a tuple, one after the other. -/
def pickleSaveAll : List PyVal → List (Option String) → List UInt8 × List (Option String)
  | [], memo => ([], memo)
  | x :: xs, memo =>
    let (head, memo) := pickleSave x memo
    let (tail, memo) := pickleSaveAll xs memo
    (head ++ tail, memo)

end

/-- `pickle.dumps(key, protocol=5)` for a key that fits in one frame. -/
def pickleDumps (key : PyVal) : List UInt8 :=
  let frame := (pickleSave key []).1 ++ [0x2e]
  [0x80, 0x05, 0x95] ++ toLeBytes 8 frame.length ++ frame

mutual

/-- The strings of an extra key, in the order in which they are written. -/
def ExtraKey.strings : ExtraKey → List String
  | .none => []
  | .int _ => []
  | .str s => [s]
  | .tuple items => ExtraKey.stringsAll items

/-- The strings of the items of a tuple. -/
def ExtraKey.stringsAll : List ExtraKey → List String
  | [] => []
  | item :: items => item.strings ++ ExtraKey.stringsAll items

end

/-- No object of the strings comes again, nor is it in the memo. -/
structure NoneAgain (strings : List String) (memo : List (Option String)) : Prop where
  pairwise : strings.Pairwise fun s t => oneObject s = true → s ≠ t
  fresh : ∀ s ∈ strings, oneObject s = true → some s ∉ memo

private theorem NoneAgain.left {xs ys : List String} {memo : List (Option String)}
    (h : NoneAgain (xs ++ ys) memo) : NoneAgain xs memo :=
  ⟨(pairwise_append.mp h.pairwise).1, fun s hs => h.fresh s (mem_append_left _ hs)⟩

/-- Writing the first strings leaves the others new. -/
private theorem NoneAgain.right {xs ys : List String} {memo memo' : List (Option String)}
    (h : NoneAgain (xs ++ ys) memo) (hmemo : ∀ s, some s ∈ memo' → some s ∈ memo ∨ s ∈ xs) :
    NoneAgain ys memo' := by
  obtain ⟨-, hys, hcross⟩ := pairwise_append.mp h.pairwise
  refine ⟨hys, fun s hs hone hmem => ?_⟩
  rcases hmemo s hmem with hold | hxs
  · exact h.fresh s (mem_append_right _ hs) hone hold
  · exact hcross s hxs s hs hone rfl

private theorem pickleInt_tokenId {token : UInt32} {bytes : List UInt8}
    (h : writePickleInt token = some bytes) : pickleInt (tokenId token) = bytes := by
  simp only [writePickleInt] at h
  rw [pickleInt, tokenId]
  split_ifs at h with h1 h2 h3 <;> obtain rfl := Option.some.inj h
  · rw [if_pos (by omega), Int.toNat_natCast]
  · rw [if_neg (by omega), if_pos (by omega), Int.toNat_natCast]
  · rw [if_neg (by omega), if_neg (by omega), if_pos (by omega), Int.emod_eq_of_lt (by omega)
      (by omega), Int.toNat_natCast]

private theorem pickleSaveAll_tokens (memo : List (Option String)) {tokens : List UInt32}
    {words : List (List UInt8)} (h : tokens.mapM writePickleInt = some words) :
    pickleSaveAll ((tokens.map tokenId).map .int) memo = (words.flatten, memo) := by
  induction tokens generalizing words with
  | nil =>
    obtain rfl := Option.some.inj h
    rfl
  | cons token tokens ih =>
    rw [mapM_cons] at h
    obtain ⟨word, hword, h⟩ := bind_eq_some_iff.mp h
    obtain ⟨rest, hrest, h⟩ := bind_eq_some_iff.mp h
    obtain rfl := Option.some.inj h
    simp only [map_cons, pickleSaveAll, pickleSave, pickleInt_tokenId hword, ih hrest, flatten_cons]

/-- A tuple is written as `write_pickle_tuple` does. -/
private theorem pickleSave_tuple {xs : List PyVal} {memo memo' : List (Option String)}
    {body bytes : List UInt8} (hbody : pickleSaveAll xs memo = (body, memo'))
    (h : writePickleTuple xs.length (some body) = some bytes) :
    ∃ memo'', pickleSave (.tuple xs) memo = (bytes, memo'') ∧
      ∀ s, some s ∈ memo'' → some s ∈ memo' := by
  cases xs with
  | nil =>
    obtain ⟨-, rfl⟩ := Prod.mk.inj hbody
    obtain rfl := Option.some.inj h
    exact ⟨memo, rfl, fun _ hs => hs⟩
  | cons x xs =>
    rw [writePickleTuple, if_neg (by simp)] at h
    obtain rfl := Option.some.inj h
    refine ⟨memo' ++ [.none], ?_, fun s hs => by simpa using hs⟩
    rw [pickleSave, hbody]
    rfl

mutual

/-- An extra key in which no object comes again is written as the frontend does. -/
private theorem pickleSave_toPyVal : ∀ (key : ExtraKey) (memo : List (Option String)) (bytes : List UInt8),
    writePickleValue key = some bytes → NoneAgain key.strings memo →
      ∃ memo', pickleSave key.toPyVal memo = (bytes, memo') ∧
        ∀ s, some s ∈ memo' → some s ∈ memo ∨ s ∈ key.strings
  | .none, memo, _, h, _ => ⟨memo, by rw [← Option.some.inj h]; rfl, fun _ hs => .inl hs⟩
  | .int value, memo, _, h, _ => ⟨memo, by
      rw [ExtraKey.toPyVal, pickleSave, pickleInt_tokenId h], fun _ hs => .inl hs⟩
  | .str s, memo, bytes, h, hnone => by
    have hnew : ¬(oneObject s = true ∧ some s ∈ memo) := fun hand =>
      hnone.fresh s mem_cons_self hand.1 hand.2
    refine ⟨memo ++ [some s], ?_, fun t ht => ?_⟩
    · rw [ExtraKey.toPyVal, pickleSave, if_neg hnew]
      rw [writePickleValue] at h
      dsimp only at h ⊢
      split_ifs at h with hshort hlong <;> obtain rfl := Option.some.inj h
      · rw [if_pos hshort]
      · rw [if_neg hshort]
    · simpa [ExtraKey.strings] using ht
  | .tuple items, memo, bytes, h, hnone => by
    rw [writePickleValue, writePickleTuple] at h
    have hlen := length_toPyVals items
    rw [ExtraKey.toPyVal]
    by_cases hzero : items.length = 0
    · rw [if_pos hzero] at h
      obtain rfl : items = [] := eq_nil_of_length_eq_zero hzero
      obtain rfl := Option.some.inj h
      exact ⟨memo, rfl, fun _ hs => .inl hs⟩
    · rw [if_neg hzero] at h
      obtain ⟨body, hbody, h⟩ := bind_eq_some_iff.mp h
      obtain ⟨memo', hsave, hmemo⟩ := pickleSaveAll_toPyVals items memo body hbody hnone
      have hwrite : writePickleTuple (ExtraKey.toPyVals items).length (some body) = some bytes := by
        rw [writePickleTuple, hlen, if_neg hzero]
        exact h
      obtain ⟨memo'', htuple, hmemo'⟩ := pickleSave_tuple hsave hwrite
      exact ⟨memo'', htuple, fun s hs => hmemo s (hmemo' s hs)⟩

/-- The items of a tuple are written as the frontend does. -/
theorem pickleSaveAll_toPyVals : ∀ (items : List ExtraKey) (memo : List (Option String))
    (bytes : List UInt8), writePickleValues items = some bytes →
      NoneAgain (ExtraKey.stringsAll items) memo →
      ∃ memo', pickleSaveAll (ExtraKey.toPyVals items) memo = (bytes, memo') ∧
        ∀ s, some s ∈ memo' → some s ∈ memo ∨ s ∈ ExtraKey.stringsAll items
  | [], memo, _, h, _ => ⟨memo, by rw [← Option.some.inj h]; rfl, fun _ hs => .inl hs⟩
  | item :: items, memo, bytes, h, hnone => by
    obtain ⟨head, hhead, h⟩ := bind_eq_some_iff.mp h
    obtain ⟨tail, htail, h⟩ := bind_eq_some_iff.mp h
    obtain rfl := Option.some.inj h
    obtain ⟨memo1, hsave1, hmemo1⟩ := pickleSave_toPyVal item memo head hhead hnone.left
    obtain ⟨memo2, hsave2, hmemo2⟩ := pickleSaveAll_toPyVals items memo1 tail htail
      (hnone.right hmemo1)
    refine ⟨memo2, ?_, fun s hs => ?_⟩
    · simp only [ExtraKey.toPyVals, pickleSaveAll, hsave1, hsave2]
    · rw [ExtraKey.stringsAll, mem_append]
      rcases hmemo2 s hs with hold | hnew
      · exact (hmemo1 s hold).imp_right .inl
      · exact .inr (.inr hnew)

end

/-- A tuple that is written has items that are. -/
private theorem mapM_of_writePickleTuple {tokens : List UInt32} {bytes : List UInt8}
    (h : writePickleTuple tokens.length ((tokens.mapM writePickleInt).map flatten) = some bytes) :
    ∃ words, tokens.mapM writePickleInt = some words := by
  rcases hwords : tokens.mapM writePickleInt with _ | words
  · rw [hwords, writePickleTuple] at h
    by_cases hzero : tokens.length = 0
    · rw [eq_nil_of_length_eq_zero hzero] at hwords
      cases hwords
    · rw [if_neg hzero] at h
      cases h
  · exact ⟨words, rfl⟩

/-- A key in whose extra keys no object comes again is pickled as the frontend does. -/
private theorem encodePickleKey_eq_pickleDumps {key : HashKey} {bytes : List UInt8}
    (h : encodePickleKey key = some bytes) (hnone : NoneAgain key.extraKeys.strings []) :
    pickleDumps key.toBlockKey.toPyVal = bytes := by
  rw [encodePickleKey] at h
  split_ifs at h with hshort
  swap
  · cases h
  rw [Option.bind_eq_bind, bind_some] at h
  obtain ⟨block, hblock, h⟩ := bind_eq_some_iff.mp h
  obtain ⟨extraKeys, hextra, h⟩ := bind_eq_some_iff.mp h
  dsimp only at h
  split_ifs at h with hframe
  obtain rfl := Option.some.inj h
  obtain ⟨words, hwords⟩ := mapM_of_writePickleTuple hblock
  rw [hwords, map_some] at hblock
  have hwrite : writePickleTuple (((key.block.map tokenId).map PyVal.int).length)
      (some words.flatten) = some block := by rwa [length_map, length_map]
  obtain ⟨memo1, hsave1, hmemo1⟩ :=
    pickleSave_tuple (pickleSaveAll_tokens [.none] hwords) hwrite
  have hnone1 : NoneAgain key.extraKeys.strings memo1 :=
    ⟨hnone.pairwise, fun s _ _ hs => by simpa using hmemo1 s hs⟩
  obtain ⟨memo2, hsave2, -⟩ := pickleSave_toPyVal key.extraKeys memo1 extraKeys hextra hnone1
  have hbytes : pickleSave (.bytes key.parent) [] =
      ([0x43, UInt8.ofNat key.parent.length] ++ key.parent ++ [MEMOIZE], [.none]) := by
    rw [pickleSave, if_pos hshort]
    rfl
  have hsave : (pickleSave key.toBlockKey.toPyVal []).1 =
      [0x43, UInt8.ofNat key.parent.length] ++ key.parent ++ [MEMOIZE] ++ block ++ extraKeys ++
        [0x87, MEMOIZE] := by
    rw [HashKey.toBlockKey, BlockKey.toPyVal, pickleSave]
    simp only [pickleSaveAll, hbytes, hsave1, hsave2, append_assoc, append_nil]
    rfl
  have hframe' : (pickleSave key.toBlockKey.toPyVal []).1 ++ [0x2e] =
      [0x43, UInt8.ofNat key.parent.length] ++ key.parent ++ [MEMOIZE] ++ block ++ extraKeys ++
        [0x87, MEMOIZE, 0x2e] := by
    rw [hsave, append_assoc _ [0x87, MEMOIZE]]
    rfl
  rw [pickleDumps, hframe']

namespace PromptBlockHasher

variable {hasher : PromptBlockHasher} {sha256 : List UInt8 → List UInt8}
  {request : EngineCoreRequest} {log : List (HashKey × BlockHash)}

private theorem hashBlocks_mem {tokenIds : List UInt32} {keys : RequestExtraKeys} {n i : ℕ}
    {parent : BlockHash} (hlog : hasher.hashBlocks sha256 tokenIds keys n i parent = some log)
    {entry : HashKey × BlockHash} (hentry : entry ∈ log) :
    ∃ index parent, entry.1 = hasher.promptKey tokenIds keys index parent := by
  induction n generalizing i parent log with
  | zero =>
    obtain rfl := Option.some.inj hlog
    cases hentry
  | succ n ih =>
    obtain ⟨bytes, -, hlog⟩ := bind_eq_some_iff.mp hlog
    obtain ⟨rest, hrest, hlog⟩ := bind_eq_some_iff.mp hlog
    obtain rfl := Option.some.inj hlog
    rcases mem_cons.mp hentry with rfl | hentry
    · exact ⟨i, parent, rfl⟩
    · exact ih hrest hentry

/-- The strings of a key are those of the request's own extra keys. -/
private theorem strings_promptKey {tokenIds : List UInt32} {keys : RequestExtraKeys} {index : ℕ}
    {parent : BlockHash} : (hasher.promptKey tokenIds keys index parent).extraKeys.strings =
      (keys.forBlock (index * hasher.blockSize)).strings := by
  have hints (tokens : List UInt32) : ExtraKey.stringsAll (tokens.map .int) = [] := by
    induction tokens with
    | nil => rfl
    | cons token tokens ih => simp [ExtraKey.stringsAll, ExtraKey.strings, ih]
  rw [promptKey]
  dsimp only
  split_ifs
  · rw [ExtraKey.strings, ExtraKey.stringsAll, hints, append_nil]
  · rfl

/-- If no object can come again in the strings of a request, none does in its keys. -/
private theorem noneAgain_forBlock (hshare : maySharePickledObjects (strings request) = false) (start : ℕ) :
    NoneAgain ((extraKeysOf request).forBlock start).strings [] := by
  refine ⟨?_, fun _ _ _ => not_mem_nil⟩
  rw [strings] at hshare
  rw [RequestExtraKeys.forBlock, extraKeysOf]
  generalize saltOf request = salt at hshare ⊢
  generalize request.loraRequest = lora at hshare ⊢
  rcases lora with _ | lora <;> rcases salt with _ | salt <;> by_cases hstart : start = 0 <;>
    simp [hstart, maySharePickledObjects, ExtraKey.strings, ExtraKey.stringsAll, oneObject,
      Option.filter] at hshare ⊢ <;>
    grind

/-- **The guard is enough for pickle.** An engine that digests what the pickler writes encodes the
keys of an accepted request as the frontend does. -/
theorem writesAs_pickleDumps {engine : BlockHasher}
    (hdigest : ∀ v, engine.cachingHashFn v = engine.sha256 (pickleDumps v))
    (hne : ∀ bytes, engine.sha256 bytes ≠ []) (hpickle : hasher.encoding = .pickle)
    (hlog : hasher.hashRequestLogged sha256 request = some log) :
    WritesAs hasher.encoding engine pickleDumps (log.map Prod.fst) where
  digest := hdigest
  encode key hkey bytes hbytes := by
    obtain ⟨entry, hentry, rfl⟩ := mem_map.mp hkey
    obtain ⟨tokenIds, -, hshare, hprompt⟩ := hashRequestLogged_cases hlog
    obtain ⟨index, parent, heq⟩ := hashBlocks_mem hprompt hentry
    rw [hpickle] at hbytes
    refine encodePickleKey_eq_pickleDumps hbytes ?_
    rw [heq, strings_promptKey]
    exact noneAgain_forBlock (hshare hpickle) _
  sha256_ne_nil := hne

end PromptBlockHasher

/-- An engine with a checksum in place of SHA-256, and blocks of two tokens. -/
def checksumEngine (dumps : PyVal → List UInt8) : BlockHasher where
  hashBlockSize := 2
  cachingHashFn := fun v => [UInt8.ofNat ((dumps v).map UInt8.toNat).sum]
  numHashLookaheadTokens := 1
  sha256 := fun bytes => [UInt8.ofNat (bytes.map UInt8.toNat).sum]
  hashBlockSize_pos := Nat.two_pos

/-- A salted prompt of six tokens under a LoRA adapter. -/
def saltedRequest : EngineCoreRequest where
  promptTokenIds := some [5, 6, 7, 8, 9, 300]
  loraRequest := some ⟨"adapter", 1, "/adapters/a"⟩
  cacheSalt := some "pepper"

/-- The frontend hashes two blocks of the salted prompt, and the engine carries on from them. -/
def CarriesOn (engine : BlockHasher) (hashAlgo : String) : Prop :=
  ∃ hasher log, PromptBlockHasher.new (engine.prefixHashConfig hashAlgo) = some hasher ∧
    hasher.hashRequestLogged engine.sha256 saltedRequest = some log ∧ log.length = 2 ∧
    ∀ batches, ∃ r, (Request.fromEngineCoreRequest saltedRequest.received (some engine)
        (some (log.map Prod.snd))).bind (·.appendAll engine batches) = some r ∧
      (Request.fromEngineCoreRequest saltedRequest.received (some engine) .none).bind
        (·.appendAll engine batches) = some r

/-- A salted request is hashed as the engine does, with both encodings. -/
theorem hashRequest_eq_engine_salted : CarriesOn (checksumEngine pickleDumps) "sha256" ∧
    CarriesOn (checksumEngine cborDumps) "sha256_cbor" := by
  have hne : ∀ dumps bytes, (checksumEngine dumps).sha256 bytes ≠ [] := fun _ _ => cons_ne_nil _ _
  constructor
  · refine ⟨_, _, rfl, rfl, rfl, ?_⟩
    obtain ⟨_, _, -, -, -, -, -, hsame⟩ := PromptBlockHasher.hashRequest_eq_engine
      (checksumEngine pickleDumps) "sha256" _ rfl saltedRequest _ rfl
    have hlog : (PromptBlockHasher.mk .pickle 2 (checksumEngine pickleDumps).noneHash
        1).hashRequestLogged (checksumEngine pickleDumps).sha256 saltedRequest = some _ := rfl
    exact (hsame _ (PromptBlockHasher.writesAs_pickleDumps (fun _ => rfl) (hne _) rfl hlog)).2
  · refine ⟨_, _, rfl, rfl, rfl, ?_⟩
    obtain ⟨_, _, -, -, -, -, -, hsame⟩ := PromptBlockHasher.hashRequest_eq_engine
      (checksumEngine cborDumps) "sha256_cbor" _ rfl saltedRequest _ rfl
    exact (hsame _ (writesAs_cborDumps (fun _ => rfl) (hne _) _)).2

end Frontend

end Sonar
