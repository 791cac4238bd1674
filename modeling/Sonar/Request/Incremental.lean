import Sonar.Request.HashSpec

/-!
# Hashing a growing request

A request hashes its prompt when it is built and hashes on after every batch of output tokens.
The invariant of that process is `Hashed`: the stored hashes are the hash list of the current
tokens. It holds after construction and is kept by every append, however the generated tokens
are split into batches.

That the list only grows rests on locality: the content of a block is a function of the tokens,
items and keys **below the end of its window** (`SameBelow`), so appending tokens leaves the
content of every block hashed so far as it was (`content_eq_of_sameBelow`). The same notion
decides which hashes survive when a streaming session discards tokens.
-/

namespace Sonar

open Lib List

/-- Two requests agree on everything a hash can read below token position `pos`. -/
structure SameBelow (r r' : Request) (pos : ℕ) : Prop where
  tokens : r.allTokenIds.take pos = r'.allTokenIds.take pos
  features : r.mmFeatures.filter (fun f => f.mmPosition.offset < pos) =
    r'.mmFeatures.filter (fun f => f.mmPosition.offset < pos)
  lora : r.loraRequest = r'.loraRequest
  salt : r.cacheSalt = r'.cacheSalt
  embeds : r.promptEmbeds = r'.promptEmbeds

/-- The keys of a window come from the items that start before its end. -/
private theorem mmKeys_filter {start stop pos : ℕ} (hle : stop ≤ pos) {fs : List MultiModalFeatureSpec} :
    mmKeys start stop (fs.filter fun f => f.mmPosition.offset < pos) = mmKeys start stop fs := by
  have hboth : ∀ f : MultiModalFeatureSpec, (decide (InWindow start stop f) &&
      decide (f.mmPosition.offset < pos)) = decide (InWindow start stop f) := by
    intro f
    rw [Bool.and_eq_left_iff_imp, decide_eq_true_iff, decide_eq_true_iff]
    exact fun hw => hw.2.trans_le hle
  rw [mmKeys, mmKeys]
  simp [hboth]

private theorem windowExtraKeys_eq_of_sameBelow (sha256 : List UInt8 → List UInt8) {r r' : Request}
    {start stop pos : ℕ} (h : SameBelow r r' pos) (hle : stop ≤ pos) :
    windowExtraKeys sha256 r start stop = windowExtraKeys sha256 r' start stop := by
  have hmm : mmKeys start stop r.mmFeatures = mmKeys start stop r'.mmFeatures := by
    rw [← mmKeys_filter hle, h.features, mmKeys_filter hle]
  simp [windowExtraKeys, genLoraExtraHashKeys, cacheSaltKeys, genPromptEmbedsExtraHashKeys,
    h.lora, h.salt, h.embeds, hmm]

namespace BlockHasher

variable (hasher : BlockHasher)

/-- **Locality.** Requests that agree below the end of a block's window have the same content
there. -/
theorem content_eq_of_sameBelow {r r' : Request} {i pos : ℕ} (h : SameBelow r r' pos)
    (hle : i * hasher.hashBlockSize + hasher.hashBlockSize + hasher.numHashLookaheadTokens ≤ pos) :
    hasher.content r i = hasher.content r' i := by
  have htok : ∀ start stop, stop ≤ pos →
      slice r.allTokenIds start stop = slice r'.allTokenIds start stop :=
    fun _ _ hstop => slice_eq_of_take_eq h.tokens hstop
  have hkeys : ∀ start stop, stop ≤ pos →
      windowExtraKeys hasher.sha256 r start stop = windowExtraKeys hasher.sha256 r' start stop :=
    fun _ _ hstop => windowExtraKeys_eq_of_sameBelow _ h hstop
  rw [content, content, blockKeys, blockKeys, htok _ _ (by omega), htok _ _ hle,
    hkeys _ _ (by omega), hkeys _ _ hle]

/-- The hashes of the blocks whose windows end at or before `pos`. -/
theorem chainHashes_eq_of_sameBelow {r r' : Request} {pos n : ℕ} (h : SameBelow r r' pos)
    (hn : n ≤ hasher.numHashable pos) :
    chainHashes hasher.chainStep hasher.noneHash (hasher.content r) n =
      chainHashes hasher.chainStep hasher.noneHash (hasher.content r') n := by
  refine map_congr_left fun i hi => chainHash_congr fun j hj => ?_
  have hi' : i < n := mem_range.mp hi
  exact hasher.content_eq_of_sameBelow h (hasher.lt_numHashable.mp (by omega))

/-- The stored hashes are the hash list of the current tokens, and the items are in order. -/
structure Hashed (request : Request) : Prop where
  sorted : request.FeaturesSorted
  blockHashes_eq : request.blockHashes = hasher.hashList request

/-- From any prefix of the hash list, `update_block_hashes` completes it. -/
theorem updateBlockHashes_eq {request : Request} (hs : request.FeaturesSorted)
    (hpre : request.blockHashes <+: hasher.hashList request) :
    request.updateBlockHashes (some hasher) =
      some { request with blockHashes := hasher.hashList request } := by
  have hcat : request.blockHashes ++ (hasher.hashList request).drop request.blockHashes.length =
      hasher.hashList request := by
    conv_rhs => rw [← take_append_drop request.blockHashes.length (hasher.hashList request)]
    rw [← prefix_iff_eq_take.mp hpre]
  simp [Request.updateBlockHashes, hasher.requestBlockHasher_eq hs hpre, hcat]

end BlockHasher

/-! ### A hasher to evaluate -/

mutual

/-- The sum of the integers and bytes inside an object. -/
def PyVal.total : PyVal → ℤ
  | .none => 0
  | .int i => i
  | .str s => s.length
  | .bytes b => (b.map fun x => (x.toNat : ℤ)).sum
  | .tuple xs => PyVal.totalList xs

/-- `PyVal.total` over a list. -/
def PyVal.totalList : List PyVal → ℤ
  | [] => 0
  | x :: xs => PyVal.total x + PyVal.totalList xs

end

/-- A checksum in place of the hash function, for runs on fixed inputs: blocks of two tokens and
`lookahead` tokens of lookahead. -/
def checksumHasher (lookahead : ℕ) : BlockHasher where
  hashBlockSize := 2
  cachingHashFn := fun v => [UInt8.ofNat (v.total.toNat + 1)]
  numHashLookaheadTokens := lookahead
  sha256 := id
  hashBlockSize_pos := Nat.two_pos

/-! ### Runs of appends -/

namespace Request

/-- Successive calls of `append_output_token_ids`. -/
def appendAll (hasher : BlockHasher) (request : Request) (batches : List (ℤ ⊕ List ℤ)) :
    Option Request :=
  batches.foldlM (appendOutputTokenIds (some hasher)) request

/-- Step lemma: an append succeeds, keeps the invariant and extends the hashes. -/
theorem appendOutputTokenIds_hashed {hasher : BlockHasher} {request : Request}
    (h : hasher.Hashed request) (batch : ℤ ⊕ List ℤ) :
    ∃ r, request.appendOutputTokenIds (some hasher) batch = some r ∧ hasher.Hashed r ∧
      request.blockHashes <+: r.blockHashes ∧
      r.allTokenIds = request.allTokenIds ++ batchTokens batch := by
  have hsorted : (request.extend (batchTokens batch)).FeaturesSorted := h.sorted
  have hsame : SameBelow request (request.extend (batchTokens batch)) request.numTokens :=
    ⟨by simp [extend, numTokens], rfl, rfl, rfl, rfl⟩
  have hpre : request.blockHashes <+: hasher.hashList (request.extend (batchTokens batch)) := by
    rw [h.blockHashes_eq, BlockHasher.hashList, hasher.chainHashes_eq_of_sameBelow hsame le_rfl]
    exact chainHashes_isPrefix (hasher.numHashable_mono (by simp [extend, numTokens]))
  exact ⟨_, hasher.updateBlockHashes_eq hsorted hpre, ⟨h.sorted, rfl⟩, hpre, rfl⟩

/-- Run lemma: so does any number of appends. -/
theorem appendAll_hashed {hasher : BlockHasher} {request : Request} (h : hasher.Hashed request)
    (batches : List (ℤ ⊕ List ℤ)) :
    ∃ r, request.appendAll hasher batches = some r ∧ hasher.Hashed r ∧
      request.blockHashes <+: r.blockHashes ∧
      r.allTokenIds = request.allTokenIds ++ batches.flatMap batchTokens := by
  induction batches generalizing request with
  | nil => exact ⟨request, rfl, h, prefix_rfl, by simp⟩
  | cons batch batches ih =>
    obtain ⟨r, hr, hhashed, hpre, htok⟩ := appendOutputTokenIds_hashed h batch
    obtain ⟨r', hr', hhashed', hpre', htok'⟩ := ih hhashed
    refine ⟨r', ?_, hhashed', hpre.trans hpre', ?_⟩
    · rw [appendAll, foldlM_cons, hr]
      exact hr'
    · rw [htok', htok, flatMap_cons, append_assoc]

/-- A request built from a prompt that has a length starts out hashed. -/
private theorem fromEngineCoreRequest_hashed (hasher : BlockHasher) {request : EngineCoreRequest}
    (hs : (request.mmFeatures.getD []).Pairwise fun f g => f.endPos ≤ g.mmPosition.offset)
    {n : ℕ} (hn : lengthFromPromptTokenIdsOrEmbeds request.promptTokenIds request.promptEmbeds =
      some n) : ∃ r, fromEngineCoreRequest request (some hasher) .none = some r ∧ hasher.Hashed r ∧
      r.allTokenIds = initialTokenIds request.promptTokenIds request.promptIsTokenIds n := by
  have hsorted : (unhashed request .none n).FeaturesSorted := hs
  rw [fromEngineCoreRequest, hn]
  exact ⟨_, hasher.updateBlockHashes_eq hsorted nil_prefix, ⟨hs, rfl⟩, rfl⟩

/-- **Incremental hashing is hashing in one pass.** A request with a prompt can be built, and any
batches of output tokens can be appended to it. Then the stored hashes are the hash list of the
final tokens, which is also what the hasher returns for them from scratch, every hash stands for tokens that are there, and a further run
of appends keeps the hashes as a prefix. -/
theorem blockHashes_eq_onePass (hasher : BlockHasher) (request : EngineCoreRequest)
    (hs : (request.mmFeatures.getD []).Pairwise fun f g => f.endPos ≤ g.mmPosition.offset)
    (n : ℕ) (hn : lengthFromPromptTokenIdsOrEmbeds request.promptTokenIds request.promptEmbeds =
      some n) (batches more : List (ℤ ⊕ List ℤ)) :
    ∃ r0 r r', fromEngineCoreRequest request (some hasher) .none = some r0 ∧
      r0.appendAll hasher batches = some r ∧ r.appendAll hasher more = some r' ∧
      r.allTokenIds = initialTokenIds request.promptTokenIds request.promptIsTokenIds n ++
        batches.flatMap batchTokens ∧ r.blockHashes = hasher.hashList r ∧
      hasher.requestBlockHasher { r with blockHashes := [] } = some r.blockHashes ∧
      (∀ i < r.blockHashes.length,
        (i + 1) * hasher.hashBlockSize + hasher.numHashLookaheadTokens ≤ r.numTokens) ∧
      r.blockHashes <+: r'.blockHashes := by
  obtain ⟨r0, hr0, hhashed0, htok0⟩ := fromEngineCoreRequest_hashed hasher hs hn
  obtain ⟨r, hr, hhashed, -, htok⟩ := appendAll_hashed hhashed0 batches
  obtain ⟨r', hr', -, hpre, -⟩ := appendAll_hashed hhashed more
  refine ⟨r0, r, r', hr0, hr, hr', by rw [htok, htok0], hhashed.blockHashes_eq, ?_,
    fun i hi => ?_, hpre⟩
  · rw [hasher.requestBlockHasher_nil hhashed.sorted, ← hhashed.blockHashes_eq]
  · rw [hhashed.blockHashes_eq, BlockHasher.hashList, length_chainHashes, hasher.lt_numHashable] at hi
    rwa [Nat.succ_mul]

/-- A prompt of five tokens with one item, blocks of two tokens and one token of lookahead; three
more tokens arrive in two batches, then a last one. -/
theorem blockHashes_eq_onePass_two_batches : ∃ r0 r r', fromEngineCoreRequest
        { promptTokenIds := some [1, 2, 3, 4, 5], mmFeatures := some [⟨"image", 1, 2⟩] }
        (some (checksumHasher 1)) .none = some r0 ∧
      r0.appendAll (checksumHasher 1) [.inl 6, .inr [7, 8]] = some r ∧
      r.appendAll (checksumHasher 1) [.inl 9] = some r' ∧ r.allTokenIds = [1, 2, 3, 4, 5, 6, 7, 8] ∧
      r.blockHashes = (checksumHasher 1).hashList r ∧
      (checksumHasher 1).requestBlockHasher { r with blockHashes := [] } = some r.blockHashes ∧
      (∀ i < r.blockHashes.length, (i + 1) * 2 + 1 ≤ r.numTokens) ∧
      r.blockHashes <+: r'.blockHashes :=
  blockHashes_eq_onePass _
    { promptTokenIds := some [1, 2, 3, 4, 5], mmFeatures := some [⟨"image", 1, 2⟩] }
    (by decide) 5 rfl [.inl 6, .inr [7, 8]] [.inl 9]

end Request

end Sonar
