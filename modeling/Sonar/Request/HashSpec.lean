import Mathlib.Data.List.TakeDrop
import Sonar.Lib.HashChain
import Sonar.Request.BlockHasher

/-!
# What the block hasher computes

`BlockHasher.hashList` is the list of block hashes of a request **as a function of its tokens and
features alone**: a hash chain whose `i`-th content is the token slice of block `i` and the extra
keys of its window. The hasher of the source is incremental; it resumes from the hashes it has,
with a running item index that it advances block by block and rewinds for lookahead.

The central invariant is `MmIdxValid`: every item before the running index ends at or before the
next block's start, so skipping it loses no key. Each function of the hasher gets one lemma that
says it succeeds, returns the reference value and re-establishes the invariant; the loop, with the keys
it hands to the hash function kept, follows by induction on its fuel (`loggedLoop_eq`), and a call
on any prefix of `hashList` yields the rest (`requestBlockHasher_eq`).
-/

namespace Sonar

open Lib List Nat

/-! ### Slices -/

variable {α : Type*} {start stop : ℕ} {fs : List MultiModalFeatureSpec}

variable {xs : List α} {pos : ℕ} {mmFeatures : List MultiModalFeatureSpec}

private theorem slice_succ (h : start < xs.length) : slice xs start (start + 1) = [xs[start]] := by
  rw [slice, drop_take, Nat.add_sub_cancel_left, take_one]
  simp

/-- A slice in two parts. -/
theorem slice_append {mid : ℕ} (h : start ≤ mid)
    (h' : mid ≤ stop) : slice xs start stop = slice xs start mid ++ slice xs mid stop := by
  have htake : xs.take mid = (xs.take stop).take mid := by
    rw [take_take, min_eq_left h']
  rw [slice, slice, slice, htake]
  conv_lhs => rw [← take_append_drop mid (xs.take stop)]
  rcases le_total mid (xs.take stop).length with hlen | hlen
  · rw [drop_append_of_le_length (by rw [length_take]; omega)]
  · rw [drop_eq_nil_of_le hlen, append_nil, append_nil]

/-- The tokens up to the end of a slice. -/
theorem take_eq_append_slice (h : start ≤ stop) :
    xs.take stop = xs.take start ++ slice xs start stop := by
  simpa [slice] using slice_append (zero_le start) h

/-- Equal prefixes have equal slices. -/
theorem slice_eq_of_take_eq {ys : List α}
    (h : xs.take pos = ys.take pos) (hle : stop ≤ pos) : slice xs start stop = slice ys start stop := by
  have ht := congrArg (take stop) h
  rw [take_take, take_take, min_eq_left hle] at ht
  rw [slice, slice, ht]

/-! ### Extra keys of a window -/

/-- The extra key of one item, with its offset relative to the window's start. -/
def mmKey (start : ℕ) (f : MultiModalFeatureSpec) : PyVal :=
  .tuple [.str "mm", .str f.identifier, .int ((f.mmPosition.offset : ℤ) - (start : ℤ))]

/-- An item reaches into the token window `[start, stop)`. -/
def InWindow (start stop : ℕ) (f : MultiModalFeatureSpec) : Prop :=
  start < f.endPos ∧ f.mmPosition.offset < stop

instance (start stop : ℕ) (f : MultiModalFeatureSpec) : Decidable (InWindow start stop f) :=
  inferInstanceAs (Decidable (_ ∧ _))

/-- The multimodal keys of a window: those of the items that reach into it, in order. -/
def mmKeys (start stop : ℕ) (mmFeatures : List MultiModalFeatureSpec) : List PyVal :=
  (mmFeatures.filter (InWindow start stop ·)).map (mmKey start)

/-- All extra keys of a window, as the hash input they become. -/
def windowExtraKeys (sha256 : List UInt8 → List UInt8) (request : Request) (start stop : ℕ) :
    PyVal :=
  packExtraKeys (genLoraExtraHashKeys request ++ mmKeys start stop request.mmFeatures ++
    cacheSaltKeys request start ++ genPromptEmbedsExtraHashKeys sha256 request start stop)

/-- Every item before `idx` ends at or before `pos`. -/
structure MmIdxValid (mmFeatures : List MultiModalFeatureSpec) (idx pos : ℕ) : Prop where
  le_length : idx ≤ mmFeatures.length
  endPos_le : ∀ i f, mmFeatures[i]? = some f → i < idx → f.endPos ≤ pos

private theorem MmIdxValid.zero : MmIdxValid mmFeatures 0 pos :=
  ⟨zero_le _, fun _ _ _ hi => absurd hi (not_lt_zero _)⟩

private theorem MmIdxValid.mono {idx pos' : ℕ}
    (h : MmIdxValid mmFeatures idx pos) (hle : pos ≤ pos') : MmIdxValid mmFeatures idx pos' :=
  ⟨h.le_length, fun i f hf hi => (h.endPos_le i f hf hi).trans hle⟩

/-- No item that starts at or after `stop` reaches into the window. -/
private theorem mmKeys_eq_nil (h : ∀ f ∈ fs, stop ≤ f.mmPosition.offset) : mmKeys start stop fs = [] := by
  have hfilter : fs.filter (InWindow start stop ·) = [] := by
    refine filter_eq_nil_iff.mpr fun f hf hw => ?_
    have hlt : f.mmPosition.offset < stop := (of_decide_eq_true hw).2
    have := h f hf
    omega
  rw [mmKeys, hfilter, map_nil]

/-- Skipping items that ended before the window loses no key. -/
private theorem mmKeys_drop {idx : ℕ}
    (h : MmIdxValid fs idx start) : mmKeys start stop (fs.drop idx) = mmKeys start stop fs := by
  have htake : (fs.take idx).filter (InWindow start stop ·) = [] := by
    refine filter_eq_nil_iff.mpr fun f hf hw => ?_
    obtain ⟨i, hi⟩ := mem_iff_getElem?.mp hf
    have hlt : i < idx := by
      have := (List.getElem?_eq_some_iff.mp hi).1
      rw [length_take] at this
      omega
    rw [getElem?_take_of_lt hlt] at hi
    have hend := h.endPos_le i f hi hlt
    have hstart : start < f.endPos := (of_decide_eq_true hw).1
    omega
  conv_rhs => rw [mmKeys, ← take_append_drop idx fs, filter_append, htake]
  rw [nil_append, mmKeys]

variable {start stop idx : ℕ} {request : Request}

/-- The loop collects the keys of the window, and stops at an item index whose predecessors all
end inside it. -/
private theorem genMmExtraHashKeysLoop_spec (hle : start ≤ stop) (fs : List MultiModalFeatureSpec)
    (hs : fs.Pairwise fun f g => f.endPos ≤ g.mmPosition.offset) (curr : ℕ) :
    (genMmExtraHashKeysLoop start stop fs curr).1 = mmKeys start stop fs ∧
      ∃ n, (genMmExtraHashKeysLoop start stop fs curr).2 = curr + n ∧ MmIdxValid fs n stop := by
  induction fs generalizing curr with
  | nil => exact ⟨rfl, 0, rfl, .zero⟩
  | cons f rest ih =>
    obtain ⟨hf, hrest⟩ := pairwise_cons.mp hs
    obtain ⟨ih1, n, ihn, ihv⟩ := ih hrest (curr + 1)
    -- passing `f` keeps the invariant as soon as `f` ends inside the window
    have hpass : f.endPos ≤ stop → MmIdxValid (f :: rest) (n + 1) stop := fun hend =>
      ⟨by simpa using ihv.le_length, fun i g hg hi => by
        cases i with
        | zero => simp only [getElem?_cons_zero, Option.some.injEq] at hg; exact hg ▸ hend
        | succ i => exact ihv.endPos_le i g (by simpa using hg) (by omega)⟩
    simp only [genMmExtraHashKeysLoop]
    split_ifs with h1 h2 h3
    · have hend : f.endPos ≤ start := h2
      have hnot : ¬ InWindow start stop f := fun h => by have := h.1; omega
      refine ⟨?_, n + 1, by omega, hpass (by omega)⟩
      rw [ih1, mmKeys, mmKeys, filter_cons_of_neg (by simpa using hnot)]
    · have hin : InWindow start stop f := ⟨not_le.mp h2, h1⟩
      refine ⟨?_, n + 1, by omega, hpass h3⟩
      rw [ih1, mmKeys, mmKeys, filter_cons_of_pos (by simpa using hin), map_cons, mmKey]
    · have hin : InWindow start stop f := ⟨not_le.mp h2, h1⟩
      have hnil : mmKeys start stop rest = [] := mmKeys_eq_nil fun g hg => by
        have := hf g hg
        have : ¬ f.endPos ≤ stop := h3
        omega
      refine ⟨?_, 0, rfl, .zero⟩
      rw [mmKeys] at hnil ⊢
      rw [filter_cons_of_pos (by simpa using hin), map_cons, hnil, mmKey]
    · refine ⟨(mmKeys_eq_nil fun g hg => ?_).symm, 0, rfl, .zero⟩
      rcases mem_cons.mp hg with rfl | hg
      · omega
      · have := hf g hg
        have : f.endPos = f.mmPosition.offset + f.mmPosition.length := rfl
        omega

/-- From a valid item index, `_gen_mm_extra_hash_keys` returns the keys of the window and an item
index valid at its end. -/
private theorem genMmExtraHashKeys_eq (hs : request.FeaturesSorted)
    (hle : start ≤ stop) (hidx : MmIdxValid request.mmFeatures idx start) :
    ∃ n : ℕ, genMmExtraHashKeys request start stop idx =
        some (mmKeys start stop request.mmFeatures, (n : ℤ)) ∧
      MmIdxValid request.mmFeatures n stop := by
  rw [genMmExtraHashKeys]
  rcases hlast : request.mmFeatures.getLast? with _ | last
  · rw [getLast?_eq_none_iff] at hlast
    exact ⟨idx, by simp [hlast, mmKeys], hidx.mono hle⟩
  · dsimp only
    split_ifs with h1 h2 h3
    · -- the last item ended before the window, so by the order of the items all of them did
      refine ⟨idx, ?_, hidx.mono hle⟩
      have hall : MmIdxValid request.mmFeatures request.mmFeatures.length start := by
        refine ⟨le_rfl, fun i f hf _ => ?_⟩
        rw [getLast?_eq_getElem?] at hlast
        obtain ⟨hi, rfl⟩ := List.getElem?_eq_some_iff.mp hf
        obtain ⟨hj, rfl⟩ := List.getElem?_eq_some_iff.mp hlast
        rcases lt_or_eq_of_le (le_sub_one_of_lt hi) with h | h
        · have := pairwise_iff_getElem.mp (pairwise_endPos_le hs) i _ hi hj h
          exact this.trans h1
        · simp only [h]
          exact h1
      rw [← mmKeys_drop hall, drop_length, mmKeys, filter_nil, map_nil]
    · omega
    · omega
    · obtain ⟨hkeys, n, hn, hv⟩ := genMmExtraHashKeysLoop_spec hle (request.mmFeatures.drop idx)
        (Pairwise.sublist (drop_sublist _ _) hs) idx
      refine ⟨idx + n, ?_, ?_, fun i f hf hi => ?_⟩
      · simp [hkeys, hn, mmKeys_drop hidx]
      · have := hv.le_length
        rw [length_drop] at this
        have := hidx.le_length
        omega
      · rcases lt_or_ge i idx with h | h
        · exact (hidx.endPos_le i f hf h).trans hle
        · refine hv.endPos_le (i - idx) f ?_ (by omega)
          rw [getElem?_drop, Nat.add_sub_cancel' h]
          exact hf

private theorem generateBlockHashExtraKeys_eq (sha256 : List UInt8 → List UInt8)
    (hs : request.FeaturesSorted) (hle : start ≤ stop)
    (hidx : MmIdxValid request.mmFeatures idx start) :
    ∃ n : ℕ, generateBlockHashExtraKeys sha256 request start stop idx =
        some (windowExtraKeys sha256 request start stop, (n : ℤ)) ∧
      MmIdxValid request.mmFeatures n stop := by
  obtain ⟨n, hn, hv⟩ := genMmExtraHashKeys_eq hs hle hidx
  refine ⟨n, ?_, hv⟩
  simp [generateBlockHashExtraKeys, hn, windowExtraKeys]

/-- Rewinding ends on an index whose predecessors all end at or before `stop`. -/
private theorem rewindMmIdx_eq {mmFeatures : List MultiModalFeatureSpec}
    (hs : mmFeatures.Pairwise fun f g => f.endPos ≤ g.mmPosition.offset) (stop : ℕ)
    (hidx : idx ≤ mmFeatures.length) :
    ∃ n, rewindMmIdx mmFeatures stop idx = some n ∧ MmIdxValid mmFeatures n stop := by
  induction idx with
  | zero => exact ⟨0, rfl, .zero⟩
  | succ idx ih =>
    have hlt : idx < mmFeatures.length := hidx
    rw [rewindMmIdx, getElem?_eq_getElem hlt]
    dsimp only
    split_ifs with h
    · refine ⟨idx + 1, rfl, hidx, fun i f hf hi => ?_⟩
      obtain ⟨hi', rfl⟩ := List.getElem?_eq_some_iff.mp hf
      rcases lt_or_eq_of_le (Nat.lt_succ_iff.mp hi) with h' | rfl
      · exact (pairwise_iff_getElem.mp (pairwise_endPos_le hs) i idx hi' hlt h').trans h
      · exact h
    · exact ih hlt.le

private theorem generateLookaheadBlockHashExtraKeys_eq (sha256 : List UInt8 → List UInt8)
    (hs : request.FeaturesSorted) (stop : ℕ) {hashStop : ℕ}
    (hle : start ≤ hashStop) (hidx : MmIdxValid request.mmFeatures idx start) :
    ∃ n : ℕ, generateLookaheadBlockHashExtraKeys sha256 request start stop hashStop idx =
        some (windowExtraKeys sha256 request start hashStop, (n : ℤ)) ∧
      MmIdxValid request.mmFeatures n stop := by
  obtain ⟨m, hm, hv⟩ := generateBlockHashExtraKeys_eq sha256 hs hle hidx
  rcases Nat.eq_zero_or_pos m with rfl | hpos
  · refine ⟨0, ?_, .zero⟩
    simp [generateLookaheadBlockHashExtraKeys, hm]
  · obtain ⟨n, hn, hv'⟩ := rewindMmIdx_eq hs stop hv.le_length
    refine ⟨n, ?_, hv'⟩
    simp [generateLookaheadBlockHashExtraKeys, hm, hn, hpos]

/-! ### The reference hash list -/

/-- The arguments of one call of `hash_block_tokens`, the parent resolved. -/
@[ext]
structure BlockKey where
  parent : BlockHash
  blockTokens : List ℤ
  extraKeys : PyVal

/-- The object the hash function digests. -/
def BlockKey.toPyVal (key : BlockKey) : PyVal :=
  .tuple [.bytes key.parent, .tuple (key.blockTokens.map .int), key.extraKeys]

namespace BlockHasher

variable (hasher : BlockHasher)

/-- The extra keys hashed for the block that starts at `start`. With lookahead they are the keys
of the longer window, followed by the lookahead tokens. -/
def blockKeys (request : Request) (start : ℕ) : PyVal :=
  let stop := start + hasher.hashBlockSize
  let hashStop := stop + hasher.numHashLookaheadTokens
  if hasher.numHashLookaheadTokens = 0 then windowExtraKeys hasher.sha256 request start stop
  else .tuple (windowExtraKeys hasher.sha256 request start hashStop ::
    (slice request.allTokenIds stop hashStop).map .int)

/-- The content of block `i`: its tokens and its extra keys. -/
def content (request : Request) (i : ℕ) : List ℤ × PyVal :=
  (slice request.allTokenIds (i * hasher.hashBlockSize) (i * hasher.hashBlockSize +
    hasher.hashBlockSize), hasher.blockKeys request (i * hasher.hashBlockSize))

/-- One step of the chain: the hash of a block with the given parent. -/
def chainStep (parent : BlockHash) (c : List ℤ × PyVal) : BlockHash :=
  hashBlockTokens hasher.cachingHashFn hasher.noneHash (some parent) c.1 c.2

/-- The number of blocks whose tokens, lookahead included, are among the first `n`. -/
def numHashable (n : ℕ) : ℕ := (n - hasher.numHashLookaheadTokens) / hasher.hashBlockSize

/-- **The hash list of a request**, from its tokens and features alone. -/
def hashList (request : Request) : List BlockHash :=
  chainHashes hasher.chainStep hasher.noneHash (hasher.content request)
    (hasher.numHashable request.numTokens)

/-- A block is hashed when its lookahead is there, too. -/
theorem lt_numHashable {n i : ℕ} : i < hasher.numHashable n ↔
      i * hasher.hashBlockSize + hasher.hashBlockSize + hasher.numHashLookaheadTokens ≤ n := by
  have hpos := hasher.hashBlockSize_pos
  have hsucc : (i + 1) * hasher.hashBlockSize =
      i * hasher.hashBlockSize + hasher.hashBlockSize := succ_mul _ _
  rw [numHashable, lt_iff_add_one_le, le_div_iff_mul_le hpos]
  omega

/-- More tokens have at least as many blocks. -/
theorem numHashable_mono {m n : ℕ} (h : m ≤ n) : hasher.numHashable m ≤ hasher.numHashable n :=
  Nat.div_le_div_right (Nat.sub_le_sub_right h _)

/-- Hashing without a parent is hashing with `NONE_HASH` for a parent. -/
private theorem hashBlockTokens_parent (parent : Option BlockHash) (c : List ℤ × PyVal) :
    hashBlockTokens hasher.cachingHashFn hasher.noneHash parent c.1 c.2 =
      hasher.chainStep (parent.getD hasher.noneHash) c := by
  cases parent with
  | none =>
    simp only [chainStep, hashBlockTokens]
    split_ifs <;> rfl
  | some h => rfl

/-! ### The hasher computes the reference list -/

variable {request : Request}

/-- The key `hash_block_tokens` builds. -/
def blockKey (parentBlockHash : Option BlockHash) (c : List ℤ × PyVal) : BlockKey where
  parent := match parentBlockHash with
    | .none => hasher.noneHash
    | some h => if h.isEmpty then hasher.noneHash else h
  blockTokens := c.1
  extraKeys := c.2

private theorem hashBlockTokens_eq_key (parent : Option BlockHash) (c : List ℤ × PyVal) :
    hashBlockTokens hasher.cachingHashFn hasher.noneHash parent c.1 c.2 =
      hasher.cachingHashFn (hasher.blockKey parent c).toPyVal := rfl

/-- `hashLoop` with every key that goes to the hash function kept. -/
def loggedLoop (request : Request) (numTokens : ℤ) :
    ℕ → ℕ → ℤ → Option BlockHash → Option (List BlockKey)
  | 0, _, _, _ => some []
  | fuel + 1, startTokenIdx, currMmIdx, prevBlockHashValue =>
    let endTokenIdx := startTokenIdx + hasher.hashBlockSize
    if (endTokenIdx : ℤ) > numTokens then some []
    else do
      let (extraKeys, currMmIdx) ←
        hasher.blockExtraKeys request startTokenIdx endTokenIdx currMmIdx
      let blockTokens := slice request.allTokenIds startTokenIdx endTokenIdx
      let key := hasher.blockKey prevBlockHashValue (blockTokens, extraKeys)
      let rest ← loggedLoop request numTokens fuel (startTokenIdx + hasher.hashBlockSize) currMmIdx
        (some (hasher.cachingHashFn key.toPyVal))
      return key :: rest

/-- The loop's hashes are the digests of the keys it logs. -/
private theorem hashLoop_eq_map_logged {numTokens : ℤ} {fuel start : ℕ} {idx : ℤ}
    {prev : Option BlockHash} : hasher.hashLoop request numTokens fuel start idx prev =
      (hasher.loggedLoop request numTokens fuel start idx prev).map
        (map fun key => hasher.cachingHashFn key.toPyVal) := by
  induction fuel generalizing start idx prev with
  | zero => rfl
  | succ fuel ih =>
    simp only [hashLoop, loggedLoop]
    split_ifs with hend
    · rfl
    · rcases hasher.blockExtraKeys request start (start + hasher.hashBlockSize) idx with _ | ⟨e, i⟩
      · rfl
      · have hkey := hasher.hashBlockTokens_eq_key prev
          (slice request.allTokenIds start (start + hasher.hashBlockSize), e)
        simp only [Option.bind_eq_bind, Option.bind_some, hkey, ih]
        rcases hasher.loggedLoop request numTokens fuel (start + hasher.hashBlockSize) i
          (some _) with _ | keys <;> rfl

/-- The keys `request_block_hasher` passes to the hash function. -/
def requestBlockKeys (request : Request) : Option (List BlockKey) :=
  let startTokenIdx := request.blockHashes.length * hasher.hashBlockSize
  let numTokens : ℤ := (request.numTokens : ℤ) - (hasher.numHashLookaheadTokens : ℤ)
  if ((startTokenIdx + hasher.hashBlockSize : ℕ) : ℤ) > numTokens then some []
  else hasher.loggedLoop request numTokens request.numTokens startTokenIdx
    (hasher.startMmIdx request startTokenIdx) request.blockHashes.getLast?

/-- The hasher hashes the keys of the new blocks. -/
theorem requestBlockHasher_eq_map_keys (request : Request) :
    hasher.requestBlockHasher request = (hasher.requestBlockKeys request).map
        (map fun key => hasher.cachingHashFn key.toPyVal) := by
  simp only [requestBlockHasher, requestBlockKeys]
  split_ifs with h
  · rfl
  · exact hasher.hashLoop_eq_map_logged

/-- The keys of a chain of blocks with the given contents, each one's parent the hash of the key
before it. -/
def keysFrom : Option BlockHash → List (List ℤ × PyVal) → List BlockKey
  | _, [] => []
  | prev, c :: cs =>
    hasher.blockKey prev c ::
      keysFrom (some (hasher.cachingHashFn (hasher.blockKey prev c).toPyVal)) cs

private theorem map_keysFrom (prev : Option BlockHash) (content : ℕ → List ℤ × PyVal) (i n : ℕ) :
    (hasher.keysFrom prev ((range' i n).map content)).map
      (fun key => hasher.cachingHashFn key.toPyVal) =
      chainHashes hasher.chainStep (prev.getD hasher.noneHash) (fun j => content (i + j)) n := by
  induction n generalizing prev i with
  | zero => rfl
  | succ n ih =>
    rw [range'_succ, map_cons, keysFrom, map_cons, ih, chainHashes_succ_left,
      ← hashBlockTokens_eq_key, hashBlockTokens_parent]
    simp [add_assoc, add_comm 1]

section

variable (hs : request.FeaturesSorted)

include hs

private theorem blockExtraKeys_eq {start idx : ℕ} (hidx : MmIdxValid request.mmFeatures idx start)
    (hlen : start + hasher.hashBlockSize + hasher.numHashLookaheadTokens ≤ request.numTokens) :
    ∃ n : ℕ, hasher.blockExtraKeys request start (start + hasher.hashBlockSize) idx =
        some (hasher.blockKeys request start, (n : ℤ)) ∧
      MmIdxValid request.mmFeatures n (start + hasher.hashBlockSize) := by
  rw [blockExtraKeys, blockKeys]
  by_cases hL : hasher.numHashLookaheadTokens = 0
  · simp only [hL]
    exact generateBlockHashExtraKeys_eq _ hs (le_add_right _ _) hidx
  · have hle : start ≤ start + hasher.hashBlockSize + hasher.numHashLookaheadTokens := by omega
    obtain ⟨n, hn, hv⟩ := generateLookaheadBlockHashExtraKeys_eq hasher.sha256 hs
      _ hle hidx
    refine ⟨n, ?_, hv⟩
    by_cases h1 : hasher.numHashLookaheadTokens = 1
    · have hlt : start + hasher.hashBlockSize < request.allTokenIds.length := by
        rwa [h1] at hlen
      rw [h1] at hn
      have hslice := slice_succ hlt
      simp [h1, hn, hlt, hslice]
    · simp [hL, hn, h1]

/-- The loop, entered at block `i` with a valid item index and the parent's hash, logs the keys of the
blocks from `i` on. The induction is on the fuel, which covers the blocks left. -/
theorem loggedLoop_eq (fuel : ℕ) {i idx : ℕ} (prev : Option BlockHash)
    (hidx : MmIdxValid request.mmFeatures idx (i * hasher.hashBlockSize))
    (hfuel : hasher.numHashable request.numTokens ≤ i + fuel) :
    hasher.loggedLoop request (request.numTokens - hasher.numHashLookaheadTokens) fuel
        (i * hasher.hashBlockSize) idx prev =
      some (hasher.keysFrom prev ((range' i (hasher.numHashable request.numTokens - i)).map
        (hasher.content request))) := by
  induction fuel generalizing i idx prev with
  | zero =>
    rw [Nat.sub_eq_zero_of_le (by omega)]
    rfl
  | succ fuel ih =>
    rw [loggedLoop]
    by_cases hi : i < hasher.numHashable request.numTokens
    · have hlen := hasher.lt_numHashable.mp hi
      obtain ⟨n, hn, hv⟩ := hasher.blockExtraKeys_eq hs hidx hlen
      have hnext : i * hasher.hashBlockSize + hasher.hashBlockSize =
          (i + 1) * hasher.hashBlockSize := (succ_mul _ _).symm
      have hrest := ih (some (hasher.cachingHashFn
        (hasher.blockKey prev (hasher.content request i)).toPyVal)) (hnext ▸ hv) (by omega)
      have hsub : hasher.numHashable request.numTokens - i =
          (hasher.numHashable request.numTokens - (i + 1)) + 1 := by omega
      rw [if_neg (by omega), hn, hsub, range'_succ, map_cons, keysFrom]
      simp only [content, hnext] at hrest ⊢
      simp [hrest]
    · have hge := mt hasher.lt_numHashable.mpr hi
      rw [if_pos (by omega), Nat.sub_eq_zero_of_le (not_lt.mp hi)]
      rfl

/-- The item index a call starts from is valid at the first block it hashes. -/
private theorem startMmIdx_eq (start : ℕ) :
    ∃ n : ℕ, hasher.startMmIdx request start = n ∧ MmIdxValid request.mmFeatures n start := by
  rw [startMmIdx]
  split
  · exact ⟨0, rfl, .zero⟩
  · split_ifs
    · refine ⟨_, rfl, (bisectLeft_spec (pairwise_endPos_le hs)).le_length, fun i f hf hi => ?_⟩
      exact Nat.lt_succ_iff.mp ((bisectLeft_spec (pairwise_endPos_le hs)).lt_of_lt i f hf hi)
    · exact ⟨0, rfl, .zero⟩

/-- Whatever hashes a request holds, the hasher passes on the keys of the blocks they do not cover. -/
theorem requestBlockKeys_resume :
    hasher.requestBlockKeys request = some (hasher.keysFrom request.blockHashes.getLast?
      ((range' request.blockHashes.length (hasher.numHashable request.numTokens -
        request.blockHashes.length)).map (hasher.content request))) := by
  rw [requestBlockKeys]
  by_cases hlt : request.blockHashes.length < hasher.numHashable request.numTokens
  · have hlen := hasher.lt_numHashable.mp hlt
    obtain ⟨n, hn, hv⟩ := hasher.startMmIdx_eq hs
      _
    have hfuel : hasher.numHashable request.numTokens ≤
        request.blockHashes.length + request.numTokens :=
      ((div_le_self _ _).trans (sub_le _ _)).trans (le_add_left _ _)
    rw [if_neg (by omega), hn, hasher.loggedLoop_eq hs _ _ hv hfuel]
  · have hge := mt hasher.lt_numHashable.mpr hlt
    rw [if_pos (by omega), Nat.sub_eq_zero_of_le (not_lt.mp hlt)]
    rfl

/-- The hasher succeeds and continues the chain from the last hash. -/
theorem requestBlockHasher_resume : hasher.requestBlockHasher request =
      some (chainHashes hasher.chainStep (request.blockHashes.getLast?.getD hasher.noneHash)
        (fun j => hasher.content request (request.blockHashes.length + j))
        (hasher.numHashable request.numTokens - request.blockHashes.length)) := by
  rw [requestBlockHasher_eq_map_keys, hasher.requestBlockKeys_resume hs, Option.map_some, map_keysFrom]

/-- **Resumption.** On a request whose hashes are a prefix of its hash list, the hasher returns
exactly the rest of the list. -/
theorem requestBlockHasher_eq (hpre : request.blockHashes <+: hasher.hashList request) :
    hasher.requestBlockHasher request =
      some ((hasher.hashList request).drop request.blockHashes.length) := by
  have hk : request.blockHashes.length ≤ hasher.numHashable request.numTokens := by
    simpa [hashList] using hpre.length_le
  have htake := prefix_iff_eq_take.mp hpre
  rw [hashList, take_chainHashes hk] at htake
  have hlast : request.blockHashes.getLast?.getD hasher.noneHash =
      chainHash hasher.chainStep hasher.noneHash (hasher.content request)
        request.blockHashes.length := by
    conv_lhs => rw [htake]
    exact getLast?_chainHashes
  rw [hasher.requestBlockHasher_resume hs, hlast, hashList]
  conv_rhs => rw [← Nat.add_sub_cancel' hk, chainHashes_add]
  rw [drop_left' length_chainHashes]

/-- The hasher started from scratch computes the whole hash list. -/
theorem requestBlockHasher_nil :
    hasher.requestBlockHasher { request with blockHashes := [] } = some (hasher.hashList request) :=
  hasher.requestBlockHasher_eq hs nil_prefix

end

end BlockHasher

end Sonar
