import Sonar.Core.CacheLookupSpec

/-!
# Prefill chunks of models with aligned Mamba states

In Mamba's cache mode "align" the scheduler clips a prefill chunk so that it ends where a state is
cached. A request that is alone is offered the whole budget but for the draft slots, while the split
compares the block size with the configured limits. `Progresses` is a condition on the budgets, the
sizes and the positions of such a request, and `scheduled_pos_iff` says that it gets tokens exactly
if it meets it. One that gets none is stuck: the next step offers it the same.
-/

namespace Sonar

open List

/-- The settings of `Scheduler` that a chunk depends on. -/
structure Scheduler where
  /-- `cache_config.block_size`. -/
  cacheBlockSize : ℕ
  (blockSize hashBlockSize maxNumScheduledTokens maxNumBatchedTokens maxModelLen : ℕ)
  useEagleBlockDrop : Bool := false
  numHashLookaheadTokens : ℕ := 0
  mambaPartialCacheHit : Bool := false
  mambaSharedPrefixCheckpoint : Bool := false
  mambaHasPrefillCheckpointBlocks : Bool := false
  mambaPrefillCheckpointAlignment : Option ℕ := none
  longPrefillTokenThreshold : ℕ := 0
  draftSlots : ℕ := 0
  numSpecTokens : ℕ := 0
  /-- Whether `dynamic_sd_lookup` is set. -/
  dynamicSd : Bool := false
  numSampledTokensPerStep : ℕ := 1
  numPrefillLookahead : ℕ := 0
  enableChunkedPrefill : Bool := true
  isMmEncoderOnly : Bool := false
  cacheBlockSize_pos : 0 < cacheBlockSize
  blockSize_pos : 0 < blockSize
  hashBlockSize_pos : 0 < hashBlockSize

/-- The counts of a request that a chunk depends on. -/
structure PrefillRequest where
  (numTokens numPromptTokens : ℕ)
  numComputedTokens : ℕ := 0
  numDraftTokens : ℕ := 0
  numOutputPlaceholders : ℕ := 0
  sharedPrefixBoundary : ℕ := 0
  prompt_le : numPromptTokens ≤ numTokens

/-- Where `schedule` finds the request: running, or waiting with the tokens that the prefix lookups
found for it and the number of them that it replays. -/
inductive Entry
  | running
  | waiting (numHitTokens numReplayTokens : ℕ)

/-- `is_mamba_prefill_checkpoint_valid`. Both columns can be negative. -/
def isMambaPrefillCheckpointValid (queryStart queryEnd checkpointPosition hashBlockSize
    mambaBlockSize : ℕ) : Option ℕ → Bool
  | none => false
  | some checkpointAlignment =>
    let initialStateCol : ℤ := ((queryStart : ℤ) - 1) / mambaBlockSize
    let checkpointCol : ℤ := cdiv queryEnd mambaBlockSize - 2
    queryStart % hashBlockSize = 0 ∧ initialStateCol < checkpointCol ∧
      queryStart + hashBlockSize ≤ checkpointPosition ∧ queryStart < checkpointPosition ∧
      checkpointPosition < queryEnd ∧ (checkpointPosition - queryStart) % checkpointAlignment = 0

/-- The columns of the states before and after the chunk in terms of blocks. -/
private theorem isMambaPrefillCheckpointValid_iff {start last position hash b : ℕ} (hb : 0 < b)
    (hhash : 0 < hash) (hlast : position < last) {alignment : Option ℕ} :
    isMambaPrefillCheckpointValid start last position hash b alignment = true ↔
      hash ∣ start ∧ (cdiv start b + 1) * b < last ∧ start + hash ≤ position ∧
        ∃ a, alignment = some a ∧ a ∣ position - start := by
  have hcol : ((start : ℤ) - 1) / b < cdiv last b - 2 ↔ (cdiv start b + 1) * b < last := by
    have hshift : ((cdiv start b : ℕ) : ℤ) = ((start : ℤ) - 1) / b + 1 := by
      have hb' : (b : ℤ) ≠ 0 := by exact_mod_cast hb.ne'
      have hnum : ((start + b - 1 : ℕ) : ℤ) = (start : ℤ) - 1 + b := by omega
      rw [cdiv, Int.natCast_ediv, hnum, Int.add_ediv_of_dvd_right dvd_rfl, Int.ediv_self hb']
    rw [← lt_cdiv_iff hb]
    omega
  cases alignment with
  | none => simp [isMambaPrefillCheckpointValid]
  | some a =>
    simp only [isMambaPrefillCheckpointValid, decide_eq_true_eq, hcol, Nat.dvd_iff_mod_eq_zero,
      Option.some.injEq, exists_eq_left']
    constructor
    · rintro ⟨h1, h2, h3, -, -, h4⟩
      exact ⟨h1, h2, h3, h4⟩
    · rintro ⟨h1, h2, h3, h4⟩
      exact ⟨h1, h2, h3, by omega, hlast, h4⟩

namespace PrefillRequest

variable (r : PrefillRequest)

/-- The end of the prefill: a resumed request replays its output tokens. -/
def prefillEnd : ℕ := max r.numPromptTokens (r.numTokens - 1)

/-- The position that the split starts from. -/
def start : Entry → ℕ
  | .running => r.numComputedTokens
  | .waiting numHitTokens _ => r.numComputedTokens + numHitTokens

/-- The tokens computed before the chunk: those that are replayed are not. -/
def numComputed : Entry → ℕ
  | .running => r.numComputedTokens
  | .waiting numHitTokens numReplayTokens => r.numComputedTokens + numHitTokens - numReplayTokens

/-- The tokens left to compute. -/
def rest (e : Entry) : ℕ := r.numTokens - r.numComputed e

/-- The tokens that a chunk would take if the budgets did not end: drafts and output placeholders of
a running request count. -/
def wanted : Entry → ℕ
  | .running => r.numTokens + r.numDraftTokens + r.numOutputPlaceholders - r.numComputedTokens
  | e@(.waiting ..) => r.rest e

variable {r} {e : Entry}

private theorem numComputed_le_start : r.numComputed e ≤ r.start e := by
  cases e with
  | running => exact le_rfl
  | waiting => exact Nat.sub_le ..

private theorem prefillEnd_le : r.prefillEnd ≤ r.start e + r.rest e := by
  have hprompt := r.prompt_le
  have hle := r.numComputed_le_start (e := e)
  rw [prefillEnd, rest]
  omega

private theorem rest_le_wanted : r.rest e ≤ r.wanted e := by
  cases e with
  | running =>
    rw [rest, wanted, numComputed]
    omega
  | waiting => exact le_rfl

end PrefillRequest

namespace Scheduler

variable (s : Scheduler) (r : PrefillRequest) (start new : ℕ)

/-- `get_mamba_prefill_checkpoint_position`, with the settings all its calls have. -/
def getMambaPrefillCheckpointPosition (numTokens blockSize : ℕ) : ℕ :=
  if s.useEagleBlockDrop then numTokens / blockSize * blockSize - blockSize
  else (numTokens - max 1 s.numHashLookaheadTokens) / blockSize * blockSize

/-- Whether the scheduled chunk ends the prefill and may store its checkpoint inside. -/
def useInternalCheckpoint : Bool :=
  let ckptBlockSize := if s.mambaPartialCacheHit then s.hashBlockSize else s.blockSize
  s.mambaHasPrefillCheckpointBlocks && decide (r.prefillEnd ≤ start + new) &&
    isMambaPrefillCheckpointValid start (start + new)
      (s.getMambaPrefillCheckpointPosition r.prefillEnd ckptBlockSize) s.hashBlockSize
      s.cacheBlockSize s.mambaPrefillCheckpointAlignment

/-- The longest prefill chunk of a step. -/
def maxPrefillTokens : ℕ :=
  if 0 < s.longPrefillTokenThreshold then min s.maxNumScheduledTokens s.longPrefillTokenThreshold
  else s.maxNumScheduledTokens

/-- The end of the chunk: a block boundary, unless the prefill ends or a block is too wide. -/
def chunkEnd : ℕ :=
  let alignedEnd := (start + new) / s.cacheBlockSize * s.cacheBlockSize
  if start + new < r.prefillEnd ∧ (start < alignedEnd ∨ s.cacheBlockSize ≤ s.maxPrefillTokens) then
    alignedEnd
  else start + new

/-- Where a chunk stops to cache the end of a shared prefix: there, or at the last block boundary
before it, counted from the start on, if only those are cached. -/
def junctionStop : ℕ :=
  let junction := r.sharedPrefixBoundary
  if s.mambaSharedPrefixCheckpoint && decide (junction ≤ r.numPromptTokens) then junction
  else start + (junction - start) / s.cacheBlockSize * s.cacheBlockSize

/-- The positions that a chunk does not run past. -/
def stops : List ℕ :=
  let internal := s.useInternalCheckpoint r start new
  let lastCachePosition :=
    if internal then 0 else s.getMambaPrefillCheckpointPosition r.numTokens s.cacheBlockSize
  let tailBoundary :=
    if s.mambaPartialCacheHit && !internal then
      s.getMambaPrefillCheckpointPosition r.numPromptTokens s.hashBlockSize
    else 0
  let junction := r.sharedPrefixBoundary
  [if start % s.cacheBlockSize ≠ 0 ∧ !internal then
      (start / s.cacheBlockSize + 1) * s.cacheBlockSize
    else 0, lastCachePosition,
    if lastCachePosition < tailBoundary ∧ tailBoundary < r.numPromptTokens then tailBoundary else 0,
    if start < junction ∧ junction < s.chunkEnd r start new then s.junctionStop r start else 0]

/-- `_mamba_block_aligned_split`. -/
def mambaBlockAlignedSplit : ℕ :=
  if r.prefillEnd ≤ start then new
  else
    let last := s.chunkEnd r start new
    ((s.stops r start new).filter fun stop => start < stop ∧ stop < last).foldl min last - start

/-- `_reserve_prefill_lookahead`, for a request with `rest` tokens left. -/
def reservePrefillLookahead (rest new : ℕ) : ℕ :=
  let remaining := rest - new
  if 0 < remaining ∧ remaining < s.numPrefillLookahead then
    new - (s.numPrefillLookahead - remaining)
  else new

/-- A waiting request with one token left is padded with placeholders of drafts. -/
def padSpecDecode : Entry → Bool
  | .running => false
  | e@(.waiting ..) =>
    0 < s.numSpecTokens ∧ !s.dynamicSd ∧ 0 < s.numSampledTokensPerStep ∧ r.rest e = 1 ∧
      0 < r.numComputed e ∧
      r.numComputed e + (1 + s.numSpecTokens) + s.numSampledTokensPerStep ≤ s.maxModelLen

/-- The tokens that `schedule` offers to its only request before the split; 0 where it skips the
request. The threshold for long prefills is off when there is one request. -/
def offered (e : Entry) : ℕ :=
  let budget := min s.maxNumScheduledTokens (s.maxNumBatchedTokens - s.draftSlots)
  match e with
  | .running =>
    min (min (r.numTokens + r.numDraftTokens + r.numOutputPlaceholders - r.numComputedTokens) budget)
      (s.maxModelLen - r.numComputedTokens - s.numSampledTokensPerStep)
  | .waiting .. =>
    if s.padSpecDecode r e then if budget < 1 + s.numSpecTokens then 0 else 1 + s.numSpecTokens
    else if !s.enableChunkedPrefill ∧ budget < r.rest e ∧ !s.isMmEncoderOnly then 0
    else min (r.rest e) budget

/-- The tokens that `schedule` gives to its only request. -/
def scheduled (e : Entry) : ℕ :=
  let new := s.mambaBlockAlignedSplit r (r.start e) (s.offered r e)
  -- A padded request keeps all its rows or none.
  let new := if s.padSpecDecode r e ∧ new ≠ 0 ∧ new ≠ 1 + s.numSpecTokens then 1 else new
  s.reservePrefillLookahead (r.rest e) new

variable {s r start new} {e : Entry}

private theorem le_foldl_min {k last : ℕ} {l : List ℕ} :
    k ≤ l.foldl min last ↔ k ≤ last ∧ ∀ stop ∈ l, k ≤ stop := by
  induction l generalizing last with
  | nil => simp
  | cons stop l ih => rw [foldl_cons, ih, le_min_iff, forall_mem_cons, and_assoc]

private theorem le_mambaBlockAlignedSplit_iff (hprefill : start < r.prefillEnd) {k : ℕ} (hk : 0 < k) :
    k ≤ s.mambaBlockAlignedSplit r start new ↔ start + k ≤ s.chunkEnd r start new ∧
      ∀ stop ∈ s.stops r start new, start < stop → stop < s.chunkEnd r start new →
        start + k ≤ stop := by
  have hsub : ∀ last, k ≤ last - start ↔ start + k ≤ last := by omega
  rw [mambaBlockAlignedSplit, if_neg hprefill.not_ge, hsub, le_foldl_min]
  simp only [mem_filter, decide_eq_true_eq, and_imp]

private theorem lt_chunkEnd_iff : start < s.chunkEnd r start new ↔ 0 < new ∧
    (r.prefillEnd ≤ start + new ∨ start < (start + new) / s.cacheBlockSize * s.cacheBlockSize ∨
      s.maxPrefillTokens < s.cacheBlockSize) := by
  have hle := Nat.div_mul_le_self (start + new) s.cacheBlockSize
  rw [chunkEnd]
  split_ifs <;> omega

/-- A cached state leaves a token to compute. -/
private theorem checkpointPosition_le {n b : ℕ} (hb : 0 < b) :
    s.getMambaPrefillCheckpointPosition n b ≤ n - 1 := by
  rw [getMambaPrefillCheckpointPosition]
  split_ifs
  · have := Nat.div_mul_le_self n b
    omega
  · have := Nat.div_mul_le_self (n - max 1 s.numHashLookaheadTokens) b
    have := le_max_left 1 s.numHashLookaheadTokens
    omega

private theorem reservePrefillLookahead_pos_iff {rest : ℕ} : 0 < s.reservePrefillLookahead rest new ↔
    0 < new ∧ (s.numPrefillLookahead < rest ∨ rest ≤ new) := by
  rw [reservePrefillLookahead]
  split_ifs <;> omega

private theorem mambaBlockAlignedSplit_pos_iff (hprefill : start < r.prefillEnd) :
    0 < s.mambaBlockAlignedSplit r start new ↔ start < s.chunkEnd r start new :=
  (le_mambaBlockAlignedSplit_iff hprefill one_pos).trans
    (and_iff_left fun _ _ hlt _ => hlt)

/-- The split leaves the rest of the prefill whole if it is offered and no stop lies within. -/
private theorem rest_le_split_iff (hprefill : r.start e < r.prefillEnd) :
    r.rest e ≤ s.mambaBlockAlignedSplit r (r.start e) new ↔ r.rest e ≤ new ∧
      ∀ stop ∈ s.stops r (r.start e) new, r.start e < stop → r.start e + r.rest e ≤ stop := by
  have hend := r.prefillEnd_le (e := e)
  have hlast : r.rest e ≤ new → s.chunkEnd r (r.start e) new = r.start e + new := fun hle =>
    if_neg fun hcond => by omega
  have hle : s.chunkEnd r (r.start e) new ≤ r.start e + new := by
    rw [chunkEnd]
    split_ifs
    · exact Nat.div_mul_le_self ..
    · exact le_rfl
  rw [le_mambaBlockAlignedSplit_iff hprefill (by omega)]
  constructor
  · rintro ⟨hfits, hstops⟩
    refine ⟨by omega, fun stop hmem hlt => ?_⟩
    rcases lt_or_ge stop (s.chunkEnd r (r.start e) new) with hstop | hstop
    · exact hstops stop hmem hlt hstop
    · exact hfits.trans hstop
  · rintro ⟨hfits, hstops⟩
    rw [hlast hfits]
    exact ⟨Nat.add_le_add_left hfits _, fun stop hmem hlt _ => hstops stop hmem hlt⟩

/-! ### In terms of budgets, sizes and positions -/

variable (s r start) (e)

/-- The tokens that the budgets leave to the only request after the draft slots. One that runs also
stays within the model length. -/
def limit : ℕ :=
  let budget := min s.maxNumScheduledTokens (s.maxNumBatchedTokens - s.draftSlots)
  match e with
  | .running => min budget (s.maxModelLen - r.numComputedTokens - s.numSampledTokensPerStep)
  | .waiting .. => budget

/-- The end of a chunk that nothing stops. -/
def lastEnd : ℕ :=
  r.start e + if s.padSpecDecode r e then 1 + s.numSpecTokens else min (r.wanted e) (s.limit r e)

/-- The position of the state that a prefill caches last. -/
def prefillCheckpoint : ℕ :=
  s.getMambaPrefillCheckpointPosition r.prefillEnd
    (if s.mambaPartialCacheHit then s.hashBlockSize else s.blockSize)

/-- The backend can save that state inside a chunk up to `last`: a whole block lies between the
states before and after the chunk, and the position is aligned. -/
def SavesInside (last : ℕ) : Prop :=
  s.mambaHasPrefillCheckpointBlocks = true ∧ s.hashBlockSize ∣ start ∧
    (cdiv start s.cacheBlockSize + 1) * s.cacheBlockSize < last ∧
    start + s.hashBlockSize ≤ s.prefillCheckpoint r ∧
    ∃ a, s.mambaPrefillCheckpointAlignment = some a ∧ a ∣ s.prefillCheckpoint r - start

/-- No position at which a chunk has to stop lies within what is left of the request. -/
structure Unbroken : Prop where
  /-- Nor the next block boundary, nor a state to be cached, unless it is saved inside. -/
  cached : s.SavesInside r (r.start e) (s.lastEnd r e) ∨
    (s.cacheBlockSize ∣ r.start e ∨
      r.start e + r.rest e ≤ (r.start e / s.cacheBlockSize + 1) * s.cacheBlockSize) ∧
    s.getMambaPrefillCheckpointPosition r.numTokens s.cacheBlockSize ≤ r.start e ∧
    (s.mambaPartialCacheHit = true →
      s.getMambaPrefillCheckpointPosition r.numPromptTokens s.hashBlockSize ≤ r.start e)
  /-- Nor the place to cache the end of a shared prefix. -/
  junction : r.start e < r.sharedPrefixBoundary → r.sharedPrefixBoundary < s.lastEnd r e →
    s.junctionStop r (r.start e) ≤ r.start e ∨ r.start e + r.rest e ≤ s.junctionStop r (r.start e)

/-- What a prefill needs to get tokens when it is alone. -/
structure Progresses : Prop where
  /-- There is a token budget. -/
  tokens : 0 < s.maxNumScheduledTokens
  /-- The draft slots leave something of the input budget. -/
  slots : s.draftSlots < s.maxNumBatchedTokens
  /-- A running request has a position left in the model length. -/
  length : e = .running → r.numComputedTokens + s.numSampledTokensPerStep < s.maxModelLen
  /-- Without chunked prefill a waiting request goes as a whole. -/
  whole : e ≠ .running → s.enableChunkedPrefill = true ∨ s.isMmEncoderOnly = true ∨
    r.rest e ≤ s.limit r e
  /-- A waiting request with one token left is padded with drafts if the model length allows it, and
  then needs room for them. -/
  padded : e ≠ .running → 0 < s.numSpecTokens → s.dynamicSd = false →
    0 < s.numSampledTokensPerStep → r.rest e = 1 → 0 < r.numComputed e →
    r.numComputed e + (1 + s.numSpecTokens) + s.numSampledTokensPerStep ≤ s.maxModelLen →
    1 + s.numSpecTokens ≤ s.limit r e
  /-- The end of the prefill or the next block boundary is in reach, or a block is too wide for the
  configured limits. -/
  aligned : r.prefillEnd ≤ r.start e + s.limit r e ∨
    (r.start e / s.cacheBlockSize + 1) * s.cacheBlockSize ≤ r.start e + s.limit r e ∨
    s.maxNumScheduledTokens < s.cacheBlockSize ∨
    0 < s.longPrefillTokenThreshold ∧ s.longPrefillTokenThreshold < s.cacheBlockSize
  /-- More is left than the drafter looks ahead, or all of it goes in one chunk. -/
  lookahead : s.numPrefillLookahead < r.rest e ∨ r.rest e ≤ s.limit r e ∧ s.Unbroken r e

variable {s r start} {e}

private theorem limit_pos_iff : 0 < s.limit r e ↔ 0 < s.maxNumScheduledTokens ∧
    s.draftSlots < s.maxNumBatchedTokens ∧
      (e = .running → r.numComputedTokens + s.numSampledTokensPerStep < s.maxModelLen) := by
  cases e with
  | running =>
    simp only [limit, lt_min_iff, Nat.sub_pos_iff_lt, true_imp_iff]
    omega
  | waiting => simp [limit]

private theorem padSpecDecode_iff : s.padSpecDecode r e = true ↔ e ≠ .running ∧ 0 < s.numSpecTokens ∧
    s.dynamicSd = false ∧ 0 < s.numSampledTokensPerStep ∧ r.rest e = 1 ∧ 0 < r.numComputed e ∧
    r.numComputed e + (1 + s.numSpecTokens) + s.numSampledTokensPerStep ≤ s.maxModelLen := by
  cases e with
  | running => simp [padSpecDecode]
  | waiting => simp [padSpecDecode]

/-- A waiting request is not passed over for want of a chunk that takes it whole, or padded. -/
def Goes (s : Scheduler) (r : PrefillRequest) (e : Entry) : Prop :=
  (e ≠ .running → s.enableChunkedPrefill = true ∨ s.isMmEncoderOnly = true ∨
    r.rest e ≤ s.limit r e) ∧
  (s.padSpecDecode r e = true → 1 + s.numSpecTokens ≤ s.limit r e)

private theorem offered_eq (h : s.Goes r e) : s.offered r e =
    if s.padSpecDecode r e then 1 + s.numSpecTokens else min (r.wanted e) (s.limit r e) := by
  cases e with
  | running => exact min_assoc ..
  | waiting numHitTokens numReplayTokens =>
    obtain ⟨hwhole, hpadded⟩ := h
    rw [offered]
    split_ifs with hpad hlt hskip
    · exact absurd hlt (hpadded hpad).not_gt
    · rfl
    · simp only [Bool.not_eq_true'] at hskip
      rcases hwhole (by simp) with hchunked | honly | hle
      · simp [hchunked] at hskip
      · simp [honly] at hskip
      · exact absurd hskip.2.1 hle.not_gt
    · rfl

private theorem offered_of_not_goes (h : ¬s.Goes r e) : s.offered r e = 0 := by
  cases e with
  | running => exact absurd ⟨fun hne => absurd rfl hne, fun hpad => by cases hpad⟩ h
  | waiting numHitTokens numReplayTokens =>
    rw [offered]
    split_ifs with hpad hlt hskip
    · rfl
    · -- a padded request has one token left
      have hone := (padSpecDecode_iff.mp hpad).2.2.2.2.1
      refine absurd ⟨fun _ => .inr (.inr ?_), fun _ => not_lt.mp hlt⟩ h
      rw [hone]
      exact (Nat.le_add_right 1 _).trans (not_lt.mp hlt)
    · rfl
    · refine absurd ⟨fun _ => ?_, fun hpad' => absurd hpad' hpad⟩ h
      by_contra hnot
      simp only [not_or, Bool.not_eq_true, not_le] at hnot
      exact hskip ⟨by simp [hnot.1], hnot.2.2, by simp [hnot.2.1]⟩

/-- What is offered, by the tokens left and the limit. -/
private theorem Goes.offered_cases (h : s.Goes r e) :
    (s.offered r e = r.wanted e ∧ r.wanted e ≤ s.limit r e) ∨
    (s.offered r e = s.limit r e ∧ s.limit r e ≤ r.wanted e) ∨
    (r.rest e = 1 ∧ 0 < s.offered r e ∧ s.offered r e ≤ s.limit r e) := by
  rw [offered_eq h]
  split_ifs with hpad
  · refine .inr (.inr ⟨(padSpecDecode_iff.mp hpad).2.2.2.2.1, ?_, h.2 hpad⟩)
    exact Nat.lt_add_right _ one_pos
  · rcases le_total (r.wanted e) (s.limit r e) with hle | hle
    · exact .inl ⟨min_eq_left hle, hle⟩
    · exact .inr (.inl ⟨min_eq_right hle, hle⟩)

/-- What is offered is enough if the limit is. -/
private theorem Goes.rest_le_offered_iff (h : s.Goes r e) :
    r.rest e ≤ s.offered r e ↔ r.rest e ≤ s.limit r e := by
  have hwanted := r.rest_le_wanted (e := e)
  rcases h.offered_cases with h | h | h <;> omega

/-- A position of 0 is no stop. -/
private theorem stop_iff {P : Prop} [Decidable P] {start stop last : ℕ} :
    ((start < if P then stop else 0) → last ≤ if P then stop else 0) ↔
      (P → start < stop → last ≤ stop) := by
  split_ifs with h <;> simp [h]

/-- The positions of cached states are before the end, but for the next block boundary. -/
private theorem forall_cached_stops_iff {last tail : ℕ}
    (hlast : s.getMambaPrefillCheckpointPosition r.numTokens s.cacheBlockSize = last)
    (htail : s.getMambaPrefillCheckpointPosition r.numPromptTokens s.hashBlockSize = tail) :
    ((r.start e % s.cacheBlockSize ≠ 0 →
        r.start e < (r.start e / s.cacheBlockSize + 1) * s.cacheBlockSize →
          r.start e + r.rest e ≤ (r.start e / s.cacheBlockSize + 1) * s.cacheBlockSize) ∧
      (r.start e < last → r.start e + r.rest e ≤ last) ∧
      ((last < if s.mambaPartialCacheHit = true then tail else 0) ∧
          (if s.mambaPartialCacheHit = true then tail else 0) < r.numPromptTokens →
        s.mambaPartialCacheHit = true → r.start e < tail → r.start e + r.rest e ≤ tail)) ↔
    (s.cacheBlockSize ∣ r.start e ∨
      r.start e + r.rest e ≤ (r.start e / s.cacheBlockSize + 1) * s.cacheBlockSize) ∧
    last ≤ r.start e ∧ (s.mambaPartialCacheHit = true → tail ≤ r.start e) := by
  have hprompt := r.prompt_le
  have hend : r.numTokens ≤ r.start e + r.rest e := by
    have := r.numComputed_le_start (e := e)
    rw [PrefillRequest.rest]
    omega
  have hnext : r.start e < (r.start e / s.cacheBlockSize + 1) * s.cacheBlockSize :=
    Nat.lt_mul_of_div_lt (Nat.lt_succ_self _) s.cacheBlockSize_pos
  have hlt : last ≤ r.numTokens - 1 := hlast ▸ checkpointPosition_le s.cacheBlockSize_pos
  have htlt : tail ≤ r.numPromptTokens - 1 := htail ▸ checkpointPosition_le s.hashBlockSize_pos
  have hboundary : (r.start e % s.cacheBlockSize ≠ 0 →
        r.start e < (r.start e / s.cacheBlockSize + 1) * s.cacheBlockSize →
          r.start e + r.rest e ≤ (r.start e / s.cacheBlockSize + 1) * s.cacheBlockSize) ↔
      s.cacheBlockSize ∣ r.start e ∨
        r.start e + r.rest e ≤ (r.start e / s.cacheBlockSize + 1) * s.cacheBlockSize := by
    rw [Nat.dvd_iff_mod_eq_zero, or_iff_not_imp_left]
    exact forall_congr' fun _ => ⟨fun h => h hnext, fun h _ => h⟩
  have hcached : (r.start e < last → r.start e + r.rest e ≤ last) ↔ last ≤ r.start e := by omega
  rw [hboundary, hcached]
  refine and_congr_right fun _ => and_congr_right fun hle => ?_
  by_cases hhit : s.mambaPartialCacheHit = true
  · simp only [hhit, if_true, true_imp_iff]
    omega
  · simp [hhit]

section Prefill

variable (hprefill : r.start e < r.prefillEnd)

include hprefill

private theorem offered_pos_iff : 0 < s.offered r e ↔ 0 < s.limit r e ∧ s.Goes r e := by
  have hrest := r.prefillEnd_le (e := e)
  have hwanted := r.rest_le_wanted (e := e)
  by_cases hgoes : s.Goes r e
  · rw [and_iff_left hgoes]
    rcases hgoes.offered_cases with h | h | h <;> omega
  · simp [offered_of_not_goes hgoes, hgoes]

private theorem Goes.lt_chunkEnd_iff (h : s.Goes r e) (hpos : 0 < s.limit r e) :
    r.start e < s.chunkEnd r (r.start e) (s.offered r e) ↔
      r.prefillEnd ≤ r.start e + s.limit r e ∨
      (r.start e / s.cacheBlockSize + 1) * s.cacheBlockSize ≤ r.start e + s.limit r e ∨
      s.maxNumScheduledTokens < s.cacheBlockSize ∨
      0 < s.longPrefillTokenThreshold ∧ s.longPrefillTokenThreshold < s.cacheBlockSize := by
  have hrest := r.prefillEnd_le (e := e)
  have hwanted := r.rest_le_wanted (e := e)
  have hoffered : 0 < s.offered r e := (offered_pos_iff hprefill).mpr ⟨hpos, h⟩
  have hmax : s.maxPrefillTokens < s.cacheBlockSize ↔ s.maxNumScheduledTokens < s.cacheBlockSize ∨
      0 < s.longPrefillTokenThreshold ∧ s.longPrefillTokenThreshold < s.cacheBlockSize := by
    rw [maxPrefillTokens]
    split_ifs with hthreshold
    · rw [min_lt_iff, and_iff_right hthreshold]
    · simp [hthreshold]
  rw [Scheduler.lt_chunkEnd_iff, and_iff_right hoffered, hmax]
  by_cases hreach : r.prefillEnd ≤ r.start e + s.limit r e
  · -- the end of the prefill is offered
    refine iff_of_true (.inl ?_) (.inl hreach)
    rcases h.offered_cases with h | h | h <;> omega
  · have hlimit : s.offered r e = s.limit r e := by
      rcases h.offered_cases with h | h | h <;> omega
    have hboundary : r.start e < (r.start e + s.limit r e) / s.cacheBlockSize * s.cacheBlockSize ↔
        (r.start e / s.cacheBlockSize + 1) * s.cacheBlockSize ≤ r.start e + s.limit r e := by
      rw [← Nat.div_lt_iff_lt_mul s.cacheBlockSize_pos, ← Nat.succ_le_iff,
        Nat.le_div_iff_mul_le s.cacheBlockSize_pos]
    rw [hlimit, hboundary]

private theorem useInternalCheckpoint_iff {last : ℕ} (hreach : r.prefillEnd ≤ last)
    (hlast : r.start e + new = last) :
    s.useInternalCheckpoint r (r.start e) new = true ↔ s.SavesInside r (r.start e) last := by
  have hblock : 0 < if s.mambaPartialCacheHit then s.hashBlockSize else s.blockSize := by
    split_ifs
    · exact s.hashBlockSize_pos
    · exact s.blockSize_pos
  have hbefore : s.prefillCheckpoint r < last :=
    ((checkpointPosition_le hblock).trans_lt (Nat.sub_lt (Nat.zero_lt_of_lt hprefill) one_pos)).trans_le
      hreach
  rw [useInternalCheckpoint, hlast, decide_eq_true hreach, Bool.and_true, Bool.and_eq_true,
    SavesInside]
  exact and_congr_right fun _ => isMambaPrefillCheckpointValid_iff s.cacheBlockSize_pos
    s.hashBlockSize_pos hbefore

/-- If all that is left is offered, no stop cuts it exactly if it is unbroken. -/
private theorem forall_stops_iff (h : s.Goes r e) (hle : r.rest e ≤ s.offered r e) :
    (∀ stop ∈ s.stops r (r.start e) (s.offered r e), r.start e < stop →
      r.start e + r.rest e ≤ stop) ↔ s.Unbroken r e := by
  have hrest := r.prefillEnd_le (e := e)
  have hlast : r.start e + s.offered r e = s.lastEnd r e := by
    rw [offered_eq h]
    rfl
  have hreach : r.prefillEnd ≤ s.lastEnd r e := by omega
  have hend : s.chunkEnd r (r.start e) (s.offered r e) = s.lastEnd r e :=
    (if_neg fun hcond => by omega).trans hlast
  have hinternal := useInternalCheckpoint_iff hprefill (s := s) hreach hlast
  rw [stops]
  simp only [forall_mem_cons, hend, not_mem_nil, false_imp_iff, implies_true, and_true, stop_iff]
  have hjunction : (r.start e < r.sharedPrefixBoundary ∧ r.sharedPrefixBoundary < s.lastEnd r e →
      r.start e < s.junctionStop r (r.start e) →
        r.start e + r.rest e ≤ s.junctionStop r (r.start e)) ↔
      (r.start e < r.sharedPrefixBoundary → r.sharedPrefixBoundary < s.lastEnd r e →
        s.junctionStop r (r.start e) ≤ r.start e ∨
          r.start e + r.rest e ≤ s.junctionStop r (r.start e)) := by
    rw [and_imp, or_iff_not_imp_left, not_le]
  rw [hjunction]
  by_cases hsaves : s.useInternalCheckpoint r (r.start e) (s.offered r e) = true
  · simp only [hsaves, Bool.not_true, Bool.and_false, Bool.false_eq_true, and_false, if_true,
      if_false, false_imp_iff, not_lt_zero, true_and, false_and]
    exact ⟨fun hstop => ⟨.inl (hinternal.mp hsaves), hstop⟩, fun hunbroken => hunbroken.junction⟩
  simp only [hsaves, Bool.not_false, Bool.and_true, and_true, Bool.false_eq_true, if_false]
  rw [← and_assoc, ← and_assoc, and_assoc (a := _ → _ → _), forall_cached_stops_iff rfl rfl]
  refine ⟨fun ⟨hcached, hstop⟩ => ⟨.inr hcached, hstop⟩, fun hunbroken =>
    ⟨hunbroken.cached.resolve_left fun hinside => hsaves (hinternal.mpr hinside), hunbroken.junction⟩⟩

end Prefill

/-- The budgets hold one block of 16 tokens, and a draft model needs one more slot. -/
def oneBlockBudget : Scheduler :=
  { cacheBlockSize := 16, blockSize := 16, hashBlockSize := 16, maxNumScheduledTokens := 16
    maxNumBatchedTokens := 16, draftSlots := 1, maxModelLen := 1024
    cacheBlockSize_pos := by decide, blockSize_pos := by decide, hashBlockSize_pos := by decide }

end Scheduler

end Sonar
