import Sonar.Core.LookupSound

/-!
# The hybrid coordinator's search for a common hit

The groups of a hybrid model must resume at one length. The search starts from an upper bound and
lets every group look up the current candidate in turn; each accepts it or lowers it, and the
passes are repeated until one lowers it no more. Full attention is looked up once, its hits can be
cut to any shorter length; a model of full attention and one other type needs one pass.

With EAGLE a group looks one unit further and drops it, once for each candidate: the indices of
groups whose drop has been made are kept in `eagleVerified`.
-/

namespace Sonar

open Lib List ChunkedLocalAttentionManager FullAttentionManager

/-- `eagle_proof_margin`: the tokens an EAGLE group matches past a hit before dropping them. -/
def eagleProofMargin (blockSize hashBlockSize : ℕ) (fineGrainedLookup : Bool) : ℕ :=
  if fineGrainedLookup && hashBlockSize < blockSize then hashBlockSize else blockSize

/-- `_cache_hit_alignment_tokens`. -/
def hitAlignment (hashBlockSize schedulerBlockSize : ℕ) (enablePartialHashHits : Bool) : ℕ :=
  if enablePartialHashHits then hashBlockSize else schedulerBlockSize

/-- `HybridKVCacheCoordinator` with the groups that take part in lookups, and what its constructor
establishes of them: block sizes are multiples of the hash block size and divide the scheduler
block size, partial hits are on only if the managers that look up whole blocks have blocks of one
hash, full attention comes first, and every group id is in one group. -/
structure HybridKVCacheCoordinator where
  hashBlockSize : ℕ
  schedulerBlockSize : ℕ
  enablePartialHashHits : Bool
  attentionGroups : List SpecGroup
  hashBlockSize_pos : 0 < hashBlockSize
  schedulerBlockSize_pos : 0 < schedulerBlockSize
  attentionGroups_ne_nil : attentionGroups ≠ []
  hashBlockSize_dvd : ∀ g ∈ attentionGroups, hashBlockSize ∣ g.blockSize
  blockSize_dvd : ∀ g ∈ attentionGroups, g.blockSize ∣ schedulerBlockSize
  partial_hits : enablePartialHashHits = true → ∀ g ∈ attentionGroups,
    g.kind.supportsFineGrainedHashLookup = false → g.blockSize = hashBlockSize
  full_first : attentionGroups.Pairwise fun g g' =>
    g'.kind = .fullAttention → g.kind = .fullAttention
  groupIds_ne_nil : ∀ g ∈ attentionGroups, g.groupIds ≠ []
  groupIds_nodup : (attentionGroups.flatMap SpecGroup.groupIds).Nodup
  groupIds_lt : ∀ g ∈ attentionGroups, ∀ id ∈ g.groupIds, id < 2 ^ 32
  chunkSize_pos : ∀ g ∈ attentionGroups, ∀ c, g.kind = .chunkedLocalAttention c → 0 < c

/-- The rows and the length of the last lookup of a group. -/
structure GroupHit (n : ℕ) where
  rows : List (Row n)
  hitLength : ℕ

/-- What the search carries from pass to pass: by index of the attention group. -/
structure SearchState (n : ℕ) where
  longestHitLength : ℕ
  hits : ℕ → Option (GroupHit n)
  eagleVerified : List ℕ

/-- Whether a group drops a unit in its next lookup. -/
def SearchState.dropEagleBlock {n : ℕ} (s : SearchState n) (g : SpecGroup) (idx : ℕ) : Bool :=
  g.useEagle && !s.eagleVerified.contains idx

/-- A block is dropped for speculative decoding only. -/
theorem SearchState.useEagle_of_drop {n : ℕ} {s : SearchState n} {g : SpecGroup} {idx : ℕ}
    (h : s.dropEagleBlock g idx = true) : g.useEagle = true :=
  (Bool.and_eq_true_iff.mp h).1

/-- What `find_longest_cache_hit` returns; the rows are listed by attention group. -/
structure CacheHit (n : ℕ) where
  rows : List (List (Row n))
  hitLength : ℕ
  numUncachedCommonPrefixTokens : ℕ

namespace HybridKVCacheCoordinator

variable (c : HybridKVCacheCoordinator) {n : ℕ} (pool : BlockPool n) (hashes : List BlockHash)

/-- Hit lengths are multiples of this. -/
def cacheHitAlignmentTokens : ℕ :=
  hitAlignment c.hashBlockSize c.schedulerBlockSize c.enablePartialHashHits

/-- What the lookup of chunked local attention asserts and no constructor checks: it does not use
EAGLE, and its blocks are as long as the alignment of hits. -/
class ChunkedSupported : Prop where
  supported : ∀ g ∈ c.attentionGroups, ∀ chunkSize, g.kind = .chunkedLocalAttention chunkSize →
    g.useEagle = false ∧ g.blockSize = c.cacheHitAlignmentTokens

/-- Whether the model has full attention and one other type. -/
def isSimpleHybrid : Bool :=
  match c.attentionGroups with
  | [g, _] => g.kind == .fullAttention
  | _ => false

/-- How far a group looks for the candidate `currHitLength`. -/
def maxLengthFor (g : SpecGroup) (dropEagleBlock : Bool) (currHitLength : ℕ) : ℕ :=
  if dropEagleBlock && g.kind != .mamba then
    min (currHitLength + eagleProofMargin g.blockSize c.hashBlockSize
        (c.enablePartialHashHits && g.kind.supportsFineGrainedHashLookup))
      (hashes.length * c.hashBlockSize)
  else currHitLength

/-- The body of the loop over the attention groups. -/
def visit (idx : ℕ) (g : SpecGroup) (currHitLength : ℕ) (s : SearchState n) :
    Except PyError (ℕ × SearchState n) :=
  match g.kind, s.hits idx with
  | .fullAttention, some hit => .ok (min currHitLength hit.hitLength, s)
  | _, _ =>
    let dropEagleBlock := s.dropEagleBlock g idx
    match g.findLongestCacheHit pool hashes (c.maxLengthFor hashes g dropEagleBlock currHitLength)
        dropEagleBlock c.cacheHitAlignmentTokens with
    | .error e => .error e
    | .ok (rows, newHitLength) => .ok (newHitLength,
      { longestHitLength := max s.longestHitLength newHitLength
        hits := Function.update s.hits idx (some ⟨rows, newHitLength⟩)
        eagleVerified :=
          if dropEagleBlock then idx :: s.eagleVerified
          -- the length shrank: earlier verifications do not count
          else if newHitLength < currHitLength then []
          else s.eagleVerified })

/-- One pass over the attention groups from index `idx` on. -/
def visitAll : List SpecGroup → ℕ → ℕ → SearchState n → Except PyError (ℕ × SearchState n)
  | [], _, currHitLength, s => .ok (currHitLength, s)
  | g :: gs, idx, currHitLength, s =>
    match c.visit pool hashes idx g currHitLength s with
    | .error e => .error e
    | .ok (currHitLength, s) => visitAll gs (idx + 1) currHitLength s

/-- The state the search starts with. -/
def initialState : SearchState n := ⟨0, fun _ => none, []⟩

/-- The rows of a group, cut to the common hit if they are of full attention. -/
def finalRows (s : SearchState n) (hitLength : ℕ) (g : SpecGroup) (idx : ℕ) : List (Row n) :=
  match s.hits idx with
  | none => []
  | some hit =>
    if g.kind = .fullAttention then hit.rows.take (cdiv hitLength g.blockSize) else hit.rows

/-- The longest prefix that every group holds, with the blocks of each group. -/
def findLongestCacheHit (maxCacheHitLength : ℕ) : Except PyError (CacheHit n) :=
  match descend (c.visitAll pool hashes c.attentionGroups 0) c.isSimpleHybrid maxCacheHitLength
      initialState with
  | .error e => .error e
  | .ok (hitLength, s) => .ok
    { rows := c.attentionGroups.zipIdx.map fun (g, idx) => finalRows s hitLength g idx
      hitLength := hitLength
      numUncachedCommonPrefixTokens := s.longestHitLength - hitLength }

/-! ### What a lookup returns -/

variable {c pool hashes} {g : SpecGroup} [c.ChunkedSupported]

/-- Every group fits the alignment. -/
theorem fits (hg : g ∈ c.attentionGroups) : g.Fits c.hashBlockSize c.cacheHitAlignmentTokens := by
  have hdvd := c.blockSize_dvd g hg
  have hpos : 0 < c.cacheHitAlignmentTokens := by
    rw [cacheHitAlignmentTokens, hitAlignment]
    split_ifs
    · exact c.hashBlockSize_pos
    · exact c.schedulerBlockSize_pos
  refine ⟨c.hashBlockSize_pos, Nat.pos_of_dvd_of_pos hdvd c.schedulerBlockSize_pos, hpos,
    c.hashBlockSize_dvd g hg, ?_, fun chunkSize hkind => ?_⟩
  · rw [cacheHitAlignmentTokens, hitAlignment]
    split_ifs with henabled
    · by_cases hsupports : g.kind.supportsFineGrainedHashLookup = true
      · exact .inr ⟨rfl, hsupports⟩
      · rw [Bool.not_eq_true] at hsupports
        exact .inl (c.partial_hits henabled g hg hsupports ▸ dvd_rfl)
    · exact .inl hdvd
  · obtain ⟨heagle, hblock⟩ := ChunkedSupported.supported g hg _ hkind
    exact ⟨hblock, c.chunkSize_pos g hg _ hkind, heagle⟩

/-- The margin is what the drop takes away. -/
theorem eagleProofMargin_eq (hg : g ∈ c.attentionGroups) :
    eagleProofMargin g.blockSize c.hashBlockSize
      (c.enablePartialHashHits && g.kind.supportsFineGrainedHashLookup) =
        g.unit c.cacheHitAlignmentTokens := by
  have hfit := fits hg
  have hle : c.hashBlockSize ≤ g.blockSize := Nat.le_of_dvd hfit.block_pos hfit.dvd
  rw [eagleProofMargin, SpecGroup.unit, cacheHitAlignmentTokens, hitAlignment]
  by_cases henabled : c.enablePartialHashHits = true
  · rw [henabled, if_pos rfl, min_eq_left hle]
    by_cases hsupports : g.kind.supportsFineGrainedHashLookup = true
    · rw [hsupports]
      split_ifs with hlt
      · rfl
      · exact le_antisymm (by simpa using hlt) hle
    · rw [Bool.not_eq_true] at hsupports
      rw [hsupports]
      exact c.partial_hits henabled g hg hsupports
  · have hdvd := Nat.le_of_dvd c.schedulerBlockSize_pos (c.blockSize_dvd g hg)
    simp [henabled, min_eq_right hdvd]

end HybridKVCacheCoordinator

/-- What a lookup up to `maxLength` that returned `rows` and `length` says about the rows. -/
def SpecGroup.Returned {n : ℕ} (g : SpecGroup) (pool : BlockPool n) (hashes : List BlockHash)
    (A maxLength : ℕ) (dropEagleBlock : Bool) (rows : List (Row n)) (length : ℕ) : Prop :=
  match g.kind with
  | .fullAttention => IsHit pool hashes g A dropEagleBlock rows length
  | .slidingWindow _ => g.Usable pool hashes rows length
  | .chunkedLocalAttention chunkSize =>
    startBlock chunkSize g.blockSize maxLength * g.blockSize ≤ length ∧
      (maxLength / chunkSize * chunkSize ≤ length ∨ chunkSize ∣ length →
        g.Usable pool hashes rows length)
  | .mamba => g.Usable pool hashes rows length ∧ length ≤ hashes.length * pool.hashBlockSize

section Lookup

variable {n : ℕ} {g : SpecGroup} {pool : BlockPool n} {hashes : List BlockHash}
  {A maxLength length : ℕ} {drop : Bool} {rows : List (Row n)}

/-- Whatever the kind of the group, a hit is within bounds and usable. -/
theorem findLongestCacheHit_returned (h : g.Fits pool.hashBlockSize A)
    (hdrop : drop = true → g.useEagle = true)
    (heq : g.findLongestCacheHit pool hashes maxLength drop A = .ok (rows, length)) :
    g.Bounded pool hashes A maxLength drop length ∧
      g.Returned pool hashes A maxLength drop rows length := by
  rw [SpecGroup.findLongestCacheHit] at heq
  rw [SpecGroup.Returned]
  rcases hkind : g.kind with _ | windowSize | chunkSize | _ <;> rw [hkind] at heq
  · obtain ⟨rows', length', hfind, hhit, hbounded⟩ :=
      findLongestCacheHit_spec h hashes _ drop
    obtain ⟨rfl, rfl⟩ := Prod.mk.inj (Except.ok.inj (hfind.symm.trans heq))
    exact ⟨hbounded, hhit⟩
  · exact (SlidingWindowManager.findLongestCacheHit_sound hkind h heq).symm
  · obtain rfl := h.chunked_drop hkind hdrop
    exact findLongestCacheHit_sound h hkind heq
  · obtain ⟨husable, hbounded, hle⟩ := MambaManager.findLongestCacheHit_sound h hkind heq
    exact ⟨hbounded, husable, hle⟩

/-- A lookup that returns a length in the chunk of the length it was given, or at the start of a
chunk, has usable rows. -/
theorem SpecGroup.Returned.usable (h : g.Returned pool hashes A maxLength drop rows length)
    (hne : g.kind ≠ .fullAttention)
    (hchunk : ∀ c, g.kind = .chunkedLocalAttention c → maxLength / c * c ≤ length ∨ c ∣ length) :
    g.Usable pool hashes rows length := by
  rw [Returned] at h
  rcases hkind : g.kind with _ | windowSize | chunkSize | _ <;> rw [hkind] at h
  · exact absurd hkind hne
  · exact h
  · exact h.2 (hchunk _ hkind)
  · exact h.1

/-- A lookup within the hashes of the request does not raise. Beyond them, full attention and
fine-grained lookups do not raise either, nor does chunked local attention if a block is always
inside or outside the last chunk. -/
theorem findLongestCacheHit_total (h : g.Fits pool.hashBlockSize A)
    (hdrop : drop = true → g.useEagle = true)
    (hmax : maxLength ≤ hashes.length * pool.hashBlockSize ∨ g.kind = .fullAttention ∨
      (∃ c, g.kind = .chunkedLocalAttention c ∧ c ∣ g.blockSize) ∨
      g.kind = .mamba ∧ g.fineGrained A = true) :
    ∃ rows length, g.findLongestCacheHit pool hashes maxLength drop A = .ok (rows, length) := by
  have hwithin : maxLength ≤ hashes.length * pool.hashBlockSize →
      maxLength / g.blockSize * g.blockSize ≤ hashes.length * pool.hashBlockSize :=
    (Nat.div_mul_le_self _ _).trans
  rw [SpecGroup.findLongestCacheHit]
  rcases hkind : g.kind with _ | windowSize | chunkSize | _ <;> simp only [hkind] at hmax ⊢
  · obtain ⟨rows, length, hfind, -⟩ :=
      findLongestCacheHit_spec h hashes _ drop
    exact ⟨rows, length, hfind⟩
  · exact SlidingWindowManager.findLongestCacheHit_total hkind h (hwithin (by simpa using hmax))
  · obtain rfl := h.chunked_drop hkind hdrop
    refine findLongestCacheHit_total h hkind ?_
    have hmax' : maxLength ≤ hashes.length * pool.hashBlockSize ∨ chunkSize ∣ g.blockSize := by
      simpa using hmax
    rcases hmax' with hle | hdvd
    · exact .inr (hwithin hle)
    · exact .inl (startBlock_eq hdvd)
  · refine MambaManager.findLongestCacheHit_total h ?_
    have hmax' : maxLength ≤ hashes.length * pool.hashBlockSize ∨ g.fineGrained A = true := by
      simpa using hmax
    exact hmax'.symm.imp_right hwithin

end Lookup

/-! ### One visit -/

namespace HybridKVCacheCoordinator

variable {c : HybridKVCacheCoordinator} {n : ℕ} {pool : BlockPool n} {hashes : List BlockHash}
  {g : SpecGroup} {idx curr curr' : ℕ} {s s' : SearchState n}

/-- What a visit did: it used an earlier hit of full attention, or looked the candidate up. -/
theorem visit_ok (h : c.visit pool hashes idx g curr s = .ok (curr', s')) :
    (g.kind = .fullAttention ∧ s' = s ∧
      ∃ hit, s.hits idx = some hit ∧ curr' = min curr hit.hitLength) ∨
    ((g.kind = .fullAttention → s.hits idx = none) ∧ ∃ rows,
      g.findLongestCacheHit pool hashes (c.maxLengthFor hashes g (s.dropEagleBlock g idx) curr)
        (s.dropEagleBlock g idx) c.cacheHitAlignmentTokens = .ok (rows, curr') ∧
      s'.hits = Function.update s.hits idx (some ⟨rows, curr'⟩) ∧
      s'.eagleVerified = if s.dropEagleBlock g idx then idx :: s.eagleVerified
        else if curr' < curr then [] else s.eagleVerified) := by
  rw [visit] at h
  split at h
  · next hit hkind hhit =>
    obtain ⟨rfl, rfl⟩ := Prod.mk.inj (Except.ok.inj h)
    exact .inl ⟨hkind, rfl, hit, hhit, rfl⟩
  · next hnot =>
    refine .inr ⟨fun hkind => ?_, ?_⟩
    · rcases hhit : s.hits idx with _ | hit
      · rfl
      · exact (hnot hit hkind hhit).elim
    · dsimp only at h
      split at h
      · cases h
      · next rows newHitLength hfind =>
        obtain ⟨rfl, rfl⟩ := Prod.mk.inj (Except.ok.inj h)
        exact ⟨rows, hfind, rfl, rfl⟩

/-- What holds between visits. A hit of full attention covers the candidate, and an index is
verified only after a lookup within the hashes of the request. -/
structure Inv (c : HybridKVCacheCoordinator) (pool : BlockPool n) (hashes : List BlockHash)
    (curr : ℕ) (s : SearchState n) : Prop where
  full : ∀ idx g hit, c.attentionGroups[idx]? = some g → g.kind = .fullAttention →
    s.hits idx = some hit → IsHit pool hashes g c.cacheHitAlignmentTokens g.useEagle hit.rows
      hit.hitLength ∧ curr ≤ hit.hitLength
  unseen : ∀ idx, s.hits idx = none → idx ∉ s.eagleVerified
  aligned : (∀ idx, s.hits idx = none) ∨ c.cacheHitAlignmentTokens ∣ curr
  verified_le : s.eagleVerified ≠ [] → curr ≤ hashes.length * pool.hashBlockSize

/-- Nothing is known before the first pass. -/
theorem inv_initialState (c : HybridKVCacheCoordinator) (pool : BlockPool n)
    (hashes : List BlockHash) (curr : ℕ) : c.Inv pool hashes curr initialState :=
  ⟨fun _ _ _ _ _ hhit => (Option.some_ne_none _ hhit.symm).elim,
    fun _ _ => not_mem_nil, .inl fun _ => rfl, fun hne => (hne rfl).elim⟩

variable [c.ChunkedSupported]

/-- A lookup of the coordinator does not exceed the candidate. -/
theorem lookup_le (hpool : pool.hashBlockSize = c.hashBlockSize) (hg : g ∈ c.attentionGroups)
    {drop : Bool} (hbounded : g.Bounded pool hashes c.cacheHitAlignmentTokens
      (c.maxLengthFor hashes g drop curr) drop curr') :
    curr' ≤ curr ∧ (drop = true → g.kind ≠ .mamba →
      curr' ≤ hashes.length * pool.hashBlockSize) := by
  have hle := hbounded.le
  rw [maxLengthFor] at hle
  by_cases hdrop : drop = true ∧ g.kind ≠ .mamba
  · obtain ⟨rfl, hne⟩ := hdrop
    rw [if_pos (by simpa using hne), ← hpool] at hle
    refine ⟨?_, fun _ _ => hle.trans (min_le_right _ _)⟩
    rcases eq_zero_or_pos curr' with rfl | hpos
    · exact Nat.zero_le _
    · have hroom := (hbounded.peek rfl hne hpos).1
      rw [maxLengthFor, if_pos (by simpa using hne), eagleProofMargin_eq hg] at hroom
      omega
  · rw [if_neg (by simpa using hdrop)] at hle
    exact ⟨hle, fun htrue hne => (hdrop ⟨htrue, hne⟩).elim⟩

/-- One group shortens the hit, or keeps it. -/
theorem Inv.visit (hinv : c.Inv pool hashes curr s)
    (hpool : pool.hashBlockSize = c.hashBlockSize) (hget : c.attentionGroups[idx]? = some g)
    (h : c.visit pool hashes idx g curr s = .ok (curr', s')) :
    curr' ≤ curr ∧ c.Inv pool hashes curr' s' := by
  have hg : g ∈ c.attentionGroups := mem_of_getElem? hget
  have hfit : g.Fits pool.hashBlockSize c.cacheHitAlignmentTokens := hpool ▸ fits hg
  rcases visit_ok h with ⟨hkind, rfl, hit, hhit, rfl⟩ | ⟨hnone, rows, hfind, hhits, hverified⟩
  · -- the earlier hit covers the candidate
    rw [min_eq_left (hinv.full idx g hit hget hkind hhit).2]
    exact ⟨le_rfl, hinv⟩
  · obtain ⟨hbounded, hreturned⟩ := findLongestCacheHit_returned hfit
      SearchState.useEagle_of_drop hfind
    obtain ⟨hle, hcap⟩ := lookup_le hpool hg hbounded
    refine ⟨hle, ⟨fun idx' g' hit hget' hkind' hhit => ?_, fun idx' hhit => ?_, .inr hbounded.aligned,
      fun hne => ?_⟩⟩
    · rw [hhits] at hhit
      by_cases hidx : idx' = idx
      · subst hidx
        obtain rfl : g = g' := Option.some.inj (hget.symm.trans hget')
        rw [Function.update_self] at hhit
        obtain rfl := Option.some.inj hhit
        -- the first lookup of full attention drops if the group uses EAGLE
        have hdrop : s.dropEagleBlock g idx' = g.useEagle := by
          have := hinv.unseen idx' (hnone hkind')
          simp [SearchState.dropEagleBlock, this]
        rw [SpecGroup.Returned, hkind', hdrop] at hreturned
        exact ⟨hreturned, le_rfl⟩
      · rw [Function.update_of_ne hidx] at hhit
        obtain ⟨hhit', hle'⟩ := hinv.full idx' g' hit hget' hkind' hhit
        exact ⟨hhit', hle.trans hle'⟩
    · rw [hhits] at hhit
      have hidx : idx' ≠ idx := by
        rintro rfl
        rw [Function.update_self] at hhit
        cases hhit
      rw [Function.update_of_ne hidx] at hhit
      have hmem := hinv.unseen idx' hhit
      rw [hverified]
      split_ifs
      · simpa [hidx] using hmem
      · exact not_mem_nil
      · exact hmem
    · rw [hverified] at hne
      split_ifs at hne with hdrop hshrunk
      · by_cases hmamba : g.kind = .mamba
        · rw [SpecGroup.Returned, hmamba] at hreturned
          exact hreturned.2
        · exact hcap hdrop hmamba
      · exact (hne rfl).elim
      · exact hle.trans (hinv.verified_le hne)

end HybridKVCacheCoordinator

end Sonar
