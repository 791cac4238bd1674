import Sonar.Core.HybridHit

/-!
# Lookups of full caches

A group all of whose prefixes are cached accepts every aligned length, with room for the unit that
EAGLE drops; a sliding window needs only the blocks of its window. `tablePool` is a pool with
prescribed contents, to show what a coordinator can be made to return.
-/

namespace Sonar

open Lib List

variable {n : ℕ} {pool : BlockPool n} {hashes : List BlockHash} {g : SpecGroup} {A L : ℕ}

/-- Every prefix the request has a hash for is cached. -/
def SpecGroup.AllCached (g : SpecGroup) (pool : BlockPool n) (hashes : List BlockHash) : Prop :=
  ∀ numTokens, pool.hashBlockSize ∣ numTokens → 0 < numTokens →
    numTokens ≤ hashes.length * pool.hashBlockSize →
    pool.cachedAt hashes g.groupIds numTokens ≠ none

variable {view : List BlockHash} {groupIds : List ℕ} {drop : Bool}
  {hashBlockSize count : ℕ} {cached : ℕ → ℕ → Bool}

private theorem IsView.probe_cached {u : ℕ}
    (hview : IsView pool hashes u view) (hu : pool.hashBlockSize ∣ u)
    (hpos : 0 < pool.hashBlockSize) (hu' : 0 < u) {i : ℕ}
    (hi : (i + 1) * u ≤ hashes.length * pool.hashBlockSize)
    (hcached : pool.cachedAt hashes groupIds ((i + 1) * u) ≠ none) :
    ∃ row, pool.probe view groupIds i = .ok (some row) := by
  obtain ⟨row, hrow⟩ := Option.ne_none_iff_exists'.mp hcached
  exact ⟨row, by rw [hview.probe_of_le hu hpos hu' hi, hrow]⟩

private theorem SpecGroup.AllCached.probe {u : ℕ}
    (h : g.AllCached pool hashes) (hview : IsView pool hashes u view)
    (hu : pool.hashBlockSize ∣ u) (hpos : 0 < pool.hashBlockSize) (hu' : 0 < u) {i : ℕ}
    (hi : (i + 1) * u ≤ hashes.length * pool.hashBlockSize) :
    ∃ row, pool.probe view g.groupIds i = .ok (some row) :=
  hview.probe_cached hu hpos hu' hi
    (h _ (hu.mul_left _) (mul_pos (Nat.succ_pos i) hu') hi)

/-! ### Full attention -/

namespace FullAttentionManager

private theorem IsView.le_length {u k : ℕ} (hview : IsView pool hashes u view)
    (hu : pool.hashBlockSize ∣ u) (hpos : 0 < pool.hashBlockSize) (hu' : 0 < u)
    (hk : k * u ≤ hashes.length * pool.hashBlockSize) : k ≤ view.length := by
  rcases k with _ | k
  · exact Nat.zero_le _
  · have hprobe : pool.probe view [] k = _ := hview.probe_of_le hu hpos hu' hk
    by_contra hlt
    rw [BlockPool.probe, getElem?_eq_none (by omega)] at hprobe
    cases hprobe

section

variable (h : g.Fits pool.hashBlockSize A) (hall : g.AllCached pool hashes)

include h hall

private theorem runUp_allCached (hview : IsView pool hashes g.blockSize view) {maxLength : ℕ}
    (hmax : maxLength ≤ hashes.length * pool.hashBlockSize) :
    ∃ rows, runUp (pool.probe view g.groupIds)
        (min (maxLength / g.blockSize) view.length) 0 = .ok rows ∧
      rows.length = maxLength / g.blockSize := by
  have hle : maxLength / g.blockSize * g.blockSize ≤ hashes.length * pool.hashBlockSize :=
    (Nat.div_mul_le_self _ _).trans hmax
  rw [min_eq_left (IsView.le_length hview h.dvd h.hash_pos h.block_pos hle)]
  refine runUp_complete fun k hk => ?_
  rw [zero_add]
  exact hall.probe hview h.dvd h.hash_pos h.block_pos ((Nat.mul_le_mul_right _ hk).trans hle)

/-- The lookup of a full cache covers every length that is a multiple of the unit. -/
private theorem findLongestCacheHit_allCached {maxLength : ℕ}
    (hmax : maxLength ≤ hashes.length * pool.hashBlockSize) (hunit : g.unit A ∣ maxLength)
    (drop : Bool) : ∃ rows, findLongestCacheHit pool hashes maxLength g drop A =
      .ok (dropAndAlign rows maxLength g drop A) := by
  rcases h.coarse_or_fine with ⟨hcoarse, -, heq⟩ | ⟨hfine, hA, hdvd, hlt, -, heq⟩
  · obtain ⟨view, hresolve, hview⟩ := viewHashes_coarse hashes h hcoarse
    obtain ⟨rows, hrun, hlength⟩ := runUp_allCached h hall hview hmax
    refine ⟨rows, ?_⟩
    simp only [findLongestCacheHit, hresolve, hcoarse, Bool.false_eq_true, if_false, hrun]
    rw [hlength, Nat.div_mul_cancel (heq ▸ hunit)]
  · obtain ⟨hresolve, hviewA⟩ := viewHashes_fine hashes h hfine
    have hdvdA : A ∣ maxLength := heq ▸ hunit
    obtain ⟨q, rfl⟩ := exists_eq_mul_left_of_dvd hdvdA
    obtain ⟨s, hs⟩ := exists_eq_mul_left_of_dvd hdvd
    have hs' : 0 < s := Nat.pos_of_mul_pos_right (hs ▸ h.block_pos)
    have hscale : g.blockSize / A = s := by rw [hs, Nat.mul_div_cancel _ h.align_pos]
    have hview : IsView pool hashes g.blockSize (scaledBlockHashes hashes (g.blockSize / A)) := by
      intro i
      rw [hA]
      exact getElem?_scaledBlockHashes (Nat.div_pos (hA ▸ hlt.le) h.hash_pos)
    obtain ⟨rows, hrun, hlength⟩ := runUp_allCached h hall hview hmax
    have hfull : rows.length = q / s := by
      rw [hlength, hs, mul_comm s A, ← Nat.div_div_eq_div_mul, Nat.mul_div_cancel _ h.align_pos]
    have hq : q ≤ hashes.length := le_of_mul_le_mul_right (hA ▸ hmax) h.hash_pos
    have hmod : q / s * s + q % s = q := Nat.div_add_mod' q s
    have hrem : q % s < s := Nat.mod_lt _ hs'
    -- the partial block has `q % s` hashes, and the last of them is cached
    have hcount : min (min (q / s * s + s - 1) (q * A / A)) hashes.length - q / s * s = q % s := by
      rw [Nat.mul_div_cancel _ h.align_pos]
      omega
    have htail : findPartialTail pool hashes (q * A) g A rows.length =
        findDown (fun k => pool.probe hashes g.groupIds (q / s * s + k)) (fun _ => true)
          (q % s) := by
      rw [findPartialTail, hscale, hfull, hcount]
    simp only [findLongestCacheHit, hresolve, hfine, if_true, hrun, htail]
    rcases hr : q % s with _ | r
    · refine ⟨rows, ?_⟩
      have hlen : rows.length * g.blockSize = q * A := by
        rw [hfull, hs, ← mul_assoc]
        congr 1
        omega
      simp [findDown, hlen]
    · obtain ⟨row, hrow⟩ := hall.probe hviewA (hA ▸ dvd_rfl) h.hash_pos h.align_pos
        (i := q / s * s + r) (by
          rw [hA]
          exact Nat.mul_le_mul_right _ (by omega))
      have htop : findDown (fun k => pool.probe hashes g.groupIds (q / s * s + k))
          (fun _ => true) (r + 1) = .ok (some (r, row)) := findDown_top hrow rfl
      refine ⟨rows ++ [row], ?_⟩
      rw [htop]
      have hlen : rows.length * (g.blockSize / A) + r + 1 = q := by
        rw [hfull, hscale]
        omega
      simp [hlen]

/-- With the margin for EAGLE, the lookup of a full cache accepts the length. -/
private theorem findLongestCacheHit_accepts (hL : A ∣ L)
    (hmax : L + (if drop then g.unit A else 0) ≤ hashes.length * pool.hashBlockSize) :
    ∃ rows, findLongestCacheHit pool hashes (L + if drop then g.unit A else 0) g
      drop A = .ok (rows, L) := by
  obtain ⟨-, hunitA, hpos⟩ := unit_dvd h
  have hmod : L % A = 0 := Nat.mod_eq_zero_of_dvd hL
  obtain ⟨rows, hfind⟩ := findLongestCacheHit_allCached h hall hmax (by
    split_ifs
    · exact Nat.dvd_add (hunitA.trans hL) dvd_rfl
    · exact hunitA.trans hL) drop
  rw [hfind, dropAndAlign]
  rcases drop with _ | _
  · exact ⟨rows.take (cdiv L g.blockSize), by simp [hmod]⟩
  · refine ⟨rows.take (cdiv L g.blockSize), ?_⟩
    have hdrop : L + g.unit A - min A g.blockSize = L := Nat.add_sub_cancel _ _
    have hlt : 0 < L + g.unit A := by omega
    simp only [if_true, Bool.true_and, decide_eq_true hlt, hdrop, hmod, Nat.sub_zero]

end

end FullAttentionManager

/-! ### Sliding window -/

/-- How many blocks a sliding window needs below a hit. -/
def windowBlocks (windowSize blockSize : ℕ) : ℕ := max (cdiv (windowSize - 1) blockSize) 1

section

variable (h : g.Fits pool.hashBlockSize A)

include h

/-- The lookup finds the run of cached blocks below `e`, and returns what is left after the drop,
if nothing is cached between the run and the bound. -/
theorem SlidingWindowManager.findLongestCacheHit_complete {windowSize maxLength e : ℕ}
    (hkind : g.kind = .slidingWindow windowSize)
    (hmax : maxLength / g.blockSize * g.blockSize ≤ hashes.length * pool.hashBlockSize)
    (he : windowBlocks windowSize g.blockSize + 1 ≤ e) (hle : e ≤ maxLength / g.blockSize)
    (halign : A ∣ (if drop then e - 1 else e) * g.blockSize)
    (hrun : ∀ j < e, e ≤ j + (windowBlocks windowSize g.blockSize + if drop then 1 else 0) →
      pool.cachedAt hashes g.groupIds ((j + 1) * g.blockSize) ≠ none)
    (habove : ∀ j, e ≤ j → j < maxLength / g.blockSize →
      pool.cachedAt hashes g.groupIds ((j + 1) * g.blockSize) = none) :
    ∃ rows, findLongestCacheHit pool hashes maxLength g windowSize drop A =
      .ok (rows, (if drop then e - 1 else e) * g.blockSize) := by
  obtain ⟨view, hresolve, hview⟩ := viewHashes_coarse hashes h (coarse hkind h).1
  have hwithin : ∀ j < maxLength / g.blockSize,
      (j + 1) * g.blockSize ≤ hashes.length * pool.hashBlockSize := fun j hj =>
    (Nat.mul_le_mul_right _ hj).trans hmax
  have hneed : max (contiguousBlocksForHit windowSize g.blockSize drop) 1 ≤
      windowBlocks windowSize g.blockSize + if drop then 1 else 0 := by
    rw [contiguousBlocksForHit, windowBlocks]
    split_ifs <;> omega
  have hif : (if drop then 1 else 0) ≤ 1 := by split_ifs <;> omega
  obtain ⟨computed, num, hsearch, hlength⟩ : ∃ computed num,
      runDown (pool.probe view g.groupIds) (mayEndAt g.blockSize A drop)
        (contiguousBlocksForHit windowSize g.blockSize drop) _
        (replicate _ (pool.nullRow g)) 0 =
          .ok (computed, num, true) ∧ computed.length = e := by
    refine runDown_complete (by omega) hle (by rw [length_replicate]) ?_
      (fun j hj => ⟨_, hview.probe_of_le h.dvd h.hash_pos h.block_pos (hwithin j hj)⟩)
      (fun j hj hj' => ?_) fun j hj hj' => ?_
    · rw [mayEndAt, Nat.sub_add_cancel (by omega), Bool.or_eq_true, beq_iff_eq, beq_iff_eq]
      exact .inr (Nat.mod_eq_zero_of_dvd halign)
    · exact hview.probe_cached h.dvd h.hash_pos h.block_pos (hwithin j (by omega))
        (hrun j hj (by omega))
    · rw [hview.probe_of_le h.dvd h.hash_pos h.block_pos (hwithin j hj'), habove j hj hj']
  rw [findLongestCacheHit, hresolve]
  dsimp only
  rw [hsearch]
  refine ⟨trim computed num true g drop A, ?_⟩
  have htrim : (trim computed num true g drop A).length = if drop then e - 1 else e := by
    rcases drop with _ | _
    · exact hlength
    · rw [if_pos rfl] at halign
      have hne : computed.isEmpty = false := by
        rw [isEmpty_eq_false_iff, ← length_pos_iff]
        omega
      simp only [trim, if_true, Bool.true_and, hne, Bool.not_false, hlength]
      rw [numAligned_eq halign, length_take_of_le (by omega)]
  rw [← htrim]

/-- The lookup accepts a length below which the window is cached, with the unit after it if that
is dropped. -/
theorem SlidingWindowManager.findLongestCacheHit_accepts {windowSize k : ℕ}
    (hkind : g.kind = .slidingWindow windowSize) (hL : A ∣ k * g.blockSize)
    (hroom : (k + 1) * g.blockSize ≤ hashes.length * pool.hashBlockSize)
    (hk : windowBlocks windowSize g.blockSize + 1 ≤ k)
    (hrun : ∀ j, k ≤ j + windowBlocks windowSize g.blockSize → (j < k ∨ j = k ∧ drop = true) →
      pool.cachedAt hashes g.groupIds ((j + 1) * g.blockSize) ≠ none) :
    ∃ rows, findLongestCacheHit pool hashes
      (k * g.blockSize + if drop then g.unit A else 0) g windowSize drop A =
        .ok (rows, k * g.blockSize) := by
  obtain ⟨-, hunit⟩ := coarse hkind h
  have hlast : (k * g.blockSize + if drop then g.unit A else 0) / g.blockSize =
      k + if drop then 1 else 0 := by
    split_ifs
    · rw [hunit, ← Nat.succ_mul, Nat.mul_div_cancel _ h.block_pos]
    · rw [add_zero, Nat.mul_div_cancel _ h.block_pos]
      rfl
  have hcut : (if drop then k + (if drop then 1 else 0) - 1
      else k + if drop then 1 else 0) = k := by
    split_ifs <;> omega
  have hfind : ∃ rows, findLongestCacheHit pool hashes
      (k * g.blockSize + if drop then g.unit A else 0) g windowSize drop A =
        .ok (rows, (if drop then k + (if drop then 1 else 0) - 1
          else k + if drop then 1 else 0) * g.blockSize) := by
    refine findLongestCacheHit_complete h hkind ?_ (by omega) hlast.ge (by rw [hcut]; exact hL)
      (fun j hj hj' => hrun j (by omega) ?_) fun j hj hj' => by omega
    · rw [hlast]
      refine (Nat.mul_le_mul_right _ ?_).trans hroom
      split_ifs <;> omega
    · rcases lt_or_ge j k with hlt | hge
      · exact .inl hlt
      · split_ifs at hj with hdrop
        · exact .inr ⟨by omega, hdrop⟩
        · omega
  rwa [hcut] at hfind

/-! ### Chunked local attention and Mamba -/

section

variable (hall : g.AllCached pool hashes)

include hall

private theorem ChunkedLocalAttentionManager.findLongestCacheHit_accepts {chunkSize : ℕ} (hkind : g.kind = .chunkedLocalAttention chunkSize) (hL : A ∣ L)
    (hmax : L ≤ hashes.length * pool.hashBlockSize) :
    ∃ rows, findLongestCacheHit pool hashes L g chunkSize false A = .ok (rows, L) := by
  obtain ⟨hblock, -, -⟩ := h.chunked _ hkind
  obtain ⟨view, hview, hfind⟩ := findLongestCacheHit_eq h hkind hashes L
  have hle := startBlock_le chunkSize g.blockSize L
  have hdiv : L / g.blockSize * g.blockSize = L := Nat.div_mul_cancel (hblock ▸ hL)
  obtain ⟨cached, hrun, hlength⟩ : ∃ cached, runUp (pool.probe view g.groupIds)
      _
      (startBlock chunkSize g.blockSize L) = .ok cached ∧
        cached.length = L / g.blockSize - startBlock chunkSize g.blockSize L := by
    refine runUp_complete fun k hk => ?_
    refine hall.probe hview h.dvd h.hash_pos h.block_pos ?_
    refine (Nat.mul_le_mul_right _ ?_).trans (hdiv.le.trans hmax)
    omega
  rw [hfind, hrun]
  dsimp only
  rw [hlength, Nat.add_sub_cancel' hle, hdiv]
  exact ⟨_, rfl⟩

private theorem MambaManager.findLongestCacheHit_accepts (hL : A ∣ L) (hpos : 0 < L)
    (hmax : L ≤ hashes.length * pool.hashBlockSize) :
    ∃ rows, findLongestCacheHit pool hashes L g A = .ok (rows, L) := by
  rw [findLongestCacheHit]
  rcases h.coarse_or_fine with ⟨hcoarse, hdvd, -⟩ | ⟨hfine, hA, -, -, -, -⟩
  · obtain ⟨view, hresolve, hview⟩ := viewHashes_coarse hashes h hcoarse
    obtain ⟨k, rfl⟩ := exists_eq_mul_left_of_dvd (hdvd.trans hL)
    obtain ⟨i, rfl⟩ := Nat.exists_eq_add_one_of_ne_zero (Nat.pos_of_mul_pos_right hpos).ne'
    obtain ⟨row, hrow⟩ := hall.probe hview h.dvd h.hash_pos h.block_pos hmax
    have htop : findDown (pool.probe view g.groupIds)
        (fun i => g.blockSize == A || (i + 1) * g.blockSize % A == 0) (i + 1) =
          .ok (some (i, row)) := by
      refine findDown_top hrow ?_
      rw [Bool.or_eq_true, beq_iff_eq, beq_iff_eq]
      exact .inr (Nat.mod_eq_zero_of_dvd hL)
    simp only [hresolve, hcoarse, Nat.mul_div_cancel _ h.block_pos,
      htop]
    exact ⟨_, rfl⟩
  · obtain ⟨hresolve, hview⟩ := viewHashes_fine hashes h hfine
    obtain ⟨k, rfl⟩ := exists_eq_mul_left_of_dvd hL
    obtain ⟨i, rfl⟩ := Nat.exists_eq_add_one_of_ne_zero (Nat.pos_of_mul_pos_right hpos).ne'
    obtain ⟨row, hrow⟩ := hall.probe hview (hA ▸ dvd_rfl) h.hash_pos h.align_pos hmax
    have hi : i + 1 ≤ hashes.length := le_of_mul_le_mul_right (hA ▸ hmax) h.hash_pos
    have htop : findDown (pool.probe hashes g.groupIds) (fun _ => true) (i + 1) =
        .ok (some (i, row)) := findDown_top hrow rfl
    simp only [hresolve, hfine, Nat.mul_div_cancel _ h.align_pos, min_eq_left hi, htop]
    exact ⟨_, rfl⟩

/-- How far a group looks for a length, with room for what it drops. -/
def SpecGroup.lookLength (g : SpecGroup) (A L : ℕ) (dropEagleBlock : Bool) : ℕ :=
  L + if dropEagleBlock && g.kind != .mamba then g.unit A else 0

/-- A full cache accepts an aligned length that is no shorter than a window. -/
theorem SpecGroup.findLongestCacheHit_accepts (hL : A ∣ L)
    (hroom : L + g.unit A ≤ hashes.length * pool.hashBlockSize) (hpos : 0 < L)
    (hwindow : ∀ w, g.kind = .slidingWindow w → (windowBlocks w g.blockSize + 1) * g.blockSize ≤ L)
    (hdrop : drop = true → g.useEagle = true) :
    ∃ rows, g.findLongestCacheHit pool hashes (g.lookLength A L drop) drop A = .ok (rows, L) := by
  have hmax : L + (if drop then g.unit A else 0) ≤ hashes.length * pool.hashBlockSize := by
    split_ifs <;> omega
  rw [findLongestCacheHit, lookLength]
  rcases hkind : g.kind with _ | w | k | _
  · have hne : (AttentionKind.fullAttention != .mamba) = true := rfl
    simp only [hne, Bool.and_true]
    exact FullAttentionManager.findLongestCacheHit_accepts h hall hL hmax
  · have hne : (AttentionKind.slidingWindow w != .mamba) = true := rfl
    simp only [hne, Bool.and_true]
    obtain ⟨-, hunit⟩ := SlidingWindowManager.coarse hkind h
    obtain ⟨hunitB, hunitA, -⟩ := FullAttentionManager.unit_dvd h
    obtain ⟨k, rfl⟩ := exists_eq_mul_left_of_dvd ((hunit ▸ hunitA).trans hL)
    have hk := le_of_mul_le_mul_right (hwindow w hkind) h.block_pos
    rw [hunit, ← Nat.succ_mul] at hroom
    refine SlidingWindowManager.findLongestCacheHit_accepts h hkind hL hroom hk fun j _ hj => ?_
    refine hall _ (h.dvd.mul_left _) (mul_pos (Nat.succ_pos j) h.block_pos) ?_
    exact (Nat.mul_le_mul_right _ (by omega)).trans hroom
  · obtain rfl := h.chunked_drop hkind hdrop
    simp only [Bool.false_and]
    exact ChunkedLocalAttentionManager.findLongestCacheHit_accepts h hall hkind hL (by omega)
  · have hne : (AttentionKind.mamba != .mamba) = false := rfl
    simp only [hne, Bool.and_false, Bool.false_eq_true, if_false]
    exact MambaManager.findLongestCacheHit_accepts h hall hL hpos (by omega)

end

end

/-! ### Pools with prescribed contents -/

/-- A lookup for several groups finds something if every one of them has a block. -/
private theorem getCachedBlock_ne_none (pool : BlockPool n) (blockHash : BlockHash) (groupIds : List ℕ) :
    pool.getCachedBlock blockHash groupIds ≠ none ↔ ∀ id ∈ groupIds,
      pool.cachedBlockHashToBlock.getOneBlock (makeBlockHashWithGroupId blockHash id) ≠ none := by
  induction groupIds with
  | nil => simp [BlockPool.getCachedBlock]
  | cons id ids ih =>
    rw [BlockPool.getCachedBlock] at ih ⊢
    rw [mapM_cons, forall_mem_cons, ← ih]
    rcases pool.cachedBlockHashToBlock.getOneBlock (makeBlockHashWithGroupId blockHash id) with
      _ | b
    · simp
    · rcases mapM (fun groupId => pool.cachedBlockHashToBlock.getOneBlock
        (makeBlockHashWithGroupId blockHash groupId)) ids with _ | bs
      · simp
      · simp

/-- `count` hashes, all different: the `i`-th has length `i`. -/
def tableHashes (count : ℕ) : List BlockHash := (List.range count).map fun i => List.replicate i 0

/-- The number that a list of bytes stands for, most significant first. -/
def groupIdOf (bytes : List UInt8) : ℕ := bytes.foldl (fun acc b => acc * 256 + b.toNat) 0

private theorem groupIdOf_groupIdBytes {id : ℕ} (hid : id < 2 ^ 32) : groupIdOf (groupIdBytes id) = id := by
  simp only [groupIdOf, groupIdBytes, foldl_cons, foldl_nil, UInt8.toNat_ofNat']
  omega

/-- A pool in which group `id` has a block for the prefix of `numTokens` tokens of `tableHashes`
if `cached id numTokens`. -/
def tablePool (hashBlockSize : ℕ) (cached : ℕ → ℕ → Bool) : BlockPool 2 where
  enableCaching := true
  hashBlockSize := hashBlockSize
  refCnt := fun _ => 0
  blockHash := fun _ => none
  blockHashNumTokens := fun _ => none
  isNull := fun b => b = 0
  nullBlock := 0
  freeBlockQueue := .ofList [1]
  cachedBlockHashToBlock := ⟨fun key =>
    if cached (groupIdOf (key.drop (key.length - 4))) ((key.length - 4 + 1) * hashBlockSize) then
      some (.one 1)
    else none⟩
  cachedBlockHashesByBlock := fun _ => []
  reuseWatchers := fun _ => false

private theorem cachedAt_tablePool {k : ℕ} (hpos : 0 < hashBlockSize) (hk : k < count)
    (hids : ∀ id ∈ groupIds, id < 2 ^ 32) :
    (tablePool hashBlockSize cached).cachedAt (tableHashes count) groupIds
        ((k + 1) * hashBlockSize) ≠ none ↔
      ∀ id ∈ groupIds, cached id ((k + 1) * hashBlockSize) = true := by
  have hget : (tableHashes count)[k]? = some (replicate k 0) := by
    simp [tableHashes, hk]
  have hpos' : 0 < (k + 1) * hashBlockSize := mul_pos (Nat.succ_pos k) hpos
  have hcached : (tablePool hashBlockSize cached).cachedAt (tableHashes count) groupIds
      ((k + 1) * hashBlockSize) =
        (tablePool hashBlockSize cached).getCachedBlock (replicate k 0) groupIds := by
    have hsize : (tablePool hashBlockSize cached).hashBlockSize = hashBlockSize := rfl
    rw [BlockPool.cachedAt, hsize, if_pos ⟨Nat.mul_mod_left _ _, hpos'⟩,
      Nat.mul_div_cancel _ hpos, Nat.add_sub_cancel, hget]
    rfl
  rw [hcached, getCachedBlock_ne_none]
  refine forall₂_congr fun id hid => ?_
  have hlength : (makeBlockHashWithGroupId (replicate k 0) id).length - 4 = k := by
    simp [makeBlockHashWithGroupId, groupIdBytes]
  have hdrop : (makeBlockHashWithGroupId (replicate k 0) id).drop k = groupIdBytes id := by
    simp [makeBlockHashWithGroupId]
  rw [BlockHashToBlockMap.getOneBlock, tablePool]
  simp only [hlength, hdrop, groupIdOf_groupIdBytes (hids id hid)]
  split_ifs with h <;> simpa using h

/-- As many hashes as asked for. -/
theorem length_tableHashes (count : ℕ) : (tableHashes count).length = count := by
  simp [tableHashes]

/-- What the table says is what the pool has. -/
theorem cachedAt_tablePool_iff {numTokens : ℕ}
    (hpos : 0 < hashBlockSize) (hids : ∀ id ∈ groupIds, id < 2 ^ 32)
    (hdvd : hashBlockSize ∣ numTokens) (hnum : 0 < numTokens)
    (hle : numTokens ≤ count * hashBlockSize) :
    (tablePool hashBlockSize cached).cachedAt (tableHashes count) groupIds numTokens ≠ none ↔
      ∀ id ∈ groupIds, cached id numTokens = true := by
  obtain ⟨k, rfl⟩ := exists_eq_mul_left_of_dvd hdvd
  obtain ⟨i, rfl⟩ := Nat.exists_eq_add_one_of_ne_zero (Nat.pos_of_mul_pos_right hnum).ne'
  exact cachedAt_tablePool hpos (le_of_mul_le_mul_right hle hpos) hids

/-- Nothing is cached for a group that is in the table with no prefix. -/
theorem cachedAt_tablePool_eq_none {numTokens id : ℕ} (hpos : 0 < hashBlockSize)
    (hids : ∀ id ∈ groupIds, id < 2 ^ 32) (hid : id ∈ groupIds)
    (hcached : cached id numTokens = false) :
    (tablePool hashBlockSize cached).cachedAt (tableHashes count) groupIds numTokens = none := by
  by_contra hne
  have hsize : (tablePool hashBlockSize cached).hashBlockSize = hashBlockSize := rfl
  -- only prefixes of hashed blocks are looked up
  have hnum : numTokens % hashBlockSize = 0 ∧ 0 < numTokens := by
    by_contra hnot
    rw [BlockPool.cachedAt, hsize, if_neg hnot] at hne
    exact hne rfl
  have hle : numTokens ≤ count * hashBlockSize := by
    by_contra hlt
    have hge : count ≤ numTokens / hashBlockSize - 1 := by
      have : count + 1 ≤ numTokens / hashBlockSize := by
        rw [Nat.le_div_iff_mul_le hpos]
        obtain ⟨k, rfl⟩ := exists_eq_mul_left_of_dvd (Nat.dvd_of_mod_eq_zero hnum.1)
        exact Nat.mul_le_mul_right _ (Nat.lt_of_mul_lt_mul_right (not_le.mp hlt))
      omega
    rw [BlockPool.cachedAt, hsize, if_pos hnum,
      getElem?_eq_none (by rw [length_tableHashes]; exact hge)] at hne
    exact hne rfl
  have := (cachedAt_tablePool_iff hpos hids (Nat.dvd_of_mod_eq_zero hnum.1) hnum.2 hle).mp hne id
    hid
  rw [hcached] at this
  cases this

end Sonar
