import Sonar.Core.LookupComplete

/-!
# Hits of chunked local attention

The lookup marks the blocks before the last chunk as computed, with null blocks, before it looks
for the blocks of that chunk. If the chunk starts inside a block that is then not found, the hit
ends in the chunk before, and its blocks are null. The theorem says when that happens: never if the
chunk size is a multiple of the block size, which the attention backends assert.
-/

namespace Sonar.ChunkedLocalAttentionManager

open Lib List

variable {n : ℕ} {pool : BlockPool n} {hashes : List BlockHash} {g : SpecGroup}
  {A maxLength chunkSize : ℕ}

/-- The first block of the last chunk: if it is not looked up or not cached, the lookup returns the
null blocks before it. -/
private theorem findLongestCacheHit_first (h : g.Fits pool.hashBlockSize A)
    (hkind : g.kind = .chunkedLocalAttention chunkSize) (hashes : List BlockHash) {s : ℕ}
    (hs : s = startBlock chunkSize g.blockSize maxLength) : if (s + 1) * g.blockSize ≤ maxLength ∧
        (hashes.length * pool.hashBlockSize < (s + 1) * g.blockSize ∨
          pool.cachedAt hashes g.groupIds ((s + 1) * g.blockSize) ≠ none) then
      ∀ rows length, findLongestCacheHit pool hashes maxLength g chunkSize false A =
        .ok (rows, length) → (s + 1) * g.blockSize ≤ length
    else findLongestCacheHit pool hashes maxLength g chunkSize false A =
      .ok (replicate s (pool.nullRow g), s * g.blockSize) := by
  obtain ⟨view, hview, hfind⟩ := findLongestCacheHit_eq h hkind hashes _
  rw [hfind, ← hs]
  rcases lt_or_ge s (maxLength / g.blockSize) with hlt | hge
  · have hle : (s + 1) * g.blockSize ≤ maxLength := (Nat.le_div_iff_mul_le h.block_pos).mp hlt
    obtain ⟨count, hcount⟩ := Nat.exists_eq_add_of_lt hlt
    rw [show maxLength / g.blockSize - s = count + 1 by omega, runUp]
    rcases lt_or_ge (hashes.length * pool.hashBlockSize) ((s + 1) * g.blockSize) with hend | hend
    · rw [if_pos ⟨hle, .inl hend⟩, hview.probe_of_lt h.dvd h.hash_pos hend]
      rintro rows length ⟨⟩
    · rw [hview.probe_of_le h.dvd h.hash_pos h.block_pos hend]
      cases hcached : pool.cachedAt hashes g.groupIds ((s + 1) * g.blockSize) with
      | none =>
        rw [if_neg (by simp [not_lt.mpr hend])]
        exact congrArg Except.ok (Prod.ext (append_nil _) rfl)
      | some row =>
        rw [if_pos ⟨hle, .inr (Option.some_ne_none row)⟩]
        intro rows length heq
        dsimp only at heq
        split at heq
        · cases heq
        · next hrun =>
          split at hrun
          · cases hrun
          · cases hrun
            obtain ⟨-, rfl⟩ := Prod.mk.inj (Except.ok.inj heq)
            exact Nat.mul_le_mul_right _ (by rw [length_cons]; omega)
  · have hlt : maxLength < (s + 1) * g.blockSize :=
      (Nat.div_lt_iff_lt_mul h.block_pos).mp (Nat.lt_succ_of_le hge)
    rw [if_neg fun hand => absurd hand.1 (not_le.mpr hlt), Nat.sub_eq_zero_of_le hge]
    exact congrArg Except.ok (Prod.ext (append_nil _) rfl)

/-- What a lookup returns has every block of the chunk that its length is in just when the last
chunk starts at a block, the block in which it starts begins a chunk, or that block is looked up
and cached. -/
theorem findLongestCacheHit_covers_iff (h : g.Fits pool.hashBlockSize A)
    (hkind : g.kind = .chunkedLocalAttention chunkSize) (hids : g.groupIds ≠ [])
    (hnull : ∀ length row, pool.cachedAt hashes g.groupIds length = some row →
      pool.nullBlock ∉ row) :
    (∀ rows length, findLongestCacheHit pool hashes maxLength g chunkSize false A =
        .ok (rows, length) → ∀ t < length, length / chunkSize * chunkSize ≤ t →
      g.Covers pool hashes rows t ∧
        ∀ row, rows[t / g.blockSize]? = some row → pool.nullBlock ∉ row) ↔
      g.blockSize ∣ maxLength / chunkSize * chunkSize ∨
      chunkSize ∣ startBlock chunkSize g.blockSize maxLength * g.blockSize ∨
      (startBlock chunkSize g.blockSize maxLength + 1) * g.blockSize ≤ maxLength ∧
        (hashes.length * pool.hashBlockSize <
            (startBlock chunkSize g.blockSize maxLength + 1) * g.blockSize ∨
          pool.cachedAt hashes g.groupIds
            ((startBlock chunkSize g.blockSize maxLength + 1) * g.blockSize) ≠ none) := by
  obtain ⟨hblock, hchunk, -⟩ := h.chunked _ hkind
  have hfirst := findLongestCacheHit_first h hkind hashes (rfl : _ = startBlock chunkSize _ maxLength)
  have hstart : maxLength / chunkSize * chunkSize <
      (startBlock chunkSize g.blockSize maxLength + 1) * g.blockSize :=
    FullAttentionManager.lt_div_add_one_mul _ h.block_pos
  generalize hs : startBlock chunkSize g.blockSize maxLength = s at hfirst hstart ⊢
  constructor
  · intro hcovers
    by_contra hnot
    obtain ⟨-, hnot⟩ := not_or.mp hnot
    obtain ⟨hdvd, hmiss⟩ := not_or.mp hnot
    rw [if_neg hmiss] at hfirst
    -- the position before the hit is in its chunk, and its block is null
    have hlt : s * g.blockSize / chunkSize * chunkSize < s * g.blockSize :=
      lt_of_le_of_ne (Nat.div_mul_le_self _ _) fun heq => hdvd (heq ▸ dvd_mul_left _ _)
    have hidx : (s * g.blockSize - 1) / g.blockSize < s :=
      (Nat.div_lt_iff_lt_mul h.block_pos).mpr (by omega)
    refine (hcovers _ _ hfirst (s * g.blockSize - 1) (by omega) (by omega)).2 (pool.nullRow g) ?_ ?_
    · rw [getElem?_replicate, if_pos hidx]
    · obtain ⟨id, hid⟩ := exists_mem_of_ne_nil _ hids
      exact mem_map.mpr ⟨id, hid, rfl⟩
  · intro hcond rows length heq t ht hneeds
    obtain ⟨hbounded, hge, husable⟩ := findLongestCacheHit_sound h hkind heq
    rw [hs] at hge
    have hcovers := (husable ?_).covers t ht (hkind ▸ hneeds)
    · obtain ⟨row, numTokens, hrow, -, -, hcached⟩ := id hcovers
      refine ⟨hcovers, fun row' hrow' => ?_⟩
      obtain rfl := Option.some.inj (hrow.symm.trans hrow')
      exact hnull _ row hcached
    · rcases hcond with hdvd | hdvd | hcached
      · rw [startBlock] at hs
        rw [← hs, Nat.div_mul_cancel hdvd] at hge
        exact .inl hge
      · refine (le_or_gt _ length).imp_right fun hlt => ?_
        obtain ⟨k, rfl⟩ := exists_eq_mul_left_of_dvd (hblock ▸ hbounded.aligned)
        have hk : k < s + 1 := Nat.lt_of_mul_lt_mul_right (hlt.trans hstart)
        rwa [le_antisymm (Nat.lt_succ_iff.mp hk) (le_of_mul_le_mul_right hge h.block_pos)]
      · rw [if_pos hcached] at hfirst
        exact .inl (hstart.le.trans (hfirst rows length heq))

/-- Chunks of one block and a half. -/
def halfChunks : SpecGroup := ⟨.chunkedLocalAttention 24, 16, [0], false⟩

/-- Nothing is cached, but the first block counts as a hit, and the chunk of its end begins with
it. -/
theorem findLongestCacheHit_halfChunks : let pool := tablePool 16 fun _ _ => false
    findLongestCacheHit pool (tableHashes 2) 40 halfChunks 24 false 16 =
      .ok ([[pool.nullBlock]], 16) ∧ 16 / 24 * 24 = 0 := by
  decide

/-- Chunks of two blocks. -/
def wholeChunks : SpecGroup := ⟨.chunkedLocalAttention 32, 16, [0], false⟩

/-- Of three blocks the last is cached, the first of its chunk. The lookup up to 63 tokens returns
it after two null blocks, and it covers the chunk up to the length returned. -/
theorem covers_wholeChunks : let pool := tablePool 16 fun _ numTokens => numTokens == 48
    let rows := [[pool.nullBlock], [pool.nullBlock], [1]]
    findLongestCacheHit pool (tableHashes 3) 63 wholeChunks 32 false 16 = .ok (rows, 48) ∧
      ∀ t < 48, 32 ≤ t → wholeChunks.Covers pool (tableHashes 3) rows t ∧
        ∀ row, rows[t / 16]? = some row → pool.nullBlock ∉ row := by
  intro pool rows
  have hfits : wholeChunks.Fits 16 16 :=
    ⟨by decide, by decide, by decide, by decide, .inl (by decide), fun c hc => by
      obtain rfl := AttentionKind.chunkedLocalAttention.inj hc
      decide⟩
  have hfind : findLongestCacheHit pool (tableHashes 3) 63 wholeChunks 32 false 16 =
      .ok (rows, 48) := by decide
  refine ⟨hfind, (findLongestCacheHit_covers_iff hfits rfl (by decide) fun length row hrow => ?_).mpr
    (.inl (by decide)) rows 48 hfind⟩
  by_cases hlength : length = 48
  · have hrow' : pool.cachedAt (tableHashes 3) wholeChunks.groupIds 48 = some [1] := by decide
    rw [hlength, hrow', Option.some.injEq] at hrow
    rw [← hrow]
    decide
  · rw [cachedAt_tablePool_eq_none (by decide) (by decide)
      (show 0 ∈ wholeChunks.groupIds by decide) (by simpa using hlength)] at hrow
    cases hrow

end Sonar.ChunkedLocalAttentionManager
