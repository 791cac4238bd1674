import Mathlib.Tactic.Ring
import Sonar.Core.CacheLookup

/-!
# What a cache lookup returns

`cachedAt` is what the pool has for the prefix of a given length. `SpecGroup.Usable` says that the
rows a lookup returned let its groups resume at a length: every position the attention type needs
there is covered by the block that stands for it, and that block is cached for a prefix that
includes the position. For each attention type, a lookup that returns a length returns rows that
are usable at that length; for chunked local attention only if the length is still in the chunk
the lookup started from.
-/

namespace Sonar

open Lib List Nat

variable {n : ℕ} {pool : BlockPool n} {hashes : List BlockHash} {g : SpecGroup} {A : ℕ}

/-! ### Rounding -/

/-- Rounding up, from above. -/
theorem cdiv_le_iff {a b c : ℕ} (hb : 0 < b) : cdiv a b ≤ c ↔ a ≤ c * b := by
  rw [cdiv, ← Nat.lt_succ_iff, div_lt_iff_lt_mul hb, succ_mul]
  omega

/-- Rounding up, from below. -/
theorem lt_cdiv_iff {a b c : ℕ} (hb : 0 < b) : c < cdiv a b ↔ c * b < a := by
  rw [← not_le, cdiv_le_iff hb, not_le]

/-- Rounding up a multiple. -/
theorem cdiv_mul {k : ℕ} {b : ℕ} (hb : 0 < b) : cdiv (k * b) b = k :=
  le_antisymm ((cdiv_le_iff hb).mpr le_rfl)
    (le_of_mul_le_mul_right ((cdiv_le_iff hb).mp le_rfl) hb)

/-! ### Hashes at a block size -/

/-- What the pool has for the prefix of `numTokens` tokens, one block for each group. -/
def BlockPool.cachedAt (pool : BlockPool n) (hashes : List BlockHash) (groupIds : List ℕ)
    (numTokens : ℕ) : Option (Row n) :=
  if numTokens % pool.hashBlockSize = 0 ∧ 0 < numTokens then
    (hashes[numTokens / pool.hashBlockSize - 1]?).bind fun blockHash =>
      pool.getCachedBlock blockHash groupIds
  else none

/-- `view` lists the hashes of the prefixes whose length is a multiple of `u`. -/
def IsView (pool : BlockPool n) (hashes : List BlockHash) (u : ℕ) (view : List BlockHash) : Prop :=
  ∀ i, view[i]? = hashes[(i + 1) * (u / pool.hashBlockSize) - 1]?

private theorem getElem?_filterMap_range {α : Type*} {f : ℕ → Option α} {k : ℕ}
    (h : ∀ i < k, (f i).isSome) :
    ((List.range k).filterMap f).length = k ∧ ∀ i < k, ((List.range k).filterMap f)[i]? = f i := by
  induction k with
  | zero => exact ⟨rfl, fun i hi => absurd hi (not_lt_zero i)⟩
  | succ k ih =>
    obtain ⟨hlength, hget⟩ := ih fun i hi => h i (by omega)
    obtain ⟨a, ha⟩ := Option.isSome_iff_exists.mp (h k (lt_succ_self k))
    rw [range_succ, filterMap_append]
    simp only [filterMap_cons, ha, filterMap_nil]
    refine ⟨by rw [length_append, hlength, length_singleton], fun i hi => ?_⟩
    rcases lt_or_ge i k with hik | hik
    · rw [getElem?_append_left (by rw [hlength]; exact hik)]
      exact hget i hik
    · obtain rfl : i = k := by omega
      rw [getElem?_append_right hlength.le, hlength, Nat.sub_self, ha]
      rfl

/-- The hash of a larger block is that of its last small one. -/
theorem getElem?_scaledBlockHashes {s : ℕ} (hs : 0 < s) {i : ℕ} :
    (scaledBlockHashes hashes s)[i]? = hashes[(i + 1) * s - 1]? := by
  have hlt : ∀ idx, idx < hashes.length / s ↔ (idx + 1) * s - 1 < hashes.length := by
    intro idx
    have hpos : 0 < (idx + 1) * s := mul_pos (succ_pos idx) hs
    rw [lt_iff_add_one_le, le_div_iff_mul_le hs]
    omega
  obtain ⟨hlength, hget⟩ := getElem?_filterMap_range
    (f := fun idx => hashes[(idx + 1) * s - 1]?) fun idx hidx => by
      simpa using (hlt idx).mp hidx
  rcases lt_or_ge i (hashes.length / s) with hi | hi
  · exact hget i hi
  · rw [getElem?_eq_none_iff.mpr (by rw [scaledBlockHashes, hlength]; exact hi)]
    rw [getElem?_eq_none_iff.mpr]
    exact not_lt.mp ((hlt i).not.mp (not_lt.mpr hi))

section Probe

variable {u : ℕ} {view : List BlockHash} {groupIds : List ℕ}

private theorem cachedAt_mul {k : ℕ} (hpos : 0 < pool.hashBlockSize) (hk : 0 < k) :
    pool.cachedAt hashes groupIds (k * pool.hashBlockSize) =
      (hashes[k - 1]?).bind fun blockHash => pool.getCachedBlock blockHash groupIds := by
  have hpos' : 0 < k * pool.hashBlockSize := mul_pos hk hpos
  rw [BlockPool.cachedAt, if_pos ⟨mul_mod_left _ _, hpos'⟩, Nat.mul_div_cancel _ hpos]

section

variable (h : IsView pool hashes u view)
  (hu : pool.hashBlockSize ∣ u)
  (hpos : 0 < pool.hashBlockSize)

include h hu hpos

/-- A probe of a view finds what the pool has for the prefix that ends there. -/
theorem IsView.probe_of_le (hu' : 0 < u) {i : ℕ}
    (hi : (i + 1) * u ≤ hashes.length * pool.hashBlockSize) :
    pool.probe view groupIds i = .ok (pool.cachedAt hashes groupIds ((i + 1) * u)) := by
  obtain ⟨s, rfl⟩ := exists_eq_mul_left_of_dvd hu
  have hs : 0 < (i + 1) * s := mul_pos (succ_pos i) (Nat.pos_of_mul_pos_right hu')
  rw [← mul_assoc] at hi ⊢
  have hlt : (i + 1) * s - 1 < hashes.length := by
    have := le_of_mul_le_mul_right hi hpos
    omega
  rw [cachedAt_mul hpos hs, BlockPool.probe, h i, Nat.mul_div_cancel _ hpos,
    getElem?_eq_getElem hlt]
  rfl

/-- Beyond the hashes of the request there is nothing to probe. -/
theorem IsView.probe_of_lt {i : ℕ} (hi : hashes.length * pool.hashBlockSize < (i + 1) * u) :
    pool.probe view groupIds i = .error .indexError := by
  obtain ⟨s, rfl⟩ := exists_eq_mul_left_of_dvd hu
  rw [← mul_assoc] at hi
  have hle : hashes.length ≤ (i + 1) * s - 1 := by
    have := lt_of_mul_lt_mul_right hi
    omega
  rw [BlockPool.probe, h i, Nat.mul_div_cancel _ hpos, getElem?_eq_none hle]

/-- A probe that hits finds the blocks of that prefix. -/
theorem IsView.probe_sound (hu' : 0 < u) {i : ℕ} {row : Row n}
    (hi : pool.probe view groupIds i = .ok (some row)) :
    (i + 1) * u ≤ hashes.length * pool.hashBlockSize ∧
      pool.cachedAt hashes groupIds ((i + 1) * u) = some row := by
  rcases lt_or_ge (hashes.length * pool.hashBlockSize) ((i + 1) * u) with hlt | hle
  · rw [h.probe_of_lt hu hpos hlt] at hi
    cases hi
  · rw [h.probe_of_le hu hpos hu' hle] at hi
    exact ⟨hle, Except.ok.inj hi⟩

end

end Probe

/-! ### Groups a coordinator accepts -/

/-- What a coordinator has checked of a group: block sizes are multiples of the hash block size and
divide the alignment of hits, unless hits are aligned to hashes and the manager supports that; and
what the lookup of chunked local attention insists on. -/
structure SpecGroup.Fits (g : SpecGroup) (hashBlockSize alignmentTokens : ℕ) : Prop where
  hash_pos : 0 < hashBlockSize
  block_pos : 0 < g.blockSize
  align_pos : 0 < alignmentTokens
  dvd : hashBlockSize ∣ g.blockSize
  align : g.blockSize ∣ alignmentTokens ∨
    alignmentTokens = hashBlockSize ∧ g.kind.supportsFineGrainedHashLookup = true
  chunked : ∀ c, g.kind = .chunkedLocalAttention c →
    g.blockSize = alignmentTokens ∧ 0 < c ∧ g.useEagle = false

/-- Chunked local attention does not drop. -/
theorem SpecGroup.Fits.chunked_drop {hashBlockSize k : ℕ} {drop : Bool}
    (h : g.Fits hashBlockSize A) (hkind : g.kind = .chunkedLocalAttention k)
    (hdrop : drop = true → g.useEagle = true) : drop = false := by
  rw [← Bool.not_eq_true]
  intro htrue
  have heagle := hdrop htrue
  rw [(h.chunked k hkind).2.2] at heagle
  cases heagle

/-- What a group drops from a hit for EAGLE, in tokens. -/
def SpecGroup.unit (g : SpecGroup) (alignmentTokens : ℕ) : ℕ := min alignmentTokens g.blockSize

/-- A group is looked up by its own blocks, or by the smaller hash blocks. -/
theorem SpecGroup.Fits.coarse_or_fine {hashBlockSize : ℕ} (h : g.Fits hashBlockSize A) :
    (g.fineGrained A = false ∧ g.blockSize ∣ A ∧ g.unit A = g.blockSize) ∨
      (g.fineGrained A = true ∧ A = hashBlockSize ∧ A ∣ g.blockSize ∧ A < g.blockSize ∧
        g.kind.supportsFineGrainedHashLookup = true ∧ g.unit A = A) := by
  have hcoarse : g.blockSize ∣ A → (g.fineGrained A = false ∧ g.blockSize ∣ A ∧
      g.unit A = g.blockSize) := by
    intro hdvd
    have hle := le_of_dvd h.align_pos hdvd
    refine ⟨?_, hdvd, min_eq_right hle⟩
    simp [fineGrained, not_lt.mpr hle]
  rcases h.align with hdvd | ⟨rfl, hfine⟩
  · exact .inl (hcoarse hdvd)
  · rcases (le_of_dvd h.block_pos h.dvd).eq_or_lt with heq | hlt
    · exact .inl (hcoarse (heq ▸ dvd_rfl))
    · refine .inr ⟨?_, rfl, h.dvd, hlt, hfine, min_eq_left hlt.le⟩
      simp [fineGrained, hlt, mod_eq_zero_of_dvd h.dvd]

/-- Lookups by the block see the hashes at the block size. -/
theorem viewHashes_coarse (hashes : List BlockHash) (h : g.Fits pool.hashBlockSize A)
    (hcoarse : g.fineGrained A = false) :
    ∃ view, pool.viewHashes hashes g A = .ok view ∧ IsView pool hashes g.blockSize view := by
  rw [BlockPool.viewHashes, resolveBlockHashes]
  have hnot : ¬(A < g.blockSize ∧ g.blockSize % A = 0) := by
    simpa [SpecGroup.fineGrained] using hcoarse
  split_ifs with heq hfine hmod
  · refine ⟨hashes, rfl, fun i => ?_⟩
    rw [heq, Nat.div_self h.hash_pos, mul_one, Nat.add_sub_cancel]
  · simp only [Bool.and_eq_true, Option.any_some, decide_eq_true_eq] at hfine
    exact absurd hfine.2 hnot
  · refine ⟨_, rfl, fun i => getElem?_scaledBlockHashes ?_⟩
    exact div_pos (le_of_dvd h.block_pos h.dvd) h.hash_pos
  · exact absurd (mod_eq_zero_of_dvd h.dvd) hmod

/-- Fine-grained lookups see the hashes as they are. -/
theorem viewHashes_fine (hashes : List BlockHash) (h : g.Fits pool.hashBlockSize A)
    (hfine : g.fineGrained A = true) :
    pool.viewHashes hashes g A = .ok hashes ∧ IsView pool hashes A hashes := by
  rcases h.coarse_or_fine with ⟨hcoarse, -⟩ | ⟨-, rfl, hdvd, hlt, hsupports, -⟩
  · rw [hcoarse] at hfine
    cases hfine
  · refine ⟨?_, fun i => ?_⟩
    · rw [BlockPool.viewHashes, resolveBlockHashes]
      simp [hsupports, hlt, mod_eq_zero_of_dvd hdvd]
    · rw [Nat.div_self h.hash_pos, mul_one, Nat.add_sub_cancel]

/-! ### Usable rows -/

/-- The row for position `t` holds blocks that are cached for a prefix that includes `t`. -/
def SpecGroup.Covers (g : SpecGroup) (pool : BlockPool n) (hashes : List BlockHash)
    (rows : List (Row n)) (t : ℕ) : Prop :=
  ∃ row numTokens, rows[t / g.blockSize]? = some row ∧ t < numTokens ∧
    numTokens ≤ (t / g.blockSize + 1) * g.blockSize ∧
    pool.cachedAt hashes g.groupIds numTokens = some row

/-- The positions an attention type reads when it resumes at `length`. Mamba reads none: it needs
the state there. -/
def AttentionKind.Needs : AttentionKind → ℕ → ℕ → Prop
  | .fullAttention, _, _ => True
  | .slidingWindow windowSize, length, t => length ≤ t + (windowSize - 1)
  | .chunkedLocalAttention chunkSize, length, t => length / chunkSize * chunkSize ≤ t
  | .mamba, _, _ => False

/-- The groups can resume at `length` with these rows. -/
structure SpecGroup.Usable (g : SpecGroup) (pool : BlockPool n) (hashes : List BlockHash)
    (rows : List (Row n)) (length : ℕ) : Prop where
  length_eq : rows.length = cdiv length g.blockSize
  covers : ∀ t < length, g.kind.Needs length t → g.Covers pool hashes rows t
  state : g.kind = .mamba → 0 < length →
    ∃ row, rows.getLast? = some row ∧ pool.cachedAt hashes g.groupIds length = some row

/-- The unit after `length` that the EAGLE drop discards is cached. -/
def SpecGroup.PeekCached (g : SpecGroup) (pool : BlockPool n) (hashes : List BlockHash)
    (A length : ℕ) : Prop :=
  ∃ numTokens, length + g.unit A ≤ numTokens ∧
    numTokens ≤ (length / g.blockSize + 1) * g.blockSize ∧
    pool.cachedAt hashes g.groupIds numTokens ≠ none

/-- What holds of a lookup up to `maxLength` that returned `length`, whatever it returned. -/
structure SpecGroup.Bounded (g : SpecGroup) (pool : BlockPool n) (hashes : List BlockHash)
    (A maxLength : ℕ) (dropEagleBlock : Bool) (length : ℕ) : Prop where
  le : length ≤ maxLength
  aligned : A ∣ length
  peek : dropEagleBlock = true → g.kind ≠ .mamba → 0 < length →
    length + g.unit A ≤ maxLength ∧ g.PeekCached pool hashes A length

end Sonar
