import Sonar.Core.CacheLookupSpec

/-!
# The lookups are sound

For each attention type: a lookup up to `maxLength` that returns a length stays within bounds
(`SpecGroup.Bounded`), and its rows are usable there (`SpecGroup.Usable`). Full attention never
raises and its rows can be cut to any shorter length; the other types raise just when they probe
beyond the hashes of the request.
-/

namespace Sonar

open Lib List Nat Bool FullAttentionManager
open Nat (div_mul_le_self le_div_iff_mul_le mul_le_mul_right sub_le zero_le zero_mul)

variable {n : ℕ} {pool : BlockPool n} {hashes : List BlockHash} {g : SpecGroup}
  {A maxLength length : ℕ} {drop : Bool} {rows : List (Row n)}

/-- A unit that divides the block size does not cross the end of the block it starts in. -/
private theorem add_unit_div {u b l : ℕ} (hu : 0 < u) (hb : u ∣ b) (hl : u ∣ l) :
    (l + u - 1) / b = l / b := by
  obtain ⟨k, rfl⟩ := hb
  obtain ⟨m, rfl⟩ := hl
  have hlast : (u * m + u - 1) / u = m := by
    rw [Nat.add_sub_assoc hu, mul_add_div hu, div_eq_of_lt (by omega), add_zero]
  rw [← Nat.div_div_eq_div_mul, ← Nat.div_div_eq_div_mul, hlast, Nat.mul_div_cancel_left _ hu]

/-! ### Full attention -/

namespace FullAttentionManager

/-- The rows cover the first `length` tokens. -/
structure Scanned (pool : BlockPool n) (hashes : List BlockHash) (g : SpecGroup)
    (A maxLength : ℕ) (rows : List (Row n)) (length : ℕ) : Prop where
  le : length ≤ maxLength
  le_hashes : length ≤ hashes.length * pool.hashBlockSize
  dvd : g.unit A ∣ length
  length_eq : rows.length = cdiv length g.blockSize
  covers : ∀ t < length, g.Covers pool hashes rows t

variable {length' : ℕ} {view : List BlockHash}

private theorem covers_take (hpos : 0 < g.blockSize) {t : ℕ} (h : g.Covers pool hashes rows t)
    (ht : t < length') : g.Covers pool hashes (rows.take (cdiv length' g.blockSize)) t := by
  obtain ⟨row, numTokens, hrow, hcached⟩ := h
  refine ⟨row, numTokens, ?_, hcached⟩
  have hlt : t / g.blockSize < cdiv length' g.blockSize :=
    (lt_cdiv_iff hpos).mpr ((div_mul_le_self t _).trans_lt ht)
  rw [getElem?_take_of_lt hlt]
  exact hrow

/-- A shorter prefix of a hit of full attention is usable. -/
theorem Scanned.take (h : Scanned pool hashes g A maxLength rows length) (hpos : 0 < g.blockSize)
    (hle : length' ≤ length) (hkind : g.kind = .fullAttention) :
    g.Usable pool hashes (rows.take (cdiv length' g.blockSize)) length' := by
  refine ⟨?_, fun t ht _ => covers_take hpos (h.covers t (ht.trans_le hle)) ht, fun hmamba => ?_⟩
  · refine length_take_of_le ?_
    rw [h.length_eq, cdiv_le_iff hpos]
    exact hle.trans ((cdiv_le_iff hpos).mp le_rfl)
  · rw [hkind] at hmamba
    cases hmamba

/-- The unit after any aligned length that leaves room for it is cached. -/
private theorem Scanned.peek (h : Scanned pool hashes g A maxLength rows length)
    (hunit : g.unit A ∣ g.blockSize) (hunit' : 0 < g.unit A)
    (hle : length' + g.unit A ≤ length) (hdvd : g.unit A ∣ length') :
    g.PeekCached pool hashes A length' := by
  obtain ⟨row, numTokens, -, hlt, hend, hcached⟩ := h.covers (length' + g.unit A - 1) (by omega)
  refine ⟨numTokens, by omega, ?_, by rw [hcached]; exact Option.some_ne_none row⟩
  rwa [add_unit_div hunit' hunit hdvd] at hend

/-- Lookups step by a divisor of the block and of the alignment. -/
theorem unit_dvd (h : g.Fits pool.hashBlockSize A) :
    g.unit A ∣ g.blockSize ∧ g.unit A ∣ A ∧ 0 < g.unit A := by
  rcases h.coarse_or_fine with ⟨-, hdvd, heq⟩ | ⟨-, -, hdvd, -, -, heq⟩
  · rw [heq]
    exact ⟨dvd_rfl, hdvd, h.block_pos⟩
  · rw [heq]
    exact ⟨hdvd, dvd_rfl, h.align_pos⟩

/-- The end of the lookup: what is left is within bounds, and is a cut of what was scanned. -/
private theorem dropAndAlign_spec (h : g.Fits pool.hashBlockSize A)
    (hscan : Scanned pool hashes g A maxLength rows length) (dropEagleBlock : Bool) :
    ∃ length' ≤ length, dropAndAlign rows length g dropEagleBlock A =
        (rows.take (cdiv length' g.blockSize), length') ∧
      (dropEagleBlock = true → 0 < length' → length' + g.unit A ≤ length) ∧
      g.Bounded pool hashes A maxLength dropEagleBlock length' := by
  obtain ⟨hunit, hunitA, hpos⟩ := unit_dvd h
  set dropped := if dropEagleBlock && 0 < length then length - min A g.blockSize else length
    with hdropped
  have hle : dropped ≤ length := by
    rw [hdropped]
    split_ifs
    · exact sub_le _ _
    · exact le_rfl
  have haligned : A ∣ dropped - dropped % A := dvd_sub_mod dropped
  -- a positive length is left only if there was a unit to drop
  have hroom : dropEagleBlock = true → 0 < dropped - dropped % A →
      dropped - dropped % A + g.unit A ≤ length := by
    intro hdrop hlength
    have hlt : 0 < length := by omega
    rw [if_pos (by simp [hdrop, hlt])] at hdropped
    have : dropped = length - g.unit A := hdropped
    omega
  refine ⟨dropped - dropped % A, (sub_le _ _).trans hle, rfl, hroom,
    (sub_le _ _).trans (hle.trans hscan.le), haligned, fun hdrop _ hlength => ?_⟩
  have hroom' := hroom hdrop hlength
  exact ⟨hroom'.trans hscan.le, hscan.peek hunit hpos hroom' (hunitA.trans haligned)⟩

/-- The next multiple is above. -/
theorem lt_div_add_one_mul (t : ℕ) {b : ℕ} (hb : 0 < b) : t < (t / b + 1) * b := by
  rw [mul_comm]
  exact lt_mul_div_succ t hb

private theorem scanned_full (h : g.Fits pool.hashBlockSize A)
    (hview : IsView pool hashes g.blockSize view) {count : ℕ}
    (hrun : runUp (pool.probe view g.groupIds) count 0 = .ok rows)
    (hcount : count ≤ maxLength / g.blockSize) :
    Scanned pool hashes g A maxLength rows (rows.length * g.blockSize) := by
  obtain ⟨hlength, hprobe⟩ := runUp_sound hrun
  have hcached : ∀ k row, rows[k]? = some row →
      (k + 1) * g.blockSize ≤ hashes.length * pool.hashBlockSize ∧
        pool.cachedAt hashes g.groupIds ((k + 1) * g.blockSize) = some row := by
    intro k row hk
    have hk' := hprobe k row hk
    rw [zero_add] at hk'
    exact hview.probe_sound h.dvd h.hash_pos h.block_pos hk'
  refine ⟨?_, ?_, (unit_dvd h).1.mul_left _, (cdiv_mul h.block_pos).symm, fun t ht => ?_⟩
  · exact (mul_le_mul_right _ (hlength.trans hcount)).trans (div_mul_le_self _ _)
  · rcases Nat.eq_zero_or_pos rows.length with hzero | hpos
    · rw [hzero, zero_mul]
      exact zero_le _
    · have hlast := (hcached (rows.length - 1) _ (getElem?_eq_getElem (by omega))).1
      rwa [Nat.sub_add_cancel hpos] at hlast
  · have hlt : t / g.blockSize < rows.length := (div_lt_iff_lt_mul h.block_pos).mpr ht
    have hrow := getElem?_eq_getElem hlt
    exact ⟨_, _, hrow, lt_div_add_one_mul t h.block_pos, le_rfl, (hcached _ _ hrow).2⟩

/-- The scan over full blocks, continued by a partial block. -/
theorem Scanned.append (h : g.Fits pool.hashBlockSize A) (hfine : g.fineGrained A = true)
    (hscan : Scanned pool hashes g A maxLength rows (rows.length * g.blockSize)) {k : ℕ}
    {row : Row n} (htail : findPartialTail pool hashes maxLength g A rows.length =
      .ok (some (k, row))) : Scanned pool hashes g A maxLength (rows ++ [row])
      ((rows.length * (g.blockSize / A) + k + 1) * A) := by
  obtain ⟨-, hview⟩ := viewHashes_fine hashes h hfine
  rcases h.coarse_or_fine with ⟨hcoarse, -⟩ | ⟨-, hA, hdvd, hlt, -, hunit⟩
  · rw [hcoarse] at hfine
    cases hfine
  obtain ⟨hk, hprobe, -⟩ := findDown_sound htail
  obtain ⟨hle, hcached⟩ := hview.probe_sound (hA ▸ dvd_rfl) h.hash_pos h.align_pos hprobe
  obtain ⟨s, hs⟩ := exists_eq_mul_left_of_dvd hdvd
  have hscale : g.blockSize / A = s := by rw [hs, Nat.mul_div_cancel _ h.align_pos]
  rw [hscale] at hk hle hcached ⊢
  -- the partial block begins where the full ones end, and does not end with its block
  set fineIdx := rows.length * s + k
  have hfirst : rows.length * g.blockSize = rows.length * s * A := by rw [hs, mul_assoc]
  have hnext : (rows.length + 1) * g.blockSize = (rows.length * s + s) * A := by
    rw [hs]
    ring
  have hbegin : rows.length * g.blockSize < (fineIdx + 1) * A := by
    rw [hfirst]
    exact mul_lt_mul_of_pos_right (by omega) h.align_pos
  have hend : (fineIdx + 1) * A ≤ (rows.length + 1) * g.blockSize := by
    rw [hnext]
    exact mul_le_mul_right _ (by omega)
  refine ⟨?_, hle, hunit.symm ▸ dvd_mul_left A _, ?_, fun t ht => ?_⟩
  · exact (mul_le_mul_right A (by omega)).trans (div_mul_le_self _ A)
  · rw [length_append]
    exact le_antisymm ((lt_cdiv_iff h.block_pos).mpr hbegin) ((cdiv_le_iff h.block_pos).mpr hend)
  · rcases lt_or_ge t (rows.length * g.blockSize) with hfull | htail'
    · obtain ⟨row', numTokens, hrow', hrest⟩ := hscan.covers t hfull
      refine ⟨row', numTokens, ?_, hrest⟩
      rw [getElem?_append_left (List.getElem?_eq_some_iff.mp hrow').1]
      exact hrow'
    · have hblock : t / g.blockSize = rows.length := Nat.div_eq_of_lt_le htail' (ht.trans_le hend)
      refine ⟨row, _, ?_, ht, hblock ▸ hend, hcached⟩
      rw [hblock, getElem?_append_right le_rfl, Nat.sub_self]
      rfl

private theorem probe_total {groupIds : List ℕ} {i : ℕ} (hi : i < view.length) :
    ∃ o, pool.probe view groupIds i = .ok o := by
  rw [BlockPool.probe, getElem?_eq_getElem hi]
  exact ⟨_, rfl⟩

/-- The lookup comes to its end with rows that cover a prefix. -/
private theorem findLongestCacheHit_eq (h : g.Fits pool.hashBlockSize A) (hashes : List BlockHash)
    (maxLength : ℕ) (drop : Bool) : ∃ rows length, Scanned pool hashes g A maxLength rows length ∧
      findLongestCacheHit pool hashes maxLength g drop A =
        .ok (dropAndAlign rows length g drop A) := by
  by_cases hfine : g.fineGrained A = true
  · obtain ⟨hresolve, -⟩ := viewHashes_fine hashes h hfine
    rcases h.coarse_or_fine with ⟨hcoarse, -⟩ | ⟨-, hA, -, hlt, -, -⟩
    · rw [hcoarse] at hfine
      cases hfine
    set full := scaledBlockHashes hashes (g.blockSize / A) with hfull
    have hview : IsView pool hashes g.blockSize full := fun i => by
      rw [hfull, hA]
      exact getElem?_scaledBlockHashes (div_pos (hA ▸ hlt.le) h.hash_pos)
    obtain ⟨rows, hrun⟩ := runUp_total (pool.probe full _)
      (min _ full.length) 0 fun k hk =>
        probe_total (by omega)
    have hscan := scanned_full h hview hrun (min_le_left (maxLength / g.blockSize) _)
    obtain ⟨tail, htail⟩ : ∃ tail,
        findPartialTail pool hashes maxLength g A rows.length = .ok tail :=
      findDown_total _ _ _ fun k hk => probe_total (by omega)
    rcases tail with _ | ⟨k, row⟩
    · refine ⟨rows, _, hscan, ?_⟩
      simp [findLongestCacheHit, hresolve, hfine, ← hfull, hrun, htail]
    · refine ⟨rows ++ [row], _, hscan.append h hfine htail, ?_⟩
      simp [findLongestCacheHit, hresolve, hfine, ← hfull, hrun, htail]
  · rw [not_eq_true] at hfine
    obtain ⟨view, hresolve, hview⟩ := viewHashes_coarse hashes h hfine
    obtain ⟨rows, hrun⟩ := runUp_total (pool.probe view _)
      (min _ view.length) 0 fun k hk =>
        probe_total (by omega)
    refine ⟨rows, _, scanned_full h hview hrun (min_le_left _ _), ?_⟩
    simp only [findLongestCacheHit, hresolve, hfine, false_eq_true, if_false, hrun]

/-- A hit of full attention: a cut of rows that cover a prefix, with a unit to spare if it was
dropped. -/
structure IsHit (pool : BlockPool n) (hashes : List BlockHash) (g : SpecGroup) (A : ℕ)
    (dropEagleBlock : Bool) (rows : List (Row n)) (length : ℕ) : Prop where
  cut : ∃ maxLength scanned length', Scanned pool hashes g A maxLength scanned length' ∧
    length ≤ length' ∧ rows = scanned.take (cdiv length g.blockSize) ∧
    (dropEagleBlock = true → 0 < length → length + g.unit A ≤ length')

/-- A shorter prefix of a hit is usable. -/
theorem IsHit.usable (h : IsHit pool hashes g A drop rows length)
    (hkind : g.kind = .fullAttention) (hpos : 0 < g.blockSize)
    (hle : length' ≤ length) :
    g.Usable pool hashes (rows.take (cdiv length' g.blockSize)) length' := by
  obtain ⟨maxLength, scanned, total, hscan, hlength, rfl, -⟩ := h.cut
  have hcdiv : cdiv length' g.blockSize ≤ cdiv length g.blockSize :=
    (cdiv_le_iff hpos).mpr (hle.trans ((cdiv_le_iff hpos).mp le_rfl))
  rw [take_take, min_eq_left hcdiv]
  exact hscan.take hpos (hle.trans hlength) hkind

/-- After a drop, the unit after any shorter aligned length is cached. -/
theorem IsHit.peek (h : IsHit pool hashes g A true rows length)
    (hfit : g.Fits pool.hashBlockSize A) (hle : length' ≤ length)
    (hpos : 0 < length') (hdvd : A ∣ length') : g.PeekCached pool hashes A length' := by
  obtain ⟨maxLength, scanned, total, hscan, hlength, -, hroom⟩ := h.cut
  obtain ⟨hunit, hunitA, hunit'⟩ := unit_dvd hfit
  have := hroom rfl (hpos.trans_le hle)
  exact hscan.peek hunit hunit' (by omega) (hunitA.trans hdvd)

/-- A hit is no longer than what was hashed. -/
theorem IsHit.le_hashes (h : IsHit pool hashes g A drop rows length) :
    length ≤ hashes.length * pool.hashBlockSize := by
  obtain ⟨maxLength, scanned, total, hscan, hlength, -, -⟩ := h.cut
  exact hlength.trans hscan.le_hashes

/-- Full attention never raises. -/
theorem findLongestCacheHit_spec (h : g.Fits pool.hashBlockSize A) (hashes : List BlockHash)
    (maxLength : ℕ) (drop : Bool) :
    ∃ rows length, findLongestCacheHit pool hashes maxLength g drop A = .ok (rows, length) ∧
      IsHit pool hashes g A drop rows length ∧ g.Bounded pool hashes A maxLength drop length := by
  obtain ⟨rows, length, hscan, heq⟩ := findLongestCacheHit_eq h hashes _ drop
  obtain ⟨length', hle, hdrop, hroom, hbounded⟩ := dropAndAlign_spec h hscan drop
  exact ⟨_, length', heq.trans (congrArg _ hdrop),
    ⟨maxLength, rows, length, hscan, hle, rfl, hroom⟩, hbounded⟩

end FullAttentionManager

/-! ### Sliding window -/

namespace SlidingWindowManager

variable {bs : ℕ}

private theorem numAligned_le (bs A k : ℕ) : numAligned bs A k ≤ k := by
  induction k with
  | zero => exact le_rfl
  | succ k ih =>
    rw [numAligned]
    split_ifs
    · exact ih.trans (le_succ k)
    · exact le_rfl

private theorem dvd_numAligned (bs A k : ℕ) : A ∣ numAligned bs A k * bs := by
  induction k with
  | zero => rw [numAligned, zero_mul]; exact dvd_zero A
  | succ k ih =>
    rw [numAligned]
    split_ifs with h
    · exact ih
    · rcases not_and_or.mp h with heq | hmod
      · rw [not_not.mp heq]
        exact dvd_mul_left A _
      · exact dvd_of_mod_eq_zero (not_not.mp hmod)

/-- An aligned count stays. -/
theorem numAligned_eq {k : ℕ} (h : A ∣ k * bs) : numAligned bs A k = k := by
  rcases k with _ | k
  · rfl
  · rw [numAligned, if_neg]
    exact fun hnot => hnot.2 (mod_eq_zero_of_dvd h)

private theorem dvd_of_mayEndAt {i : ℕ} (h : mayEndAt bs A drop i = true) :
    A ∣ (if drop then i else i + 1) * bs := by
  rw [mayEndAt, or_eq_true, beq_iff_eq, beq_iff_eq] at h
  rcases h with rfl | h
  · exact dvd_mul_left bs _
  · exact dvd_of_mod_eq_zero h

end SlidingWindowManager

/-- Row `j` is what the pool has for the prefix that ends with block `j`. -/
def SpecGroup.HitRow (g : SpecGroup) (pool : BlockPool n) (hashes : List BlockHash)
    (rows : List (Row n)) (j : ℕ) : Prop :=
  ∃ row, rows[j]? = some row ∧ pool.cachedAt hashes g.groupIds ((j + 1) * g.blockSize) = some row

/-- A row that is hit stays so when later blocks are cut. -/
theorem SpecGroup.HitRow.take {j k : ℕ} (h : g.HitRow pool hashes rows j) (hj : j < k) :
    g.HitRow pool hashes (rows.take k) j := by
  obtain ⟨row, hrow, hcached⟩ := h
  exact ⟨row, by rwa [getElem?_take_of_lt hj], hcached⟩

private theorem SpecGroup.HitRow.covers {t : ℕ} (hpos : 0 < g.blockSize)
    (h : g.HitRow pool hashes rows (t / g.blockSize)) : g.Covers pool hashes rows t := by
  obtain ⟨row, hrow, hcached⟩ := h
  exact ⟨row, _, hrow, lt_div_add_one_mul t hpos, le_rfl, hcached⟩

namespace SlidingWindowManager

variable {windowSize : ℕ}

variable {num maxNumBlocks : ℕ}

/-- Rows of which the last `num` are cached are usable if these span the window, or if they are all
the rows. -/
private theorem usable_of_hitRows (hkind : g.kind = .slidingWindow windowSize) (hpos : 0 < g.blockSize)
    (hnum : rows.length ≤ num ∨ windowSize - 1 ≤ num * g.blockSize)
    (hrows : ∀ j < rows.length, rows.length ≤ j + num → g.HitRow pool hashes rows j) :
    g.Usable pool hashes rows (rows.length * g.blockSize) := by
  refine ⟨(cdiv_mul hpos).symm, fun t ht hneeds => ?_, fun hmamba => ?_⟩
  · rw [hkind] at hneeds
    have hlt : t / g.blockSize < rows.length := (div_lt_iff_lt_mul hpos).mpr ht
    refine (hrows _ hlt ?_).covers hpos
    rcases hnum with hall | hwindow
    · exact hall.trans (le_add_left _ _)
    · -- a position of the window is less than `num` blocks from the end
      have hneeds' : rows.length * g.blockSize ≤ t + (windowSize - 1) := hneeds
      have hmul : rows.length * g.blockSize < (t / g.blockSize + 1 + num) * g.blockSize := by
        rw [add_mul]
        have := lt_div_add_one_mul t hpos
        omega
      have := lt_of_mul_lt_mul_right hmul
      omega
  · rw [hkind] at hmamba
    cases hmamba

private theorem runDown_hitRows (h : g.Fits pool.hashBlockSize A) {view : List BlockHash}
    (hview : IsView pool hashes g.blockSize view) {accept : ℕ → Bool} {s : ℕ}
    (hrun : IsRun (pool.probe view g.groupIds) accept rows s num) {j : ℕ} (hs : s ≤ j)
    (hj : j < s + num) : g.HitRow pool hashes rows j := by
  obtain ⟨row, hrow, hprobe⟩ := hrun.hit (j - s) (by omega)
  rw [Nat.add_sub_cancel' hs] at hrow hprobe
  exact ⟨row, hrow, (hview.probe_sound h.dvd h.hash_pos h.block_pos hprobe).2⟩

/-- What is left after trimming: the last rows span the window or are all there is, the length is
aligned, and after a drop the next block is cached too. -/
structure Trimmed (pool : BlockPool n) (hashes : List BlockHash) (g : SpecGroup)
    (windowSize A maxNumBlocks : ℕ) (dropEagleBlock : Bool) (rows : List (Row n)) : Prop where
  hit : ∃ num, (rows.length ≤ num ∨ windowSize - 1 ≤ num * g.blockSize) ∧
    ∀ j < rows.length, rows.length ≤ j + num → g.HitRow pool hashes rows j
  aligned : A ∣ rows.length * g.blockSize
  le : rows.length ≤ maxNumBlocks
  peek : dropEagleBlock = true → 0 < rows.length → rows.length + 1 ≤ maxNumBlocks ∧
    ∃ rows' : List (Row n), g.HitRow pool hashes rows' rows.length

private theorem trimmed_of_match (hpos : 0 < g.blockSize) {s : ℕ}
    (hlength : rows.length = s + num) (hnum : 0 < num) (hle : s + num ≤ maxNumBlocks)
    (hneed : contiguousBlocksForHit windowSize g.blockSize drop ≤ num)
    (haccept : mayEndAt g.blockSize A drop (s + num - 1) = true)
    (hrows : ∀ j, s ≤ j → j < s + num → g.HitRow pool hashes rows j) :
    Trimmed pool hashes g windowSize A maxNumBlocks drop
      (trim rows num true g drop A) := by
  have hneed' : windowSize - 1 ≤ (if drop then num - 1 else num) * g.blockSize := by
    rw [← cdiv_le_iff hpos]
    rw [contiguousBlocksForHit] at hneed
    split_ifs at hneed ⊢ <;> omega
  have hdvd := dvd_of_mayEndAt haccept
  rcases drop with _ | _
  · -- nothing is dropped
    rw [Nat.sub_add_cancel (by omega)] at hdvd
    have htrim : trim rows num true g false A = rows := rfl
    rw [htrim]
    refine ⟨⟨num, .inr hneed', fun j hj hj' => hrows j (by omega) (by omega)⟩, ?_, by omega,
      fun hfalse => absurd hfalse false_ne_true⟩
    rw [hlength]
    exact hdvd
  · rw [if_pos rfl] at hneed' hdvd
    have hne : rows.isEmpty = false := by
      rw [isEmpty_eq_false_iff, ← length_pos_iff]
      omega
    have htrim : trim rows num true g true A = rows.take (s + num - 1) := by
      simp [trim, hne, hlength, numAligned_eq hdvd]
    have hlength' : (rows.take (s + num - 1)).length = s + num - 1 := length_take_of_le (by omega)
    rw [htrim]
    refine ⟨⟨num - 1, .inr hneed', fun j hj hj' => ?_⟩, ?_, ?_, fun _ _ => ⟨?_, rows, ?_⟩⟩
    · rw [hlength'] at hj hj'
      exact (hrows j (by omega) (by omega)).take hj
    · rw [hlength']
      exact hdvd
    · omega
    · omega
    · exact hrows _ (by omega) (by omega)

/-- Without a match, only the blocks from the first on count. -/
private theorem trimmed_of_no_match (hlength : rows.length = maxNumBlocks)
    (hle : num ≤ maxNumBlocks) (hrows : ∀ j < num, g.HitRow pool hashes rows j) :
    Trimmed pool hashes g windowSize A maxNumBlocks drop
      (trim rows num false g drop A) := by
  have hcut : ∀ k ≤ num, (rows.take k).length = k ∧
      ∀ j < k, g.HitRow pool hashes (rows.take k) j := fun k hk =>
    ⟨length_take_of_le (by omega), fun j hj => (hrows j (by omega)).take hj⟩
  have hfirst := numAligned_le g.blockSize A num
  set k := numAligned g.blockSize A num
  obtain ⟨hlength1, hrows1⟩ := hcut k hfirst
  have htrim : trim rows num false g drop A = if drop && !(rows.take k).isEmpty then
        (rows.take k).take (numAligned g.blockSize A ((rows.take k).length - 1))
      else rows.take k := rfl
  rw [htrim, hlength1]
  split_ifs with hdrop
  · have hsecond := numAligned_le g.blockSize A (k - 1)
    have haligned := dvd_numAligned g.blockSize A (k - 1)
    set k' := numAligned g.blockSize A (k - 1)
    rw [take_take, min_eq_left (by omega)]
    obtain ⟨hlength2, hrows2⟩ := hcut k' (by omega)
    refine ⟨⟨k', .inl hlength2.le, fun j hj _ => hrows2 j (hlength2 ▸ hj)⟩, ?_, by omega,
      fun _ _ => ⟨by omega, rows, ?_⟩⟩
    · rw [hlength2]
      exact haligned
    · rw [hlength2]
      exact hrows k' (by omega)
  · refine ⟨⟨k, .inl hlength1.le, fun j hj _ => hrows1 j (hlength1 ▸ hj)⟩, ?_, by omega,
      fun hdrop' hpos => ?_⟩
    · rw [hlength1]
      exact dvd_numAligned _ A num
    · refine absurd ?_ hdrop
      rw [and_eq_true, not_eq_true', isEmpty_eq_false_iff, ← length_pos_iff]
      exact ⟨hdrop', hpos⟩

section

variable (hkind : g.kind = .slidingWindow windowSize) (h : g.Fits pool.hashBlockSize A)

include hkind h

/-- Sliding-window lookups go by the block. -/
theorem coarse : g.fineGrained A = false ∧ g.unit A = g.blockSize := by
  rcases h.coarse_or_fine with ⟨hcoarse, -, hunit⟩ | ⟨-, -, -, -, hsupports, -⟩
  · exact ⟨hcoarse, hunit⟩
  · rw [hkind] at hsupports
    cases hsupports

private theorem Trimmed.sound (ht : Trimmed pool hashes g windowSize A maxNumBlocks drop rows)
    (hmax : maxNumBlocks = maxLength / g.blockSize) :
    g.Usable pool hashes rows (rows.length * g.blockSize) ∧
      g.Bounded pool hashes A maxLength drop (rows.length * g.blockSize) := by
  obtain ⟨-, hunit⟩ := coarse hkind h
  have hmul : ∀ k ≤ maxNumBlocks, k * g.blockSize ≤ maxLength := fun k hk =>
    (le_div_iff_mul_le h.block_pos).mp (hmax ▸ hk)
  obtain ⟨num, hnum, hrows⟩ := ht.hit
  refine ⟨usable_of_hitRows hkind h.block_pos hnum hrows, hmul _ ht.le, ht.aligned,
    fun hdrop _ hlength => ?_⟩
  obtain ⟨hle, rows', hnext⟩ := ht.peek hdrop (Nat.pos_of_mul_pos_right hlength)
  obtain ⟨row, -, hcached⟩ := hnext
  refine ⟨?_, _, ?_, ?_, by rw [hcached]; exact Option.some_ne_none row⟩
  · rw [hunit, ← succ_mul]
    exact hmul _ hle
  · rw [hunit, succ_mul]
  · rw [Nat.mul_div_cancel _ h.block_pos]

/-- A hit of a sliding window is usable and within bounds. -/
theorem findLongestCacheHit_sound
    (heq : findLongestCacheHit pool hashes maxLength g windowSize drop A = .ok (rows, length)) :
    g.Usable pool hashes rows length ∧ g.Bounded pool hashes A maxLength drop length := by
  obtain ⟨view, hresolve, hview⟩ := viewHashes_coarse hashes h (coarse hkind h).1
  rw [findLongestCacheHit, hresolve] at heq
  dsimp only at heq
  split at heq
  · cases heq
  · next computed num found hsearch =>
    obtain ⟨rfl, rfl⟩ := Prod.mk.inj (Except.ok.inj heq)
    obtain ⟨s, hle, hrun, hend⟩ := runDown_sound hsearch (isRun_zero _ _) (by simp) (by omega)
    have hrows : ∀ j, s ≤ j → j < s + num → g.HitRow pool hashes computed j := fun j hs hj =>
      runDown_hitRows h hview hrun hs hj
    refine Trimmed.sound hkind h ?_ rfl
    rcases found with _ | _
    · obtain ⟨rfl, hlength, -⟩ := hend
      rw [length_replicate] at hlength
      exact trimmed_of_no_match hlength (by omega) fun j hj => hrows j (by omega) (by omega)
    · obtain ⟨hlength, hneed, hnum⟩ := hend
      exact trimmed_of_match h.block_pos hlength hnum (by omega) hneed (hrun.accepted hnum) hrows

/-- The lookup raises only beyond the hashes of the request. -/
theorem findLongestCacheHit_total
    (hmax : maxLength / g.blockSize * g.blockSize ≤ hashes.length * pool.hashBlockSize) :
    ∃ rows length, findLongestCacheHit pool hashes maxLength g windowSize drop A =
      .ok (rows, length) := by
  obtain ⟨view, hresolve, hview⟩ := viewHashes_coarse hashes h (coarse hkind h).1
  obtain ⟨⟨computed, num, found⟩, hsearch⟩ := runDown_total _
    _
    _ 0 fun j hj =>
      ⟨_, hview.probe_of_le h.dvd h.hash_pos h.block_pos ((mul_le_mul_right _ hj).trans hmax)⟩
  rw [findLongestCacheHit, hresolve]
  dsimp only
  rw [hsearch]
  exact ⟨_, _, rfl⟩

end

end SlidingWindowManager

/-! ### Chunked local attention -/

namespace ChunkedLocalAttentionManager

variable {chunkSize : ℕ}

/-- The block in which the last chunk before `maxLength` starts. -/
def startBlock (chunkSize blockSize maxLength : ℕ) : ℕ :=
  maxLength / chunkSize * chunkSize / blockSize

/-- The chunk begins inside the prefix. -/
theorem startBlock_le (chunkSize blockSize maxLength : ℕ) :
    startBlock chunkSize blockSize maxLength ≤ maxLength / blockSize :=
  Nat.div_le_div_right (div_mul_le_self _ _)

/-- If the chunk size divides the block size, no block reaches across the start of a chunk. -/
theorem startBlock_eq {blockSize : ℕ} (hdvd : chunkSize ∣ blockSize) :
    startBlock chunkSize blockSize maxLength = maxLength / blockSize := by
  refine le_antisymm (startBlock_le _ _ _) ?_
  rcases Nat.eq_zero_or_pos blockSize with rfl | hpos
  · rw [Nat.div_zero]
    exact zero_le _
  rw [startBlock, le_div_iff_mul_le hpos]
  obtain ⟨k, rfl⟩ := hdvd
  rw [← Nat.div_div_eq_div_mul, mul_comm _ k, ← mul_assoc]
  exact mul_le_mul_right _ (div_mul_le_self _ _)

section

variable (h : g.Fits pool.hashBlockSize A) (hkind : g.kind = .chunkedLocalAttention chunkSize)

include h hkind

/-- The lookup by its pieces: null rows up to the start of the chunk, then what a run found. -/
theorem findLongestCacheHit_eq (hashes : List BlockHash) (maxLength : ℕ) :
    ∃ view, IsView pool hashes g.blockSize view ∧
      findLongestCacheHit pool hashes maxLength g chunkSize false A =
        match runUp (pool.probe view g.groupIds)
          (maxLength / g.blockSize - startBlock chunkSize g.blockSize maxLength)
          (startBlock chunkSize g.blockSize maxLength) with
        | .error e => .error e
        | .ok cached => .ok
          (replicate (startBlock chunkSize g.blockSize maxLength) (pool.nullRow g) ++ cached,
            (startBlock chunkSize g.blockSize maxLength + cached.length) * g.blockSize) := by
  obtain ⟨hblock, -, -⟩ := h.chunked _ hkind
  have hcoarse : g.fineGrained A = false := by
    rcases h.coarse_or_fine with ⟨hcoarse, -⟩ | ⟨-, -, -, -, hsupports, -⟩
    · exact hcoarse
    · rw [hkind] at hsupports
      cases hsupports
  obtain ⟨view, hresolve, hview⟩ := viewHashes_coarse hashes h hcoarse
  have hstart : (if 0 < maxLength then maxLength / chunkSize * chunkSize else 0) =
      maxLength / chunkSize * chunkSize := by
    split_ifs with hpos
    · rfl
    · rw [Nat.eq_zero_of_not_pos hpos, Nat.zero_div, zero_mul]
  refine ⟨view, hview, ?_⟩
  rw [findLongestCacheHit, if_neg (by simp [hblock]), hresolve]
  simp only [hstart, length_append, length_replicate]
  rfl

/-- The rows are usable if the returned length is still in the chunk the lookup started from, or at
the start of a chunk. -/
theorem findLongestCacheHit_sound
    (heq : findLongestCacheHit pool hashes maxLength g chunkSize false A = .ok (rows, length)) :
    g.Bounded pool hashes A maxLength false length ∧
      startBlock chunkSize g.blockSize maxLength * g.blockSize ≤ length ∧
      (maxLength / chunkSize * chunkSize ≤ length ∨ chunkSize ∣ length →
        g.Usable pool hashes rows length) := by
  obtain ⟨hblock, hchunk, -⟩ := h.chunked _ hkind
  obtain ⟨view, hview, hfind⟩ := findLongestCacheHit_eq h hkind hashes _
  rw [hfind] at heq
  split at heq
  · cases heq
  · next cached hrun =>
    obtain ⟨rfl, rfl⟩ := Prod.mk.inj (Except.ok.inj heq)
    set start := startBlock chunkSize g.blockSize maxLength
    obtain ⟨hlength, hprobe⟩ := runUp_sound hrun
    have hle := startBlock_le chunkSize g.blockSize maxLength
    have hmax : (start + cached.length) * g.blockSize ≤ maxLength :=
      (le_div_iff_mul_le h.block_pos).mp (by omega)
    refine ⟨⟨hmax, hblock ▸ dvd_mul_left _ _, fun hfalse => absurd hfalse false_ne_true⟩,
      mul_le_mul_right _ (le_add_right _ _), fun hchunk' => ⟨?_, fun t ht hneeds => ?_,
      fun hmamba => ?_⟩⟩
    · rw [cdiv_mul h.block_pos, length_append, length_replicate]
    · -- the length is in the chunk of `maxLength`, so what it needs was looked up
      rw [hkind] at hneeds
      have hneeds' : maxLength / chunkSize * chunkSize ≤ t := by
        rcases hchunk' with hchunk' | hdvd
        · have hsame : (start + cached.length) * g.blockSize / chunkSize = maxLength / chunkSize :=
            le_antisymm (Nat.div_le_div_right hmax) ((le_div_iff_mul_le hchunk).mpr hchunk')
          exact hsame ▸ hneeds
        · -- at the start of a chunk nothing is needed
          have hnone : (start + cached.length) * g.blockSize ≤ t := by
            have hneeds' : (start + cached.length) * g.blockSize / chunkSize * chunkSize ≤ t :=
              hneeds
            rwa [Nat.div_mul_cancel hdvd] at hneeds'
          omega
      have hfrom : start ≤ t / g.blockSize := Nat.div_le_div_right hneeds'
      have hto : t / g.blockSize < start + cached.length :=
        (div_lt_iff_lt_mul h.block_pos).mpr ht
      have hrow : cached[t / g.blockSize - start]? = some (cached[t / g.blockSize - start]) :=
        getElem?_eq_getElem _
      have hcached := hprobe _ _ hrow
      rw [Nat.add_sub_cancel' hfrom] at hcached
      refine SpecGroup.HitRow.covers h.block_pos ⟨_, ?_,
        (hview.probe_sound h.dvd h.hash_pos h.block_pos hcached).2⟩
      rw [getElem?_append_right (by rw [length_replicate]; exact hfrom), length_replicate]
      exact hrow
    · rw [hkind] at hmamba
      cases hmamba

/-- The lookup raises only beyond the hashes of the request. -/
theorem findLongestCacheHit_total
    (hmax : startBlock chunkSize g.blockSize maxLength = maxLength / g.blockSize ∨
      maxLength / g.blockSize * g.blockSize ≤ hashes.length * pool.hashBlockSize) :
    ∃ rows length, findLongestCacheHit pool hashes maxLength g chunkSize false A =
      .ok (rows, length) := by
  obtain ⟨view, hview, hfind⟩ := findLongestCacheHit_eq h hkind hashes _
  obtain ⟨cached, hrun⟩ := runUp_total (pool.probe view g.groupIds)
    (maxLength / g.blockSize - startBlock chunkSize g.blockSize maxLength)
    (startBlock chunkSize g.blockSize maxLength) fun k hk => by
      have hmax' := hmax.resolve_left (by omega)
      refine ⟨_, hview.probe_of_le h.dvd h.hash_pos h.block_pos
        ((mul_le_mul_right _ ?_).trans hmax')⟩
      omega
  rw [hfind, hrun]
  exact ⟨_, _, rfl⟩

end

end ChunkedLocalAttentionManager

/-! ### Mamba -/

namespace MambaManager

/-- One cached state at the end of the prefix makes it usable. -/
private theorem usable_state (hkind : g.kind = .mamba) (hpos : 0 < g.blockSize) {k : ℕ} {row : Row n}
    (hk : k * g.blockSize < length) (hk' : length ≤ (k + 1) * g.blockSize)
    (hcached : pool.cachedAt hashes g.groupIds length = some row) :
    g.Usable pool hashes (replicate k (pool.nullRow g) ++ [row]) length := by
  refine ⟨?_, fun t _ hneeds => ?_, fun _ _ => ⟨row, getLast?_concat .., hcached⟩⟩
  · rw [length_append, length_replicate]
    exact le_antisymm ((lt_cdiv_iff hpos).mpr hk) ((cdiv_le_iff hpos).mpr hk')
  · rw [hkind] at hneeds
    exact hneeds.elim

private theorem usable_nil (hpos : 0 < g.blockSize) : g.Usable pool hashes [] 0 := by
  refine ⟨?_, fun t ht => absurd ht (not_lt_zero t), fun _ hlt => absurd hlt (lt_irrefl 0)⟩
  exact (le_zero.mp ((cdiv_le_iff hpos).mpr (zero_le _))).symm

/-- A hit of a Mamba group is usable and within bounds. -/
theorem findLongestCacheHit_sound (h : g.Fits pool.hashBlockSize A) (hkind : g.kind = .mamba)
    (heq : findLongestCacheHit pool hashes maxLength g A = .ok (rows, length)) :
    g.Usable pool hashes rows length ∧ g.Bounded pool hashes A maxLength drop length ∧
      length ≤ hashes.length * pool.hashBlockSize := by
  have hempty : g.Usable pool hashes [] 0 ∧ g.Bounded pool hashes A maxLength drop 0 ∧
      0 ≤ hashes.length * pool.hashBlockSize :=
    ⟨usable_nil h.block_pos, ⟨zero_le _, dvd_zero A, fun _ hne => absurd hkind hne⟩, zero_le _⟩
  rw [findLongestCacheHit] at heq
  by_cases hfine : g.fineGrained A = true
  · obtain ⟨hresolve, hview⟩ := viewHashes_fine hashes h hfine
    rcases h.coarse_or_fine with ⟨hcoarse, -⟩ | ⟨-, hA, hdvd, -, -, -⟩
    · rw [hcoarse] at hfine
      cases hfine
    rw [hresolve] at heq
    simp only [hfine, if_true] at heq
    split at heq
    · cases heq
    · cases heq
      exact hempty
    · next fineIdx row hfind =>
      obtain ⟨rfl, rfl⟩ := Prod.mk.inj (Except.ok.inj heq)
      obtain ⟨hlt, hprobe, -⟩ := findDown_sound hfind
      obtain ⟨hle, hcached⟩ := hview.probe_sound (hA ▸ dvd_rfl) h.hash_pos h.align_pos hprobe
      obtain ⟨s, hs⟩ := exists_eq_mul_left_of_dvd hdvd
      have hs' : 0 < s := Nat.pos_of_mul_pos_right (hs ▸ h.block_pos)
      have hscale : g.blockSize / A = s := by rw [hs, Nat.mul_div_cancel _ h.align_pos]
      rw [hscale]
      refine ⟨usable_state hkind h.block_pos ?_ ?_ hcached, ⟨?_, dvd_mul_left A _,
        fun _ hne => absurd hkind hne⟩, hle⟩
      · rw [hs, ← mul_assoc]
        exact mul_lt_mul_of_pos_right
          (lt_succ_of_le (div_mul_le_self fineIdx s)) h.align_pos
      · rw [hs, ← mul_assoc]
        exact mul_le_mul_right _ (lt_div_add_one_mul fineIdx hs')
      · exact (le_div_iff_mul_le h.align_pos).mp (by omega)
  · rw [not_eq_true] at hfine
    obtain ⟨view, hresolve, hview⟩ := viewHashes_coarse hashes h hfine
    rw [hresolve] at heq
    simp only [hfine, false_eq_true, if_false] at heq
    split at heq
    · cases heq
    · cases heq
      exact hempty
    · next i row hfind =>
      obtain ⟨rfl, rfl⟩ := Prod.mk.inj (Except.ok.inj heq)
      obtain ⟨hlt, hprobe, haccept⟩ := findDown_sound hfind
      obtain ⟨hle, hcached⟩ := hview.probe_sound h.dvd h.hash_pos h.block_pos hprobe
      rw [or_eq_true, beq_iff_eq, beq_iff_eq] at haccept
      refine ⟨usable_state hkind h.block_pos ?_ le_rfl hcached, ⟨?_, ?_,
        fun _ hne => absurd hkind hne⟩, hle⟩
      · exact mul_lt_mul_of_pos_right (lt_succ_self i) h.block_pos
      · exact (le_div_iff_mul_le h.block_pos).mp hlt
      · rcases haccept with hblock | hmod
        · exact hblock ▸ dvd_mul_left _ _
        · exact dvd_of_mod_eq_zero hmod

/-- The lookup raises only beyond the hashes of the request, and never if it is fine-grained. -/
theorem findLongestCacheHit_total (h : g.Fits pool.hashBlockSize A) (hmax : g.fineGrained A = true ∨
      maxLength / g.blockSize * g.blockSize ≤ hashes.length * pool.hashBlockSize) :
    ∃ rows length, findLongestCacheHit pool hashes maxLength g A = .ok (rows, length) := by
  rw [findLongestCacheHit]
  by_cases hfine : g.fineGrained A = true
  · obtain ⟨hresolve, -⟩ := viewHashes_fine hashes h hfine
    obtain ⟨r, hr⟩ := findDown_total (pool.probe hashes g.groupIds)
      (fun _ => true) (min (maxLength / A) hashes.length) fun i hi =>
        probe_total (by omega)
    simp only [hresolve, hfine, hr]
    rcases r with _ | ⟨fineIdx, row⟩
    · exact ⟨_, _, rfl⟩
    · exact ⟨_, _, rfl⟩
  · have hmax' := hmax.resolve_left hfine
    rw [not_eq_true] at hfine
    obtain ⟨view, hresolve, hview⟩ := viewHashes_coarse hashes h hfine
    obtain ⟨r, hr⟩ := findDown_total (pool.probe view g.groupIds)
      (fun i => g.blockSize == A || (i + 1) * g.blockSize % A == 0) _ fun i hi =>
        ⟨_, hview.probe_of_le h.dvd h.hash_pos h.block_pos ((mul_le_mul_right _ hi).trans hmax')⟩
    simp only [hresolve, hfine, hr]
    rcases r with _ | ⟨i, row⟩
    · exact ⟨_, _, rfl⟩
    · exact ⟨_, _, rfl⟩

end MambaManager

end Sonar
