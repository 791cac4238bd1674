import Mathlib.Algebra.Ring.Nat
import Mathlib.Data.List.Range
import Mathlib.Tactic.Ring

/-!
# Slots of a request over context-parallel ranks

The positions of a request are dealt out to the ranks in runs of `interleaveSize`. A rank keeps its
positions in blocks of its own, and one entry of the block table names the block of a **virtual
block**: the positions that fill one block on every rank. The kernel computes from a position
whether the rank owns it and where the rank keeps it, `get_dcp_local_seq_lens` how many positions
the rank owns. The two agree: the positions a rank owns, in increasing order, are kept at its local
indexes from 0 on.
-/

namespace Sonar.Worker

open List

/-- The sizes a slot mapping is compiled for. -/
structure CpSizes where
  blockSize : ℕ
  worldSize : ℕ
  interleaveSize : ℕ
  block_pos : 0 < blockSize
  world_pos : 0 < worldSize
  dvd : interleaveSize ∣ blockSize

namespace CpSizes

variable (c : CpSizes) (blockTable : ℕ → ℕ) (rank : ℕ)

/-- The positions that one entry of the block table stands for. -/
def virtualBlockSize : ℕ := c.blockSize * c.worldSize

/-- The slot in which a rank keeps a position, if it owns the position. -/
def slotId (pos : ℕ) : Option ℕ :=
  let virtualBlockIndex := pos / c.virtualBlockSize
  let virtualBlockOffset := pos - virtualBlockIndex * c.virtualBlockSize
  let localBlockOffset := virtualBlockOffset / (c.worldSize * c.interleaveSize) *
    c.interleaveSize + virtualBlockOffset % c.interleaveSize
  if virtualBlockOffset / c.interleaveSize % c.worldSize = rank then
    some (blockTable virtualBlockIndex * c.blockSize + localBlockOffset)
  else none

/-- How many of the first positions a rank owns. The truncated subtraction clips at 0. -/
def dcpLocalSeqLen (seqLen : ℕ) : ℕ :=
  let base := seqLen / c.interleaveSize / c.worldSize * c.interleaveSize
  let remainder := seqLen - base * c.worldSize
  base + min (remainder - rank * c.interleaveSize) c.interleaveSize

/-- The slot of a local index, read through the block table. -/
def localSlot (i : ℕ) : ℕ := blockTable (i / c.blockSize) * c.blockSize + i % c.blockSize

/-- The `t`-th position of the `q`-th run of rank `s`. -/
def position (q s t : ℕ) : ℕ := (q * c.worldSize + s) * c.interleaveSize + t

variable {c blockTable rank} {q s t : ℕ}

private theorem mul_add_divMod {a b n : ℕ} (hb : b < n) : (a * n + b) / n = a ∧ (a * n + b) % n = b := by
  rw [add_comm, Nat.add_mul_div_right _ _ (by omega), Nat.div_eq_of_lt hb,
    Nat.add_mul_mod_self_right, Nat.mod_eq_of_lt hb, zero_add]
  exact ⟨rfl, rfl⟩

private theorem interleave_pos : 0 < c.interleaveSize := Nat.pos_of_dvd_of_pos c.dvd c.block_pos

private theorem exists_position (pos : ℕ) :
    ∃ q s t, s < c.worldSize ∧ t < c.interleaveSize ∧ pos = c.position q s t := by
  refine ⟨pos / c.interleaveSize / c.worldSize, pos / c.interleaveSize % c.worldSize,
    pos % c.interleaveSize, Nat.mod_lt _ c.world_pos, Nat.mod_lt _ interleave_pos, ?_⟩
  rw [position, Nat.div_add_mod', Nat.div_add_mod']

/-- A block holds whole runs, and so does a virtual block. -/
private theorem exists_runs (c : CpSizes) : ∃ k, c.blockSize = c.interleaveSize * k ∧
    c.virtualBlockSize = c.interleaveSize * (c.worldSize * k) := by
  obtain ⟨k, hk⟩ := c.dvd
  refine ⟨k, hk, ?_⟩
  rw [virtualBlockSize, hk]
  ring

section

variable (hs : s < c.worldSize) (ht : t < c.interleaveSize)

include hs ht

/-- The entry of the block table for a position is that for its local index. -/
private theorem position_div :
    c.position q s t / c.virtualBlockSize = (q * c.interleaveSize + t) / c.blockSize := by
  obtain ⟨k, hk, hsize⟩ := c.exists_runs
  rw [hsize, position, ← Nat.div_div_eq_div_mul, (mul_add_divMod ht).1, ← Nat.div_div_eq_div_mul,
    (mul_add_divMod hs).1, hk, ← Nat.div_div_eq_div_mul, (mul_add_divMod ht).1]

private theorem slotId_position : c.slotId blockTable rank (c.position q s t) =
    if s = rank then some (c.localSlot blockTable (q * c.interleaveSize + t)) else none := by
  obtain ⟨k, hk, hsize⟩ := c.exists_runs
  have hrun : c.position q s t % c.virtualBlockSize / c.interleaveSize =
      (q * c.worldSize + s) % (c.worldSize * k) := by
    rw [hsize, position, Nat.mod_mul_right_div_self, (mul_add_divMod ht).1]
  have hoffset : (q * c.interleaveSize + t) % c.blockSize = q % k * c.interleaveSize + t := by
    rw [hk, Nat.mod_mul, (mul_add_divMod ht).1, (mul_add_divMod ht).2]
    ring
  rw [slotId, localSlot, ← Nat.mod_eq_sub_div_mul, position_div hs ht, hoffset, hrun,
    Nat.mod_mul_right_mod, (mul_add_divMod hs).2, mul_comm c.worldSize,
    ← Nat.div_div_eq_div_mul, hrun, Nat.mod_mul_right_div_self, (mul_add_divMod hs).1, hsize,
    Nat.mod_mul_right_mod, position, (mul_add_divMod ht).2]

private theorem dcpLocalSeqLen_position : c.dcpLocalSeqLen rank (c.position q s t) =
    q * c.interleaveSize + if rank < s then c.interleaveSize else if rank = s then t else 0 := by
  have hrest : c.position q s t - q * c.interleaveSize * c.worldSize =
      s * c.interleaveSize + t := by
    rw [position, Nat.sub_eq_of_eq_add]
    ring
  rw [dcpLocalSeqLen, position, (mul_add_divMod ht).1, (mul_add_divMod hs).1, ← position, hrest]
  split_ifs with hlt heq
  · have hle := Nat.mul_le_mul_right c.interleaveSize hlt
    rw [Nat.succ_mul] at hle
    omega
  · rw [heq]
    omega
  · have hle := Nat.mul_le_mul_right c.interleaveSize (show s + 1 ≤ rank by omega)
    rw [Nat.succ_mul] at hle
    omega

/-- The local length grows by the positions that the rank owns. -/
private theorem dcpLocalSeqLen_succ (hrank : rank < c.worldSize) :
    c.dcpLocalSeqLen rank (c.position q s t + 1) =
      c.dcpLocalSeqLen rank (c.position q s t) + if s = rank then 1 else 0 := by
  rw [dcpLocalSeqLen_position hs ht]
  by_cases hrun : t + 1 < c.interleaveSize
  · have hnext : c.position q s t + 1 = c.position q s (t + 1) := rfl
    rw [hnext, dcpLocalSeqLen_position hs hrun]
    split_ifs <;> omega
  have hend : c.interleaveSize = t + 1 := by omega
  by_cases hturn : s + 1 < c.worldSize
  · have hnext : c.position q s t + 1 = c.position q (s + 1) 0 := by
      rw [position, position, hend]
      ring
    rw [hnext, dcpLocalSeqLen_position hturn interleave_pos]
    split_ifs <;> omega
  · have hnext : c.position q s t + 1 = c.position (q + 1) 0 0 := by
      rw [position, position, hend, show c.worldSize = s + 1 by omega]
      ring
    rw [hnext, dcpLocalSeqLen_position c.world_pos interleave_pos, Nat.succ_mul]
    split_ifs <;> omega

end

/-- The slots of the positions that a rank owns are those of the local indexes from 0 on. -/
private theorem filterMap_slotId (hrank : rank < c.worldSize) (seqLen : ℕ) :
    (range seqLen).filterMap (c.slotId blockTable rank) =
      (range (c.dcpLocalSeqLen rank seqLen)).map (c.localSlot blockTable) := by
  induction seqLen with
  | zero => simp [dcpLocalSeqLen]
  | succ seqLen ih =>
    obtain ⟨q, s, t, hs, ht, rfl⟩ := c.exists_position seqLen
    rw [range_succ, filterMap_append, ih, dcpLocalSeqLen_succ hs ht hrank, filterMap_cons,
      slotId_position hs ht]
    split_ifs with heq
    · rw [range_succ, map_append, dcpLocalSeqLen_position hs ht, if_neg (by omega), if_pos heq.symm]
      rfl
    · simp

/-- A rank keeps two positions in one slot only if the table names one block for two virtual
blocks. -/
private theorem eq_of_slotId_eq {pos pos' slot : ℕ} (h : c.slotId blockTable rank pos = some slot)
    (h' : c.slotId blockTable rank pos' = some slot) (hne : pos ≠ pos') :
    pos / c.virtualBlockSize ≠ pos' / c.virtualBlockSize ∧
      blockTable (pos / c.virtualBlockSize) = blockTable (pos' / c.virtualBlockSize) := by
  obtain ⟨q, s, t, hs, ht, rfl⟩ := c.exists_position pos
  obtain ⟨q', s', t', hs', ht', rfl⟩ := c.exists_position pos'
  rw [slotId_position hs ht] at h
  rw [slotId_position hs' ht'] at h'
  split_ifs at h h' with hrank hrank'
  subst hrank hrank'
  have heq := Option.some.inj (h.trans h'.symm)
  have hlt := fun i => Nat.mod_lt i c.block_pos
  have hblock := congrArg (· / c.blockSize) heq
  have hoffset := congrArg (· % c.blockSize) heq
  simp only [localSlot, (mul_add_divMod (hlt _)).1, (mul_add_divMod (hlt _)).2] at hblock hoffset
  rw [position_div hs ht, position_div hs' ht']
  refine ⟨fun hindex => hne ?_, hblock⟩
  -- in one block, equal offsets are of one local index
  have hsame : q * c.interleaveSize + t = q' * c.interleaveSize + t' := by
    rw [← Nat.div_add_mod' (q * c.interleaveSize + t) _, hindex, hoffset,
      Nat.div_add_mod']
  rw [position, position, ← (mul_add_divMod (a := q) ht).1, hsame, (mul_add_divMod ht').1]
  have hturn := congrArg (· % c.interleaveSize) hsame
  simp only [(mul_add_divMod ht).2, (mul_add_divMod ht').2] at hturn
  rw [hturn]

/-- Every position is owned by one rank. The slots of the positions that a rank owns are, in order,
those of its local indexes from 0 on, and there are as many as the rank's local length. -/
theorem slotId_spec (c : CpSizes) (blockTable : ℕ → ℕ) (seqLen : ℕ) :
    (∀ pos, ∃! rank : Fin c.worldSize, (c.slotId blockTable rank pos).isSome) ∧
    ∀ rank : Fin c.worldSize,
      (range seqLen).countP (fun pos => (c.slotId blockTable rank pos).isSome) =
        c.dcpLocalSeqLen rank seqLen ∧
      (range seqLen).filterMap (c.slotId blockTable rank) =
        (range (c.dcpLocalSeqLen rank seqLen)).map (c.localSlot blockTable) ∧
      ∀ pos pos' slot, c.slotId blockTable rank pos = some slot →
        c.slotId blockTable rank pos' = some slot → pos ≠ pos' →
        pos / c.virtualBlockSize ≠ pos' / c.virtualBlockSize ∧
          blockTable (pos / c.virtualBlockSize) = blockTable (pos' / c.virtualBlockSize) := by
  refine ⟨fun pos => ?_, fun rank => ⟨?_, filterMap_slotId rank.isLt seqLen,
    fun _ _ _ => eq_of_slotId_eq⟩⟩
  · obtain ⟨q, s, t, hs, ht, rfl⟩ := c.exists_position pos
    refine ⟨⟨s, hs⟩, by simp [slotId_position hs ht], fun rank hrank => ?_⟩
    simp only [slotId_position hs ht, Option.isSome_ite] at hrank
    exact Fin.ext hrank.symm
  · rw [← length_filterMap_eq_countP, filterMap_slotId rank.isLt, length_map, length_range]

/-- A table that names one block twice: two positions in one slot. -/
theorem slotId_repeated_block : let c : CpSizes := ⟨1, 1, 1, one_pos, one_pos, one_dvd 1⟩
    c.slotId (fun _ => 3) 0 0 = some 3 ∧ c.slotId (fun _ => 3) 0 1 = some 3 := by
  decide

end CpSizes

end Sonar.Worker
