import Mathlib.Data.List.Range

/-!
# Chained fingerprints

A **hash chain** digests a sequence of contents `c 0, c 1, …` by feeding each digest into the
next step: `chainHash step seed c (n + 1) = step (chainHash step seed c n) (c n)`. The digest
after `n` steps is a function of the first `n` contents only (`chainHash_congr`); if `step` is
injective in both arguments, it also determines them (`content_eq_of_chainHash_eq`).

`chainHashes` lists the digests after `1, …, n` steps. It is the reference an incremental
producer is compared with: from any of its prefixes the rest of the list can be computed with
the last digest alone (`chainHashes_add`).
-/

namespace Sonar.Lib

open List

variable {η β : Type*} (step : η → β → η) (seed : η)

/-- The digest of the first `n` contents. -/
def chainHash (c : ℕ → β) : ℕ → η
  | 0 => seed
  | n + 1 => step (chainHash c n) (c n)

/-- The digests after `1, …, n` steps. -/
def chainHashes (c : ℕ → β) (n : ℕ) : List η :=
  (List.range n).map fun i => chainHash step seed c (i + 1)

variable {step seed}

variable {c : ℕ → β} {n m : ℕ}

@[simp] theorem chainHashes_zero (c : ℕ → β) : chainHashes step seed c 0 = [] := rfl

@[simp] theorem length_chainHashes : (chainHashes step seed c n).length = n := by
  simp [chainHashes]

/-- The entry at `i` is the hash of the first `i + 1` contents. -/
theorem getElem?_chainHashes {i : ℕ} (hi : i < n) :
    (chainHashes step seed c n)[i]? = some (chainHash step seed c (i + 1)) := by
  simp [chainHashes, hi]

private theorem chainHashes_succ (c : ℕ → β) (n : ℕ) : chainHashes step seed c (n + 1) =
      chainHashes step seed c n ++ [chainHash step seed c (n + 1)] := by
  simp [chainHashes, range_succ]

/-- The last digest listed is the digest of the whole sequence. -/
theorem getLast?_chainHashes :
    (chainHashes step seed c n).getLast?.getD seed = chainHash step seed c n := by
  cases n with
  | zero => rfl
  | succ n => simp [chainHashes_succ]

/-- A chain can be cut anywhere: its tail is the chain of the remaining contents, seeded with
the digest reached at the cut. -/
theorem chainHash_add : chainHash step seed c (m + n) =
      chainHash step (chainHash step seed c m) (fun i => c (m + i)) n := by
  induction n with
  | zero => rfl
  | succ n ih => rw [← Nat.add_assoc, chainHash, ih, chainHash]

/-- A chain continues from the hash of its first part. -/
theorem chainHashes_add : chainHashes step seed c (m + n) = chainHashes step seed c m ++
        chainHashes step (chainHash step seed c m) (fun i => c (m + i)) n := by
  induction n with
  | zero => simp
  | succ n ih =>
    rw [← Nat.add_assoc, chainHashes_succ, ih, chainHashes_succ, Nat.add_assoc m n 1,
      chainHash_add, append_assoc]

/-- The chain read from its first step. -/
theorem chainHashes_succ_left (c : ℕ → β) (n : ℕ) : chainHashes step seed c (n + 1) =
      step seed (c 0) :: chainHashes step (step seed (c 0)) (fun i => c (i + 1)) n := by
  rw [Nat.add_comm n 1, chainHashes_add]
  simp [chainHashes, chainHash, Nat.add_comm]

/-- Only the contents up to `n` count. -/
theorem chainHash_congr {d : ℕ → β} (h : ∀ i < n, c i = d i) :
    chainHash step seed c n = chainHash step seed d n := by
  induction n with
  | zero => rfl
  | succ n ih =>
    rw [chainHash, chainHash, ih fun i hi => h i (by omega), h n (by omega)]

/-- The first hashes of a chain are a shorter chain. -/
theorem take_chainHashes (h : m ≤ n) :
    (chainHashes step seed c n).take m = chainHashes step seed c m := by
  rw [chainHashes, ← map_take, take_range, min_eq_left h, chainHashes]

/-- A shorter chain is a prefix. -/
theorem chainHashes_isPrefix (h : m ≤ n) :
    chainHashes step seed c m <+: chainHashes step seed c n := by
  rw [← take_chainHashes h]
  exact take_prefix _ _

section CollisionFree

variable {P : η → Prop} (hseed : P seed) (hP : ∀ h b, P (step h b))

include hseed hP

private theorem chainHash_mem (c : ℕ → β) (n : ℕ) : P (chainHash step seed c n) := by
  cases n with
  | zero => exact hseed
  | succ n => exact hP _ _

variable (hinj : ∀ {h h' b b'}, P h → P h' → step h b = step h' b' → h = h' ∧ b = b')

include hinj

/-- **Collision freedom along the chain.** If a step determines the digest and the content it
was computed from, equal digests after the same number of steps have equal contents. Digests are
only ever fed back into the chain, so the step need be injective on those alone (`P`). -/
theorem content_eq_of_chainHash_eq {d : ℕ → β}
    (heq : chainHash step seed c n = chainHash step seed d n) : ∀ i < n, c i = d i := by
  induction n with
  | zero => intro i hi; omega
  | succ n ih =>
    obtain ⟨hprev, hlast⟩ := hinj (chainHash_mem hseed hP c n) (chainHash_mem hseed hP d n) heq
    intro i hi
    rcases Nat.lt_succ_iff_lt_or_eq.mp hi with h | rfl
    · exact ih hprev i h
    · exact hlast

/-- If no step returns the seed either, equal digests come from equally many steps. -/
theorem length_eq_of_chainHash_eq (hne : ∀ h b, step h b ≠ seed) {d : ℕ → β}
    (heq : chainHash step seed c m = chainHash step seed d n) : m = n := by
  induction m generalizing n with
  | zero =>
    cases n with
    | zero => rfl
    | succ n => exact absurd heq.symm (hne _ _)
  | succ m ih =>
    cases n with
    | zero => exact absurd heq (hne _ _)
    | succ n =>
      have hprev := (hinj (chainHash_mem hseed hP c m) (chainHash_mem hseed hP d n) heq).1
      rw [ih hprev]

end CollisionFree

end Sonar.Lib
