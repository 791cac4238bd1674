import Mathlib.Order.Basic
import Mathlib.Order.Lattice
import Mathlib.Order.MinMax

/-!
# Leftmost insertion point by binary search

`bisectLeft a key x` halves the interval `[0, a.length)` until it is empty, keeping the upper
half when the middle element's key is below `x` and the lower half otherwise. On a list whose
keys are nondecreasing the answer is the **partition point** of `key · < x`: every element
before it has a smaller key, every element from it on has a key of at least `x`.

The loop is structural in a fuel argument that bounds the width of the interval, so the search
evaluates in the kernel; `bisectLeft_spec` shows that the fuel handed out is enough.
-/

namespace Sonar.Lib

open List

variable {α κ : Type*} [LinearOrder κ]

/-- The search loop on the half-open interval `[lo, hi)`. -/
def bisectLeftLoop (a : List α) (key : α → κ) (x : κ) : ℕ → ℕ → ℕ → ℕ
  | 0, lo, _ => lo
  | fuel + 1, lo, hi =>
    if lo < hi then
      match a[(lo + hi) / 2]? with
      | some v =>
        if key v < x then bisectLeftLoop a key x fuel ((lo + hi) / 2 + 1) hi
        else bisectLeftLoop a key x fuel lo ((lo + hi) / 2)
      | none => lo
    else lo

/-- The leftmost position at which `x` can be inserted into `a`, ordered by `key`. -/
def bisectLeft (a : List α) (key : α → κ) (x : κ) : ℕ :=
  bisectLeftLoop a key x a.length 0 a.length

/-- `r` separates the elements of `a` whose key is below `x` from the others. -/
structure IsPartitionPoint (a : List α) (key : α → κ) (x : κ) (r : ℕ) : Prop where
  le_length : r ≤ a.length
  lt_of_lt : ∀ i v, a[i]? = some v → i < r → key v < x
  le_of_le : ∀ i v, a[i]? = some v → r ≤ i → x ≤ key v

/-- What the loop knows of its interval: below `lo` the keys are too small, from `hi` on they
are large enough. -/
private structure BisectInv (a : List α) (key : α → κ) (x : κ) (lo hi : ℕ) : Prop where
  lo_le : lo ≤ hi
  hi_le : hi ≤ a.length
  below : ∀ i v, a[i]? = some v → i < lo → key v < x
  above : ∀ i v, a[i]? = some v → hi ≤ i → x ≤ key v

variable {a : List α} {key : α → κ}

/-- Nondecreasing keys, read by position. -/
private theorem key_le_of_le (hs : a.Pairwise fun u v => key u ≤ key v) {i j : ℕ} {u v : α}
    (hu : a[i]? = some u) (hv : a[j]? = some v) (hij : i ≤ j) : key u ≤ key v := by
  obtain ⟨hi, rfl⟩ := List.getElem?_eq_some_iff.mp hu
  obtain ⟨hj, rfl⟩ := List.getElem?_eq_some_iff.mp hv
  rcases lt_or_eq_of_le hij with h | rfl
  · exact pairwise_iff_getElem.mp hs i j hi hj h
  · exact le_rfl

/-- With at least as much fuel as the interval is wide, the loop ends on the partition point. -/
private theorem bisectLeftLoop_spec {x : κ}
    (hs : a.Pairwise fun u v => key u ≤ key v) (fuel lo hi : ℕ)
    (h : BisectInv a key x lo hi) (hfuel : hi - lo ≤ fuel) :
    IsPartitionPoint a key x (bisectLeftLoop a key x fuel lo hi) := by
  induction fuel generalizing lo hi with
  | zero =>
    obtain rfl : lo = hi := by have := h.lo_le; omega
    exact ⟨h.hi_le, h.below, h.above⟩
  | succ fuel ih =>
    rw [bisectLeftLoop]
    by_cases hlt : lo < hi
    · have hmid : (lo + hi) / 2 < a.length := by have := h.hi_le; omega
      rw [if_pos hlt, getElem?_eq_getElem hmid]
      by_cases hk : key (a[(lo + hi) / 2]) < x
      · simp only [hk]
        refine ih _ _ ⟨by omega, h.hi_le, fun i v hv hi' => ?_, h.above⟩ (by omega)
        exact lt_of_le_of_lt (key_le_of_le hs hv (getElem?_eq_getElem hmid) (by omega)) hk
      · simp only [hk]
        refine ih _ _ ⟨by omega, by omega, h.below, fun i v hv hi' => ?_⟩ (by omega)
        exact (not_lt.mp hk).trans (key_le_of_le hs (getElem?_eq_getElem hmid) hv hi')
    · obtain rfl : lo = hi := by have := h.lo_le; omega
      rw [if_neg hlt]
      exact ⟨h.hi_le, h.below, h.above⟩

/-- On nondecreasing keys, `bisectLeft` returns the partition point of `key · < x`. -/
theorem bisectLeft_spec (hs : a.Pairwise fun u v => key u ≤ key v) {x : κ} :
    IsPartitionPoint a key x (bisectLeft a key x) := by
  refine bisectLeftLoop_spec hs _ 0 _ ⟨Nat.zero_le _, le_rfl, ?_, ?_⟩ (by omega)
  · intro i v _ hi
    omega
  · intro i v hv hi
    have := (List.getElem?_eq_some_iff.mp hv).1
    omega

example : bisectLeft [1, 3, 4, 4, 8] id 4 = 2 := by decide

/-- The search from an index on. -/
def bisectLeftFrom (a : List α) (key : α → κ) (x : κ) (lo : ℕ) : ℕ :=
  bisectLeftLoop a key x a.length lo a.length

/-- If the keys before the index are too small, the answer is the partition point. -/
theorem bisectLeftFrom_spec
    (hs : a.Pairwise fun u v => key u ≤ key v) {x : κ} {lo : ℕ} (hlo : lo ≤ a.length)
    (hsmall : ∀ i v, a[i]? = some v → i < lo → key v < x) :
    IsPartitionPoint a key x (bisectLeftFrom a key x lo) := by
  refine bisectLeftLoop_spec hs _ lo _ ⟨hlo, le_rfl, hsmall, ?_⟩ (by omega)
  intro i v hv hi
  have := (List.getElem?_eq_some_iff.mp hv).1
  omega

/-- Whatever the order of the keys, the search stops at the end or before a key that is large
enough. -/
theorem bisectLeftFrom_stops (key : α → κ) (x : κ) {lo : ℕ} (hlo : lo ≤ a.length) :
    bisectLeftFrom a key x lo ≤ a.length ∧
      ∀ v, a[bisectLeftFrom a key x lo]? = some v → x ≤ key v := by
  suffices h : ∀ fuel lo hi, lo ≤ hi → hi ≤ a.length → hi - lo ≤ fuel →
      (∀ v, a[hi]? = some v → x ≤ key v) → bisectLeftLoop a key x fuel lo hi ≤ a.length ∧
        ∀ v, a[bisectLeftLoop a key x fuel lo hi]? = some v → x ≤ key v from
    h _ _ _ hlo le_rfl (by omega) (by simp)
  intro fuel
  induction fuel with
  | zero =>
    intro lo hi hle hlen hfuel hhi
    obtain rfl : lo = hi := by omega
    exact ⟨hlen, hhi⟩
  | succ fuel ih =>
    intro lo hi hle hlen hfuel hhi
    rw [bisectLeftLoop]
    by_cases hlt : lo < hi
    · have hmid : (lo + hi) / 2 < a.length := by omega
      rw [if_pos hlt, getElem?_eq_getElem hmid]
      dsimp only
      split_ifs with hk
      · exact ih _ _ (by omega) hlen (by omega) hhi
      · refine ih _ _ (by omega) hmid.le (by omega) fun v hv => ?_
        obtain rfl := Option.some.inj ((getElem?_eq_getElem hmid).symm.trans hv)
        exact not_lt.mp hk
    · obtain rfl : lo = hi := by omega
      rw [if_neg hlt]
      exact ⟨hlen, hhi⟩

end Sonar.Lib
