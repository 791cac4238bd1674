import Mathlib.Data.List.DropRight
import Sonar.Core.BlockPool

/-!
# Detection of repeated patterns at the end of an output

`check_sequence_repetition` tries the pattern sizes in increasing order. For each it compares the
tokens of the last pattern with those one, two, … patterns before them, and it stops at the first
size for which the output is too short. It answers whether the output ends in enough copies of one
pattern, and it reads no token outside the output.
-/

namespace Sonar.Scheduler

open List

/-- `RepetitionDetectionParams`, with what `__post_init__` checks. -/
structure RepetitionDetectionParams where
  maxPatternSize : ℕ := 0
  minPatternSize : ℕ := 0
  minCount : ℤ := 0
  min_le_max : minPatternSize ≤ maxPatternSize := by decide
  two_le_minCount : 0 < maxPatternSize → 2 ≤ minCount := by decide

/-- `token_ids[-k]` for a positive `k`. -/
def tokenFromEnd (tokenIds : List ℤ) (k : ℕ) : Except PyError ℤ :=
  match tokenIds.reverse[k - 1]? with
  | some token => .ok token
  | none => .error .indexError

/-- Whether the last tokens are one pattern of the given length, as often as asked for. -/
def hasRepeatingPattern (tokenIds : List ℤ) (patternLen repetitionMinCount : ℕ) :
    Except PyError Bool :=
  (range' 1 patternLen).allM fun n => do
    let targetToken ← tokenFromEnd tokenIds n
    (range' 1 (repetitionMinCount - 1)).allM fun m => do
      let token ← tokenFromEnd tokenIds (patternLen * m + n)
      return token == targetToken

/-- The loop over the pattern sizes. -/
def checkSizes (tokenIds : List ℤ) (minCount : ℕ) : List ℕ → Except PyError Bool
  | [] => return false
  | patternLen :: sizes => do
    if patternLen * minCount > tokenIds.length then
      return false
    if ← hasRepeatingPattern tokenIds patternLen minCount then
      return true
    checkSizes tokenIds minCount sizes

/-- Whether the output ends in a repetition of some pattern size. -/
def checkSequenceRepetition (tokenIds : List ℤ) (params : RepetitionDetectionParams) :
    Except PyError Bool :=
  let minPatternSize := if params.minPatternSize ≤ 0 then 1 else params.minPatternSize
  if params.maxPatternSize ≤ 0 ∨ params.minCount < 2 ∨ minPatternSize > params.maxPatternSize then
    return false
  else
    checkSizes tokenIds params.minCount.toNat
      (range' minPatternSize (params.maxPatternSize + 1 - minPatternSize))

variable {tokenIds : List ℤ}

/-- The output ends in `count` copies of its last `size` tokens. -/
def EndsInCopies (tokenIds : List ℤ) (size count : ℕ) : Prop :=
  count * size ≤ tokenIds.length ∧
    tokenIds.rtake (count * size) = (replicate count (tokenIds.rtake size)).flatten

/-- Read backwards, the copies are equal to the first of them position by position. -/
private theorem take_mul_eq_flatten_iff {α : Type*} {l : List α} {size : ℕ} : ∀ {count : ℕ},
    count * size ≤ l.length → (l.take (count * size) = (replicate count (l.take size)).flatten ↔
        ∀ m < count, ∀ i < size, l[size * m + i]? = l[i]?) := by
  intro count
  induction count with
  | zero => simp
  | succ count ih =>
    intro hle
    rw [Nat.succ_mul] at hle ⊢
    have hlast : (l.drop (count * size)).take size = l.take size ↔
        ∀ i < size, l[size * count + i]? = l[i]? := by
      rw [List.ext_getElem?_iff]
      refine forall_congr' fun i => ?_
      rcases lt_or_ge i size with hi | hi
      · simp [hi, mul_comm]
      · simp [not_lt.mpr hi]
    rw [take_add, replicate_succ', flatten_concat, Nat.forall_lt_succ_right, ← ih (by omega),
      ← hlast]
    constructor
    · intro heq
      exact append_inj' heq (by simp; omega)
    · rintro ⟨hinit, hblock⟩
      rw [hinit, hblock]

private theorem endsInCopies_iff {size count : ℕ} (hle : count * size ≤ tokenIds.length) :
    EndsInCopies tokenIds size count ↔
      ∀ m < count, ∀ i < size, tokenIds.reverse[size * m + i]? = tokenIds.reverse[i]? := by
  rw [← take_mul_eq_flatten_iff (by simpa using hle), EndsInCopies, and_iff_right hle,
    rtake_eq_reverse_take_reverse, rtake_eq_reverse_take_reverse, reverse_eq_iff, reverse_flatten,
    map_replicate, reverse_replicate, reverse_reverse]

instance {size count : ℕ} : Decidable (EndsInCopies tokenIds size count) :=
  inferInstanceAs (Decidable (_ ∧ _))

private theorem allM_eq_ok {α ε : Type} {f : α → Except ε Bool} {b : α → Bool} {l : List α}
    (h : ∀ x ∈ l, f x = .ok (b x)) : l.allM f = .ok (l.all b) := by
  induction l with
  | nil => rfl
  | cons x l ih =>
    rw [allM, h x mem_cons_self, all_cons]
    cases hx : b x with
    | false => rfl
    | true => exact ih fun y hy => h y (mem_cons_of_mem x hy)

/-- A size for which the output is long enough is decided by reads inside the output. -/
private theorem hasRepeatingPattern_eq {size count : ℕ} (hcount : 0 < count)
    (hle : count * size ≤ tokenIds.length) :
    hasRepeatingPattern tokenIds size count = .ok (decide (EndsInCopies tokenIds size count)) := by
  have hread : ∀ m < count, ∀ i < size, ∃ token, tokenIds.reverse[size * m + i]? = some token ∧
        tokenFromEnd tokenIds (size * m + (i + 1)) = .ok token := by
    intro m hm i hi
    have hmul : (m + 1) * size ≤ count * size := Nat.mul_le_mul_right size hm
    have hlt : size * m + i < tokenIds.reverse.length := by
      rw [length_reverse, mul_comm]
      rw [Nat.succ_mul] at hmul
      omega
    refine ⟨_, getElem?_eq_getElem hlt, ?_⟩
    rw [tokenFromEnd, ← add_assoc, Nat.add_sub_cancel, getElem?_eq_getElem hlt]
  have hrow : ∀ n ∈ range' 1 size, (do
      let targetToken ← tokenFromEnd tokenIds n
      (range' 1 (count - 1)).allM fun m => do
        let token ← tokenFromEnd tokenIds (size * m + n)
        return token == targetToken) = Except.ok ((range' 1 (count - 1)).all fun m =>
        tokenIds.reverse[size * m + (n - 1)]? == tokenIds.reverse[n - 1]?) := by
    intro n hn
    obtain ⟨i, hi, rfl⟩ := mem_range'.mp hn
    obtain ⟨target, htarget, htargetRead⟩ := hread 0 hcount i hi
    rw [mul_zero, zero_add] at htarget htargetRead
    rw [one_mul, add_comm 1 i, htargetRead]
    refine allM_eq_ok fun m hm => ?_
    obtain ⟨token, htoken, htokenRead⟩ := hread m (by simp at hm; omega) i hi
    rw [htokenRead, Nat.add_sub_cancel, htarget, htoken]
    rfl
  rw [hasRepeatingPattern, allM_eq_ok hrow, Except.ok.injEq, Bool.eq_iff_iff, decide_eq_true_iff,
    endsInCopies_iff hle]
  simp only [all_eq_true, mem_range'_1, beq_iff_eq]
  constructor
  · intro hall m hm i hi
    rcases eq_zero_or_pos m with rfl | hpos
    · rw [mul_zero, zero_add]
    · exact hall (i + 1) (by omega) m (by omega)
  · intro hall n hn m hm
    exact hall m (by omega) (n - 1) (by omega)

/-- The sizes are tried in increasing order, so none that fits comes after one that does not. -/
private theorem checkSizes_eq {count : ℕ} (hcount : 0 < count) : ∀ length size : ℕ,
    ∃ found, checkSizes tokenIds count (range' size length) = .ok found ∧
      (found = true ↔ ∃ p, (size ≤ p ∧ p < size + length) ∧ EndsInCopies tokenIds p count) := by
  intro length
  induction length with
  | zero =>
    intro size
    refine ⟨false, rfl, iff_of_false Bool.false_ne_true ?_⟩
    rintro ⟨p, hp, -⟩
    omega
  | succ length ih =>
    intro size
    rw [range'_succ, checkSizes]
    rcases lt_or_ge tokenIds.length (size * count) with hlong | hfits
    · refine ⟨false, if_pos hlong, iff_of_false Bool.false_ne_true ?_⟩
      rintro ⟨p, ⟨hp, -⟩, hle, -⟩
      have hmul : count * size ≤ count * p := Nat.mul_le_mul_left count hp
      rw [mul_comm] at hlong
      omega
    · rw [if_neg (not_lt.mpr hfits), hasRepeatingPattern_eq hcount (mul_comm size count ▸ hfits)]
      by_cases hends : EndsInCopies tokenIds size count
      · rw [decide_eq_true hends]
        exact ⟨true, rfl, iff_of_true rfl ⟨size, by omega, hends⟩⟩
      · rw [decide_eq_false hends]
        obtain ⟨found, hfound, hiff⟩ := ih _
        refine ⟨found, hfound, hiff.trans ?_⟩
        constructor
        · rintro ⟨p, hp, hcopies⟩
          exact ⟨p, by omega, hcopies⟩
        · rintro ⟨p, hp, hcopies⟩
          have hne : p ≠ size := fun heq => hends (heq ▸ hcopies)
          exact ⟨p, by omega, hcopies⟩

/-- The answer is whether the output ends in `min_count` copies of a pattern of an admitted size,
where a minimum of zero stands for one. No index is out of range. -/
theorem checkSequenceRepetition_eq (tokenIds : List ℤ) (params : RepetitionDetectionParams) :
    ∃ found, checkSequenceRepetition tokenIds params = .ok found ∧
      (found = true ↔ ∃ p, (max 1 params.minPatternSize ≤ p ∧ p ≤ params.maxPatternSize) ∧
        EndsInCopies tokenIds p params.minCount.toNat) := by
  have hmin : (if params.minPatternSize ≤ 0 then 1 else params.minPatternSize) =
      max 1 params.minPatternSize := by
    split_ifs <;> omega
  rw [checkSequenceRepetition]
  simp only [hmin]
  split_ifs with hoff
  · refine ⟨false, rfl, iff_of_false Bool.false_ne_true ?_⟩
    rintro ⟨p, hp, -⟩
    have hcount := params.two_le_minCount
    omega
  · obtain ⟨found, hfound, hiff⟩ := checkSizes_eq (by omega : 0 < params.minCount.toNat)
      _ _
    refine ⟨found, hfound, hiff.trans ?_⟩
    refine exists_congr fun p => and_congr_left fun _ => ?_
    omega

end Sonar.Scheduler
