import Mathlib.Data.List.TakeWhile
import Mathlib.Tactic.Push
import Sonar.Lib.Bisect

/-!
# The null blocks at the head of a block table

`null_head_len` looks for the first block that is not null by binary search, which means something
only if null blocks come first. It then counts the null blocks before the answer. All null entries
of a table are one object, so the count is full just when all of these are null; where the search
stops, the next block is not null in any case.
-/

namespace Sonar

open Lib List

variable {α : Type*} [DecidableEq α] (isNull : α → Bool)

/-- Number of leading null blocks. The binary search orders null blocks before the others. -/
def nullHeadLen (blocks : List α) : Option ℕ :=
  match blocks with
  | [] => some 0
  | first :: _ =>
    if !isNull first then some 0
    else
      let lo := bisectLeftFrom blocks (fun b => !isNull b) true 1
      -- all null entries are one object, so this counts them
      if (blocks.take lo).count first = lo then some lo
      else blocks.findIdx? fun b => !isNull b

variable {isNull} {blocks : List α}

/-- The count is right wherever the null blocks are. -/
theorem nullHeadLen_eq (hshared : ∀ a ∈ blocks, ∀ b ∈ blocks, isNull a → isNull b → a = b) :
    nullHeadLen isNull blocks = some (blocks.takeWhile isNull).length := by
  cases hblocks : blocks with
  | nil => rfl
  | cons first rest =>
    rw [nullHeadLen]
    cases hfirst : isNull first with
    | false => simp [hfirst]
    | true =>
      rw [← hblocks]
      have hmem : first ∈ blocks := hblocks ▸ mem_cons_self
      have hpos : 1 ≤ blocks.length := length_pos_of_mem hmem
      obtain ⟨hle, hstop⟩ := bisectLeftFrom_stops (fun b => !isNull b) true hpos
      dsimp only
      generalize bisectLeftFrom blocks (fun b => !isNull b) true 1 = lo at hle hstop ⊢
      have hcount : (blocks.take lo).count first = lo ↔ ∀ b ∈ blocks.take lo, isNull b = true := by
        conv_lhs => rhs; rw [← length_take_of_le hle]
        rw [count_eq_length]
        refine forall₂_congr fun b hb => ⟨fun h => h ▸ hfirst, fun h => ?_⟩
        exact hshared _ hmem _ (mem_of_mem_take hb) hfirst h
      rw [Bool.not_true, if_neg Bool.false_ne_true]
      split_ifs with h
      · have hrest : (blocks.drop lo).takeWhile isNull = [] := by
          rw [takeWhile_eq_nil_iff]
          intro hlt
          have hlo : lo < blocks.length := Nat.lt_of_sub_pos (by simpa using hlt)
          have hstop' := Bool.eq_true_of_true_le (hstop _ (getElem?_eq_getElem hlo))
          simpa using hstop'
        rw [← take_append_drop lo blocks, takeWhile_append_of_pos (hcount.mp h), hrest]
        simp [hle]
      · rw [hcount] at h
        push Not at h
        obtain ⟨b, hb, hnull⟩ := h
        rw [findIdx?_eq_some_of_exists ⟨b, mem_of_mem_take hb, by simpa using hnull⟩,
          takeWhile_eq_take_findIdx_not, length_take, min_eq_left findIdx_le_length]

/-- Null blocks after the first that is not. -/
theorem nullHeadLen_eq_scattered : nullHeadLen (· == 0) [0, 5, 0, 0, 7, 0] = some 1 :=
  nullHeadLen_eq (by decide)

end Sonar
