import Mathlib.Algebra.Ring.Nat
import Mathlib.Algebra.BigOperators.Group.List.Basic
import Mathlib.Data.List.Infix
import Mathlib.Tactic.Common

/-!
# Bytes and characters

`lossy` decodes bytes one at a time. A byte that cannot belong to any character, and every maximal
part of a character that is not completed, is replaced by U+FFFD. What is not yet decided is the
character that has begun (`Pending`); decoding can go on from there (`feed_append`), so that bytes
that end with a character (`Whole`) are decoded on their own (`Whole.lossy_append`).

The second part is about byte offsets into a text: where a character ends, and the text between two
such places.
-/

namespace Sonar.Lib.Utf8

open List

/-! ### Lossy decoding -/

/-- U+FFFD. -/
def replacement : Char := '�'

/-- A character that has begun: its bytes, and the ranges of the bytes it still needs. -/
structure Pending where
  seen : List UInt8 := []
  need : List (UInt8 × UInt8) := []
deriving DecidableEq, Repr

/-- The ranges of the bytes that follow a first byte. -/
def followers (b : UInt8) : Option (List (UInt8 × UInt8)) :=
  if b ≤ 0x7F then some []
  else if b < 0xC2 then none
  else if b ≤ 0xDF then some [(0x80, 0xBF)]
  else if b = 0xE0 then some [(0xA0, 0xBF), (0x80, 0xBF)]
  else if b = 0xED then some [(0x80, 0x9F), (0x80, 0xBF)]
  else if b ≤ 0xEF then some [(0x80, 0xBF), (0x80, 0xBF)]
  else if b = 0xF0 then some [(0x90, 0xBF), (0x80, 0xBF), (0x80, 0xBF)]
  else if b ≤ 0xF3 then some [(0x80, 0xBF), (0x80, 0xBF), (0x80, 0xBF)]
  else if b = 0xF4 then some [(0x80, 0x8F), (0x80, 0xBF), (0x80, 0xBF)]
  else none

variable (bytes : List UInt8)

/-- The character of a complete sequence of bytes. -/
def charOf : Char :=
  match bytes.map UInt8.toNat with
  | [a] => Char.ofNat a
  | [a, b] => Char.ofNat (a % 32 * 64 + b % 64)
  | [a, b, c] => Char.ofNat ((a % 16 * 64 + b % 64) * 64 + c % 64)
  | [a, b, c, d] => Char.ofNat (((a % 8 * 64 + b % 64) * 64 + c % 64) * 64 + d % 64)
  | _ => replacement

/-- A byte where a character may begin. -/
def first (b : UInt8) : List Char × Pending :=
  match followers b with
  | none => ([replacement], {})
  | some [] => ([charOf [b]], {})
  | some need => ([], ⟨[b], need⟩)

/-- A byte after a character that may have begun. -/
def next (p : Pending) (b : UInt8) : List Char × Pending :=
  match p.need with
  | [] => first b
  | (low, high) :: need =>
    if low ≤ b ∧ b ≤ high then
      if need = [] then ([charOf (p.seen ++ [b])], {}) else ([], ⟨p.seen ++ [b], need⟩)
    else (replacement :: (first b).1, (first b).2)

/-- What bytes decode to, and the character that has begun after them. -/
def feed (p : Pending) : List UInt8 → List Char × Pending
  | [] => ([], p)
  | b :: bytes => ((next p b).1 ++ (feed (next p b).2 bytes).1, (feed (next p b).2 bytes).2)

/-- A character that is not completed is replaced. -/
def Pending.flush (p : Pending) : List Char := if p.need = [] then [] else [replacement]

/-- The characters that the bytes complete. -/
def complete : List Char := (feed {} bytes).1

/-- The character that has begun after the bytes. -/
def pending : Pending := (feed {} bytes).2

/-- Decode the bytes. -/
def lossy : List Char := complete bytes ++ (pending bytes).flush

/-- The bytes end with a character. -/
def Whole : Prop := pending bytes = {}

instance (bytes : List UInt8) : Decidable (Whole bytes) :=
  inferInstanceAs (Decidable (pending bytes = {}))

/-- Bytes may be fed in two parts. -/
theorem feed_append (p : Pending) (a b : List UInt8) :
    feed p (a ++ b) = ((feed p a).1 ++ (feed (feed p a).2 b).1, (feed (feed p a).2 b).2) := by
  induction a generalizing p with
  | nil => rfl
  | cons x a ih => simp [feed, ih]

/-- What is pending after two parts. -/
theorem pending_append (a b : List UInt8) : pending (a ++ b) = (feed (pending a) b).2 := by
  rw [pending, feed_append]
  rfl

/-- What the first bytes complete stays when more bytes arrive. -/
theorem lossy_append (a b : List UInt8) :
    lossy (a ++ b) = complete a ++ ((feed (pending a) b).1 ++ (feed (pending a) b).2.flush) := by
  rw [lossy, complete, feed_append, pending_append, append_assoc]
  rfl

/-- Nothing is pending at first. -/
theorem whole_nil : Whole [] := rfl

variable {a bytes : List UInt8}

private theorem Whole.lossy_eq (ha : Whole a) : lossy a = complete a := by
  rw [lossy, ha]
  exact append_nil _

/-- Bytes that end with a character are decoded on their own. -/
theorem Whole.lossy_append (ha : Whole a) (b : List UInt8) :
    lossy (a ++ b) = lossy a ++ lossy b := by
  rw [Utf8.lossy_append, ha, ha.lossy_eq]
  rfl

private theorem need_first {b : UInt8} (h : (first b).2.need = []) : (first b).2 = {} := by
  revert h
  rw [first]
  split <;> simp_all

/-- Nothing is needed only where no character has begun. -/
theorem need_feed {p : Pending} (hp : p.need = [] → p = {}) :
    (feed p bytes).2.need = [] → (feed p bytes).2 = {} := by
  induction bytes generalizing p with
  | nil => exact hp
  | cons b bytes ih =>
    refine ih fun h => ?_
    revert h
    rw [next]
    split
    · exact need_first
    · split_ifs with hrange hneed
      · simp
      · simp [hneed]
      · exact need_first

/-- A text is whole where no byte is missing. -/
theorem whole_iff : Whole bytes ↔ (pending bytes).need = [] :=
  ⟨fun h => h ▸ rfl, need_feed (fun _ => rfl)⟩

/-- A text that does not end with a replacement comes from whole characters. -/
theorem whole_of_getLast? (h : (lossy bytes).getLast? ≠ some replacement) : Whole bytes := by
  refine whole_iff.mpr ?_
  by_contra hneed
  refine h ?_
  rw [lossy, Pending.flush, if_neg hneed, getLast?_concat]

/-! ### Byte offsets -/

/-- The length in bytes. -/
def byteLen (text : List Char) : ℕ := (text.map Char.utf8Size).sum

@[simp] theorem byteLen_nil : byteLen [] = 0 := rfl

@[simp] theorem byteLen_cons (c : Char) (text : List Char) :
    byteLen (c :: text) = c.utf8Size + byteLen text := by
  simp [byteLen]

@[simp] theorem byteLen_append (a b : List Char) : byteLen (a ++ b) = byteLen a + byteLen b := by
  simp [byteLen]

/-- Only the empty text has no bytes. -/
theorem byteLen_pos {text : List Char} : 0 < byteLen text ↔ text ≠ [] := by
  cases text with
  | nil => simp
  | cons c text => simpa using Nat.add_pos_left c.utf8Size_pos _

/-- The characters that end at the offset or before it. -/
def floorPrefix : List Char → ℕ → List Char
  | [], _ => []
  | c :: text, n => if c.utf8Size ≤ n then c :: floorPrefix text (n - c.utf8Size) else []

/-- The last end of a character at the offset or before it. -/
def floorCharBoundary (text : List Char) (n : ℕ) : ℕ := byteLen (floorPrefix text n)

/-- Split at an offset, where a character ends there. -/
def splitAtByte : List Char → ℕ → Option (List Char × List Char)
  | text, 0 => some ([], text)
  | [], _ + 1 => none
  | c :: text, n + 1 =>
    if c.utf8Size ≤ n + 1 then
      (splitAtByte text (n + 1 - c.utf8Size)).map fun split => (c :: split.1, split.2)
    else none

/-- The text between two offsets, where characters end at both. -/
def slice (text : List Char) (i j : ℕ) : Option (List Char) := do
  let upTo ← splitAtByte text j
  let between ← splitAtByte upTo.1 i
  return between.2

/-- The text up to a byte offset is a prefix. -/
theorem floorPrefix_isPrefix (text : List Char) (n : ℕ) : floorPrefix text n <+: text := by
  induction text generalizing n with
  | nil => exact nil_prefix
  | cons c text ih =>
    rw [floorPrefix]
    split_ifs
    · exact (prefix_cons_inj c).mpr (ih _)
    · exact nil_prefix

/-- It is not longer than the offset. -/
theorem byteLen_floorPrefix_le (text : List Char) (n : ℕ) : byteLen (floorPrefix text n) ≤ n := by
  induction text generalizing n with
  | nil => exact Nat.zero_le _
  | cons c text ih =>
    rw [floorPrefix]
    split_ifs with hc
    · have hle := ih (n - c.utf8Size)
      rw [byteLen_cons]
      omega
    · exact Nat.zero_le _

/-- Every prefix that ends at the offset or before it is part of the longest one. -/
theorem isPrefix_floorPrefix {a text : List Char} {n : ℕ} (h : a <+: text) (hn : byteLen a ≤ n) :
    a <+: floorPrefix text n := by
  obtain ⟨more, rfl⟩ := h
  induction a generalizing n with
  | nil => exact nil_prefix
  | cons c a ih =>
    rw [byteLen_cons] at hn
    rw [cons_append, floorPrefix, if_pos (by omega)]
    exact (prefix_cons_inj c).mpr (ih (by omega))

/-- The end of a part of the text is the last one up to there. -/
@[simp] theorem floorPrefix_append (a b : List Char) : floorPrefix (a ++ b) (byteLen a) = a := by
  have hpre := isPrefix_floorPrefix (prefix_append a b) le_rfl
  obtain ⟨more, hmore⟩ := hpre
  have hle := byteLen_floorPrefix_le (a ++ b) (byteLen a)
  rw [← hmore, byteLen_append] at hle
  have hnil : more = [] := by
    by_contra hne
    have := byteLen_pos.mpr hne
    omega
  rw [← hmore, hnil, append_nil]

@[simp] theorem splitAtByte_append (a b : List Char) :
    splitAtByte (a ++ b) (byteLen a) = some (a, b) := by
  induction a with
  | nil => cases b <;> rfl
  | cons c a ih =>
    obtain ⟨n, hn⟩ : ∃ n, byteLen _ = n + 1 :=
      Nat.exists_eq_succ_of_ne_zero (byteLen_pos.mpr (cons_ne_nil c a)).ne'
    have hsize : c.utf8Size ≤ n + 1 := by
      rw [← hn]
      exact Nat.le_add_right _ _
    have hrest : n + 1 - c.utf8Size = byteLen a := by
      rw [← hn, byteLen_cons]
      omega
    rw [hn, cons_append, splitAtByte, if_pos hsize, hrest, ih]
    rfl

end Sonar.Lib.Utf8
