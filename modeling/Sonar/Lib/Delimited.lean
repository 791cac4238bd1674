import Mathlib.Data.List.Forall2
import Mathlib.Data.List.Basic
import Mathlib.Tactic.Ring

/-!
# Codes that end by themselves

A code is **self-delimiting** when what follows a code word cannot change how it is read: if two
words with tails are equal, the words stand for the same thing and the tails are equal. The property
is stated for two given elements, so that it can be the hypothesis of an induction over the data.
Numbers are written in base 256, the most significant byte first.
-/

namespace Sonar.Lib

open List

variable {α β : Type*}

/-- The code words of `a` and `b` are equal with some tails only if `r` relates them and the tails
are equal. -/
def Delimits (enc : α → List β) (r : α → α → Prop) (a b : α) : Prop :=
  ∀ s t, enc a ++ s = enc b ++ t → r a b ∧ s = t

namespace Delimits

variable {enc : α → List β} {r : α → α → Prop} {a b : α}

/-- Lists of the same length are delimited if their elements are. -/
theorem flatMap {l l' : List α} (hlen : l.length = l'.length)
    (h : ∀ a ∈ l, ∀ b ∈ l', Delimits enc r a b) {s t : List β}
    (heq : l.flatMap enc ++ s = l'.flatMap enc ++ t) : Forall₂ r l l' ∧ s = t := by
  induction l generalizing l' with
  | nil =>
    obtain rfl := length_eq_zero_iff.mp hlen.symm
    exact ⟨.nil, heq⟩
  | cons a l ih =>
    cases l' with
    | nil => exact absurd hlen (Nat.succ_ne_zero _)
    | cons b l' =>
      rw [flatMap_cons, flatMap_cons, append_assoc, append_assoc] at heq
      obtain ⟨hab, hrest⟩ := h a (.head _) b (.head _) _ _ heq
      obtain ⟨hall, htail⟩ := ih (Nat.succ.inj hlen)
        (fun a ha b hb => h a (.tail _ ha) b (.tail _ hb)) hrest
      exact ⟨.cons hab hall, htail⟩

end Delimits

/-- Lists whose elements have equal words have equal words. -/
theorem map_eq_of_forall₂ {enc : α → β} {r : α → α → Prop} {l l' : List α}
    (h : Forall₂ r l l') (henc : ∀ a ∈ l, ∀ b, r a b → enc a = enc b) :
    l.map enc = l'.map enc := by
  induction h with
  | nil => rfl
  | cons hab _ ih =>
    rw [map_cons, map_cons, henc _ (.head _) _ hab, ih fun a ha => henc a (.tail _ ha)]

/-! ### Numbers in base 256 -/

/-- The number that bytes stand for, the most significant one first. -/
def ofBytes (bytes : List UInt8) : ℕ := bytes.foldl (fun n b => 256 * n + b.toNat) 0

private theorem foldl_bytes (n : ℕ) (bytes : List UInt8) :
    bytes.foldl (fun n b => 256 * n + b.toNat) n = 256 ^ bytes.length * n + ofBytes bytes := by
  induction bytes generalizing n with
  | nil => simp [ofBytes]
  | cons b bytes ih =>
    rw [ofBytes, foldl_cons, foldl_cons, ih, ih _, length_cons]
    ring

private theorem ofBytes_cons (b : UInt8) (bytes : List UInt8) :
    ofBytes (b :: bytes) = 256 ^ bytes.length * b.toNat + ofBytes bytes := by
  rw [ofBytes, foldl_cons, foldl_bytes, Nat.zero_add]

/-- A number of `n` bytes is below `256 ^ n`. -/
theorem ofBytes_lt (bytes : List UInt8) : ofBytes bytes < 256 ^ bytes.length := by
  induction bytes with
  | nil => exact one_pos
  | cons b bytes ih =>
    have hb : b.toNat ≤ 255 := Nat.lt_succ_iff.mp b.toNat_lt
    rw [ofBytes_cons]
    calc 256 ^ bytes.length * b.toNat + ofBytes bytes
        < 256 ^ bytes.length * b.toNat + 256 ^ bytes.length := Nat.add_lt_add_left ih _
      _ ≤ 256 ^ bytes.length * 255 + 256 ^ bytes.length :=
        Nat.add_le_add_right (Nat.mul_le_mul_left _ hb) _
      _ = 256 ^ bytes.length * 256 := by ring

/-- The lowest bytes of a number. -/
def toBytes : ℕ → ℕ → List UInt8
  | 0, _ => []
  | width + 1, n => .ofNat (n / 256 ^ width) :: toBytes width n

/-- The width of a number. -/
theorem length_toBytes (width n : ℕ) : (toBytes width n).length = width := by
  induction width with
  | zero => rfl
  | succ width ih => rw [toBytes, length_cons, ih]

/-- Bytes give the number back, up to the width. -/
theorem ofBytes_toBytes {width n : ℕ} : ofBytes (toBytes width n) = n % 256 ^ width := by
  induction width with
  | zero => rw [pow_zero, Nat.mod_one]; rfl
  | succ width ih =>
    have hbyte : (UInt8.ofNat (n / 256 ^ width)).toNat = n / 256 ^ width % 256 := UInt8.toNat_ofNat'
    rw [toBytes, ofBytes_cons, length_toBytes, ih, hbyte, pow_succ, Nat.mod_mul, add_comm]

end Sonar.Lib
