import Sonar.Proof.CanonicalCbor
import Mathlib.Data.List.Perm.Basic

/-!
# Canonical encodings are unique

A CBOR item starts with a **head**: a byte with the major type and, for arguments from 24 on, one,
two, four or eight bytes with the argument. Any of the forms that fit may be used; canonical
encodings use the shortest one (`ShortestHead`) and list the entries of a map by encoded key, shorter
keys first (`KeyBefore`).

`encode` gives the canonical encoding of a value (`canonical_encode`). Since a head tells its own
length and how much follows it, encodings delimit themselves (`delimits_encode`): equal encodings,
whatever follows them, are encodings of values that only differ in the order of map entries.
-/

namespace Sonar.Cbor

open Lib List Value
open Prod (fst snd)
open UInt8 (ofNat toNat_inj toNat_ofNat')

/-! ### Heads -/

/-- A head for a major type and an argument, in any of its forms. -/
inductive IsHead (major : ℕ) : ℕ → List UInt8 → Prop
  | direct {info : ℕ} (hinfo : info < 24) : IsHead major info [.ofNat (32 * major + info)]
  | bytes {info : ℕ} {argument : List UInt8}
      (hform : (info, argument.length) ∈ [(24, 1), (25, 2), (26, 4), (27, 8)]) :
    IsHead major (ofBytes argument) (.ofNat (32 * major + info) :: argument)

/-- No head for the same argument is shorter. -/
structure ShortestHead (major arg : ℕ) (h : List UInt8) : Prop where
  isHead : IsHead major arg h
  shortest : ∀ h', IsHead major arg h' → h.length ≤ h'.length

variable {s : List UInt8} {v w : Value} {l : List Encoded} {entries entries' : List (List UInt8 × Value)}

section

variable {major info width arg : ℕ}

/-- The first byte of a head tells major type and form. -/
private theorem firstByte_inj {major' info' : ℕ} (hmajor : major < 8) (hmajor' : major' < 8)
    (hinfo : info < 32) (hinfo' : info' < 32)
    (heq : ofNat (32 * major + info) = ofNat (32 * major' + info')) :
    major = major' ∧ info = info' := by
  have hnat := congrArg UInt8.toNat heq
  rw [toNat_ofNat', toNat_ofNat'] at hnat
  omega

section

variable (h : (info, width) ∈ [(24, 1), (25, 2), (26, 4), (27, 8)])

include h

private theorem form_lt : 24 ≤ info ∧ info < 32 := by
  simp only [mem_cons, Prod.mk.injEq, not_mem_nil, or_false] at h
  omega

/-- The form tells how long the argument is. -/
private theorem form_unique {width' : ℕ}
    (h' : (info, width') ∈ [(24, 1), (25, 2), (26, 4), (27, 8)]) : width = width' := by
  simp only [mem_cons, Prod.mk.injEq, not_mem_nil, or_false] at h h'
  omega

end

/-- A head says where it ends. -/
private theorem IsHead.append_inj {major' arg' : ℕ} {h h' t : List UInt8}
    (hh : IsHead major arg h) (hh' : IsHead major' arg' h') (hmajor : major < 8)
    (hmajor' : major' < 8) (heq : h ++ s = h' ++ t) : major = major' ∧ arg = arg' ∧ s = t := by
  cases hh with
  | direct hinfo =>
    cases hh' with
    | direct hinfo' =>
      obtain ⟨hbyte, rfl⟩ := cons_eq_cons.mp heq
      obtain ⟨rfl, rfl⟩ := firstByte_inj hmajor hmajor' (by omega) (by omega) hbyte
      exact ⟨rfl, rfl, rfl⟩
    | bytes hform' =>
      have hrange := form_lt hform'
      obtain ⟨-, rfl⟩ := firstByte_inj hmajor hmajor' (by omega) hrange.2
        (cons_eq_cons.mp heq).1
      omega
  | bytes hform =>
    have hrange := form_lt hform
    cases hh' with
    | direct hinfo' =>
      obtain ⟨-, rfl⟩ := firstByte_inj hmajor hmajor' hrange.2 (by omega)
        (cons_eq_cons.mp heq).1
      omega
    | bytes hform' =>
      obtain ⟨hbyte, htail⟩ := cons_eq_cons.mp heq
      obtain ⟨rfl, rfl⟩ := firstByte_inj hmajor hmajor' hrange.2 (form_lt hform').2 hbyte
      obtain ⟨rfl, rfl⟩ := append_inj htail (form_unique hform hform')
      exact ⟨rfl, rfl, rfl⟩

private theorem toUInt8_shiftRight {value : UInt64} {i : ℕ} (hi : i < 8) :
    (value >>> UInt64.ofNat (8 * i)).toUInt8 = ofNat (value.toNat / 256 ^ i) := by
  have hshift : (UInt64.ofNat (8 * i)).toNat = 8 * i :=
    UInt64.toNat_ofNat_of_lt (lt_trans (by omega : 8 * i < 64) (by decide))
  have hpow : 2 ^ (8 * i) = 256 ^ i := by rw [pow_mul]; rfl
  rw [← toNat_inj, UInt64.toNat_toUInt8, UInt64.toNat_shiftRight, toNat_ofNat', hshift,
    Nat.mod_eq_of_lt (by omega : 8 * i < 64), Nat.shiftRight_eq_div_pow, hpow]

/-- The loops of the encoder write the lowest bytes of the argument. -/
private theorem shifts_eq_toBytes {value : UInt64} (hwidth : width ≤ 8) :
    ((range width).reverse.map fun i => (value >>> UInt64.ofNat (8 * i)).toUInt8) =
      toBytes width value.toNat := by
  induction width with
  | zero => rfl
  | succ width ih =>
    rw [range_succ, reverse_append, reverse_singleton, singleton_append,
      map_cons, ih (by omega), toUInt8_shiftRight (by omega), toBytes]

private theorem head_eq (hmajor : major < 8) (value : UInt64) :
    head (.ofNat major) value = if value.toNat < 24 then [.ofNat (32 * major + value.toNat)]
      else if value.toNat ≤ 0xff then .ofNat (32 * major + 24) :: toBytes 1 value.toNat
      else if value.toNat ≤ 0xffff then .ofNat (32 * major + 25) :: toBytes 2 value.toNat
      else if value.toNat ≤ 0xffffffff then .ofNat (32 * major + 26) :: toBytes 4 value.toNat
      else .ofNat (32 * major + 27) :: toBytes 8 value.toNat := by
  have h24 : value < 24 ↔ value.toNat < 24 := UInt64.lt_iff_toNat_lt
  have h8 : value ≤ 0xff ↔ value.toNat ≤ 0xff := UInt64.le_iff_toNat_le
  have h16 : value ≤ 0xffff ↔ value.toNat ≤ 0xffff := UInt64.le_iff_toNat_le
  have h32 : value ≤ 0xffffffff ↔ value.toNat ≤ 0xffffffff := UInt64.le_iff_toNat_le
  have hall : ∀ major : Fin 8, ∀ info : Fin 32, ofNat major <<< 5 ||| ofNat info =
      ofNat (32 * major + info) := by decide +kernel
  have hbyte : ∀ info < 32, ofNat major <<< 5 ||| ofNat info =
      ofNat (32 * major + info) := fun info hinfo => hall ⟨major, hmajor⟩ ⟨info, hinfo⟩
  have hbytes : ∀ width ≤ 8, ((range width).reverse.map fun i =>
      (value >>> UInt64.ofNat (8 * i)).toUInt8) = toBytes width value.toNat :=
    fun width hwidth => shifts_eq_toBytes hwidth
  simp only [head, encodeHead, nil_append, h24, h8, h16, h32]
  split_ifs with h1 h2 h3 h4
  · have hvalue : value.toUInt8 = ofNat value.toNat := by
      rw [← toNat_inj, UInt64.toNat_toUInt8, toNat_ofNat']
    rw [hvalue, hbyte _ (by omega)]
  · exact congrArg₂ cons (hbyte 24 (by omega)) (hbytes 1 (by omega))
  · exact congrArg₂ cons (hbyte 25 (by omega)) (hbytes 2 (by omega))
  · exact congrArg₂ cons (hbyte 26 (by omega)) (hbytes 4 (by omega))
  · exact congrArg₂ cons (hbyte 27 (by omega)) (hbytes 8 (by omega))

/-- Larger arguments need longer heads. -/
private theorem IsHead.le_length {h : List UInt8} (hh : IsHead major arg h) :
    1 ≤ h.length ∧ (24 ≤ arg → 2 ≤ h.length) ∧ (0xff < arg → 3 ≤ h.length) ∧
      (0xffff < arg → 5 ≤ h.length) ∧ (0xffffffff < arg → 9 ≤ h.length) := by
  cases hh with
  | direct hinfo =>
    rw [length_singleton]
    omega
  | @bytes info argument hform =>
    have hlt := ofBytes_lt argument
    rw [length_cons]
    simp only [mem_cons, Prod.mk.injEq, not_mem_nil, or_false] at hform
    rcases hform with ⟨-, hlen⟩ | ⟨-, hlen⟩ | ⟨-, hlen⟩ | ⟨-, hlen⟩
    all_goals
      rw [hlen] at hlt ⊢
      omega

private theorem isHead_toBytes
    (hform : (info, width) ∈ [(24, 1), (25, 2), (26, 4), (27, 8)]) (harg : arg < 256 ^ width) :
    IsHead major arg (.ofNat (32 * major + info) :: toBytes width arg) := by
  have hhead : IsHead major (ofBytes (toBytes width arg))
      (.ofNat (32 * major + info) :: toBytes width arg) := by
    refine .bytes ?_
    rwa [length_toBytes]
  rwa [ofBytes_toBytes, Nat.mod_eq_of_lt harg] at hhead

/-- The encoder writes the shortest head. -/
private theorem shortestHead_head (hmajor : major < 8) (value : UInt64) :
    ShortestHead major value.toNat (head (.ofNat major) value) := by
  have hvalue := value.toNat_lt
  rw [head_eq hmajor]
  constructor
  · split_ifs with h1 h2 h3 h4
    · exact .direct h1
    · exact isHead_toBytes (by decide) (by omega)
    · exact isHead_toBytes (by decide) (by omega)
    · exact isHead_toBytes (by decide) (by omega)
    · exact isHead_toBytes (by decide) (by omega)
  · intro h' hh'
    have hlen := hh'.le_length
    split_ifs
    all_goals
      simp only [length_cons, length_nil, length_toBytes]
      omega

/-- The head of a length is the shortest there is. -/
private theorem shortestHead_size {α : Type} {l : List α} (hmajor : major < 8)
    (hsize : l.length < 2 ^ 64) : ShortestHead major l.length (head (.ofNat major) (size l)) := by
  have hhead := shortestHead_head hmajor (size l)
  rwa [show (size l).toNat = l.length from UInt64.toNat_ofNat_of_lt hsize] at hhead

end

/-! ### Integers -/

/-- The major type of an integer. -/
def intMajor (v : Int64) : ℕ := if 0 ≤ v.toInt then 0 else 1

/-- The argument of an integer: the number itself, or `-1 - n` for a negative one. -/
def intArg (v : Int64) : ℕ := if 0 ≤ v.toInt then v.toInt.toNat else (-1 - v.toInt).toNat

private theorem toInt_neg_succ {v : Int64} (hv : v.toInt < 0) : (-(v + 1)).toInt = -1 - v.toInt := by
  have hlow := v.le_toInt
  have hone : (1 : Int64).toInt = 1 := rfl
  have hsucc : (v + 1).toInt = v.toInt + 1 := by
    rw [Int64.toInt_add, hone, Int.bmod_eq_of_le (by omega) (by omega)]
  rw [Int64.toInt_neg, Int.bmod_eq_of_le (by omega) (by omega)]
  omega

private theorem toNat_toUInt64 {v : Int64} (hv : 0 ≤ v.toInt) : v.toUInt64.toNat = v.toInt.toNat := by
  rw [Int64.toNat_toUInt64_of_le (Int64.le_iff_toInt_le.mpr hv)]
  rfl

/-- An integer is its head. -/
private theorem shortestHead_int (v : Int64) : ShortestHead (intMajor v) (intArg v) (encode (.int v)) := by
  have hle : 0 ≤ v ↔ 0 ≤ v.toInt := Int64.le_iff_toInt_le
  rw [encode_int, intMajor, intArg]
  simp only [hle]
  split_ifs with hv
  · have hhead := shortestHead_head (by omega : 0 < 8) v.toUInt64
    rwa [toNat_toUInt64 hv] at hhead
  · have hneg := toInt_neg_succ (not_le.mp hv)
    have hhead := shortestHead_head (by omega : 1 < 8) (-(v + 1)).toUInt64
    rwa [toNat_toUInt64 (by omega), hneg] at hhead

/-- Major type and argument give the integer back. -/
private theorem int_inj {v w : Int64} (hmajor : intMajor v = intMajor w) (harg : intArg v = intArg w) :
    v = w := by
  rw [← Int64.toInt_inj]
  unfold intMajor at hmajor
  unfold intArg at harg
  split_ifs at hmajor harg
  all_goals omega

/-! ### Keys -/

/-- The canonical order of encoded keys: shorter ones first, then byte by byte. -/
def KeyBefore (a b : List UInt8) : Prop := a.length < b.length ∨ a.length = b.length ∧ a < b

private theorem keyLess_iff {a b : List UInt8} : keyLess a b = true ↔ KeyBefore a b := by
  rw [keyLess]
  split_ifs with hlen
  · rw [decide_eq_true_eq]
    exact ⟨.inl, fun h => h.resolve_right fun heq => hlen heq.1⟩
  · rw [decide_eq_true_eq, not_not] at *
    exact ⟨fun h => .inr ⟨hlen, h⟩, fun h => (h.resolve_left (by omega)).2⟩

private theorem not_keyBefore_iff {a b : List UInt8} :
    ¬ KeyBefore b a ↔ a.length < b.length ∨ a.length = b.length ∧ a ≤ b := by
  rw [KeyBefore, not_or, not_and]
  constructor
  · rintro ⟨hlen, hle⟩
    rcases lt_or_eq_of_le (not_lt.mp hlen) with hlt | heq
    · exact .inl hlt
    · exact .inr ⟨heq, hle heq.symm⟩
  · rintro (hlt | ⟨heq, hle⟩)
    · exact ⟨by omega, fun heq => by omega⟩
    · exact ⟨by omega, fun _ => hle⟩

/-- The relation the entries of a map are sorted by. -/
abbrev EncodedLe (a b : Encoded) : Prop := ¬ keyLess b.key a.key = true

private theorem encodedLe_iff {a b : Encoded} : EncodedLe a b ↔
    a.key.length < b.key.length ∨ a.key.length = b.key.length ∧ a.key ≤ b.key := by
  rw [EncodedLe, keyLess_iff, not_keyBefore_iff]

instance : Std.Total EncodedLe where
  total a b := by
    rw [encodedLe_iff, encodedLe_iff]
    rcases lt_trichotomy a.key.length b.key.length with hlt | heq | hgt
    · exact .inl (.inl hlt)
    · rcases List.le_total a.key b.key with hle | hle
      · exact .inl (.inr ⟨heq, hle⟩)
      · exact .inr (.inr ⟨heq.symm, hle⟩)
    · exact .inr (.inl hgt)

instance : IsTrans Encoded EncodedLe where
  trans a b c := by
    rw [encodedLe_iff, encodedLe_iff, encodedLe_iff]
    rintro (hab | ⟨hab, hle⟩) (hbc | ⟨hbc, hle'⟩)
    · exact .inl (by omega)
    · exact .inl (by omega)
    · exact .inl (by omega)
    · exact .inr ⟨by omega, List.le_trans hle hle'⟩

/-- Entries that may come in either order have the same key. -/
private theorem key_eq_of_encodedLe {a b : Encoded} (hab : EncodedLe a b) (hba : EncodedLe b a) :
    a.key = b.key := by
  rw [encodedLe_iff] at hab hba
  rcases hab with hab | ⟨hlen, hab⟩
  · rcases hba with hba | ⟨hlen', -⟩ <;> omega
  · rcases hba with hba | ⟨-, hba⟩
    · omega
    · exact List.le_antisymm hab hba

private theorem pairwise_sortEncoded : (sortEncoded l).Pairwise EncodedLe :=
  pairwise_insertionSort _ l

private theorem perm_sortEncoded (l : List Encoded) : (sortEncoded l).Perm l :=
  perm_insertionSort _ l

/-- With distinct keys there is one order. -/
private theorem sortEncoded_eq_of_perm {l' : List Encoded} (hperm : l.Perm l')
    (hkeys : (l.map Encoded.key).Nodup) : sortEncoded l = sortEncoded l' := by
  refine Perm.eq_of_pairwise (fun a b ha hb hab hba => ?_) pairwise_sortEncoded
    pairwise_sortEncoded (((perm_sortEncoded l).trans hperm).trans (perm_sortEncoded l').symm)
  have ha' := (perm_sortEncoded l).mem_iff.mp ha
  have hb' := hperm.mem_iff.mpr ((perm_sortEncoded l').mem_iff.mp hb)
  exact inj_on_of_nodup_map hkeys ha' hb' (key_eq_of_encodedLe hab hba)

/-- Sorted entries with distinct keys are in the canonical order. -/
private theorem pairwise_keyBefore (hkeys : (l.map Encoded.key).Nodup) :
    ((sortEncoded l).map Encoded.key).Pairwise KeyBefore := by
  have hdistinct : (sortEncoded l).Pairwise fun a b => a.key ≠ b.key :=
    pairwise_map.mp (((perm_sortEncoded l).map _).nodup_iff.mpr hkeys)
  refine pairwise_map.mpr ((pairwise_sortEncoded.and hdistinct).imp ?_)
  rintro a b ⟨hle, hne⟩
  by_contra hbefore
  refine hne (key_eq_of_encodedLe hle ?_)
  rwa [EncodedLe, keyLess_iff]

/-! ### Text -/

private theorem delimits_text {s' : List UInt8} (hs : s.length < 2 ^ 64) (hs' : s'.length < 2 ^ 64) :
    Delimits text (· = ·) s s' := by
  intro r r' heq
  rw [text, text, append_assoc, append_assoc] at heq
  obtain ⟨-, hlen, htail⟩ := (shortestHead_size (by omega : 3 < 8) hs).isHead.append_inj
    (shortestHead_size (by omega : 3 < 8) hs').isHead (by omega) (by omega) heq
  exact append_inj htail hlen

/-! ### Values -/

/-- The major type of a value. -/
def Value.major : Value → ℕ
  | .int v => intMajor v
  | .bytes _ => 2
  | .str _ => 3
  | .arr _ => 4
  | .map _ => 5

/-- The argument of a value's head. -/
def Value.arg : Value → ℕ
  | .int v => intArg v
  | .bytes b => b.length
  | .str s => s.length
  | .arr items => items.length
  | .map entries => entries.length

/-- An entry of a map, encoded. -/
def entry (e : List UInt8 × Value) : List UInt8 := text e.1 ++ encode e.2

/-- What follows the head of a value. -/
def Value.body : Value → List UInt8
  | .int _ => []
  | .bytes b => b
  | .str s => s
  | .arr items => items.flatMap Cbor.encode
  | .map entries => (sortEntries entries).flatMap entry

private theorem intMajor_le (v : Int64) : intMajor v ≤ 1 := by
  rw [intMajor]
  split_ifs
  all_goals omega

private theorem Value.major_lt (v : Value) : v.major < 8 := by
  cases v with
  | int v => exact (intMajor_le v).trans_lt (by omega)
  | _ =>
    rw [major]
    omega

/-- An encoding is the shortest head of the value and its body. -/
private theorem Value.Valid.encode_eq (hv : v.Valid) :
    ∃ h, ShortestHead v.major v.arg h ∧ Cbor.encode v = h ++ v.body := by
  cases hv with
  | int v => exact ⟨_, shortestHead_int v, (append_nil _).symm⟩
  | str hsize => exact ⟨_, shortestHead_size (by omega : 3 < 8) hsize, encode_str _⟩
  | bytes hsize => exact ⟨_, shortestHead_size (by omega : 2 < 8) hsize, encode_bytes _⟩
  | arr hsize _ => exact ⟨_, shortestHead_size (by omega : 4 < 8) hsize, encode_arr _⟩
  | map hsize _ _ _ => exact ⟨_, shortestHead_size (by omega : 5 < 8) hsize, encode_map⟩

/-- An entry is delimited when its value is. -/
private theorem delimits_entry {e e' : List UInt8 × Value} (hkey : e.1.length < 2 ^ 64)
    (hkey' : e'.1.length < 2 ^ 64) (h : Delimits encode Equiv e.2 e'.2) :
    Delimits entry (fun e e' => e.1 = e'.1 ∧ e.2.Equiv e'.2) e e' := by
  intro s t heq
  rw [entry, entry, append_assoc, append_assoc] at heq
  obtain ⟨hk, hrest⟩ := delimits_text hkey hkey' _ _ heq
  obtain ⟨hvalue, htail⟩ := h s t hrest
  exact ⟨⟨hk, hvalue⟩, htail⟩

/-- Maps whose sorted entries match are equal up to the order of entries. -/
private theorem Value.Equiv.of_sorted
    (h : Forall₂ (fun e e' => e.1 = e'.1 ∧ e.2.Equiv e'.2) (sortEntries entries)
      (sortEntries entries')) : (Value.map entries).Equiv (.map entries') := by
  -- the order of the second map is undone by reordering the first
  have hcomp : Relation.Comp (Forall₂ fun e e' => e.1 = e'.1 ∧ e.2.Equiv e'.2) Perm
      (sortEntries entries) entries' := ⟨_, h, perm_sortEntries _⟩
  rw [forall₂_comp_perm_eq_perm_comp_forall₂] at hcomp
  obtain ⟨reordered, hperm, hall⟩ := hcomp
  refine .map ((perm_sortEntries entries).symm.trans hperm) ?_ ?_
  · rw [← forall₂_eq_eq_eq, forall₂_map_left_iff, forall₂_map_right_iff]
    exact hall.imp fun _ _ he => he.1
  · rw [forall₂_map_left_iff, forall₂_map_right_iff]
    exact hall.imp fun _ _ he => he.2

/-- Equal encodings have equal heads. -/
private theorem Value.Valid.head_inj (hv : v.Valid) (hw : w.Valid) {t : List UInt8}
    (heq : Cbor.encode v ++ s = Cbor.encode w ++ t) :
    v.major = w.major ∧ v.arg = w.arg ∧ v.body ++ s = w.body ++ t := by
  obtain ⟨h, hhead, henc⟩ := hv.encode_eq
  obtain ⟨h', hhead', henc'⟩ := hw.encode_eq
  rw [henc, henc', append_assoc, append_assoc] at heq
  exact hhead.isHead.append_inj hhead'.isHead v.major_lt w.major_lt heq

/-- The major type tells the kind of a value. -/
private theorem Value.kind_of_major (h : v.major = w.major) : match v with
    | .int _ => ∃ x, w = .int x
    | .bytes _ => ∃ x, w = .bytes x
    | .str _ => ∃ x, w = .str x
    | .arr _ => ∃ x, w = .arr x
    | .map _ => ∃ x, w = .map x := by
  have hle := intMajor_le
  cases v <;> cases w <;> grind [major]

/-- Encodings delimit themselves. -/
theorem delimits_encode (hv : v.Valid) (hw : w.Valid) : Delimits encode Equiv v w := by
  intro s t heq
  induction v using induction generalizing w s t with
  | int v =>
    obtain ⟨hmajor, harg, hbody⟩ := hv.head_inj hw heq
    obtain ⟨w, rfl⟩ := kind_of_major hmajor
    obtain rfl := int_inj hmajor harg
    exact ⟨.int v, hbody⟩
  | str s' =>
    obtain ⟨hmajor, harg, hbody⟩ := hv.head_inj hw heq
    obtain ⟨s'', rfl⟩ := kind_of_major hmajor
    obtain ⟨rfl, htail⟩ := append_inj hbody harg
    exact ⟨.str _, htail⟩
  | bytes b =>
    obtain ⟨hmajor, harg, hbody⟩ := hv.head_inj hw heq
    obtain ⟨b', rfl⟩ := kind_of_major hmajor
    obtain ⟨rfl, htail⟩ := append_inj hbody harg
    exact ⟨.bytes _, htail⟩
  | arr items ih =>
    obtain ⟨hmajor, harg, hbody⟩ := hv.head_inj hw heq
    obtain ⟨items', rfl⟩ := kind_of_major hmajor
    obtain ⟨hall, htail⟩ := Delimits.flatMap harg
      (fun a ha b hb s t => ih a ha (hv.items a ha) (hw.items b hb) s t) hbody
    exact ⟨.arr hall, htail⟩
  | map entries ih =>
    obtain ⟨hmajor, harg, hbody⟩ := hv.head_inj hw heq
    obtain ⟨entries', rfl⟩ := kind_of_major hmajor
    obtain ⟨hkeys, -, hvalues⟩ := hv.entries
    obtain ⟨hkeys', -, hvalues'⟩ := hw.entries
    have hlen : (sortEntries entries).length = (sortEntries entries').length := by
      rw [(perm_sortEntries entries).length_eq, (perm_sortEntries _).length_eq]
      exact harg
    have hentries : ∀ e ∈ sortEntries entries, ∀ e' ∈ sortEntries entries',
        Delimits entry (fun e e' => e.1 = e'.1 ∧ e.2.Equiv e'.2) e e' := by
      intro e he e' he'
      have hmem := (perm_sortEntries entries).mem_iff.mp he
      have hmem' := (perm_sortEntries _).mem_iff.mp he'
      exact delimits_entry (hkeys e hmem) (hkeys' e' hmem') (ih e hmem (hvalues e hmem) (hvalues' e' hmem'))
    obtain ⟨hall, htail⟩ := Delimits.flatMap hlen hentries hbody
    exact ⟨.of_sorted hall, htail⟩

private theorem keys_encodeEntries (entries : List (List UInt8 × Value)) :
    (encodeEntries entries).map Encoded.key = (entries.map fst).map text := by
  rw [encodeEntries_eq, map_map, map_map]
  rfl

/-- Distinct keys have distinct encodings. -/
private theorem Value.Valid.nodup_keys
    (h : (Value.map entries).Valid) : ((encodeEntries entries).map Encoded.key).Nodup := by
  obtain ⟨hkeys, hdistinct, -⟩ := h.entries
  have hsize : ∀ k ∈ entries.map fst, k.length < 2 ^ 64 := by
    intro k hk
    obtain ⟨e, he, rfl⟩ := mem_map.mp hk
    exact hkeys e he
  rw [keys_encodeEntries]
  exact hdistinct.map_on fun k hk k' hk' heq =>
    (delimits_text (hsize k hk) (hsize k' hk') [] [] (by rw [heq])).1

private theorem encode_map_encoded (entries : List (List UInt8 × Value)) :
    encode (.map entries) = head 5 (size entries) ++
      (sortEncoded (encodeEntries entries)).flatMap fun e => e.key ++ e.value := by
  rw [encode_map, sortEncoded_encodeEntries, flatMap_map]

/-- Entries with the same keys and the same encoded values are encoded alike. -/
private theorem encodeEntries_congr (hkeys : entries.map fst = entries'.map fst)
    (hvalues : (entries.map snd).map encode = (entries'.map snd).map encode) :
    encodeEntries entries = encodeEntries entries' := by
  have hzip : ∀ l : List (List UInt8 × Value), encodeEntries l =
      zipWith (fun k b => ⟨text k, b⟩) (l.map fst) ((l.map snd).map encode) := by
    intro l
    rw [encodeEntries_eq, map_map, zipWith_map, zipWith_self]
    rfl
  rw [hzip, hzip, hkeys, hvalues]

/-- Values that are equal up to the order of map entries have one encoding. -/
private theorem encode_eq_of_equiv (hv : v.Valid) (h : v.Equiv w) : encode v = encode w := by
  induction v using induction generalizing w with
  | int v =>
    cases h with
    | int => rfl
  | str s =>
    cases h with
    | str => rfl
  | bytes b =>
    cases h with
    | bytes => rfl
  | arr items ih =>
    cases h with
    | @arr _ items' hitems =>
      have hall : items.map encode = items'.map encode :=
        map_eq_of_forall₂ hitems fun a ha b hab => ih a ha (hv.items a ha) hab
      have hsize : size items = size items' := by rw [size, size, hitems.length_eq]
      rw [encode_arr, encode_arr, flatMap_def, flatMap_def, hall, hsize]
  | map entries ih =>
    cases h with
    | @map _ entries' reordered hperm hkeys hvalues =>
      obtain ⟨-, -, hvalid⟩ := hv.entries
      have hall : (reordered.map snd).map encode = (entries'.map snd).map encode := by
        refine map_eq_of_forall₂ hvalues fun a ha b hab => ?_
        obtain ⟨e, he, rfl⟩ := mem_map.mp ha
        have hmem := hperm.mem_iff.mpr he
        exact ih e hmem (hvalid e hmem) hab
      have hperm' : (encodeEntries entries).Perm (encodeEntries entries') := by
        rw [← encodeEntries_congr hkeys hall, encodeEntries_eq, encodeEntries_eq]
        exact hperm.map _
      have hsize : size entries = size entries' := by
        have hlen := congrArg length hkeys
        rw [length_map, length_map] at hlen
        rw [size, size, hperm.length_eq, hlen]
      rw [encode_map_encoded, encode_map_encoded, sortEncoded_eq_of_perm hperm' hv.nodup_keys, hsize]

/-! ### Canonical encodings -/

/-- A text string in canonical form. -/
def CanonicalText (s bytes : List UInt8) : Prop := ∃ h, ShortestHead 3 s.length h ∧ bytes = h ++ s

/-- A canonical encoding of a value: every head is the shortest one for its argument, and the entries
of a map come in the order of their keys. -/
inductive Canonical : Value → List UInt8 → Prop
  | int {v : Int64} {h : List UInt8} (hhead : ShortestHead (intMajor v) (intArg v) h) :
    Canonical (.int v) h
  | str {s bytes : List UInt8} (htext : CanonicalText s bytes) : Canonical (.str s) bytes
  | bytes {b h : List UInt8} (hhead : ShortestHead 2 b.length h) : Canonical (.bytes b) (h ++ b)
  | arr {items : List Value} {h : List UInt8} {chunks : List (List UInt8)}
      (hhead : ShortestHead 4 items.length h) (hitems : Forall₂ Canonical items chunks) :
    Canonical (.arr items) (h ++ chunks.flatten)
  | map {entries sorted : List (List UInt8 × Value)} {h : List UInt8}
      {keys chunks : List (List UInt8)} (hhead : ShortestHead 5 entries.length h)
      (hperm : sorted.Perm entries)
      (hkeys : Forall₂ CanonicalText (sorted.map fst) keys)
      (horder : keys.Pairwise KeyBefore)
      (hvalues : Forall₂ Canonical (sorted.map snd) chunks) :
    Canonical (.map entries) (h ++ (zipWith (· ++ ·) keys chunks).flatten)

private theorem canonicalText_text (hsize : s.length < 2 ^ 64) : CanonicalText s (text s) :=
  ⟨_, shortestHead_size (by omega) hsize, rfl⟩

/-- The encoder gives the canonical encoding. -/
theorem canonical_encode (hv : v.Valid) : Canonical v (encode v) := by
  induction v using induction with
  | int v => exact .int (shortestHead_int v)
  | str s =>
    cases hv with
    | str hsize =>
      exact .str (canonicalText_text hsize)
  | bytes b =>
    cases hv with
    | bytes hsize =>
      exact .bytes (shortestHead_size (by omega) hsize)
  | arr items ih =>
    cases hv with
    | arr hsize hitems =>
      rw [encode_arr]
      refine .arr (shortestHead_size (by omega) hsize) ?_
      rw [forall₂_map_right_iff, forall₂_same]
      exact fun v hmem => ih v hmem (hitems v hmem)
  | map entries ih =>
    have horder := pairwise_keyBefore hv.nodup_keys
    rw [sortEncoded_encodeEntries, map_map] at horder
    cases hv with
    | map hsize hkeys hdistinct hvalues =>
      have hmem : ∀ e ∈ sortEntries entries, e ∈ entries := fun e he =>
        (perm_sortEntries entries).mem_iff.mp he
      have hbody : (sortEntries entries).flatMap entry =
          (zipWith (· ++ ·) ((sortEntries entries).map fun e => text e.1)
            ((sortEntries entries).map fun e => encode e.2)).flatten := by
        rw [zipWith_map, zipWith_self]
        rfl
      have hencode : encode (.map entries) = head 5 (size entries) ++ _ := encode_map
      rw [hencode]
      change Canonical _ (head 5 (size entries) ++ (sortEntries entries).flatMap entry)
      rw [hbody]
      refine .map (shortestHead_size (by omega) hsize) (perm_sortEntries entries) ?_ horder ?_
      · rw [forall₂_map_left_iff, forall₂_map_right_iff, forall₂_same]
        exact fun e he => canonicalText_text (hkeys e (hmem e he))
      · rw [forall₂_map_left_iff, forall₂_map_right_iff, forall₂_same]
        exact fun e he => ih e (hmem e he) (hvalues e (hmem e he))

/-- For all valid values: encodings are equal if and only if the values are equal up to the order of
map entries, no encoding is a proper prefix of another, and the encoding is canonical. -/
theorem encode_canonical {v w : Value} (hv : v.Valid) (hw : w.Valid) :
    (encode v = encode w ↔ v.Equiv w) ∧ (encode v <+: encode w → encode v = encode w) ∧
      Canonical v (encode v) := by
  have hdelimits := delimits_encode hv hw
  refine ⟨⟨fun heq => ?_, encode_eq_of_equiv hv⟩, fun ⟨s, hs⟩ => ?_, canonical_encode hv⟩
  · exact (hdelimits [] [] (by rw [heq])).1
  · obtain ⟨-, rfl⟩ := hdelimits s [] (hs.trans (append_nil _).symm)
    exact (append_nil _).symm.trans hs

/-- Two orders of one map, with the smallest integer and a nested array. -/
theorem encode_canonical_two_orders :
    encode (.map [([98], .int Int64.minValue), ([97], .arr [.int 24, .bytes [7]])]) =
      encode (.map [([97], .arr [.int 24, .bytes [7]]), ([98], .int Int64.minValue)]) := by
  have harr : (arr [.int 24, .bytes [7]]).Valid := by
    refine .arr (by decide) fun v hv => ?_
    rcases mem_pair.mp hv with rfl | rfl
    · exact .int _
    · exact .bytes (by decide)
  have hvalid : ∀ e ∈ ([([98], .int Int64.minValue), ([97], .arr [.int 24, .bytes [7]])] :
      List (List UInt8 × Value)), e.1.length < 2 ^ 64 ∧ e.2.Valid := by
    intro e he
    rcases mem_pair.mp he with rfl | rfl
    · exact ⟨by decide, .int _⟩
    · exact ⟨by decide, harr⟩
  have hswap := Perm.swap (([97], .arr [.int 24, .bytes [7]]) : List UInt8 × Value)
    ([98], .int Int64.minValue) []
  have hequiv : (map [([98], .int Int64.minValue), ([97], .arr [.int 24, .bytes [7]])]).Equiv
      (.map [([97], .arr [.int 24, .bytes [7]]), ([98], .int Int64.minValue)]) :=
    .map hswap rfl
      (.cons (.arr (.cons (.int 24) (.cons (.bytes [7]) .nil))) (.cons (.int _) .nil))
  refine (encode_canonical (.map (by decide) (fun e he => (hvalid e he).1) (by decide)
    fun e he => (hvalid e he).2) (.map (by decide) (fun e he => (hvalid e ?_).1) (by decide)
    fun e he => (hvalid e ?_).2)).1.mpr hequiv
  · exact hswap.mem_iff.mpr he
  · exact hswap.mem_iff.mpr he

end Sonar.Cbor
