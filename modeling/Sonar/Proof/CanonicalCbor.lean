import Sonar.Lib.Delimited
import Mathlib.Data.List.Sort

/-!
# The canonical CBOR encoder of proofs

`dphn_cbor::Value` is a tree of integers, text and byte strings, arrays and maps with text keys.
`Value::encode` appends the encoding of a value to a buffer; the entries of a map are sorted by
their encoded keys, shorter ones first.

Text is a byte string here, as `std::string` is. The sizes of containers are below `2 ^ 64`
(`Value.Valid`), which their type guarantees in the source. Entries are sorted after their values
are encoded, not before: the order only depends on the keys (`encode_map` states it as the source
has it). For distinct keys every sort gives the same order, so that of `std::sort` does not matter.
-/

namespace Sonar.Cbor

open Lib List

/-- What is encoded. -/
inductive Value where
  | int (v : Int64)
  | str (s : List UInt8)
  | bytes (b : List UInt8)
  | arr (items : List Value)
  | map (entries : List (List UInt8 × Value))

/-! ### Encoding -/

/-- The head of an item: the major type and a number in the shortest form. -/
def encodeHead (major : UInt8) (value : UInt64) (out : List UInt8) : List UInt8 :=
  let mt := major <<< 5
  if value < 24 then out ++ [mt ||| value.toUInt8]
  else if value ≤ 0xff then out ++ [mt ||| 24, value.toUInt8]
  else if value ≤ 0xffff then out ++ [mt ||| 25, (value >>> 8).toUInt8, value.toUInt8]
  else if value ≤ 0xffffffff then
    out ++ (mt ||| 26) :: ([24, 16, 8, 0] : List UInt64).map fun shift => (value >>> shift).toUInt8
  else
    out ++ (mt ||| 27) :: ([56, 48, 40, 32, 24, 16, 8, 0] : List UInt64).map fun shift =>
      (value >>> shift).toUInt8

/-- An int, with major type 0 or 1. -/
def encodeInt (v : Int64) (out : List UInt8) : List UInt8 :=
  if 0 ≤ v then encodeHead 0 v.toUInt64 out
  else encodeHead 1 (-(v + 1)).toUInt64 out

/-- The size of a container. -/
def size {α : Type} (l : List α) : UInt64 := .ofNat l.length

/-- A text, with its length in bytes. -/
def encodeText (s : List UInt8) (out : List UInt8) : List UInt8 := encodeHead 3 (size s) out ++ s

/-- `Encoded`, with the value encoded. -/
structure Encoded where
  key : List UInt8
  value : List UInt8
deriving DecidableEq

/-- The comparison of encoded keys. -/
def keyLess (a b : List UInt8) : Bool :=
  if a.length ≠ b.length then a.length < b.length else a < b

/-- The sort of the entries of a map. -/
def sortEncoded (l : List Encoded) : List Encoded :=
  l.insertionSort fun a b => ¬ keyLess b.key a.key

mutual

/-- A value behind what is written already. The entries of a map are sorted by their encoded keys.
-/
def Value.encode : Value → List UInt8 → List UInt8
  | .int v, out => encodeInt v out
  | .str s, out => encodeText s out
  | .bytes b, out => encodeHead 2 (size b) out ++ b
  | .arr items, out => encodeItems items (encodeHead 4 (size items) out)
  | .map entries, out =>
    let encoded := sortEncoded (encodeEntries entries)
    encoded.foldl (fun out e => out ++ e.key ++ e.value) (encodeHead 5 (size encoded) out)

/-- The items of an array. -/
def encodeItems : List Value → List UInt8 → List UInt8
  | [], out => out
  | item :: items, out => encodeItems items (item.encode out)

/-- The entries of a map. -/
def encodeEntries : List (List UInt8 × Value) → List Encoded
  | [] => []
  | (key, value) :: entries => ⟨encodeText key [], value.encode []⟩ :: encodeEntries entries

end

/-- The encoding of one value. -/
def encode (value : Value) : List UInt8 := value.encode []

/-! ### Values -/

/-- An induction over values: the items of an array and the values of a map come first. -/
theorem Value.induction {P : Value → Prop} (int : ∀ v, P (.int v)) (str : ∀ s, P (.str s))
    (bytes : ∀ b, P (.bytes b)) (arr : ∀ items, (∀ v ∈ items, P v) → P (.arr items))
    (map : ∀ entries, (∀ e ∈ entries, P e.2) → P (.map entries)) (v : Value) : P v := by
  refine @rec P (fun items => ∀ v ∈ items, P v) (fun entries => ∀ e ∈ entries, P e.2)
    (fun e => P e.2) int str bytes arr map ?_ ?_ ?_ ?_ (fun _ _ hv => hv) v
  · exact nofun
  · exact fun _ _ hitem hitems => forall_mem_cons.mpr ⟨hitem, hitems⟩
  · exact nofun
  · exact fun _ _ hentry hentries => forall_mem_cons.mpr ⟨hentry, hentries⟩

/-- What the type of the containers guarantees, and that keys of maps are distinct. -/
inductive Value.Valid : Value → Prop
  | int (v : Int64) : Valid (.int v)
  | str {s : List UInt8} (hsize : s.length < 2 ^ 64) : Valid (.str s)
  | bytes {b : List UInt8} (hsize : b.length < 2 ^ 64) : Valid (.bytes b)
  | arr {items : List Value} (hsize : items.length < 2 ^ 64) (hitems : ∀ v ∈ items, Valid v) :
    Valid (.arr items)
  | map {entries : List (List UInt8 × Value)} (hsize : entries.length < 2 ^ 64)
      (hkeys : ∀ e ∈ entries, e.1.length < 2 ^ 64) (hdistinct : (entries.map Prod.fst).Nodup)
      (hvalues : ∀ e ∈ entries, Valid e.2) : Valid (.map entries)

/-- The items of a valid array. -/
theorem Value.Valid.items {items : List Value} (h : (Value.arr items).Valid) :
    ∀ v ∈ items, v.Valid := by
  cases h with
  | arr _ hitems => exact hitems

/-- The entries of a valid map. -/
theorem Value.Valid.entries {entries : List (List UInt8 × Value)} (h : (Value.map entries).Valid) :
    (∀ e ∈ entries, e.1.length < 2 ^ 64) ∧ (entries.map Prod.fst).Nodup ∧
      ∀ e ∈ entries, e.2.Valid := by
  cases h with
  | map _ hkeys hdistinct hvalues => exact ⟨hkeys, hdistinct, hvalues⟩

/-- Values are equal up to the order of map entries. -/
inductive Value.Equiv : Value → Value → Prop
  | int (v : Int64) : Equiv (.int v) (.int v)
  | str (s : List UInt8) : Equiv (.str s) (.str s)
  | bytes (b : List UInt8) : Equiv (.bytes b) (.bytes b)
  | arr {items items' : List Value} (hitems : List.Forall₂ Equiv items items') :
    Equiv (.arr items) (.arr items')
  | map {entries entries' reordered : List (List UInt8 × Value)}
      (hperm : entries.Perm reordered)
      (hkeys : reordered.map Prod.fst = entries'.map Prod.fst)
      (hvalues : List.Forall₂ Equiv (reordered.map Prod.snd) (entries'.map Prod.snd)) :
    Equiv (.map entries) (.map entries')

/-! ### Encodings without a buffer -/

/-- The head alone. -/
def head (major : UInt8) (value : UInt64) : List UInt8 := encodeHead major value []

/-- An encoded key alone. -/
def text (s : List UInt8) : List UInt8 := head 3 (size s) ++ s

private theorem encodeHead_eq {major : UInt8} {value : UInt64} {out : List UInt8} :
    encodeHead major value out = out ++ head major value := by
  rw [head, encodeHead, encodeHead]
  split_ifs
  all_goals rw [nil_append]

private theorem encodeText_eq (s out : List UInt8) : encodeText s out = out ++ text s := by
  rw [encodeText, encodeHead_eq, text, append_assoc]

/-- An array's items are appended in order, given that each item's encoder appends. -/
private theorem encodeItems_eq {items : List Value}
    (h : ∀ v ∈ items, ∀ out, v.encode out = out ++ encode v) (out : List UInt8) :
    encodeItems items out = out ++ items.flatMap encode := by
  induction items generalizing out with
  | nil => exact (append_nil _).symm
  | cons item items ih =>
    rw [encodeItems, h item (.head _), ih fun v hv => h v (.tail _ hv), append_assoc, flatMap_cons]

/-- The entries, each with its encoded key and value. -/
theorem encodeEntries_eq (entries : List (List UInt8 × Value)) :
    encodeEntries entries = entries.map fun e => ⟨text e.1, encode e.2⟩ := by
  induction entries with
  | nil => rfl
  | cons e entries ih =>
    rw [encodeEntries, ih]
    rfl

private theorem foldl_encoded (l : List Encoded) (out : List UInt8) :
    l.foldl (fun out e => out ++ e.key ++ e.value) out =
      out ++ l.flatMap fun e => e.key ++ e.value := by
  induction l generalizing out with
  | nil => exact (append_nil _).symm
  | cons e l ih =>
    rw [foldl_cons, ih, flatMap_cons, append_assoc, append_assoc, append_assoc]

/-- The entries of a map in the order of their encoded keys. -/
def sortEntries (entries : List (List UInt8 × Value)) : List (List UInt8 × Value) :=
  entries.insertionSort fun a b => ¬ keyLess (text b.1) (text a.1)

section

variable (entries : List (List UInt8 × Value))

include entries

/-- Sorting encoded entries is encoding sorted ones. -/
theorem sortEncoded_encodeEntries : sortEncoded (encodeEntries entries) =
      (sortEntries entries).map fun e => ⟨text e.1, encode e.2⟩ := by
  rw [encodeEntries_eq]
  exact (map_insertionSort (fun a b : List UInt8 × Value => ¬ keyLess _ _)
    (fun a b : Encoded => ¬ keyLess b.key a.key) (fun e => ⟨text e.1, encode e.2⟩) entries
    fun _ _ _ _ => Iff.rfl).symm

/-- Sorting loses no entry. -/
theorem perm_sortEntries : (sortEntries entries).Perm entries :=
  perm_insertionSort _ _

private theorem Value.encode_map_eq (out : List UInt8) :
    (map entries).encode out = out ++ (head 5 (size entries) ++
      (sortEntries entries).flatMap fun e => text e.1 ++ Cbor.encode e.2) := by
  have hsize : size (sortEncoded (encodeEntries entries)) = size entries := by
    rw [size, sortEncoded_encodeEntries, length_map, (perm_sortEntries entries).length_eq, size]
  rw [encode, foldl_encoded, encodeHead_eq, hsize, sortEncoded_encodeEntries, flatMap_map,
    append_assoc]

end

/-- The encoder appends the value's bytes to what was written before. -/
private theorem Value.encode_eq (v : Value) : ∀ out, v.encode out = out ++ Cbor.encode v := by
  induction v using induction with
  | int v =>
    intro out
    rw [Cbor.encode, encode, encode, encodeInt, encodeInt]
    split_ifs
    all_goals rw [encodeHead_eq, encodeHead_eq, nil_append]
  | str s =>
    intro out
    rw [Cbor.encode, encode, encode, encodeText_eq, encodeText_eq, nil_append]
  | bytes b =>
    intro out
    rw [Cbor.encode, encode, encode, encodeHead_eq, encodeHead_eq,
      nil_append, append_assoc]
  | arr items ih =>
    intro out
    rw [Cbor.encode, encode, encode, encodeItems_eq ih, encodeItems_eq ih,
      encodeHead_eq, encodeHead_eq, nil_append, append_assoc]
  | map entries _ =>
    intro out
    rw [Cbor.encode, encode_map_eq, encode_map_eq, nil_append]

/-! ### The encoding of each kind -/

/-- The encoding of an int. -/
theorem encode_int (v : Int64) :
    encode (.int v) = if 0 ≤ v then head 0 v.toUInt64 else head 1 (-(v + 1)).toUInt64 := rfl

/-- The encoding of a text. -/
theorem encode_str (s : List UInt8) : encode (.str s) = text s := by
  rw [encode, Value.encode, encodeText_eq, nil_append]

/-- The encoding of bytes. -/
theorem encode_bytes (b : List UInt8) : encode (.bytes b) = head 2 (size b) ++ b := by
  rw [encode, Value.encode, encodeHead_eq, nil_append]

/-- The encoding of an array. -/
theorem encode_arr (items : List Value) :
    encode (.arr items) = head 4 (size items) ++ items.flatMap encode := by
  rw [encode, Value.encode, encodeItems_eq fun v _ => v.encode_eq, encodeHead_eq, nil_append]

/-- The encoding of a map, in the order of the encoded keys. -/
theorem encode_map {entries : List (List UInt8 × Value)} :
    encode (.map entries) = head 5 (size entries) ++
      (sortEntries entries).flatMap fun e => text e.1 ++ encode e.2 := by
  rw [encode, Value.encode_map_eq, nil_append]

end Sonar.Cbor
