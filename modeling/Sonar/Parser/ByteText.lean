import Sonar.Parser.DecodedText

/-!
# Decoded text in bytes and in characters

The source keeps the offsets of tokens in bytes of UTF-8, and panics where a text is cut inside a
character or an offset is moved below zero. The parsers are modelled on offsets in characters. `toBytes`
says what a text in characters is in the source: an offset is that of the byte where the character
begins. Appending and draining commute with it, so what is proved of them in characters holds of the
texts of the source, and no panic is left out. `ofDecoder` reads a text of the source in characters.
-/

namespace Sonar.Parser

open List Lib.Utf8

/-- The anchor with its offset in bytes. -/
def TokenAnchor.toBytes (text : List Char) : TokenAnchor → Text.TokenAnchor
  | .visible n => .visible (byteLen (text.take n))
  | .zeroWidth n => .zeroWidth (byteLen (text.take n))

/-- The attribution with its offset in bytes. -/
def TokenAttribution.toBytes (text : List Char) (a : TokenAttribution) : Text.TokenAttribution :=
  ⟨a.tokenId, a.anchor.toBytes text⟩

namespace DecodedText

/-- The decoded text as the source has it. -/
def toBytes (d : DecodedText) : Text.DecodedText :=
  ⟨d.text, d.attributions.map (TokenAttribution.toBytes d.text)⟩

/-- What the decoder made, with offsets in characters. -/
def ofDecoder (d : Text.DecodedText) : DecodedText :=
  ⟨d.text, d.attributions.map fun a => ⟨a.tokenId, match a.anchor with
    | .visible n => .visible (floorPrefix d.text n).length
    | .zeroWidth n => .zeroWidth (floorPrefix d.text n).length⟩⟩

/-- Every token stands in the text or at its end. -/
def Anchored (d : DecodedText) : Prop := ∀ a ∈ d.attributions, a.anchor.offset ≤ d.text.length

/-- Well-formed pieces are anchored. -/
theorem WellFormed.anchored {d : DecodedText} (h : d.WellFormed) : d.Anchored := h.offset_le

variable {d other : DecodedText} {text more : List Char} {a : TokenAttribution} {n len : ℕ}

/-! ### Offsets -/

private theorem byteLen_take_add : byteLen (text.take (len + n)) =
    byteLen (text.take len) + byteLen ((text.drop len).take n) := by
  rw [take_add, byteLen_append]

/-- Characters have bytes, so offsets in bytes are in the order of those in characters. -/
private theorem byteLen_take_lt (hn : n ≤ text.length) (hlen : len ≤ text.length) :
    byteLen (text.take n) < byteLen (text.take len) ↔ n < len := by
  constructor
  · intro hlt
    by_contra hle
    obtain ⟨k, rfl⟩ := Nat.exists_eq_add_of_le (not_lt.mp hle)
    rw [byteLen_take_add] at hlt
    omega
  · intro hlt
    obtain ⟨k, rfl⟩ := Nat.exists_eq_add_of_le hlt.le
    have hpos : 0 < byteLen ((text.drop n).take k) := by
      rw [byteLen_pos, ne_eq, take_eq_nil_iff, drop_eq_nil_iff]
      omega
    rw [byteLen_take_add]
    omega

private theorem mapM_eq_map {α β γ : Type} {e : γ → α} {f : α → Except Text.StreamError β}
    {g : γ → β} {l : List γ} (h : ∀ c ∈ l, f (e c) = .ok (g c)) :
    (l.map e).mapM f = .ok (l.map g) := by
  induction l with
  | nil => rfl
  | cons a l ih =>
    rw [map_cons, mapM_cons, h a (.head _), ih fun b hb => h b (.tail _ hb)]
    rfl

/-- An anchor is moved in bytes as it is in characters. -/
private theorem offsetBy_toBytes {delta bytes : ℤ} {text' : List Char}
    (h : byteLen (text.take a.anchor.offset) + bytes =
      byteLen (text'.take (a.anchor.offset + delta).toNat)) :
    (a.toBytes text).offsetBy bytes = .ok ((a.offsetBy delta).toBytes text') := by
  obtain ⟨tokenId, m | m⟩ := a
  all_goals
    change (byteLen (text.take m) : ℤ) + bytes = byteLen (text'.take (m + delta).toNat) at h
    simp only [TokenAttribution.toBytes, TokenAnchor.toBytes, Text.TokenAttribution.offsetBy,
      Text.TokenAnchor.offsetBy, Text.TokenAnchor.byteOffset, TokenAttribution.offsetBy,
      TokenAnchor.offsetBy, h, Int.toNat_natCast]
    rfl

/-! ### The functions of the source -/

/-- Reading the offsets back gives the text. -/
theorem ofDecoder_toBytes (hd : d.Anchored) : ofDecoder d.toBytes = d := by
  have hfloor : ∀ n, floorPrefix d.text (byteLen (d.text.take n)) = d.text.take n := fun n => by
    have happend := floorPrefix_append (d.text.take n) (d.text.drop n)
    rwa [take_append_drop] at happend
  have hback : (d.attributions.map (TokenAttribution.toBytes d.text)).map (fun a =>
      (⟨a.tokenId, match a.anchor with
        | .visible n => .visible (floorPrefix d.text n).length
        | .zeroWidth n => .zeroWidth (floorPrefix d.text n).length⟩ : TokenAttribution)) =
      d.attributions := by
    rw [map_map]
    refine (map_congr_left fun a ha => ?_).trans (map_id _)
    have hle := hd a ha
    obtain ⟨tokenId, m | m⟩ := a
    all_goals
      change m ≤ d.text.length at hle
      simp [TokenAttribution.toBytes, TokenAnchor.toBytes, hfloor, hle]
  exact congrArg _ hback

/-- **Appending** in bytes is appending in characters. -/
theorem append_toBytes (hd : d.Anchored) (other : DecodedText) :
    d.toBytes.append other.toBytes = .ok (d.append other).toBytes := by
  have hempty : d.toBytes.isEmpty = d.isEmpty := by
    simp [Text.DecodedText.isEmpty, isEmpty, toBytes]
  rw [Text.DecodedText.append, append, hempty]
  split_ifs
  · rfl
  · have hmoved : other.toBytes.attributions.mapM (Text.TokenAttribution.offsetBy
        (byteLen d.text)) = .ok (other.attributions.map fun a =>
          (a.offsetBy d.text.length).toBytes (d.text ++ other.text)) := by
      refine mapM_eq_map fun a _ => offsetBy_toBytes ?_
      have hnat : ((a.anchor.offset : ℤ) + d.text.length).toNat =
          d.text.length + a.anchor.offset := by omega
      rw [hnat, byteLen_take_add, take_left, drop_left]
      push_cast
      exact add_comm _ _
    have hstay : d.attributions.map (TokenAttribution.toBytes d.text) =
        d.attributions.map (TokenAttribution.toBytes (d.text ++ other.text)) := by
      refine map_congr_left fun a ha => ?_
      have hle := hd a ha
      obtain ⟨tokenId, m | m⟩ := a
      all_goals
        change m ≤ d.text.length at hle
        simp [TokenAttribution.toBytes, TokenAnchor.toBytes, take_append_of_le_length hle]
    change (other.toBytes.attributions.mapM (Text.TokenAttribution.offsetBy (byteLen d.text)) >>=
      fun moved => Except.ok (⟨d.text ++ other.text,
        d.attributions.map (TokenAttribution.toBytes d.text) ++ moved⟩ : Text.DecodedText)) = _
    rw [hmoved, hstay, toBytes, map_append, map_map]
    rfl

section

variable (hd : d.Anchored) (hlen : len ≤ d.text.length)

include hd hlen

/-- A token goes with the same part. -/
private theorem filter_toBytes (part : Bool → Bool) : d.toBytes.attributions.filter
    (fun a => part (Text.DecodedText.inPrefix (byteLen (d.text.take len)) a)) =
    (d.attributions.filter fun a => part (inPrefix len a)).map (TokenAttribution.toBytes d.text) := by
  rw [toBytes, filter_map]
  refine congrArg _ (filter_congr fun a ha => congrArg part ?_)
  have hle := hd a ha
  obtain ⟨tokenId, m | m⟩ := a
  · exact decide_eq_decide.mpr (byteLen_take_lt hle hlen)
  · refine decide_eq_decide.mpr (not_lt.symm.trans ?_)
    exact (not_congr (byteLen_take_lt hlen hle)).trans not_lt

omit hd hlen in
private theorem mapM_toBytes : ((d.attributions.filter fun a => !inPrefix len a).map
    (TokenAttribution.toBytes d.text)).mapM
      (Text.TokenAttribution.offsetBy (-(byteLen (d.text.take len)))) =
    .ok ((d.attributions.filter fun a => !inPrefix len a).map fun a =>
      (a.offsetBy (-len)).toBytes (d.text.drop len)) := by
  refine mapM_eq_map fun a ha => offsetBy_toBytes ?_
  have hafter := (mem_filter.mp ha).2
  have hle : len ≤ a.anchor.offset := by
    obtain ⟨tokenId, m | m⟩ := a
    all_goals
      simp [inPrefix] at hafter
      change len ≤ m
      omega
  obtain ⟨k, hk⟩ := Nat.exists_eq_add_of_le hle
  have hnat : ((a.anchor.offset : ℤ) + -len).toNat = k := by omega
  rw [hnat, hk, byteLen_take_add]
  push_cast
  omega

omit hd hlen in
private theorem map_toBytes_take :
    (d.attributions.filter (inPrefix len)).map (TokenAttribution.toBytes d.text) =
      (d.attributions.filter (inPrefix len)).map (TokenAttribution.toBytes (d.text.take len)) := by
  refine map_congr_left fun a ha => ?_
  have hbefore := (mem_filter.mp ha).2
  obtain ⟨tokenId, m | m⟩ := a
  all_goals
    simp [inPrefix] at hbefore
    have hmin : min m len = m := by omega
    simp [TokenAttribution.toBytes, TokenAnchor.toBytes, take_take, hmin]

/-- **Draining** in bytes is draining in characters. -/
theorem drainPrefix_toBytes : d.toBytes.drainPrefix (byteLen (d.text.take len)) =
    .ok ((d.drainPrefix len).1.toBytes, (d.drainPrefix len).2.toBytes) := by
  have hsplit : splitAtByte d.toBytes.text (byteLen (d.text.take len)) =
      some (d.text.take len, d.text.drop len) := by
    have happend := splitAtByte_append (d.text.take len) (d.text.drop len)
    rwa [take_append_drop] at happend
  have hkept : d.toBytes.attributions.filter
      (Text.DecodedText.inPrefix (byteLen (d.text.take len))) = _ :=
    (filter_toBytes hd hlen id).trans map_toBytes_take
  rw [Text.DecodedText.drainPrefix, hsplit, filter_toBytes hd hlen (!·), mapM_toBytes, hkept,
    drainPrefix, toBytes, toBytes, map_map]
  rfl

end

end DecodedText

end Sonar.Parser
