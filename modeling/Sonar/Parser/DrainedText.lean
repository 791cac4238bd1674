import Sonar.Parser.ByteText
import Sonar.Parser.MarkerScan
import Sonar.Text.IncrementalText

/-!
# Draining decoded text and appending it again

`drainPrefix` leaves a token that is visible at the split with the text after it, and takes one that has
no width with the text before it. The decoder lists tokens as they were generated and can put a token
without a width behind a visible one at the same place, so the parts do not always give back the order of
the whole.

Offsets are in characters here; `ByteText` has the step to the offsets in bytes.
-/

namespace Sonar.Parser

open List
open Text (TokenId)

namespace DecodedText

/-- A list has the members with a property first if they come first. -/
private theorem filter_append_filter_iff {α : Type} {p : α → Bool} {l : List α} :
    l.filter p ++ l.filter (!p ·) = l ↔ l.Pairwise fun a b => p b = true → p a = true := by
  constructor
  · intro h
    rw [← h, pairwise_append]
    refine ⟨pairwise_of_forall_mem_list fun a ha _ _ _ => (mem_filter.mp ha).2,
      pairwise_of_forall_mem_list fun _ _ b hb hpb => ?_, fun a ha _ _ _ => (mem_filter.mp ha).2⟩
    simp [hpb] at hb
  · intro h
    obtain ⟨htake, hdrop⟩ := takeWhile_dropWhile_eq_filter h
    rw [← htake, ← hdrop, takeWhile_append_dropWhile]

private theorem offsetBy_neg {len : ℕ} {a : TokenAttribution} (h : inPrefix len a = false) :
    (a.offsetBy (-len)).offsetBy len = a := by
  obtain ⟨tokenId, m | m⟩ := a
  all_goals
    simp [inPrefix] at h
    simp [TokenAttribution.offsetBy, TokenAnchor.offsetBy]
    omega

/-- **Draining and appending.** The parts give back the whole if and only if the tokens that go with the
text before the split come first. Where tokens stand in the order of their places, that is to say that no
token without a width follows a visible one at the split. -/
theorem append_drainPrefix_iff {d : DecodedText} {len : ℕ} (hlen : len ≤ d.text.length) :
    ((d.drainPrefix len).1.append (d.drainPrefix len).2 = d ↔ d.attributions.Pairwise fun a b =>
      inPrefix len b = true → inPrefix len a = true) ∧
    ((d.attributions.Pairwise fun a b => a.anchor.offset ≤ b.anchor.offset) →
      ((d.drainPrefix len).1.append (d.drainPrefix len).2 = d ↔ d.attributions.Pairwise fun a b =>
        ¬ (a.anchor = .visible len ∧ b.anchor = .zeroWidth len))) := by
  have hback : ((d.attributions.filter (!inPrefix len ·)).map (TokenAttribution.offsetBy (-len))).map
      (TokenAttribution.offsetBy len) = d.attributions.filter (!inPrefix len ·) := by
    rw [map_map]
    refine (map_congr_left fun a ha => ?_).trans (map_id _)
    exact offsetBy_neg (by simpa using (mem_filter.mp ha).2)
  have hfirst : (d.drainPrefix len).1.append (d.drainPrefix len).2 = d ↔
      d.attributions.Pairwise fun a b => inPrefix len b = true → inPrefix len a = true := by
    rw [append_eq, drainPrefix]
    rw [length_take_of_le hlen, hback, take_append_drop, ← filter_append_filter_iff]
    exact ⟨congrArg attributions, congrArg _⟩
  have hmixed : ∀ a b : TokenAttribution, a.anchor.offset ≤ b.anchor.offset →
      ((inPrefix len b = true → inPrefix len a = true) ↔
        ¬ (a.anchor = .visible len ∧ b.anchor = .zeroWidth len)) := by
    rintro ⟨_, m | m⟩ ⟨_, n | n⟩ hle
    all_goals
      simp [inPrefix, TokenAnchor.offset] at hle ⊢
      try omega
  refine ⟨hfirst, fun hsorted => hfirst.trans ?_⟩
  exact ⟨fun h => (hsorted.and h).imp fun hab => (hmixed _ _ hab.1).mp hab.2,
    fun h => (hsorted.and h).imp fun hab => (hmixed _ _ hab.1).mpr hab.2⟩

/-- The two bytes of a character are not split from each other. -/
theorem append_drainPrefix_halves :
    let d : DecodedText := ⟨['a', 'é'], [⟨97, .visible 0⟩, ⟨195, .visible 1⟩, ⟨169, .visible 1⟩]⟩
    (d.drainPrefix 1).1.append (d.drainPrefix 1).2 = d :=
  (append_drainPrefix_iff (by decide)).1.mpr (by decide)

/-- The text of the decoder after the given tokens, with offsets in characters. -/
def decoded (tokenizer : Text.Tokenizer) (tokenIds : List TokenId) :
    Except Text.StreamError DecodedText := do
  let st ← tokenIds.foldlM (fun st tokenId => Prod.snd <$> st.pushToken tokenizer tokenId)
    (Text.DecodeStream.new [] true 0)
  let ((_, full), _) ← st.flush tokenizer none
  return ofDecoder full

/-- The tokenizer of bytes with a special token, 256, that has no text. -/
def specialByteTokenizer : Text.Tokenizer :=
  { Text.DecodeStream.byteTokenizer with
    decode := fun ids skip => Text.DecodeStream.byteTokenizer.decode (ids.filter (· ≠ 256)) skip
    isSpecialId := fun id => id = 256 }

/-- A skipped token between the bytes of a character goes before both. -/
theorem append_drainPrefix_mixed : ∃ d, decoded specialByteTokenizer [97, 195, 256, 169] = .ok d ∧
      (d.drainPrefix 1).1.append (d.drainPrefix 1).2 ≠ d := by
  exact ⟨⟨['a', 'é'], [⟨97, .visible 0⟩, ⟨195, .visible 1⟩, ⟨256, .zeroWidth 1⟩, ⟨169, .visible 1⟩]⟩,
    by decide +kernel, by decide +kernel⟩

end DecodedText

end Sonar.Parser
