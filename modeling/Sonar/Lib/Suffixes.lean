import Mathlib.Data.List.Basic
import Mathlib.Data.List.Infix
import Mathlib.Data.Set.Basic

/-!
# Longest suffixes in a set of words

A set of words with all their prefixes is the state space of a matcher: after a text `t` its state is
the **longest suffix** of `t` in the set (`LongestSuffix`). The next state depends on the state and
the next letter only (`LongestSuffix.append_iff`). If the state cannot be extended by the letter, the
search goes on from the longest proper suffix of the state, its failure
(`LongestSuffix.failure_iff`).
-/

namespace Sonar.Lib

open List

variable {β : Type*} {W : Set (List β)} {t t' u v w f : List β} {b : β}

/-- `w` is the longest suffix of `t` in `W`. -/
structure LongestSuffix (W : Set (List β)) (t w : List β) : Prop where
  mem : w ∈ W
  suffix : w <:+ t
  longest : ∀ u ∈ W, u <:+ t → u <:+ w

/-- The empty word and every prefix of a word are words. -/
structure PrefixClosed (W : Set (List β)) : Prop where
  nil : [] ∈ W
  init : ∀ w b, w ++ [b] ∈ W → w ∈ W

/-- A prefix of a word is a word. -/
theorem PrefixClosed.of_prefix (hW : PrefixClosed W) (hw : w ∈ W) (hu : u <+: w) : u ∈ W := by
  obtain ⟨s, rfl⟩ := hu
  induction s using reverseRecOn with
  | nil => rwa [append_nil] at hw
  | append_singleton s b ih =>
    rw [← append_assoc] at hw
    exact ih (hW.init _ b hw)

namespace LongestSuffix

/-- There is one longest suffix at most. -/
theorem unique (h : LongestSuffix W t v) (h' : LongestSuffix W t w) : v = w := by
  have hvw := h'.longest v h.mem h.suffix
  have hwv := h.longest w h'.mem h'.suffix
  exact hvw.eq_of_length (le_antisymm hvw.length_le hwv.length_le)

/-- A word is its own longest suffix. -/
theorem of_mem (h : t ∈ W) : LongestSuffix W t t := ⟨h, suffix_rfl, fun _ _ hu => hu⟩

/-- The empty text. -/
theorem nil (hW : PrefixClosed W) : LongestSuffix W [] [] := .of_mem hW.nil

/-- Two texts with the same suffixes in `W` have the same longest one. -/
theorem congr (h : ∀ u ∈ W, u <:+ t ↔ u <:+ t') : LongestSuffix W t v ↔ LongestSuffix W t' v := by
  constructor
  · rintro ⟨hmem, hsuffix, hlongest⟩
    exact ⟨hmem, (h v hmem).mp hsuffix, fun u hu hut => hlongest u hu ((h u hu).mpr hut)⟩
  · rintro ⟨hmem, hsuffix, hlongest⟩
    exact ⟨hmem, (h v hmem).mpr hsuffix, fun u hu hut => hlongest u hu ((h u hu).mp hut)⟩

private theorem append_suffix_append : u ++ [b] <:+ t ++ [b] ↔ u <:+ t := by
  constructor
  · rintro ⟨s, hs⟩
    rw [← append_assoc] at hs
    exact ⟨s, append_cancel_right hs⟩
  · rintro ⟨s, rfl⟩
    exact ⟨s, (append_assoc _ _ _).symm⟩

/-- A nonempty suffix of a text ends in the last letter of the text. -/
theorem eq_append_of_suffix (hu : u <:+ t ++ [b]) (hne : u ≠ []) :
    ∃ u', u = u' ++ [b] ∧ u' <:+ t := by
  obtain ⟨s, hs⟩ := hu
  obtain ⟨u', c, rfl⟩ := eq_nil_or_concat' u |>.resolve_left hne
  rw [← append_assoc] at hs
  obtain ⟨hst, hcb⟩ := append_inj' hs rfl
  obtain rfl := singleton_injective hcb
  exact ⟨u', rfl, s, hst⟩

/-- The next state depends on the state and the next letter. -/
theorem append_iff (hW : PrefixClosed W) (h : LongestSuffix W t w) :
    LongestSuffix W (t ++ [b]) v ↔ LongestSuffix W (w ++ [b]) v := by
  refine congr fun u hu => ?_
  constructor
  · intro hut
    by_cases hne : u = []
    · exact hne ▸ nil_suffix
    · obtain ⟨u', rfl, hu'⟩ := eq_append_of_suffix hut hne
      exact append_suffix_append.mpr (h.longest u' (hW.init u' b hu) hu')
  · intro huw
    exact huw.trans (append_suffix_append.mpr h.suffix)

/-- A state that cannot be extended by the letter gives way to its failure. -/
theorem failure_iff (hW : PrefixClosed W) (hne : w ≠ []) (hext : w ++ [b] ∉ W)
    (hf : LongestSuffix W w.tail f) :
    LongestSuffix W (w ++ [b]) v ↔ LongestSuffix W (f ++ [b]) v := by
  rw [← append_iff hW hf]
  obtain ⟨c, w', rfl⟩ := exists_cons_of_ne_nil hne
  refine congr fun u hu => ?_
  rw [cons_append, suffix_cons_iff]
  refine ⟨fun h => h.resolve_left fun heq => hext ?_, .inr⟩
  rwa [cons_append, ← heq]

/-- A letter that extends no state leads back to the empty one. -/
theorem of_singleton (hW : PrefixClosed W) (hext : [b] ∉ W) : LongestSuffix W [b] [] := by
  refine ⟨hW.nil, nil_suffix, fun u hu hub => ?_⟩
  rcases suffix_cons_iff.mp hub with rfl | hnil
  · exact absurd hu hext
  · exact hnil

end LongestSuffix

/-- An occurrence in an extended text is one in the old text or ends in the extension. -/
theorem infix_append {p pre data : List β} (h : p <:+: pre ++ data) :
    p <:+: pre ∨ ∃ d, d ≠ [] ∧ d <+: data ∧ p <:+ pre ++ d := by
  induction data using reverseRecOn with
  | nil =>
    rw [append_nil] at h
    exact .inl h
  | append_singleton data b ih =>
    obtain ⟨s, r, hsr⟩ := h
    rcases eq_nil_or_concat' r with rfl | ⟨r, c, rfl⟩
    · refine .inr ⟨data ++ [b], ?_, prefix_rfl, s, ?_⟩
      · exact append_ne_nil_of_right_ne_nil _ (cons_ne_nil _ _)
      · rwa [append_nil] at hsr
    · rw [← append_assoc, ← append_assoc] at hsr
      obtain ⟨hinit, -⟩ := append_inj' hsr rfl
      refine (ih ⟨s, r, hinit⟩).imp_right ?_
      rintro ⟨d, hne, hpre, hsuffix⟩
      exact ⟨d, hne, hpre.trans (prefix_append _ _), hsuffix⟩

end Sonar.Lib
