import Mathlib.Data.List.Basic
import Mathlib.Data.List.Infix
import Mathlib.Data.List.TakeDrop
import Mathlib.Order.Basic

/-!
# The word of a list that completes first

Words are looked for in a text that grows. Those that **end** after a position `lo` are compared by
where they end; of the words that end at the same place the first of the list counts (`Completes`).
What is found in a part of the text is what is found in all of it (`Finds.append`), and a search may
go on where an earlier one has stopped (`Finds.trans`). So the result does not depend on the parts in
which the text arrives.

`findFrom` looks for a word from an index on, and `earliest` selects the first of the candidates that
end first. `finds_earliest` says that together they find what completes first.
-/

namespace Sonar.Lib

open List

variable {α β : Type*} {words : List (List β)} {text more s : List β} {lo e : ℕ}

/-- The word ends at position `e` of the text. -/
def EndsAt (text s : List β) (e : ℕ) : Prop := e ≤ text.length ∧ s <:+ text.take e

private theorem endsAt_append_iff (he : e ≤ text.length) : EndsAt (text ++ more) s e ↔ EndsAt text s e := by
  rw [EndsAt, take_append_of_le_length he, length_append]
  exact ⟨fun h => ⟨he, h.2⟩, fun h => ⟨he.trans (Nat.le_add_right _ _), h.2⟩⟩

/-- A word that ends somewhere begins as many letters before. -/
theorem endsAt_iff_prefix_drop (he : s.length ≤ e) (hlen : e ≤ text.length) :
    EndsAt text s e ↔ s <+: text.drop (e - s.length) := by
  have hsplit : text.take e = text.take (e - s.length) ++ (text.drop (e - s.length)).take s.length := by
    conv_lhs => rw [← Nat.sub_add_cancel he, take_add]
  constructor
  · rintro ⟨-, hsuffix⟩
    rw [hsplit] at hsuffix
    have hlength : ((text.drop (e - s.length)).take s.length).length = s.length := by
      rw [length_take, length_drop]
      omega
    have heq : s = (text.drop (e - s.length)).take s.length :=
      (suffix_of_suffix_length_le hsuffix (suffix_append _ _) hlength.ge).eq_of_length
        hlength.symm
    exact prefix_iff_eq_take.mpr heq
  · intro hpre
    refine ⟨hlen, ?_⟩
    rw [hsplit, ← prefix_iff_eq_take.mp hpre]
    exact suffix_append _ _

/-- An occurrence begins inside the text. -/
theorem EndsAt.length_le (h : EndsAt text s e) : s.length ≤ e := by
  have hle := h.2.length_le
  rw [length_take] at hle
  omega

/-- The word `s` of the list is the first that ends after `lo`, and it ends at `e`. -/
structure Completes (words : List (List β)) (text : List β) (lo : ℕ) (s : List β) (e : ℕ) : Prop where
  lt : lo < e
  ends : EndsAt text s e
  earliest : ∀ w ∈ words, ∀ i, lo < i → EndsAt text w i → e ≤ i
  first : ∃ before after, words = before ++ s :: after ∧ ∀ w ∈ before, ¬ EndsAt text w e

/-- What is found among the words that end after `lo`. -/
def Finds (words : List (List β)) (text : List β) (lo : ℕ) : Option (List β × ℕ) → Prop
  | none => ∀ w ∈ words, ∀ i, lo < i → ¬ EndsAt text w i
  | some r => Completes words text lo r.1 r.2

section

variable (h : Completes words text lo s e)

include h

/-- The word is one of those searched for. -/
theorem Completes.mem : s ∈ words := by
  obtain ⟨before, after, rfl, -⟩ := h.first
  exact mem_append_right _ (.head _)

/-- At most one occurrence completes first. -/
theorem Completes.unique {s' : List β} {e' : ℕ}
    (h' : Completes words text lo s' e') : s = s' ∧ e = e' := by
  obtain rfl : e = e' :=
    le_antisymm (h.earliest s' h'.mem e' h'.lt h'.ends) (h'.earliest s h.mem e h.lt h.ends)
  obtain ⟨before, after, hwords, hfirst⟩ := h.first
  obtain ⟨before', after', hwords', hfirst'⟩ := h'.first
  refine ⟨?_, rfl⟩
  -- If one of the two stood before the other, it would end there and be the first.
  rcases append_eq_append_iff.mp (hwords.symm.trans hwords') with ⟨c, rfl, hc⟩ | ⟨c, rfl, hc⟩
  · cases c with
    | nil => exact (cons.inj hc).1
    | cons x c =>
      obtain rfl := (cons.inj hc).1
      exact absurd h.ends (hfirst' s (mem_append_right _ (.head _)))
  · cases c with
    | nil => exact (cons.inj hc).1.symm
    | cons x c =>
      obtain rfl := (cons.inj hc).1
      exact absurd h'.ends (hfirst s' (mem_append_right _ (.head _)))

/-- What completes first in a part of the text completes first in the text. -/
theorem Completes.append (more : List β) : Completes words (text ++ more) lo s e := by
  have hlen := h.ends.1
  refine ⟨h.lt, (endsAt_append_iff hlen).mpr h.ends, fun w hw i hi hends => ?_, ?_⟩
  · rcases le_total i text.length with hle | hle
    · exact h.earliest w hw i hi ((endsAt_append_iff hle).mp hends)
    · exact hlen.trans hle
  · obtain ⟨before, after, hwords, hfirst⟩ := h.first
    exact ⟨before, after, hwords, fun w hw hends =>
      hfirst w hw ((endsAt_append_iff hlen).mp hends)⟩

end

/-- A search goes on behind the text in which nothing was found. -/
theorem Finds.trans {r : Option (List β × ℕ)} (h : Finds words text lo none)
    (hlo : lo ≤ text.length) (hr : Finds words (text ++ more) text.length r) :
    Finds words (text ++ more) lo r := by
  have hskip : ∀ w ∈ words, ∀ i, lo < i → EndsAt (text ++ more) w i → text.length < i := by
    intro w hw i hi hends
    by_contra hle
    exact h w hw i hi ((endsAt_append_iff (not_lt.mp hle)).mp hends)
  match r with
  | none => exact fun w hw i hi hends => hr w hw i (hskip w hw i hi hends) hends
  | some x =>
    exact ⟨hlo.trans_lt hr.lt, hr.ends,
      fun w hw i hi hends => hr.earliest w hw i (hskip w hw i hi hends) hends, hr.first⟩

/-- Nothing ends behind the end. -/
theorem finds_length : Finds words text text.length none :=
  fun _ _ _ hi hends => absurd hends.1 (not_le.mpr hi)

/-! ### Searching -/

/-- The least index from `start` on at which the word stands in the text. -/
def findFrom [BEq β] (text word : List β) (start : ℕ) : Option ℕ :=
  (List.range' start (text.length + 1 - start)).find? fun i => word.isPrefixOf (text.drop i)

/-- The first of the candidates with the least number. -/
def earliest (l : List (α × ℕ)) : Option (α × ℕ) :=
  l.foldl (fun best x => if best.any fun b => b.2 ≤ x.2 then best else some x) none

private theorem earliest_concat (l : List (α × ℕ)) (x : α × ℕ) :
    earliest (l ++ [x]) = if (earliest l).any fun b => b.2 ≤ x.2 then earliest l else some x :=
  foldl_append

private theorem earliest_eq_none {l : List (α × ℕ)} (h : earliest l = none) : l = [] := by
  induction l using reverseRecOn with
  | nil => rfl
  | append_singleton l x ih =>
    rw [earliest_concat] at h
    split_ifs at h with hany
    rw [h] at hany
    cases hany

/-- The candidates before the selected one end later, those after it not earlier. -/
theorem earliest_eq_some {l : List (α × ℕ)} {x : α × ℕ} (h : earliest l = some x) :
    ∃ before after, l = before ++ x :: after ∧ (∀ y ∈ before, x.2 < y.2) ∧
      ∀ y ∈ after, x.2 ≤ y.2 := by
  induction l using reverseRecOn generalizing x with
  | nil => cases h
  | append_singleton l y ih =>
    rw [earliest_concat] at h
    split_ifs at h with hany
    · obtain ⟨before, after, rfl, hbefore, hafter⟩ := ih h
      refine ⟨before, after ++ [y], by rw [append_assoc]; rfl, hbefore, fun z hz => ?_⟩
      rcases mem_append.mp hz with hz | hz
      · exact hafter z hz
      · rw [mem_singleton.mp hz]
        rw [h] at hany
        exact of_decide_eq_true hany
    · obtain rfl := Option.some.inj h
      refine ⟨l, [], rfl, fun z hz => ?_, nofun⟩
      cases hbest : earliest l with
      | none =>
        rw [earliest_eq_none hbest] at hz
        cases hz
      | some b =>
        rw [hbest, Option.any_some, decide_eq_true_iff, not_le] at hany
        obtain ⟨before, after, rfl, hbefore, hafter⟩ := ih hbest
        rcases mem_append.mp hz with hz | hz
        · exact hany.trans (hbefore z hz)
        · rcases mem_cons.mp hz with rfl | hz
          · exact hany
          · exact hany.trans_le (hafter z hz)

/-- The earliest is the same after a map of the words. -/
theorem earliest_map {γ : Type*} (f : α → γ) (l : List (α × ℕ)) :
    earliest (l.map (Prod.map f id)) = (earliest l).map (Prod.map f id) := by
  induction l using reverseRecOn with
  | nil => rfl
  | append_singleton l x ih =>
    rw [map_append, map_singleton, earliest_concat, earliest_concat, ih, Option.any_map]
    change (if (earliest l).any (fun b => decide (b.2 ≤ x.2)) = true then _ else _) = _
    split_ifs <;> rfl

section

variable [BEq β] [LawfulBEq β] {word : List β} {start i : ℕ}

private theorem findFrom_eq_some (h : findFrom text word start = some i) :
    start ≤ i ∧ i ≤ text.length ∧ word <+: text.drop i ∧
      ∀ j, start ≤ j → j < i → ¬ word <+: text.drop j := by
  obtain ⟨hword, hmem, hbefore⟩ := find?_range'_eq_some.mp h
  obtain ⟨hle, hlt⟩ := mem_range'_1.mp hmem
  refine ⟨hle, by omega, isPrefixOf_iff_prefix.mp hword, fun j hj hji hpre => ?_⟩
  have hnot := hbefore j hj hji
  rw [ isPrefixOf_iff_prefix.mpr hpre] at hnot
  cases hnot

/-- The words that end after `lo`, each with its first end there. -/
def candidates (words : List (List β)) (text : List β) (lo : ℕ) : List (List β × ℕ) :=
  words.filterMap fun w => (findFrom text w (lo + 1 - w.length)).map fun i => (w, i + w.length)

/-- A candidate ends after `lo`, and nowhere between. -/
theorem ends_of_findFrom (hne : word ≠ []) (h : findFrom text word (lo + 1 - word.length) = some i) :
    lo < i + word.length ∧ EndsAt text word (i + word.length) ∧
      ∀ j, lo < j → EndsAt text word j → i + word.length ≤ j := by
  obtain ⟨hle, -, hpre, hfirst⟩ := findFrom_eq_some h
  have hlen := hpre.length_le
  rw [length_drop] at hlen
  have hpos := length_pos_iff.mpr hne
  refine ⟨by omega, ?_, fun j hj hends => ?_⟩
  · refine (endsAt_iff_prefix_drop (Nat.le_add_left _ _) (by omega)).mpr ?_
    rwa [Nat.add_sub_cancel]
  · have hjlen := hends.length_le
    by_contra hlt
    refine hfirst (j - word.length) (by omega) (by omega) ?_
    exact (endsAt_iff_prefix_drop hjlen hends.1).mp hends

private theorem not_ends_of_findFrom (h : findFrom text word (lo + 1 - word.length) = none) (hlo : lo < i) :
    ¬ EndsAt text word i := by
  intro hends
  have hlen := hends.length_le
  have hle := hends.1
  have hnot := find?_range'_eq_none.mp h (i - word.length) (by omega) (by omega)
  rw [ isPrefixOf_iff_prefix.mpr ((endsAt_iff_prefix_drop hlen hle).mp hends)] at hnot
  cases hnot

/-- The earliest candidate is what completes first. -/
theorem finds_earliest (hne : ∀ w ∈ words, w ≠ []) :
    Finds words text lo (earliest (candidates words text lo)) := by
  cases hfound : earliest (candidates words text lo) with
  | none =>
    intro w hw i hi hends
    have hnone := filterMap_eq_nil_iff.mp (earliest_eq_none hfound) w hw
    exact not_ends_of_findFrom (Option.map_eq_none_iff.mp hnone) hi hends
  | some x =>
    obtain ⟨before, after, hsplit, hbefore, hafter⟩ := earliest_eq_some hfound
    obtain ⟨wordsBefore, rest, rfl, hleft, hrest⟩ := filterMap_eq_append_iff.mp hsplit
    obtain ⟨skipped, w, wordsAfter, rfl, hskipped, hw, hright⟩ := filterMap_eq_cons_iff.mp hrest
    obtain ⟨i, hi, rfl⟩ := Option.map_eq_some_iff.mp hw
    have hwmem : w ∈ wordsBefore ++ (skipped ++ w :: wordsAfter) := by simp
    obtain ⟨hlt, hends, hfirst⟩ := ends_of_findFrom (hne w hwmem) hi
    -- A candidate before the selected one ends later, one after it not earlier.
    have hcandidate : ∀ v ∈ wordsBefore ++ (skipped ++ w :: wordsAfter), ∀ j, lo < j →
        EndsAt text v j → ∃ k, findFrom text v (lo + 1 - v.length) = some k ∧ k + v.length ≤ j := by
      intro v hv j hj hvends
      cases hk : findFrom text v (lo + 1 - v.length) with
      | none => exact absurd hvends (not_ends_of_findFrom hk hj)
      | some k => exact ⟨k, rfl, (ends_of_findFrom (hne v hv) hk).2.2 j hj hvends⟩
    have hlater : ∀ v ∈ wordsBefore, ∀ k, findFrom text v (lo + 1 - v.length) = some k →
        i + w.length < k + v.length := by
      intro v hv k hk
      refine hbefore (v, k + v.length) (hleft ▸ mem_filterMap.mpr ⟨v, hv, ?_⟩)
      rw [hk, Option.map_some]
    have hnone : ∀ v ∈ skipped, findFrom text v (lo + 1 - v.length) = none := fun v hv =>
      Option.map_eq_none_iff.mp (hskipped v hv)
    refine ⟨hlt, hends, fun v hv j hj hvends => ?_, wordsBefore ++ skipped, wordsAfter, ?_, ?_⟩
    · obtain ⟨k, hk, hle⟩ := hcandidate v hv j hj hvends
      refine le_trans ?_ hle
      rcases mem_append.mp hv with hv | hv
      · exact (hlater v hv k hk).le
      · rcases mem_append.mp hv with hv | hv
        · cases (hnone v hv).symm.trans hk
        · rcases mem_cons.mp hv with rfl | hv
          · exact (congrArg (· + v.length) (Option.some.inj (hi.symm.trans hk))).le
          · refine hafter (v, k + v.length) (hright ▸ mem_filterMap.mpr ⟨v, hv, ?_⟩)
            rw [hk, Option.map_some]
    · rw [append_assoc]
    · intro v hv hvends
      rcases mem_append.mp hv with hv | hv
      · obtain ⟨k, hk, hle⟩ := hcandidate v (mem_append_left _ hv) _ hlt hvends
        exact absurd (hlater v hv k hk) (not_lt.mpr hle)
      · exact not_ends_of_findFrom (hnone v hv) hlt hvends

end

end Sonar.Lib
