import Sonar.Engine.Detokenizer

/-!
# Stop strings do not depend on how the tokens arrive

What `update` does with some tokens is described without its loops and searches (`Outcome`): it finds
the stop string that completes first behind the first `min_tokens` tokens, keeps the tokens up to the
one that completes it and cuts the text (`update_outcome`). Two updates do what one does with all
their tokens (`Outcome.append_some`, `Outcome.append_none`).
-/

namespace Sonar.Engine.Detokenizer

open Lib List

variable {d d' : Detokenizer} {tokens xs ys : List DecodedToken} {s : List Char} {k e : ℕ}

/-- The text of tokens. -/
def textOf (tokens : List DecodedToken) : List Char := tokens.flatMap Prod.snd

private theorem textOf_append (xs ys : List DecodedToken) : textOf (xs ++ ys) = textOf xs ++ textOf ys :=
  flatMap_append

/-- The detokenizer after the tokens are appended. -/
def fed (d : Detokenizer) (tokens : List DecodedToken) : Detokenizer :=
  { d with
    tokenIds := d.tokenIds ++ tokens.map Prod.fst
    outputText := d.outputText ++ textOf tokens }

@[simp] theorem fed_nil : d.fed [] = d := by
  rw [fed, map_nil, append_nil, textOf, flatMap_nil, append_nil]

private theorem fed_append : d.fed (xs ++ ys) = (d.fed xs).fed ys := by
  simp [fed, textOf_append]

private theorem numOutputTokens_fed (d : Detokenizer) (tokens : List DecodedToken) :
    (d.fed tokens).numOutputTokens = d.numOutputTokens + tokens.length := by
  simp only [numOutputTokens, fed, length_append, length_map]
  omega

/-- The length of the text after some of the tokens. -/
def offset (d : Detokenizer) (tokens : List DecodedToken) (i : ℕ) : ℕ :=
  d.outputText.length + (textOf (tokens.take i)).length

private theorem offset_mono {i j : ℕ} (h : i ≤ j) : d.offset tokens i ≤ d.offset tokens j := by
  refine Nat.add_le_add_left (IsPrefix.length_le ?_) _
  obtain ⟨more, hmore⟩ := take_prefix_take_left h
  exact ⟨textOf more, by rw [← textOf_append, hmore]⟩

/-- All tokens. -/
theorem offset_of_length_le (h : tokens.length ≤ k) :
    d.offset tokens k = (d.fed tokens).outputText.length := by
  rw [offset, take_of_length_le h, fed, length_append]

private theorem offset_append_of_le (h : k ≤ xs.length) : d.offset (xs ++ ys) k = d.offset xs k := by
  rw [offset, offset, take_append_of_le_length h]

private theorem offset_append_add (d : Detokenizer) (xs ys : List DecodedToken) (k : ℕ) :
    d.offset (xs ++ ys) (xs.length + k) = (d.fed xs).offset ys k := by
  rw [offset, offset, take_length_add_append, textOf_append, fed, length_append, length_append]
  omega

/-! ### The loop of `update` -/

/-- `token_offsets`. -/
def offsets (d : Detokenizer) (tokens : List DecodedToken) : List ℤ :=
  (List.range (tokens.length + 1)).map fun i => (d.offset tokens i : ℤ)

private theorem offsets_concat (d : Detokenizer) (tokens : List DecodedToken) (x : DecodedToken) :
    d.offsets (tokens ++ [x]) =
      d.offsets tokens ++ [((d.fed (tokens ++ [x])).outputText.length : ℤ)] := by
  have hlen : (tokens ++ [x]).length = tokens.length + 1 := length_append
  rw [offsets, hlen, range_succ, map_append, map_singleton]
  refine congrArg₂ _ (map_congr_left fun i hi => ?_) ?_
  · rw [offset_append_of_le (Nat.lt_succ_iff.mp (mem_range.mp hi))]
  · rw [offset_of_length_le hlen.le]

/-- The detokenizing loop builds the fed detokenizer and its offsets together. -/
private theorem foldl_detokenize (d : Detokenizer) (tokens : List DecodedToken) :
    tokens.foldl detokenize (d, [d.outputText.length]) = (d.fed tokens, d.offsets tokens) := by
  induction tokens using reverseRecOn with
  | nil =>
    rw [fed_nil]
    rfl
  | append_singleton tokens x ih =>
    rw [foldl_append, ih, offsets_concat]
    simp [detokenize, fed, textOf]

/-- The tokens of an update, the last one without its text if it is skipped. -/
def shown (skip : Bool) (tokens : List DecodedToken) : List DecodedToken :=
  if skip then tokens.dropLast ++ (tokens.getLast?.map fun x => (x.1, [])).toList else tokens

/-- Only the last token may be hidden. -/
theorem shown_append {skip : Bool} (hne : ys ≠ []) : shown skip (xs ++ ys) = xs ++ shown skip ys := by
  cases skip with
  | false => rfl
  | true =>
    change (xs ++ ys).dropLast ++ _ = xs ++ (ys.dropLast ++ _)
    rw [dropLast_append_of_ne_nil hne, getLast?_append_of_ne_nil _ hne, append_assoc]

/-- `update` appends the tokens and evaluates the stop strings. -/
private theorem update_eq (d : Detokenizer) (hne : tokens ≠ []) (stopTerminated : Bool) :
    d.update tokens stopTerminated =
      (d.fed (shown (stopTerminated && !d.includeStopStrInOutput) tokens)).evaluateStop
        (d.offsets (shown (stopTerminated && !d.includeStopStrInOutput) tokens))
        d.numOutputTokens d.tokenIds.length := by
  rw [update, if_neg (by rwa [List.isEmpty_iff])]
  dsimp only
  cases stopTerminated && !d.includeStopStrInOutput with
  | false =>
    rw [foldl_detokenize]
    rfl
  | true =>
    obtain ⟨init, x, rfl⟩ := eq_nil_or_concat' tokens |>.resolve_left hne
    have hshown : shown true (init ++ [x]) = init ++ [(x.1, [])] := by
      rw [shown_append (cons_ne_nil _ _)]
      rfl
    rw [hshown, foldl_detokenize, offsets_concat]
    simp [fed, textOf]

/-! ### What an update does -/

section Check

variable {text : List Char} {stop : List (List Char)} {lo : ℕ}

/-- Python's negative start index, as a start from the left. -/
private theorem pyFind_eq_findFrom (hlo : lo < text.length) (hs : s ≠ []) :
    pyFind text s (1 - (text.length - lo) - s.length) = findFrom text s (lo + 1 - s.length) := by
  have hpos := length_pos_iff.mpr hs
  have hstart : (if 1 - ((text.length : ℤ) - lo) - s.length < 0 then
      max (1 - ((text.length : ℤ) - lo) - s.length + text.length) 0
      else 1 - (text.length - lo) - s.length).toNat = lo + 1 - s.length := by
    omega
  rw [pyFind, hstart]

private theorem map_stopMatches (hlo : lo < text.length) (hstop : ∀ w ∈ stop, w ≠ []) :
    (stopMatches text (text.length - lo) stop).map (Prod.map Prod.fst id) =
      candidates stop text lo := by
  rw [stopMatches, map_filterMap]
  refine filterMap_congr fun w hw => ?_
  rw [pyFind_eq_findFrom hlo (hstop w hw), Option.map_map]
  rfl

/-- The length to which the text is cut for a stop string that ends at `e`. -/
def truncation (inOutput : Bool) (text s : List Char) (e : ℕ) : ℤ :=
  if inOutput then if text.length ≤ e then -1 else e else e - s.length

/-- `check_stop_strings` finds the stop string that completes first. -/
private theorem checkStopStrings_finds (hlo : lo ≤ text.length) (hstop : ∀ w ∈ stop, w ≠ [])
    (inOutput : Bool) : ∃ r, Finds stop text lo r ∧
      checkStopStrings text (text.length - lo) stop inOutput =
        r.map fun best => (best.1, truncation inOutput text best.1 best.2) := by
  by_cases hskip : (text.length : ℤ) - lo = 0 ∨ stop.isEmpty
  · refine ⟨none, ?_, if_pos hskip⟩
    rcases hskip with hzero | hempty
    · obtain rfl : lo = text.length := by omega
      exact finds_length
    · rw [isEmpty_iff.mp hempty]
      exact nofun
  have hlt : lo < text.length := by
    by_contra hge
    exact hskip (.inl (by omega))
  refine ⟨earliest _, finds_earliest hstop, ?_⟩
  rw [checkStopStrings, if_neg hskip, ← map_stopMatches hlt hstop, earliest_map, Option.map_map]
  refine Option.map_congr fun best hbest => ?_
  -- The index of a match is its end less its length.
  have hindex : (best.1.2 : ℤ) = best.2 - best.1.1.length := by
    obtain ⟨before, after, hsplit, -⟩ := earliest_eq_some hbest
    have hmem : best ∈ stopMatches text (text.length - lo) stop := by
      rw [hsplit]
      exact mem_append_right _ (.head _)
    obtain ⟨w, -, hw⟩ := mem_filterMap.mp hmem
    obtain ⟨i, -, rfl⟩ := Option.map_eq_some_iff.mp hw
    push_cast
    omega
  rw [hindex]
  cases inOutput
  · rfl
  · exact (apply_ite _ _ _ _).symm

end Check

/-- The search begins behind the first `min_tokens` tokens. -/
def searchFrom (d : Detokenizer) (tokens : List DecodedToken) : ℕ :=
  d.offset tokens (d.minTokens - d.numOutputTokens).toNat

/-- The detokenizer after a stop string that ends at `e` was found, which token `k` completes. -/
def stoppedAt (d : Detokenizer) (tokens : List DecodedToken) (s : List Char) (e k : ℕ) : Detokenizer :=
  { d with
    tokenIds := d.tokenIds ++ (tokens.take k).map Prod.fst
    outputText :=
      (d.fed tokens).outputText.take (if d.includeStopStrInOutput then e else e - s.length) }

/-- The tokens before `k` do not reach to the position `e`, and the first `k` tokens do. -/
structure ReachesAt (d : Detokenizer) (tokens : List DecodedToken) (e k : ℕ) : Prop where
  le_length : k ≤ tokens.length
  le_offset : e ≤ d.offset tokens k
  offset_lt : ∀ j < k, d.offset tokens j < e

/-- What happens to a detokenizer that gets some tokens. -/
def Outcome (d : Detokenizer) (tokens : List DecodedToken) : Option (List Char) × Detokenizer → Prop
  | (none, d') => Finds d.stop (d.fed tokens).outputText (d.searchFrom tokens) none ∧ d' = d.fed tokens
  | (some s, d') => ∃ e k, Completes d.stop (d.fed tokens).outputText (d.searchFrom tokens) s e ∧
      d.ReachesAt tokens e k ∧ d' = d.stoppedAt tokens s e k

/-- A text position is reached at one token only. -/
private theorem ReachesAt.unique {k' : ℕ} (h : d.ReachesAt tokens e k) (h' : d.ReachesAt tokens e k') :
    k = k' := by
  rcases lt_trichotomy k k' with hlt | heq | hgt
  · exact absurd h.le_offset (not_le.mpr (h'.offset_lt k hlt))
  · exact heq
  · exact absurd h'.le_offset (not_le.mpr (h.offset_lt k' hgt))

/-- There is one outcome at most. -/
theorem Outcome.unique {r r' : Option (List Char) × Detokenizer} (h : d.Outcome tokens r)
    (h' : d.Outcome tokens r') : r = r' := by
  match r, r' with
  | (none, _), (none, _) => exact Prod.ext rfl (h.2.trans h'.2.symm)
  | (none, _), (some s, _) =>
    obtain ⟨e, k, hcompletes, -⟩ := h'
    exact absurd hcompletes.ends (h.1 s hcompletes.mem e hcompletes.lt)
  | (some s, _), (none, _) =>
    obtain ⟨e, k, hcompletes, -⟩ := h
    exact absurd hcompletes.ends (h'.1 s hcompletes.mem e hcompletes.lt)
  | (some s, _), (some s', _) =>
    obtain ⟨e, k, hcompletes, hreaches, rfl⟩ := h
    obtain ⟨e', k', hcompletes', hreaches', rfl⟩ := h'
    obtain ⟨rfl, rfl⟩ := hcompletes.unique hcompletes'
    rw [hreaches.unique hreaches']

private theorem getElem?_offsets {i : ℕ} (hi : i ≤ tokens.length) :
    (d.offsets tokens)[i]? = some (d.offset tokens i : ℤ) := by
  rw [offsets, getElem?_map, getElem?_range (Nat.lt_succ_iff.mpr hi)]
  rfl

/-- The bisection finds the token that completes the stop string. -/
private theorem reachesAt_bisect (hlt : d.outputText.length < e)
    (hle : e ≤ (d.fed tokens).outputText.length) :
    d.ReachesAt tokens e (bisectLeftFrom (d.offsets tokens) id e 1) := by
  have hsorted : (d.offsets tokens).Pairwise fun u v => id u ≤ id v := by
    rw [offsets, pairwise_map]
    exact pairwise_lt_range.imp fun h => Int.ofNat_le.mpr (d.offset_mono h.le)
  have hsmall : ∀ i v, (d.offsets tokens)[i]? = some v → i < 1 → id v < (e : ℤ) := by
    intro i v hv hi
    obtain rfl := Nat.lt_one_iff.mp hi
    obtain rfl := Option.some.inj ((getElem?_offsets (Nat.zero_le _)).symm.trans hv)
    exact Int.ofNat_lt.mpr hlt
  have hpoint := bisectLeftFrom_spec hsorted (by rw [offsets, length_map, length_range]; omega) hsmall
  set k := bisectLeftFrom (d.offsets tokens) id e 1
  have hk : k ≤ tokens.length := by
    by_contra hgt
    have hlast := hpoint.lt_of_lt _ _ (getElem?_offsets le_rfl) (not_le.mp hgt)
    rw [id, offset_of_length_le le_rfl] at hlast
    omega
  refine ⟨hk, ?_, fun j hj => ?_⟩
  · exact Int.ofNat_le.mp (hpoint.le_of_le k _ (getElem?_offsets hk) le_rfl)
  · exact Int.ofNat_lt.mp (hpoint.lt_of_lt j _ (getElem?_offsets (hj.le.trans hk)) hj)

/-- The search begins behind the old text. -/
theorem searchFrom_ge (d : Detokenizer) (tokens : List DecodedToken) :
    d.outputText.length ≤ d.searchFrom tokens := Nat.le_add_right _ _

private theorem searchFrom_le (d : Detokenizer) (tokens : List DecodedToken) :
    d.searchFrom tokens ≤ (d.fed tokens).outputText.length := by
  rw [← offset_of_length_le (le_max_left _ _)]
  exact d.offset_mono (le_max_right _ _)

/-- Truncation cuts at the token that completes the stop string. -/
private theorem truncate_eq (hlen : e ≤ (d.fed tokens).outputText.length) (hsize : s.length ≤ e) :
    (d.fed tokens).truncate (d.offsets tokens) d.tokenIds.length s
        (truncation d.includeStopStrInOutput (d.fed tokens).outputText s e) =
      d.stoppedAt tokens s e (bisectLeftFrom (d.offsets tokens) id e 1) := by
  set t := truncation d.includeStopStrInOutput (d.fed tokens).outputText s e with ht
  have hend : (if d.includeStopStrInOutput then
        (if t = -1 then ((d.fed tokens).outputText.length : ℤ) else t)
      else (if t = -1 then ((d.fed tokens).outputText.length : ℤ) else t) + s.length) = e := by
    rw [truncation] at ht
    split_ifs at ht ⊢ <;> omega
  have htext : (if t = -1 then (d.fed tokens).outputText else (d.fed tokens).outputText.take t.toNat) =
      (d.fed tokens).outputText.take (if d.includeStopStrInOutput then e else e - s.length) := by
    rw [truncation] at ht
    split_ifs at ht ⊢
    · rw [take_of_length_le ‹_›]
    all_goals first | omega | exact congrArg (take · _) (by omega)
  have hids k : (d.fed tokens).tokenIds.take (d.tokenIds.length + k) =
      d.tokenIds ++ (tokens.take k).map Prod.fst := by
    change (d.tokenIds ++ tokens.map Prod.fst).take _ = _
    rw [take_length_add_append, map_take]
  have hcut : (d.fed tokens).truncate (d.offsets tokens) d.tokenIds.length s t = { d.fed tokens with
      tokenIds := (d.fed tokens).tokenIds.take (d.tokenIds.length +
        bisectLeftFrom (d.offsets tokens) id (if d.includeStopStrInOutput then
          (if t = -1 then ((d.fed tokens).outputText.length) else t)
          else (if t = -1 then ((d.fed tokens).outputText.length : ℤ) else t) + s.length) 1)
      outputText := if t = -1 then (d.fed tokens).outputText
        else (d.fed tokens).outputText.take t.toNat } := rfl
  rw [hcut, hend, htext, hids]
  rfl

/-- Evaluating the stop strings has the outcome that is described. -/
private theorem evaluateStop_outcome (hstop : ∀ w ∈ d.stop, w ≠ []) (tokens : List DecodedToken) :
    d.Outcome tokens ((d.fed tokens).evaluateStop (d.offsets tokens) d.numOutputTokens
      d.tokenIds.length) := by
  rw [evaluateStop, numOutputTokens_fed]
  split_ifs with hskip
  · refine ⟨?_, rfl⟩
    rcases hskip with hempty | hfew
    · rw [show d.stop = [] from isEmpty_iff.mp hempty]
      exact nofun
    -- All tokens are among the first ones, behind which the search begins.
    · change d.numOutputTokens + tokens.length ≤ d.minTokens at hfew
      rw [searchFrom, offset_of_length_le (by omega)]
      exact finds_length
  have hmany : ¬ d.numOutputTokens + tokens.length ≤ d.minTokens := fun h => hskip (.inr h)
  have hoffset : (d.offsets tokens).getD (max (d.minTokens - d.numOutputTokens) 0).toNat 0 =
      d.searchFrom tokens := by
    rw [getD_eq_getElem?_getD, getElem?_offsets (by omega), Option.getD_some]
    congr 2
    omega
  obtain ⟨r, hfinds, hcheck⟩ := checkStopStrings_finds (d.searchFrom_le tokens) hstop
    _
  have hcheck' : checkStopStrings (d.fed tokens).outputText ((d.fed tokens).outputText.length -
      (d.offsets tokens).getD (max (((d.fed tokens).minTokens) - d.numOutputTokens) 0).toNat 0)
      (d.fed tokens).stop (d.fed tokens).includeStopStrInOutput = _ := hoffset ▸ hcheck
  dsimp only
  rw [hcheck']
  match r, hfinds with
  | none, hnone => exact ⟨hnone, rfl⟩
  | some (s, e), hcompletes =>
    have hlen := hcompletes.ends.1
    have hreaches := reachesAt_bisect ((d.searchFrom_ge tokens).trans_lt hcompletes.lt) hlen
    exact ⟨e, _, hcompletes, hreaches, truncate_eq hlen hcompletes.ends.length_le⟩

/-- An update has this outcome. -/
theorem update_outcome (hstop : ∀ w ∈ d.stop, w ≠ []) (tokens : List DecodedToken)
    (stopTerminated : Bool) : d.Outcome (shown (stopTerminated && !d.includeStopStrInOutput) tokens)
      (d.update tokens stopTerminated) := by
  by_cases hne : tokens = []
  · have hshown : shown (stopTerminated && !d.includeStopStrInOutput) tokens = [] := by
      rw [hne, shown]
      split_ifs <;> rfl
    rw [hshown, hne]
    refine ⟨?_, fed_nil.symm⟩
    rw [searchFrom, offset_of_length_le (Nat.zero_le _)]
    exact finds_length
  · rw [update_eq d hne]
    exact evaluateStop_outcome hstop _

/-! ### Two updates -/

private theorem outputText_fed_append (d : Detokenizer) (xs ys : List DecodedToken) :
    (d.fed (xs ++ ys)).outputText = (d.fed xs).outputText ++ textOf ys := by
  rw [fed_append]
  rfl

/-- A stop string that was found is found again if more tokens follow. -/
theorem Outcome.append_some (h : d.Outcome xs (some s, d')) :
    d.Outcome (xs ++ ys) (some s, d') := by
  obtain ⟨e, k, hcompletes, hreaches, rfl⟩ := h
  have hlen := hcompletes.ends.1
  -- The search began within the first tokens.
  have hfrom : d.searchFrom (xs ++ ys) = d.searchFrom xs := by
    refine offset_append_of_le ?_
    by_contra hlong
    have hlt := hcompletes.lt
    rw [searchFrom, offset_of_length_le (not_le.mp hlong).le] at hlt
    omega
  refine ⟨e, k, ?_, ⟨?_, ?_, ?_⟩, ?_⟩
  · rw [hfrom, outputText_fed_append]
    exact hcompletes.append _
  · rw [length_append]
    exact hreaches.le_length.trans (Nat.le_add_right _ _)
  · rw [offset_append_of_le hreaches.le_length]
    exact hreaches.le_offset
  · intro j hj
    rw [offset_append_of_le (hj.le.trans hreaches.le_length)]
    exact hreaches.offset_lt j hj
  · have hcut : (if d.includeStopStrInOutput then e else e - s.length) ≤
        (d.fed xs).outputText.length := by
      split_ifs
      · exact hlen
      · omega
    rw [stoppedAt, stoppedAt, outputText_fed_append, take_append_of_le_length hcut,
      take_append_of_le_length hreaches.le_length]

/-- The search of a second update goes on where the first one has stopped. -/
private theorem finds_append {r : Option (List Char × ℕ)}
    (hnone : Finds d.stop (d.fed xs).outputText (d.searchFrom xs) none)
    (hr : Finds d.stop ((d.fed xs).fed ys).outputText ((d.fed xs).searchFrom ys) r) :
    Finds d.stop (d.fed (xs ++ ys)).outputText (d.searchFrom (xs ++ ys)) r := by
  have hnum := numOutputTokens_fed d xs
  rw [← fed_append] at hr
  rcases le_total (xs.length : ℤ) (d.minTokens - d.numOutputTokens) with hle | hle
  · have hindex : (d.minTokens - d.numOutputTokens).toNat =
        xs.length + ((d.fed xs).minTokens - (d.fed xs).numOutputTokens).toNat := by
      change _ = xs.length + ((d.minTokens : ℤ) - _).toNat
      omega
    rw [searchFrom, hindex, offset_append_add]
    exact hr
  · have hindex : ((d.fed xs).minTokens - (d.fed xs).numOutputTokens).toNat = 0 := by
      change ((d.minTokens : ℤ) - _).toNat = 0
      omega
    have hfrom : d.searchFrom (xs ++ ys) = d.searchFrom xs := offset_append_of_le (by omega)
    rw [searchFrom, hindex, outputText_fed_append] at hr
    rw [hfrom, outputText_fed_append]
    exact hnone.trans (d.searchFrom_le xs) hr

/-- Two updates without a stop have the outcome of one. -/
theorem Outcome.append_none {r : Option (List Char) × Detokenizer} (h : d.Outcome xs (none, d'))
    (hr : d'.Outcome ys r) : d.Outcome (xs ++ ys) r := by
  obtain ⟨hnone, rfl⟩ := h
  match r with
  | (none, _) =>
    obtain ⟨hfinds, rfl⟩ := hr
    exact ⟨finds_append hnone hfinds, fed_append.symm⟩
  | (some s, _) =>
    obtain ⟨e, k, hcompletes, hreaches, rfl⟩ := hr
    have hlt : (d.fed xs).outputText.length < e :=
      ((d.fed xs).searchFrom_ge ys).trans_lt hcompletes.lt
    have hall : Completes d.stop (d.fed (xs ++ ys)).outputText (d.searchFrom (xs ++ ys)) s e :=
      finds_append (r := some (s, e)) hnone hcompletes
    refine ⟨e, xs.length + k, hall, ⟨?_, ?_, ?_⟩, ?_⟩
    · rw [length_append]
      exact Nat.add_le_add_left hreaches.le_length _
    · rw [offset_append_add]
      exact hreaches.le_offset
    · intro j hj
      rcases le_total j xs.length with hle | hle
      · refine lt_of_le_of_lt ?_ hlt
        rw [offset_append_of_le hle, ← offset_of_length_le (le_refl _)]
        exact d.offset_mono hle
      · obtain ⟨i, rfl⟩ := Nat.exists_eq_add_of_le hle
        rw [offset_append_add]
        exact hreaches.offset_lt i (by omega)
    · rw [stoppedAt, stoppedAt, fed_append, take_length_add_append, map_append, ← append_assoc]
      rfl

end Sonar.Engine.Detokenizer
