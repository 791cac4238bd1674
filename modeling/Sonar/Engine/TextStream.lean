import Sonar.Engine.StopStrings

/-!
# The streamed text of a request

A detokenizer gets the generated tokens in updates of any size, and the text is streamed after some of
them (`Streams`). The result is that of feeding one token per call until the first stop string
(`feedEach`), since both have the same `Outcome`. The text that is streamed is never cut
(`Held.update`): a stop string that is found later ends behind the text there was, and so begins
behind the text that was not held back.
-/

namespace Sonar.Engine.Detokenizer

open Lib List

variable {d d' start : Detokenizer} {tokens fedTokens : List DecodedToken} {s : Option (List Char)}
  {emitted : List Char} {f : Bool}

/-! ### One token per call -/

/-- One token per call, until a stop string is found. The last token may end the request. -/
def feedEach (d : Detokenizer) : List DecodedToken → Bool → Option (List Char) × Detokenizer
  | [], _ => (none, d)
  | [x], stopTerminated => d.update [x] stopTerminated
  | x :: y :: tokens, stopTerminated =>
    match d.update [x] false with
    | (some s, d') => (some s, d')
    | (none, d') => feedEach d' (y :: tokens) stopTerminated

private theorem outcome_nil : d.Outcome [] (none, d) := by
  refine ⟨?_, fed_nil.symm⟩
  rw [searchFrom, offset_of_length_le (Nat.zero_le _)]
  exact finds_length

private theorem Outcome.eq_fed (h : d.Outcome tokens (none, d')) : d' = d.fed tokens := h.2

/-- Feeding the tokens one by one has the outcome of feeding them as a whole. -/
private theorem feedEach_outcome (hstop : ∀ w ∈ d.stop, w ≠ []) (tokens : List DecodedToken) (f : Bool) :
    d.Outcome (shown (f && !d.includeStopStrInOutput) tokens) (d.feedEach tokens f) := by
  induction tokens generalizing d with
  | nil => exact update_outcome hstop [] f
  | cons x tokens ih =>
    cases tokens with
    | nil => exact update_outcome hstop [x] f
    | cons y tokens =>
      have hfirst : d.Outcome [x] (d.update [x] false) := update_outcome hstop [x] false
      rw [← singleton_append, shown_append (cons_ne_nil y tokens)]
      change d.Outcome _ (match d.update [x] false with
        | (some s, d') => (some s, d')
        | (none, d') => feedEach d' (y :: tokens) f)
      match hupdate : d.update [x] false with
      | (some s, d') =>
        rw [hupdate] at hfirst
        exact hfirst.append_some
      | (none, d') =>
        rw [hupdate] at hfirst
        obtain rfl := hfirst.eq_fed
        exact hfirst.append_none (ih hstop)

/-! ### Updates and deltas in any order -/

/-- The runs of a detokenizer until a stop string is found or the last token ends the request: the
tokens that were fed, whether the last update ended the request, and the text that was streamed. -/
inductive Streams (start : Detokenizer) :
    Detokenizer → Option (List Char) → List DecodedToken → Bool → List Char → Prop
  | new : Streams start start none [] false []
  | update {d : Detokenizer} {fedTokens : List DecodedToken} {emitted : List Char}
    (tokens : List DecodedToken) (f : Bool) : Streams start d none fedTokens false emitted →
    (f = true → tokens ≠ []) →
    Streams start (d.update tokens f).2 (d.update tokens f).1 (fedTokens ++ tokens) f emitted
  | next {d : Detokenizer} {s : Option (List Char)} {fedTokens : List DecodedToken} {f : Bool}
    {emitted : List Char} : Streams start d s fedTokens f emitted →
    Streams start (d.getNextOutputText false true).2 s fedTokens f
      (emitted ++ (d.getNextOutputText false true).1)

/-- The detokenizer with another offset of the streamed text, which `update` does not read. -/
def withOffset (d : Detokenizer) (o : ℤ) : Detokenizer := { d with lastOutputTextOffset := o }

private theorem Outcome.withOffset (h : d.Outcome tokens (s, d')) (o : ℤ) :
    (d.withOffset o).Outcome tokens (s, d'.withOffset o) := by
  match s with
  | none =>
    obtain ⟨hfinds, rfl⟩ := h
    exact ⟨hfinds, rfl⟩
  | some s =>
    obtain ⟨e, k, hcompletes, hreaches, rfl⟩ := h
    exact ⟨e, k, hcompletes, ⟨hreaches.le_length, hreaches.le_offset, hreaches.offset_lt⟩, rfl⟩

private theorem config_eq {o : ℤ} (h : d.withOffset o = start.fed tokens) :
    d.stop = start.stop ∧ d.includeStopStrInOutput = start.includeStopStrInOutput := by
  have hstop : (d.withOffset o).stop = (start.fed tokens).stop := by rw [h]
  have hin : (d.withOffset o).includeStopStrInOutput = (start.fed tokens).includeStopStrInOutput := by
    rw [h]
  exact ⟨hstop, hin⟩

/-- A stream of updates has the outcome of one update with all its tokens. -/
private theorem Streams.outcome (hstop : ∀ w ∈ start.stop, w ≠ [])
    (h : Streams start d s fedTokens f emitted) :
    start.Outcome (shown (f && !start.includeStopStrInOutput) fedTokens)
      (s, d.withOffset start.lastOutputTextOffset) := by
  induction h with
  | new => exact outcome_nil
  | @update d fedTokens emitted tokens f hrun hlast ih =>
    have hfed : d.withOffset start.lastOutputTextOffset = start.fed fedTokens := Outcome.eq_fed ih
    obtain ⟨hsame, hin⟩ := config_eq hfed
    have hstep : d.Outcome (shown (f && !d.includeStopStrInOutput) tokens)
        ((d.update tokens f).1, (d.update tokens f).2) :=
      update_outcome (by rwa [hsame]) tokens f
    rw [hin] at hstep
    have hall := Outcome.append_none ih (hstep.withOffset _)
    by_cases hne : tokens = []
    · have hf : f = false := by
        by_contra htrue
        exact hlast (eq_true_of_ne_false htrue) hne
      rw [hf] at hall ⊢
      exact hall
    · rw [shown_append hne]
      exact hall
  | @next d s fedTokens f emitted hrun ih =>
    unfold getNextOutputText
    dsimp only
    split_ifs <;> exact ih

/-- The text that was streamed is a part of the text, and until a stop string is found the part behind
it is held back. -/
structure Held (d : Detokenizer) (s : Option (List Char)) (emitted : List Char) : Prop where
  buffer_nonneg : 0 ≤ d.stopBufferLength
  length_le : d.includeStopStrInOutput = false → ∀ w ∈ d.stop, (w.length : ℤ) ≤ d.stopBufferLength + 1
  nonneg : 0 ≤ d.lastOutputTextOffset
  le_length : d.lastOutputTextOffset ≤ d.outputText.length
  emitted : emitted = d.outputText.take d.lastOutputTextOffset.toNat
  held : s = none → d.lastOutputTextOffset = 0 ∨
    d.lastOutputTextOffset + d.stopBufferLength ≤ d.outputText.length

private theorem held_new {stop : List (List Char)} (hstop : ∀ w ∈ stop, w ≠ []) {minTokens : ℕ}
    {inOutput : Bool} {promptIds : List ℕ} : Held (new stop minTokens inOutput promptIds) none [] := by
  have hbound : ∀ w ∈ stop, w.length ≤ (stop.map length).foldr max 0 := fun w hw =>
    le_max_of_le' 0 (mem_map_of_mem hw) le_rfl
  refine ⟨?_, fun hout w hw => ?_, le_rfl, Int.natCast_nonneg _, rfl, fun _ => .inl rfl⟩
  · rw [new]
    dsimp only
    split_ifs with hheld
    · rw [Bool.and_eq_true] at hheld
      obtain ⟨w, hw⟩ := exists_mem_of_ne_nil stop fun hnil => by
        rw [hnil] at hheld
        cases hheld.1
      have hpos := length_pos_iff.mpr (hstop w hw)
      have hle := hbound w hw
      omega
    · exact le_rfl
  · rw [new]
    dsimp only
    have hheld : (!stop.isEmpty && !inOutput) = true := by
      rw [show inOutput = false from hout, Bool.not_false, Bool.and_true, Bool.not_eq_true']
      exact isEmpty_eq_false_iff.mpr (ne_nil_of_mem hw)
    rw [if_pos hheld]
    have hle := hbound w hw
    omega

/-- A slice of the text from where the streamed text ends. -/
private theorem take_append_slice {text : List Char} {a b : ℤ} (ha : 0 ≤ a) (hab : a < b) :
    text.take a.toNat ++ (text.drop a.toNat).take (b - a).toNat = text.take b.toNat := by
  rw [← take_add]
  congr 1
  omega

private theorem getNextOutputText_streaming (d : Detokenizer) : d.getNextOutputText false true =
    if d.lastOutputTextOffset < d.outputText.length - d.stopBufferLength then
      ((d.outputText.drop d.lastOutputTextOffset.toNat).take
          (d.outputText.length - d.stopBufferLength - d.lastOutputTextOffset).toNat,
        d.withOffset (d.outputText.length - d.stopBufferLength))
    else ([], d) := rfl

/-- A piece of text is passed on. -/
theorem Held.next (h : Held d s emitted) :
    Held (d.getNextOutputText false true).2 s (emitted ++ (d.getNextOutputText false true).1) := by
  have hbuffer := h.buffer_nonneg
  rw [getNextOutputText_streaming]
  split_ifs with hlt
  · refine ⟨hbuffer, h.length_le, h.nonneg.trans hlt.le, ?_, ?_, fun _ => .inr ?_⟩
    · change d.outputText.length - d.stopBufferLength ≤ d.outputText.length
      omega
    · rw [h.emitted]
      exact take_append_slice h.nonneg hlt
    · change d.outputText.length - d.stopBufferLength + d.stopBufferLength ≤ d.outputText.length
      omega
  · rw [append_nil]
    exact h

private theorem getNextOutputText_finished (d : Detokenizer) : (d.getNextOutputText true true).1 =
    if d.lastOutputTextOffset < d.outputText.length then
      (d.outputText.drop d.lastOutputTextOffset.toNat).take
        (d.outputText.length - d.lastOutputTextOffset).toNat
    else [] := by
  have hdelta : d.getNextOutputText true true =
      if d.lastOutputTextOffset < d.outputText.length - 0 then
        ((d.outputText.drop d.lastOutputTextOffset.toNat).take
          (d.outputText.length - 0 - d.lastOutputTextOffset).toNat,
        d.withOffset (d.outputText.length - 0))
      else ([], d) := rfl
  rw [hdelta, Int.sub_zero]
  split_ifs <;> rfl

/-- At the end all the text is. -/
theorem Held.finish (h : Held d s emitted) :
    emitted ++ (d.getNextOutputText true true).1 = d.outputText := by
  rw [getNextOutputText_finished]
  split_ifs with hlt
  · rw [h.emitted, take_append_slice h.nonneg hlt, Int.toNat_natCast, take_length]
  · rw [append_nil, h.emitted]
    refine take_of_length_le ?_
    omega

/-- New text is not passed on before it is asked for. -/
theorem Held.update (h : Held d none emitted) (hout : d.Outcome tokens (s, d')) :
    Held d' s emitted := by
  have hnonneg := h.nonneg
  have hle := h.le_length
  have hbuffer := h.buffer_nonneg
  match s with
  | none =>
    obtain rfl := hout.eq_fed
    have hlen : ((d.fed tokens).outputText.length : ℤ) =
        d.outputText.length + (textOf tokens).length := by
      rw [fed, length_append]
      rfl
    refine ⟨hbuffer, h.length_le, hnonneg, ?_, ?_, fun _ => (h.held rfl).imp_right fun hheld => ?_⟩
    · change d.lastOutputTextOffset ≤ _
      omega
    · change emitted = (d.outputText ++ textOf tokens).take d.lastOutputTextOffset.toNat
      rw [take_append_of_le_length (by omega)]
      exact h.emitted
    · change d.lastOutputTextOffset + d.stopBufferLength ≤ _
      omega
  | some s =>
    obtain ⟨e, k, hcompletes, -, rfl⟩ := hout
    have hlt := (d.searchFrom_ge tokens).trans_lt hcompletes.lt
    have hend := hcompletes.ends.1
    -- The stop string ends behind the text there was, so it begins behind the streamed text.
    have hcut : d.lastOutputTextOffset.toNat ≤
        if d.includeStopStrInOutput then e else e - s.length := by
      split_ifs with hin
      · omega
      · have hlen := h.length_le (eq_false_of_ne_true hin) s hcompletes.mem
        have hheld := h.held rfl
        omega
    refine ⟨hbuffer, h.length_le, hnonneg, ?_, ?_, fun hnone => by cases hnone⟩
    · change d.lastOutputTextOffset ≤ (((d.fed tokens).outputText.take _).length)
      rw [length_take]
      omega
    · change emitted = ((d.fed tokens).outputText.take _).take d.lastOutputTextOffset.toNat
      rw [take_take, min_eq_left hcut, fed, take_append_of_le_length (by omega)]
      exact h.emitted

/-- Along a stream the pieces are the text so far. -/
theorem Streams.held (hstop : ∀ w ∈ start.stop, w ≠ []) (hstart : Held start none [])
    (h : Streams start d s fedTokens f emitted) : Held d s emitted := by
  induction h with
  | new => exact hstart
  | @update d fedTokens emitted tokens f hrun _ ih =>
    obtain ⟨hsame, -⟩ := config_eq (hrun.outcome hstop).eq_fed
    exact ih.update (update_outcome (by rwa [hsame]) tokens f)
  | next _ ih => exact ih.next

/-- Every run of updates and deltas, in whatever parts the generated tokens arrive, gives the stop
string, the text and the tokens of feeding one token per call until the first stop string. The tokens
`rest` were generated after those fed; they are not fed when a stop string was found. The deltas and
the one of the finished request make up exactly that text, so no part that was streamed is cut. -/
theorem streams_eq_feedEach {stop : List (List Char)} {minTokens : ℕ} {inOutput : Bool}
    {promptIds : List ℕ} (hstop : ∀ w ∈ stop, w ≠ [])
    (h : Streams (new stop minTokens inOutput promptIds) d s fedTokens f emitted) :
    (∀ rest g, (rest = [] ∧ g = f ∨ s ≠ none ∧ f = false ∧ rest ≠ []) →
      ∃ d', (new stop minTokens inOutput promptIds).feedEach (fedTokens ++ rest) g = (s, d') ∧
        d'.outputText = d.outputText ∧ d'.tokenIds = d.tokenIds) ∧
    emitted ++ (d.getNextOutputText true true).1 = d.outputText := by
  set start := new stop minTokens inOutput promptIds
  have hout := h.outcome hstop
  refine ⟨fun rest g hrest => ?_, (h.held hstop (held_new hstop)).finish⟩
  have heach := feedEach_outcome (d := start) hstop (fedTokens ++ rest) g
  have hall : start.Outcome (shown (g && !start.includeStopStrInOutput) (fedTokens ++ rest))
      (s, d.withOffset start.lastOutputTextOffset) := by
    rcases hrest with ⟨rfl, rfl⟩ | ⟨hsome, rfl, hne⟩
    · rw [append_nil]
      exact hout
    · obtain ⟨found, rfl⟩ := Option.ne_none_iff_exists'.mp hsome
      rw [shown_append hne]
      exact Outcome.append_some hout
  exact ⟨_, heach.unique hall, rfl, rfl⟩

/-- The third of four tokens completes the stop string, of which one character was held back. -/
theorem streams_eq_feedEach_two_updates :
    ∃ d, Streams (new [['b', 'c']] 1 false [9]) d (some ['b', 'c'])
        [(1, ['a']), (2, ['b']), (3, ['c', 'd']), (4, ['e'])] false ['a'] ∧
      d.tokenIds = [9, 1, 2, 3] ∧ ['a'] ++ (d.getNextOutputText true true).1 = d.outputText := by
  let start := new [['b', 'c']] 1 false [9]
  let shown : Detokenizer :=
    { start with outputText := ['a', 'b'], tokenIds := [9, 1, 2], lastOutputTextOffset := 1 }
  let stopped : Detokenizer :=
    { start with outputText := ['a'], tokenIds := [9, 1, 2, 3], lastOutputTextOffset := 1 }
  have hfirst : Streams start { start with outputText := ['a', 'b'], tokenIds := [9, 1, 2] } none
      [(1, ['a']), (2, ['b'])] false [] := .update [(1, ['a']), (2, ['b'])] false .new (by decide)
  have hnext : Streams start shown none [(1, ['a']), (2, ['b'])] false ['a'] := hfirst.next
  have hupdate : shown.update [(3, ['c', 'd']), (4, ['e'])] false = (some ['b', 'c'], stopped) := by
    decide
  have hlast := hnext.update [(3, ['c', 'd']), (4, ['e'])] false (by decide)
  rw [hupdate] at hlast
  exact ⟨stopped, hlast, rfl, (streams_eq_feedEach (by decide) hlast).2⟩

/-- **No stop string is shown.** Behind the first `min_tokens` tokens no stop string ends in the text,
unless the request stopped with one that is to be included: then only at the end of the text. -/
theorem streams_stop_free {stop : List (List Char)} {minTokens : ℕ} {inOutput : Bool}
    {promptIds : List ℕ} (hstop : ∀ w ∈ stop, w ≠ [])
    (h : Streams (new stop minTokens inOutput promptIds) d s fedTokens f emitted) {w : List Char}
    (hw : w ∈ stop) {i : ℕ}
    (hi : (textOf ((shown (f && !inOutput) fedTokens).take minTokens)).length < i)
    (hends : EndsAt d.outputText w i) : s ≠ none ∧ inOutput = true ∧ i = d.outputText.length := by
  have hfrom (tokens : List DecodedToken) : (new stop minTokens inOutput promptIds).searchFrom tokens =
      (textOf (tokens.take minTokens)).length := by
    simp [searchFrom, offset, new, numOutputTokens]
  have hout := h.outcome hstop
  cases s with
  | none =>
    obtain ⟨hnone, hfed⟩ := hout
    have htext := congrArg outputText hfed
    change d.outputText = _ at htext
    rw [htext] at hends
    exact absurd hends (hnone w hw i (hfrom _ ▸ hi))
  | some s =>
    obtain ⟨e, _, hcompletes, _, hstopped⟩ := hout
    have htext := congrArg outputText hstopped
    change d.outputText = take (if inOutput then e else e - s.length) _ at htext
    have hlen := hends.1
    rw [htext] at hends hlen ⊢
    rw [length_take] at hlen ⊢
    rw [EndsAt, take_take, min_eq_left (by omega)] at hends
    -- no stop string ends before the first one
    have hle := hcompletes.earliest w hw i (hfrom _ ▸ hi) ⟨by omega, hends.2⟩
    have hpos := length_pos_iff.mpr (hstop s hcompletes.mem)
    have hsize := hcompletes.ends.length_le
    have hend := hcompletes.ends.1
    split_ifs at hlen ⊢ with hinclude
    · exact ⟨by simp, hinclude, by omega⟩
    · omega

/-- A token that goes on behind a stop string. -/
theorem streams_stop_free_cut : ¬ EndsAt
    ((new [['b']] 0 false []).update [(1, ['a', 'b', 'c'])] false).2.outputText ['b'] 2 := fun hends =>
  nomatch (streams_stop_free (by decide) (.update _ _ .new (by decide)) (.head _) (by decide) hends).2.1

end Sonar.Engine.Detokenizer
