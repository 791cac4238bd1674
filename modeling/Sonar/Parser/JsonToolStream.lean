import Sonar.Lib.Resumable
import Sonar.Parser.JsonTool
import Sonar.Parser.MarkerScan

/-!
# Tool calls in chunks

The parser of JSON tool calls as a machine that passes on one character of text or arguments at a
time (`JsonToolCallConfig.step`). The source passes on whole runs; they are runs of this machine,
and where the source waits or fails the machine does after some moves (`parseLoop_spec`). The
machine is settled, because the parsers of markers and headers are stable. So chunks do not matter.

The scan for safe text stops where one of the spellings with their whitespace may begin, and a start
marker is parsed as one of the markers and then whitespace. The two agree if no marker hides inside
another (`DistinctMarkers`).
-/

namespace Sonar.Parser

open Lib hiding literal
open List DecodedText ToolParserOutput LawfulWinnow
open Winnow renaming multispace0 → ws0
open Text (TokenId)

/-! ### Stable parsers -/

private theorem stringLen_append {escape : Bool} {buf : List Char} {n : ℕ} (more : List Char)
    (h : stringLen escape buf = some n) :
    stringLen escape (buf ++ more) = some n ∧ n ≤ buf.length := by
  induction buf generalizing escape n with
  | nil => cases escape <;> cases h
  | cons c cs ih =>
    have hmap : ∀ {e : Bool}, (stringLen e cs).map (· + 1) = some n →
        (stringLen e (cs ++ more)).map (· + 1) = some n ∧ n ≤ cs.length + 1 := by
      intro e hlen
      obtain ⟨k, hk, rfl⟩ := Option.map_eq_some_iff.mp hlen
      obtain ⟨hk', hle⟩ := ih hk
      exact ⟨by rw [hk']; rfl, Nat.succ_le_succ hle⟩
    cases escape with
    | true => exact hmap h
    | false =>
      rw [cons_append]
      simp only [stringLen] at h ⊢
      split_ifs at h ⊢
      · exact hmap h
      · obtain rfl := Option.some.inj h
        exact ⟨rfl, Nat.succ_le_succ (Nat.zero_le _)⟩
      · exact hmap h

private theorem jsonStr_stable (decode : List Char → Option (List Char)) : Stable (jsonStr decode) := by
  have hstring : ∀ buf len, takeJsonString buf = .ok len len →
      len ≤ buf.length ∧ ∀ more, takeJsonString (buf ++ more) = .ok len len := by
    intro buf len h
    cases buf with
    | nil => cases h
    | cons c cs =>
      simp only [takeJsonString] at h
      split_ifs at h with hc
      cases hlen : stringLen false cs with
      | none => simp [hlen] at h
      | some n =>
        simp only [hlen] at h
        obtain ⟨rfl, -⟩ := h
        refine ⟨Nat.succ_le_succ (stringLen_append [] hlen).2, fun more => ?_⟩
        simp [takeJsonString, hc, (stringLen_append more hlen).1]
  have hcases : ∀ buf : List Char, takeJsonString buf = .incomplete ∨
      (takeJsonString buf = .cut ∧ ∀ more, takeJsonString (buf ++ more) = .cut) ∨
      ∃ len, takeJsonString buf = .ok len len := by
    intro buf
    cases buf with
    | nil => exact .inl rfl
    | cons c cs =>
      by_cases hc : c = '"'
      · cases hlen : stringLen false cs with
        | none => exact .inl (by simp [takeJsonString, hc, hlen])
        | some n => exact .inr (.inr ⟨n + 1, by simp [takeJsonString, hc, hlen]⟩)
      · exact .inr (.inl ⟨by simp [takeJsonString, hc], fun more => by simp [takeJsonString, hc]⟩)
  constructor
  · intro buf more h
    rcases hcases buf with hb | ⟨hb, hmore⟩ | ⟨len, hb⟩
    · simp [jsonStr, hb] at h
    · simp [jsonStr, hb, hmore]
    · obtain ⟨hle, hmore⟩ := hstring buf len hb
      simp [jsonStr, hb, hmore, take_append_of_le_length hle]
  · intro buf a n h
    rcases hcases buf with hb | ⟨hb, -⟩ | ⟨len, hb⟩
    · simp [jsonStr, hb] at h
    · simp [jsonStr, hb] at h
    · simp only [jsonStr, hb] at h
      split at h
      · obtain ⟨-, rfl⟩ := Outcome.ok.inj h
        exact (hstring buf len hb).1
      · cases h

private theorem jsonArgumentsKey_stable (decode : List Char → Option (List Char))
    (candidates : List (List Char)) :
    Stable (jsonArgumentsKey decode candidates) where
  extend buf more h := by
    have hne : jsonStr decode buf ≠ .incomplete := fun heq => h (by rw [jsonArgumentsKey, heq])
    rw [jsonArgumentsKey, (jsonStr_stable decode).extend buf more hne, jsonArgumentsKey]
  consumed_le buf u n h := by
    rw [jsonArgumentsKey] at h
    split at h
    · next key len heq =>
      split_ifs at h
      obtain ⟨-, rfl⟩ := Outcome.ok.inj h
      exact (jsonStr_stable decode).consumed_le buf key _ heq
    all_goals cases h

section Stability

variable [Winnow] [LawfulWinnow] (decode : List Char → Option (List Char))
  (config : JsonToolCallConfig)

private theorem ws0_stable : Stable ws0 := multispace0_eq ▸ takeWhile0_stable _

private theorem literal_stable {t : List Char} : Stable (Winnow.literal t) := literal_eq t ▸ Lib.literal_stable

private theorem seq_stable {ps : List (List Char → Outcome Unit)} (h : ∀ p ∈ ps, Stable p) :
    Stable (Winnow.seq ps) := seq_eq ps ▸ .sequence h

private theorem alt_stable {α : Type} {p q : List Char → Outcome α} (hp : Stable p) (hq : Stable q) :
    Stable (Winnow.alt p q) := alt_eq p q ▸ hp.orElse hq

private theorem markerWhitespace_stable : Stable (markerWhitespace config) := by
  rw [markerWhitespace]
  split
  · exact ws0_stable
  · exact literal_stable

private theorem startMarker_stable : Stable (startMarker config) := by
  rw [startMarker]
  split
  · exact alt_stable literal_stable literal_stable
  · exact literal_stable

private theorem toolCallStartEvent_stable : Stable (toolCallStartEvent config) := by
  refine .map (seq_stable ?_)
  simp [startMarker_stable, markerWhitespace_stable]

private theorem jsonKey_stable (key : List Char) : Stable (jsonKey key) := by
  refine seq_stable ?_
  simp [literal_stable]

private theorem toolCallHeaderEvent_stable : Stable (toolCallHeaderEvent decode config) := by
  refine .andThen (seq_stable ?_) fun _ => (jsonStr_stable decode).andThen fun _ =>
    .map (seq_stable ?_)
  · simp [ws0_stable, literal_stable, jsonKey_stable]
  · simp [ws0_stable, literal_stable, jsonArgumentsKey_stable]

private theorem toolCallCloseEvent_stable : Stable (toolCallCloseEvent config) := by
  have hend : Stable (toolCallEndEvent config) := by
    refine .map (seq_stable ?_)
    simp [markerWhitespace_stable, literal_stable]
  refine .andThen (seq_stable ?_) fun _ => ?_
  · simp [ws0_stable, literal_stable]
  · split
    · refine alt_stable hend (.map (seq_stable ?_))
      simp [ws0_stable, literal_stable]
    · exact hend

end Stability

/-! ### One character at a time -/

namespace JsonObjectScanState

private theorem scanChar_phase {s s' : JsonObjectScanState} {c : Char} (hphase : s.phase = .scanning)
    (h : s.scanChar c = some s') : s'.phase = .scanning ∨ s'.phase = .complete := by
  simp only [scanChar] at h
  split_ifs at h
  all_goals
    obtain rfl := Option.some.inj h
    first | exact .inl hphase | exact .inr rfl

end JsonObjectScanState

open JsonObjectScanState

/-- A scan of some text is a scan of its first character, and then of the rest. -/
theorem takeJsonObject_cons {s : JsonObjectScanState} (hs : s.complete = false) (c : Char)
    (cs : List Char) : (takeJsonObject s [c] = .cut ∧ takeJsonObject s (c :: cs) = .cut) ∨
    ∃ s', takeJsonObject s [c] = .ok s' 1 ∧ (s'.complete = false → s'.phase = .scanning) ∧
      takeJsonObject s (c :: cs) = if s'.complete then .ok s' 1 else (s'.scanChars cs).after 1 := by
  have hdone : ∀ {t : JsonObjectScanState}, t.phase = .scanning ∨ t.phase = .complete →
      t.complete = false → t.phase = .scanning := by
    intro t ht hnot
    refine ht.resolve_right fun hc => ?_
    simp [complete, hc] at hnot
  cases hphase : s.phase with
  | complete => simp [complete, hphase] at hs
  | initial =>
    by_cases hc : c = '\x7b'
    · refine .inr ⟨{ s with phase := .scanning, objectDepth := 1 }, ?_, fun _ => rfl, ?_⟩ <;>
        simp [takeJsonObject, hphase, hc, scanChars, Outcome.after, complete]
    · exact .inl (by simp [takeJsonObject, hphase, hc])
  | scanning =>
    cases hstep : s.scanChar c with
    | none => exact .inl (by simp [takeJsonObject, hphase, scanChars, hstep])
    | some s' =>
      refine .inr ⟨s', ?_, hdone (s.scanChar_phase hphase hstep), ?_⟩
      · simp only [takeJsonObject, hphase, scanChars, hstep]
        split_ifs <;> rfl
      · simp [takeJsonObject, hphase, scanChars, hstep]

/-- The scan fails or consumes. -/
theorem scanChars_cases (s : JsonObjectScanState) (cs : List Char) :
    s.scanChars cs = .cut ∨ ∃ s' n, s.scanChars cs = .ok s' n := by
  induction cs generalizing s with
  | nil => exact .inr ⟨s, 0, rfl⟩
  | cons c cs ih =>
    rw [scanChars]
    cases s.scanChar c with
    | none => exact .inl rfl
    | some s' =>
      rcases ih s' with h | ⟨t, n, h⟩
      · by_cases hc : s'.complete = true <;> simp [hc, h, Outcome.after]
      · by_cases hc : s'.complete = true <;> simp [hc, h, Outcome.after]

private theorem takeJsonObject_cases (s : JsonObjectScanState) (c : Char) (cs : List Char) :
    takeJsonObject s (c :: cs) = .cut ∨ ∃ s' n, takeJsonObject s (c :: cs) = .ok s' (n + 1) := by
  by_cases hs : s.complete = true
  · simp only [complete, decide_eq_true_eq] at hs
    exact .inl (by simp [takeJsonObject, hs])
  · rcases takeJsonObject_cons (Bool.eq_false_iff.mpr hs) c cs with ⟨-, h⟩ | ⟨next, -, -, h⟩
    · exact .inl h
    · rw [h]
      split_ifs
      · exact .inr ⟨next, 0, rfl⟩
      · rcases scanChars_cases next cs with hcut | ⟨t, n, hok⟩
        · exact .inl (by rw [hcut]; rfl)
        · exact .inr ⟨t, n, by rw [hok, Outcome.after, add_comm]⟩

/-- One character of text. -/
def readChar : List Char → Outcome JsonToolCallEvent
  | [] => .incomplete
  | _ :: _ => .ok (.text 1) 1

/-- One character of arguments. -/
def readArgument (jsonScan : JsonObjectScanState) :
    List Char → Outcome (JsonToolCallEvent × JsonToolCallMode)
  | [] => .incomplete
  | c :: _ => argumentDeltaEvent jsonScan [c]

private theorem readChar_stable : Stable readChar := by
  refine ⟨fun buf more h => ?_, fun buf e n h => ?_⟩
  · cases buf
    · exact absurd rfl h
    · rfl
  · cases buf with
    | nil => cases h
    | cons c cs =>
      obtain ⟨-, rfl⟩ := Outcome.ok.inj h
      exact Nat.succ_pos _

private theorem readArgument_stable {jsonScan : JsonObjectScanState} (hs : jsonScan.complete = false) :
    Stable (readArgument jsonScan) := by
  refine ⟨fun buf more h => ?_, fun buf e n h => ?_⟩
  · cases buf
    · exact absurd rfl h
    · rfl
  · cases buf with
    | nil => cases h
    | cons c cs =>
      rcases takeJsonObject_cons hs c cs with ⟨hcut, -⟩ | ⟨s', hok, -⟩
      · simp [readArgument, argumentDeltaEvent, hcut] at h
      · simp only [readArgument, argumentDeltaEvent, hok] at h
        obtain ⟨-, rfl⟩ := Outcome.ok.inj h
        exact Nat.succ_pos _

/-- The state of the machine: a parser without its buffer. -/
structure JsonToolState where
  mode : JsonToolCallMode := .text
  activeToolIndex : Option ℕ := none
  emittedToolCount : ℕ := 0

namespace JsonToolState

/-- What an event over the characters `taken` does. -/
def apply (s : JsonToolState) (taken : List Char) (n : ℕ) :
    JsonToolCallEvent → Move JsonToolState ToolParserEvent
  | .text _ => .advance n (textAtoms taken) s
  | .toolCallStart => .advance n [] { s with mode := .header }
  | .toolCallHeader name =>
    .advance n [.toolCall ⟨s.emittedToolCount, some name, []⟩]
      ⟨.arguments {}, some s.emittedToolCount, s.emittedToolCount + 1⟩
  | .arguments _ =>
    match s.activeToolIndex with
    | none => .fail
    | some toolIndex => .advance n (argumentAtoms toolIndex taken) s
  | .toolCallDelimiter => .advance n [] { s with activeToolIndex := none, mode := .header }
  | .toolCallEnd => .advance n [] { s with activeToolIndex := none, mode := .text }

/-- The move of a parse. -/
def moveOf (s : JsonToolState) (buf : List Char) :
    Outcome (JsonToolCallEvent × JsonToolCallMode) → Move JsonToolState ToolParserEvent
  | .ok result n =>
    if n = 0 then .wait else { s with mode := result.2 }.apply (buf.take n) n result.1
  | .incomplete => .wait
  | .backtrack => .fail
  | .cut => .fail

private theorem consumed_of_apply {s t : JsonToolState} {taken : List Char} {n m : ℕ}
    {event : JsonToolCallEvent} {out : List ToolParserEvent}
    (h : s.apply taken n event = .advance m out t) : m = n := by
  cases event with
  | arguments len =>
    simp only [apply] at h
    split at h
    · cases h
    · exact (Move.advance.inj h).1.symm
  | _ => exact (Move.advance.inj h).1.symm

end JsonToolState

open JsonToolState

namespace JsonToolCallConfig

variable [Winnow] (config : JsonToolCallConfig) (decode : List Char → Option (List Char))

/-- The next event, with text and arguments one character at a time. -/
def readNext (mode : JsonToolCallMode) (buf : List Char) :
    Outcome (JsonToolCallEvent × JsonToolCallMode) :=
  match mode with
  | .text => (orElse (toolCallStartEvent config) readChar buf).map (·, mode)
  | .header => (toolCallHeaderEvent decode config buf).map (·, mode)
  | .arguments jsonScan =>
    if jsonScan.complete then (toolCallCloseEvent config buf).map (·, mode)
    else readArgument jsonScan buf

/-- The machine. -/
def step (s : JsonToolState) (buf : List Char) : Move JsonToolState ToolParserEvent :=
  s.moveOf buf (config.readNext decode s.mode buf)

variable [LawfulWinnow]

private theorem readNext_stable (mode : JsonToolCallMode) : Stable (config.readNext decode mode) := by
  cases mode with
  | text => exact ((toolCallStartEvent_stable config).orElse readChar_stable).map
  | header => exact (toolCallHeaderEvent_stable decode config).map
  | arguments jsonScan =>
    unfold readNext
    dsimp only
    split_ifs with hs
    · exact (toolCallCloseEvent_stable config).map
    · exact readArgument_stable (Bool.eq_false_iff.mpr hs)

variable {config decode}

/-- More input does not change a move. -/
theorem step_settled : Settled (config.step decode) where
  extend s buf more h := by
    have hstable := config.readNext_stable decode s.mode
    rw [step] at h
    rw [step, step]
    cases hread : config.readNext decode s.mode buf with
    | ok result n =>
      rw [hstable.extend_eq hread (by simp), moveOf, moveOf,
        take_append_of_le_length (hstable.consumed_le buf result n hread)]
    | incomplete =>
      rw [hread] at h
      exact absurd rfl h
    | backtrack => rw [hstable.extend_eq hread (by simp)]; rfl
    | cut => rw [hstable.extend_eq hread (by simp)]; rfl
  consumed_le s buf n out t h := by
    rw [step] at h
    cases hread : config.readNext decode s.mode buf with
    | ok result k =>
      rw [hread, moveOf] at h
      split_ifs at h
      rw [consumed_of_apply h]
      exact (config.readNext_stable decode s.mode).consumed_le buf result k hread
    | _ =>
      rw [hread] at h
      cases h

end JsonToolCallConfig

/-! ### Where text stops -/

/-- The start markers are not empty, and none of them is inside the other one but at its end. Markers
that do not contain one another are such, and so are the Qwen ones. -/
structure JsonToolCallConfig.DistinctMarkers (config : JsonToolCallConfig) : Prop where
  startMarker : config.startMarker ≠ []
  framed : ∀ marker, config.framedStartMarker = some marker → marker ≠ [] ∧
    ¬ config.startMarker <:+: marker.dropLast ∧ ¬ marker <:+: config.startMarker.dropLast

/-- Neither text is a prefix of the other. -/
def Clash (t buf : List Char) : Prop := ¬ t <+: buf ∧ ¬ buf <+: t

section

variable [Winnow] [LawfulWinnow]

private theorem literal_cases (t buf : List Char) :
    (Clash t buf ∧ Winnow.literal t buf = .backtrack) ∨
    (t <+: buf ∧ Winnow.literal t buf = .ok () t.length) ∨
    (buf <+: t ∧ Winnow.literal t buf = .incomplete) := by
  rw [literal_eq]
  exact (Lib.literal_cases t buf).imp_right (.imp_right fun h => ⟨h.1.1, h.2⟩)

private theorem literal_eq_backtrack {t buf : List Char} :
    Winnow.literal t buf = .backtrack ↔ Clash t buf := by
  rcases literal_cases t buf with ⟨hc, h⟩ | ⟨hc, h⟩ | ⟨hc, h⟩ <;> simp [h, hc, Clash] at *
  exact hc

end

/-- Markers that both fit the text, as far as it goes, are equal if none hides in the other. -/
private theorem eq_of_not_infix {a b buf : List Char} (hab : ¬ a <:+: b.dropLast)
    (hba : ¬ b <:+: a.dropLast) (ha : a <+: buf) (hb : b <+: buf) : a = b := by
  have hproper : ∀ {x y : List Char}, x <+: y → ¬ x <:+: y.dropLast → x = y := by
    intro x y hxy hnot
    by_contra hne
    refine hnot (IsPrefix.isInfix ?_)
    have hlt := hxy.length_le.lt_of_ne fun heq => hne (hxy.eq_of_length heq)
    rw [dropLast_eq_take]
    exact prefix_take_iff.mpr ⟨hxy, by omega⟩
  rcases prefix_or_prefix_of_prefix ha hb with h | h
  · exact hproper h hab
  · exact (hproper h hba).symm

section Start

variable (config : JsonToolCallConfig)

/-- The start markers, framed first. -/
def startMarkers : List (List Char) := config.framedStartMarker.toList ++ [config.startMarker]

private theorem textMarkers_eq :
    textMarkers config = (startMarkers config).map fun t => .ofText (withWhitespace config t) := by
  rw [textMarkers, startMarkers]
  cases config.framedStartMarker <;> rfl

private theorem startMarker_cases [Winnow] [LawfulWinnow] (buf : List Char) :
    ((∀ t ∈ startMarkers config, Clash t buf) ∧ startMarker config buf = .backtrack) ∨
    (∃ t ∈ startMarkers config, t <+: buf ∧ startMarker config buf = .ok () t.length) ∨
    ∃ t ∈ startMarkers config, buf <+: t ∧ startMarker config buf = .incomplete := by
  have hstart := literal_cases config.startMarker buf
  rw [startMarker, startMarkers]
  cases config.framedStartMarker with
  | none => simpa using hstart
  | some marker =>
    have hframed := literal_cases marker buf
    simp only [alt_eq, orElse, Option.toList_some, singleton_append, mem_cons,
      forall_eq_or_imp]
    rcases hframed with ⟨hc, h⟩ | ⟨hc, h⟩ | ⟨hc, h⟩
    · rcases hstart with ⟨hc', h'⟩ | ⟨hc', h'⟩ | ⟨hc', h'⟩ <;> simp [h, h', hc, hc']
    · simp [h, hc]
    · simp [h, hc]

variable {t buf : List Char}

/-- After a marker, its whitespace is missing where the text clashes with both together. -/
private theorem markerWhitespace_eq_backtrack [Winnow] [LawfulWinnow] (h : t <+: buf) :
    markerWhitespace config (buf.drop t.length) = .backtrack ↔
      Clash (withWhitespace config t) buf := by
  obtain ⟨rest, rfl⟩ := h
  rw [markerWhitespace, withWhitespace]
  cases config.markerWhitespace with
  | optional => simp [multispace0_eq, takeWhile0, Clash]; split_ifs <;> simp
  | exact w => simp [literal_eq_backtrack, Clash]

variable {config}

private theorem clash_withWhitespace (h : Clash t buf) : Clash (withWhitespace config t) buf := by
  rw [withWhitespace]
  split
  · exact h
  · exact ⟨fun hin => h.1 ((prefix_append t _).trans hin), fun hin =>
      ( prefix_or_prefix_of_prefix (prefix_append t _) hin).elim h.1 h.2⟩

section

variable (hc : config.DistinctMarkers)

include hc

private theorem JsonToolCallConfig.DistinctMarkers.ne_nil (ht : t ∈ startMarkers config) : t ≠ [] := by
  rw [startMarkers, mem_append, Option.mem_toList, mem_singleton] at ht
  rcases ht with hm | rfl
  · exact (hc.framed t hm).1
  · exact hc.startMarker

private theorem JsonToolCallConfig.DistinctMarkers.eq_of_prefix
    {t' : List Char} (ht : t ∈ startMarkers config) (ht' : t' ∈ startMarkers config)
    (h : t <+: buf) (h' : t' <+: buf) : t = t' := by
  rw [startMarkers, mem_append, Option.mem_toList, mem_singleton] at ht ht'
  rcases ht with hm | rfl <;> rcases ht' with hm' | rfl
  · exact Option.some.inj (hm.symm.trans hm')
  · obtain ⟨-, hs, hf⟩ := hc.framed _ hm
    exact eq_of_not_infix hf hs h h'
  · obtain ⟨-, hs, hf⟩ := hc.framed _ hm'
    exact eq_of_not_infix hs hf h h'
  · rfl

/-- A start marker is ruled out exactly where the text clashes with every spelling. -/
private theorem toolCallStartEvent_eq_backtrack [Winnow] [LawfulWinnow] :
    toolCallStartEvent config buf = .backtrack ↔
      ∀ t ∈ startMarkers config, Clash (withWhitespace config t) buf := by
  have hmap : ∀ r : Outcome Unit, r.map (fun _ => JsonToolCallEvent.toolCallStart) = .backtrack ↔
      r = .backtrack := by
    intro r
    cases r <;> simp [Outcome.map]
  have hlast : ∀ q : List Char → Outcome Unit, ∀ rest, sequence [q] rest = .backtrack ↔
      q rest = .backtrack := by
    intro q rest
    rw [Lib.sequence, andThen_eq_backtrack]
    simp [Lib.sequence]
  have hseq : toolCallStartEvent config buf = .backtrack ↔ startMarker config buf = .backtrack ∨
      ∃ u n, startMarker config buf = .ok u n ∧
        markerWhitespace config (buf.drop n) = .backtrack := by
    rw [toolCallStartEvent, hmap, seq_eq, Lib.sequence, andThen_eq_backtrack]
    simp [hlast]
  rw [hseq]
  rcases startMarker_cases config buf with ⟨hclash, h⟩ | ⟨t, ht, hpre, h⟩ | ⟨t, ht, hpre, h⟩
  · exact iff_of_true (.inl h) fun t ht => clash_withWhitespace (hclash t ht)
  · have hthis : (startMarker config buf = .backtrack ∨ ∃ u n, startMarker config buf = .ok u n ∧
        markerWhitespace config (buf.drop n) = .backtrack) ↔
        Clash (withWhitespace config t) buf := by
      rw [← markerWhitespace_eq_backtrack config hpre, h]
      simp
    rw [hthis]
    refine ⟨fun hclash t' ht' => ?_, fun hall => hall t ht⟩
    by_cases heq : t' = t
    · exact heq ▸ hclash
    · -- another marker cannot fit where this one does
      refine clash_withWhitespace ⟨fun hin => heq (hc.eq_of_prefix ht' ht hin hpre), fun hin => ?_⟩
      exact heq (hc.eq_of_prefix ht' ht prefix_rfl (hpre.trans hin))
  · refine iff_of_false (by simp [h]) fun hall => ?_
    refine (hall t ht).2 (hpre.trans ?_)
    rw [withWhitespace]
    split
    · exact prefix_rfl
    · exact prefix_append _ _

end

private theorem cells_ofText (buf : List Char) :
    (MarkerStream.ofText buf).cells = buf.map fun c => (c, []) := by
  refine ext_getElem? fun i => ?_
  simp [MarkerStream.getElem?_cells, MarkerStream.ofText, idsAt]

/-- What the markers of the text decide, by their spellings. -/
private theorem verdicts_textMarkers [Winnow] [LawfulWinnow] :
    verdicts (textMarkers config) true (buf.map fun c => (c, [])) = .backtrack ↔
      ∀ t ∈ startMarkers config, Clash (withWhitespace config t) buf := by
  rw [verdicts_eq_backtrack_iff, textMarkers_eq, forall_mem_map]
  refine forall₂_congr fun t _ => ?_
  have hparse := Marker.parseNext_eq (m := .ofText (withWhitespace config t))
    ⟨nofun, .nil⟩ (MarkerStream.ofText_wellFormed buf)
  rw [cells_ofText] at hparse
  rw [← literal_eq_backtrack]
  exact iff_of_eq (congrArg (· = Outcome.backtrack) hparse.symm)

/-- With the same text after both, a marker that is inside another one lies before that text. -/
private theorem infix_of_append_infix {t' w : List Char} (h : t' ++ w <:+: (t ++ w).dropLast) :
    t' <:+: t.dropLast := by
  obtain ⟨l, r, heq⟩ := h
  have hlen := congrArg length heq
  simp only [length_append, length_dropLast] at hlen
  have htake : l ++ t' = t.dropLast.take (l.length + t'.length) := by
    have hpre := congrArg (take (l.length + t'.length)) heq
    rw [← append_assoc, append_assoc, take_left' (by simp), dropLast_eq_take,
      take_take, take_append_of_le_length (by omega)] at hpre
    rw [hpre, dropLast_eq_take, take_take]
    congr 1
    simp
    omega
  exact ((suffix_append l t').isInfix).trans
    (htake ▸ ( take_prefix _ _).isInfix)

private theorem watched_textMarkers (hc : config.DistinctMarkers) : Watched (textMarkers config) := by
  obtain ⟨w, hw⟩ : ∃ w, ∀ t, withWhitespace config t = t ++ w := by
    unfold withWhitespace
    cases config.markerWhitespace with
    | optional => exact ⟨[], fun t => (append_nil t).symm⟩
    | exact w => exact ⟨w, fun _ => rfl⟩
  have hspell : ∀ a ∈ ((textMarkers config).filter fun m => m.firstTokenId.isNone).map Marker.text,
      ∃ t ∈ startMarkers config, a = t ++ w := by
    intro a ha
    rw [textMarkers_eq] at ha
    obtain ⟨m, hm, rfl⟩ := mem_map.mp ha
    obtain ⟨t, ht, rfl⟩ := mem_map.mp (mem_filter.mp hm).1
    exact ⟨t, ht, hw t⟩
  refine ⟨fun m hm => ?_, fun a ha => ?_, fun a ha b hb hin => ?_⟩
  · rw [textMarkers_eq] at hm
    obtain ⟨t, -, rfl⟩ := mem_map.mp hm
    exact ⟨nofun, .nil⟩
  · obtain ⟨t, ht, rfl⟩ := hspell a ha
    simp [hc.ne_nil ht]
  · obtain ⟨t, ht, rfl⟩ := hspell a ha
    obtain ⟨t', ht', rfl⟩ := hspell b hb
    have hinside := infix_of_append_infix hin
    have hlen := hinside.length_le
    have hpos := length_pos_of_ne_nil (hc.ne_nil ht)
    rw [length_dropLast] at hlen
    rw [startMarkers, mem_append, Option.mem_toList, mem_singleton] at ht ht'
    rcases ht with hm | rfl <;> rcases ht' with hm' | rfl
    · obtain rfl := Option.some.inj (hm.symm.trans hm')
      omega
    · exact (hc.framed t hm).2.1 hinside
    · exact (hc.framed t' hm').2.2 hinside
    · omega

/-- **Text stops where a start marker may begin**, and not before. -/
theorem safeTextEvent_spec [Winnow] [LawfulWinnow] (hc : config.DistinctMarkers) {c : Char}
    {cs : List Char}
    (h : toolCallStartEvent config (c :: cs) = .backtrack) :
    ∃ n, 0 < n ∧ n ≤ (c :: cs).length ∧ safeTextEvent config (c :: cs) = .ok (.text n) n ∧
      ∀ i < n, toolCallStartEvent config ((c :: cs).drop i) = .backtrack := by
  have hrejects : ∀ buf : List Char, toolCallStartEvent config buf = .backtrack ↔
      verdicts (textMarkers config) true (buf.map fun c => (c, [])) = .backtrack := fun buf =>
    (toolCallStartEvent_eq_backtrack hc).trans verdicts_textMarkers.symm
  have hsafe := safeTextLenMul_eq (MarkerStream.ofText_wellFormed (c :: cs))
    (watched_textMarkers hc)
  rw [cells_ofText] at hsafe
  set n := rejectedLen (verdicts (textMarkers config) true) ((c :: cs).map fun c => (c, [])) with hn
  have hpos : n ≠ 0 := by
    have hfirst := (hrejects _).mp h
    rw [map_cons] at hfirst
    rw [hn, map_cons, rejectedLen, if_pos hfirst]
    exact Nat.succ_ne_zero _
  rw [show (MarkerStream.ofText (c :: cs)).isPartial = true from rfl, if_neg hpos] at hsafe
  refine ⟨n, Nat.pos_of_ne_zero hpos, ?_, ?_, fun i hi => (hrejects _).mpr ?_⟩
  · have hle := rejectedLen_le (verdicts (textMarkers config) true)
      ((c :: cs).map fun c => (c, []))
    rwa [length_map] at hle
  · rw [safeTextEvent, hsafe]
    rfl
  · rw [map_drop]
    exact rejectedLen_rejects hi

end Start

/-! ### Runs of the source as runs of the machine -/

namespace JsonToolCallConfig

variable [Winnow] {config : JsonToolCallConfig} {decode : List Char → Option (List Char)}
  {s : JsonToolState} {buf : List Char}

/-- Text at which no start marker may begin is read character by character. -/
private theorem advances_text (hmode : s.mode = .text) {n : ℕ} (hn : n ≤ buf.length)
    (h : ∀ i < n, toolCallStartEvent config (buf.drop i) = .backtrack) :
    Advances (config.step decode) s buf (textAtoms (buf.take n)) s (buf.drop n) := by
  induction n generalizing buf with
  | zero => exact .done s buf
  | succ n ih =>
    cases buf with
    | nil => exact absurd hn (Nat.not_succ_le_zero n)
    | cons c cs =>
      have hstep : config.step decode s (c :: cs) = .advance 1 [.text [c]] s := by
        have hfirst : toolCallStartEvent config (c :: cs) = .backtrack := h 0 (Nat.succ_pos n)
        obtain ⟨mode, active, count⟩ := s
        subst hmode
        simp [step, readNext, orElse, hfirst, readChar, Outcome.map, moveOf, apply, textAtoms]
      exact .more hstep (ih (Nat.le_of_succ_le_succ hn) fun i hi => h (i + 1) (Nat.succ_lt_succ hi))

/-- Arguments are read character by character, up to where the scan ends or fails. -/
private theorem reads_arguments (config : JsonToolCallConfig) (decode : List Char → Option (List Char))
    (s : JsonToolState) (buf : List Char) {toolIndex : ℕ} (hactive : s.activeToolIndex = some toolIndex)
    {jsonScan : JsonObjectScanState} (hmode : s.mode = .arguments jsonScan)
    (hscan : jsonScan.complete = false) : match takeJsonObject jsonScan buf with
    | .ok jsonScan' n => Advances (config.step decode) s buf
        (argumentAtoms toolIndex (buf.take n)) { s with mode := .arguments jsonScan' } (buf.drop n)
    | .incomplete => buf = []
    | _ => Fails (config.step decode) s buf := by
  induction buf generalizing s jsonScan with
  | nil => rfl
  | cons c cs ih =>
    rcases takeJsonObject_cons hscan c cs with ⟨hcut, hall⟩ | ⟨next, hok, hphase, hall⟩
    · rw [hall]
      refine ⟨[], s, _, .done _ _, ?_⟩
      simp [step, readNext, hmode, hscan, readArgument, argumentDeltaEvent, hcut, moveOf]
    · have hstep : config.step decode s (c :: cs) = .advance 1 (argumentAtoms toolIndex [c])
          { s with mode := .arguments next } := by
        simp [step, readNext, hmode, hscan, readArgument, argumentDeltaEvent, hok,
          moveOf, apply, hactive]
      rw [hall]
      by_cases hdone : next.complete = true
      · rw [if_pos hdone]
        exact .single hstep
      · rw [if_neg hdone]
        rw [Bool.not_eq_true] at hdone
        have hrest := ih { s with mode := .arguments next } hactive rfl hdone
        cases cs with
        | nil => exact .single hstep
        | cons d ds =>
          rw [takeJsonObject, hphase hdone] at hrest
          cases hscan' : next.scanChars (d :: ds) with
          | ok last n =>
            rw [hscan'] at hrest
            rw [Outcome.after, add_comm 1 n]
            exact .more hstep hrest
          | incomplete =>
            rw [hscan'] at hrest
            exact absurd hrest (cons_ne_nil d ds)
          | _ =>
            rw [hscan'] at hrest
            obtain ⟨outs, t, rest, hadv, hfail⟩ := hrest
            exact ⟨_, t, rest, .more hstep hadv, hfail⟩

/-- What the machine does when the source makes the move `move`. -/
def Follows (config : JsonToolCallConfig) (decode : List Char → Option (List Char))
    (s : JsonToolState) (buf : List Char) : Move JsonToolState ToolParserEvent → Prop
  | .advance n out t => Advances (config.step decode) s buf out t (buf.drop n)
  | .wait => config.step decode s buf = .wait
  | .fail => Fails (config.step decode) s buf

private theorem follows_step : Follows config decode s buf (config.step decode s buf) := by
  cases hstep : config.step decode s buf with
  | advance n out t => exact .single hstep
  | wait => exact hstep
  | fail => exact ⟨[], s, buf, .done _ _, hstep⟩

/-- **Each event of the source is a run of the machine.** -/
theorem follows_parse [LawfulWinnow] (hc : config.DistinctMarkers)
    (decode : List Char → Option (List Char)) (s : JsonToolState) (buf : List Char) : Follows config decode s buf
      (s.moveOf buf (parseNextJsonToolCallEvent decode config s.mode buf)) := by
  obtain ⟨mode, active, count⟩ := s
  have hsame : parseNextJsonToolCallEvent decode config mode buf =
      config.readNext decode mode buf → Follows config decode ⟨mode, active, count⟩ buf
        (moveOf ⟨mode, active, count⟩ buf
          (parseNextJsonToolCallEvent decode config mode buf)) := fun heq =>
    heq ▸ follows_step
  cases mode with
  | header => exact hsame rfl
  | text =>
    cases hstart : toolCallStartEvent config buf with
    | backtrack =>
      cases buf with
      | nil =>
        refine hsame ?_
        simp [parseNextJsonToolCallEvent, parseTextEvent, readNext, alt_eq, orElse, readChar,
          safeTextEvent, safeTextLenMul, MarkerStream.eofOffset, MarkerStream.ofText, Outcome.map]
      | cons c cs =>
        obtain ⟨n, hpos, hle, hsafe, hrejects⟩ := safeTextEvent_spec hc hstart
        have hmove : parseNextJsonToolCallEvent decode config .text (c :: cs) =
            .ok (.text n, .text) n := by
          simp [parseNextJsonToolCallEvent, parseTextEvent, alt_eq, orElse, hstart, hsafe, Outcome.map]
        rw [hmove, moveOf, if_neg hpos.ne']
        exact advances_text rfl hle hrejects
    | _ =>
      refine hsame ?_
      simp [parseNextJsonToolCallEvent, parseTextEvent, readNext, alt_eq, orElse, hstart]
  | arguments jsonScan =>
    by_cases hdone : jsonScan.complete = true
    · exact hsame (by simp [parseNextJsonToolCallEvent, readNext, hdone])
    · rw [Bool.not_eq_true] at hdone
      have hparse : ∀ buf, parseNextJsonToolCallEvent decode config (.arguments jsonScan) buf =
          argumentDeltaEvent jsonScan buf := fun buf => by
        simp [parseNextJsonToolCallEvent, hdone]
      have hread : ∀ buf, config.readNext decode (.arguments jsonScan) buf =
          readArgument jsonScan buf := fun buf => by simp [readNext, hdone]
      cases buf with
      | nil => exact hsame (by rfl)
      | cons c cs =>
        rcases takeJsonObject_cons hdone c cs with ⟨hcut, hall⟩ | ⟨next, hok, -, hall⟩
        · exact hsame (by rw [hparse, hread, readArgument, argumentDeltaEvent, hall,
            argumentDeltaEvent, hcut])
        · rw [hparse, argumentDeltaEvent]
          cases active with
          | none =>
            -- the first character already has no call to belong to
            have hfail : config.step decode ⟨.arguments jsonScan, none, count⟩ (c :: cs) = .fail := by
              rw [step, hread, readArgument, argumentDeltaEvent, hok]
              rfl
            have hfails : Fails (config.step decode) ⟨.arguments jsonScan, none, count⟩ (c :: cs) :=
              ⟨[], _, _, .done _ _, hfail⟩
            rcases takeJsonObject_cases jsonScan c cs with hcut | ⟨last, n, hlast⟩
            · rwa [hcut]
            · rwa [hlast]
          | some toolIndex =>
            have hrun := reads_arguments config decode
              ⟨.arguments _, some toolIndex, count⟩ (c :: cs) rfl rfl hdone
            rcases takeJsonObject_cases jsonScan c cs with hcut | ⟨last, n, hlast⟩
            · rw [hcut] at hrun ⊢
              exact hrun
            · rw [hlast] at hrun ⊢
              exact hrun

end JsonToolCallConfig

section Lengths

variable [Winnow] [LawfulWinnow] {config : JsonToolCallConfig}
  {decode : List Char → Option (List Char)} {buf : List Char} {event : JsonToolCallEvent} {n : ℕ}

private theorem parse_nil (hc : config.DistinctMarkers) (mode : JsonToolCallMode) :
    parseNextJsonToolCallEvent decode config mode [] = .incomplete := by
  cases mode with
  | text =>
    have hstart : startMarker config [] = .incomplete := by
      rcases startMarker_cases config [] with ⟨hclash, -⟩ | ⟨t, ht, hpre, -⟩ | ⟨-, -, -, h⟩
      · exact absurd nil_prefix (hclash config.startMarker (by simp [startMarkers])).2
      · exact absurd (prefix_nil.mp hpre) (hc.ne_nil ht)
      · exact h
    simp [parseNextJsonToolCallEvent, parseTextEvent, alt_eq, orElse, toolCallStartEvent,
      seq_eq, Lib.sequence, andThen, hstart, Outcome.map]
  | header =>
    simp [parseNextJsonToolCallEvent, toolCallHeaderEvent, seq_eq, Lib.sequence, multispace0_eq,
      takeWhile0, andThen, Outcome.map]
  | arguments jsonScan =>
    rw [parseNextJsonToolCallEvent]
    split_ifs
    · simp [toolCallCloseEvent, seq_eq, Lib.sequence, multispace0_eq, takeWhile0, andThen, Outcome.map]
    · rfl

/-- An event of text or arguments is as long as what it consumed. -/
private theorem len_of_parse {mode mode' : JsonToolCallMode}
    (h : parseNextJsonToolCallEvent decode config mode buf = .ok (event, mode') n) :
    ∀ len, event = .text len ∨ event = .arguments len → len = n := by
  have hstart : ∀ {e : JsonToolCallEvent}, toolCallStartEvent config buf = .ok e n →
      e = .toolCallStart := fun hok => (exists_of_map_ok hok).elim fun _ he => he.2.symm
  rintro len hlen
  cases mode with
  | text =>
    obtain ⟨e, hparse, heq⟩ := exists_of_map_ok h
    obtain ⟨rfl, -⟩ := Prod.ext_iff.mp heq
    rw [parseTextEvent, alt_eq, orElse] at hparse
    cases hs : toolCallStartEvent config buf with
    | backtrack =>
      rw [hs] at hparse
      obtain ⟨k, hsafe, rfl⟩ := exists_of_map_ok hparse
      rcases hlen with hlen | hlen
      · grind [safeTextLenMul]
      · cases hlen
    | _ =>
      rw [hs] at hparse
      simp [hstart (hs.trans hparse)] at hlen
  | header =>
    obtain ⟨e, hparse, heq⟩ := exists_of_map_ok h
    obtain ⟨rfl, -⟩ := Prod.ext_iff.mp heq
    obtain ⟨-, rest, m, hrest⟩ := exists_of_andThen_ok hparse
    obtain ⟨name, rest', m', hlast⟩ := exists_of_andThen_ok hrest
    obtain ⟨-, -, rfl⟩ := exists_of_map_ok hlast
    simp at hlen
  | arguments jsonScan =>
    rw [parseNextJsonToolCallEvent] at h
    split_ifs at h
    · obtain ⟨e, hparse, heq⟩ := exists_of_map_ok h
      obtain ⟨rfl, -⟩ := Prod.ext_iff.mp heq
      obtain ⟨-, rest, m, hrest⟩ := exists_of_andThen_ok hparse
      have hend : ∀ {e : JsonToolCallEvent} {k : ℕ}, toolCallEndEvent config rest = .ok e k →
          e = .toolCallEnd := fun hok => (exists_of_map_ok hok).elim fun _ he => he.2.symm
      cases hdelim : config.delimiter with
      | some delimiter =>
        simp only [hdelim, alt_eq, orElse] at hrest
        cases hs : toolCallEndEvent config rest with
        | backtrack =>
          rw [hs] at hrest
          obtain ⟨-, -, rfl⟩ := exists_of_map_ok hrest
          simp at hlen
        | _ =>
          rw [hs] at hrest
          simp [hend (hs.trans hrest)] at hlen
      | none =>
        simp only [hdelim] at hrest
        simp [hend hrest] at hlen
    · rw [argumentDeltaEvent] at h
      split at h
      · obtain ⟨heq, rfl⟩ := Outcome.ok.inj h
        obtain ⟨rfl, -⟩ := Prod.ext_iff.mp heq
        simp at hlen
        exact hlen.symm
      all_goals cases h

end Lengths

namespace JsonToolCallParser

variable {decode : List Char → Option (List Char)} {p q : JsonToolCallParser}
  {output output' : ToolParserOutput}

/-- The state of the machine that the parser runs. -/
def state (p : JsonToolCallParser) : JsonToolState :=
  ⟨p.mode, p.activeToolIndex, p.emittedToolCount⟩

/-- What applying an event does, as a move of the machine. -/
private theorem applyEvent_spec (p : JsonToolCallParser) (output : ToolParserOutput)
    (event : JsonToolCallEvent) {n : ℕ} (hpos : n ≠ 0)
    (hbuf : p.buffer ≠ []) (hlen : ∀ len, event = .text len ∨ event = .arguments len → len = n) :
    match p.applyEvent event output with
    | .ok (q, output') => q.config = p.config ∧ q.buffer = p.buffer ∧ ∃ out,
        p.state.apply (p.buffer.take n) n event = .advance n out q.state ∧
          output'.atoms = output.atoms ++ out
    | .error _ => p.state.apply (p.buffer.take n) n event = .fail := by
  cases event with
  | text len =>
    obtain rfl := hlen len (.inl rfl)
    exact ⟨rfl, rfl, _, rfl, atoms_pushText⟩
  | toolCallStart => exact ⟨rfl, rfl, [], rfl, (append_nil _).symm⟩
  | toolCallHeader name =>
    exact ⟨rfl, rfl, _, rfl, atoms_pushCall⟩
  | arguments len =>
    obtain rfl := hlen len (.inr rfl)
    rw [applyEvent]
    cases hactive : p.activeToolIndex with
    | none => simp [apply, state, hactive]
    | some toolIndex =>
      refine ⟨rfl, rfl, argumentAtoms toolIndex (p.buffer.take len), ?_, ?_⟩
      · simp [apply, state, hactive]
      · rw [atoms_pushCall]
        obtain ⟨c, cs, hcs⟩ := exists_cons_of_ne_nil hbuf
        obtain ⟨k, rfl⟩ := Nat.exists_eq_succ_of_ne_zero hpos
        rw [hcs]
        rfl
  | toolCallDelimiter => exact ⟨rfl, rfl, [], rfl, (append_nil _).symm⟩
  | toolCallEnd => exact ⟨rfl, rfl, [], rfl, (append_nil _).symm⟩

section

variable [Winnow] [LawfulWinnow] (decode)

/-- **A call runs the machine** until it waits, or to where it fails. -/
theorem parseLoop_spec (p : JsonToolCallParser) (hc : p.config.DistinctMarkers) {fuel : ℕ}
    (hfuel : p.buffer.length < fuel) (output : ToolParserOutput) :
    match parseLoop decode fuel p output with
    | ((q, output'), .ok ()) => q.config = p.config ∧ ∃ out,
        RunsTo (p.config.step decode) p.state p.buffer out q.state q.buffer ∧
          output'.atoms = output.atoms ++ out
    | (_, .error _) => Fails (p.config.step decode) p.state p.buffer := by
  induction fuel generalizing p output with
  | zero => exact absurd hfuel (Nat.not_lt_zero _)
  | succ fuel ih =>
    have hfollows := JsonToolCallConfig.follows_parse hc decode p.state p.buffer
    rw [parseLoop, parseBufferedEvent]
    have hstop : p.config.step decode p.state p.buffer = .wait → p.config = p.config ∧ ∃ out,
        RunsTo (p.config.step decode) p.state p.buffer out p.state p.buffer ∧
          output.atoms = output.atoms ++ out := fun hwait =>
      ⟨rfl, [], ⟨.done _ _, hwait⟩, (append_nil _).symm⟩
    cases hparse : parseNextJsonToolCallEvent decode p.config p.mode p.buffer with
    | incomplete =>
      rw [show p.state.mode = p.mode from rfl, hparse] at hfollows
      exact hstop hfollows
    | backtrack =>
      rwa [show p.state.mode = p.mode from rfl, hparse] at hfollows
    | cut =>
      rwa [show p.state.mode = p.mode from rfl, hparse] at hfollows
    | ok result n =>
      obtain ⟨event, mode⟩ := result
      have hbuf : p.buffer ≠ [] := fun hnil => by
        rw [hnil, parse_nil hc] at hparse
        cases hparse
      rw [show p.state.mode = p.mode from rfl, hparse, moveOf] at hfollows
      dsimp only
      by_cases hn : n = 0
      · rw [if_pos hn] at hfollows ⊢
        exact hstop hfollows
      rw [if_neg hn] at hfollows ⊢
      dsimp only
      have hspec := applyEvent_spec { p with mode } output event hn hbuf (len_of_parse hparse)
      cases happly : ({ p with mode }).applyEvent event output with
      | error e =>
        rw [happly] at hspec
        exact (hspec ▸ hfollows : Fails _ _ _)
      | ok res =>
        rw [happly] at hspec
        obtain ⟨hqc, hqb, out, hmove, hatoms⟩ := hspec
        change JsonToolCallConfig.Follows p.config decode p.state p.buffer
          (({ p with mode }).state.apply (p.buffer.take n) n event) at hfollows
        rw [hmove] at hfollows
        have hshort : (res.1.buffer.drop n).length < fuel := by
          have hpos := length_pos_of_ne_nil hbuf
          rw [hqb, length_drop]
          dsimp only
          omega
        have hrest := ih { res.1 with buffer := res.1.buffer.drop n }
          (by rw [hqc]; exact hc) hshort res.2
        rw [hqc, hqb] at hrest
        dsimp only at hrest ⊢
        rw [hqb]
        split at hrest <;> rename_i hloop <;> rw [hloop]
        · obtain ⟨hconfig, outs, hruns, hatoms'⟩ := hrest
          refine ⟨hconfig, out ++ outs, ⟨hfollows.trans hruns.1, hruns.2⟩, ?_⟩
          rw [hatoms', hatoms, append_assoc]
        · obtain ⟨outs, t, rest, hadv, hfail⟩ := hrest
          exact ⟨_, t, rest, hfollows.trans hadv, hfail⟩

/-- A parse of chunks feeds the machine; it succeeds where the machine waits for text. -/
private theorem parseChunks_spec (chunks : List DecodedText) (p : JsonToolCallParser)
    (hc : p.config.DistinctMarkers) (output : ToolParserOutput) :
    match p.parseChunks decode output chunks with
    | .ok final => ∃ out t rest, Feeds (p.config.step decode) p.state p.buffer
        (chunks.map text) out t rest ∧ t.mode = .text ∧
          final.atoms = output.atoms ++ (out ++ textAtoms rest)
    | .error _ =>
      FeedFails (p.config.step decode) p.state p.buffer (chunks.map text) ∨
      ∃ out t rest, Feeds (p.config.step decode) p.state p.buffer
        (chunks.map text) out t rest ∧ t.mode ≠ .text := by
  induction chunks generalizing p output with
  | nil =>
    rw [parseChunks, finish]
    cases hmode : p.mode with
    | text =>
      refine ⟨[], _, _, .done _ _, hmode, ?_⟩
      rw [atoms_append, atoms_pushText]
      rfl
    | header => exact .inr ⟨[], _, _, .done _ _, by simp [state, hmode]⟩
    | arguments jsonScan => exact .inr ⟨[], _, _, .done _ _, by simp [state, hmode]⟩
  | cons chunk chunks ih =>
    rw [parseChunks, parseInto]
    have hloop := parseLoop_spec decode { p with buffer := p.buffer ++ chunk.text } hc
      (Nat.lt_succ_self _) output
    split at hloop <;> rename_i hrun <;> rw [hrun]
    · next q output' =>
      obtain ⟨hconfig, out, hruns, hatoms⟩ := hloop
      have hrest := ih q (hconfig ▸ hc) output'
      rw [hconfig] at hrest
      dsimp only
      split at hrest
      · obtain ⟨outs, t, rest, hfeeds, hmode, hatoms'⟩ := hrest
        refine ⟨out ++ outs, t, rest, .piece hruns hfeeds, hmode, ?_⟩
        rw [hatoms', hatoms]
        simp
      · rcases hrest with hfails | ⟨outs, t, rest, hfeeds, hmode⟩
        · exact .inl (.later hruns hfails)
        · exact .inr ⟨out ++ outs, t, rest, .piece hruns hfeeds, hmode⟩
    · exact .inl (.here hloop)

/-- What a new parser makes of chunks is told by a run of the machine on their text. -/
private theorem parseChunks_fresh {config : JsonToolCallConfig} (hc : config.DistinctMarkers)
    (chunks : List DecodedText) : match parseChunks decode { config } {} chunks with
    | .ok final => ∃ out t rest, RunsTo (config.step decode) {}
        (chunks.map text).flatten out t rest ∧ t.mode = .text ∧ final.atoms = out ++ textAtoms rest
    | .error _ => Fails (config.step decode) {} (chunks.map text).flatten ∨
      ∃ out t rest, RunsTo (config.step decode) {} (chunks.map text).flatten
        out t rest ∧ t.mode ≠ .text := by
  have hwait : config.step decode {} [] = .wait := by
    have hfollows := JsonToolCallConfig.follows_parse hc decode {} []
    rwa [parse_nil hc] at hfollows
  have hsettled : Settled (config.step decode) := config.step_settled
  have hspec := parseChunks_spec decode chunks { config } hc {}
  split at hspec
  · obtain ⟨out, t, rest, hfeeds, hmode, hatoms⟩ := hspec
    exact ⟨out, t, rest, hfeeds.ends hsettled hwait, hmode, hatoms⟩
  · rcases hspec with hfails | ⟨out, t, rest, hfeeds, hmode⟩
    · exact .inl (hfails.fails hsettled)
    · exact .inr ⟨out, t, rest, hfeeds.ends hsettled hwait, hmode⟩

/-- **Chunks do not matter.** If one-shot parsing succeeds, parsing in chunks succeeds with the same
text and calls; if it fails, so does parsing in chunks. -/
theorem parseChunks_eq_oneShot {config : JsonToolCallConfig} (hc : config.DistinctMarkers)
    (decode : List Char → Option (List Char)) (chunks : List DecodedText) (whole : DecodedText)
    (hwhole : whole.text = (chunks.map DecodedText.text).flatten) :
    (∀ out, parseChunks decode { config } {} [whole] = .ok out →
      ∃ out', parseChunks decode { config } {} chunks = .ok out' ∧ out'.coalesce = out.coalesce) ∧
    ∀ e, parseChunks decode { config } {} [whole] = .error e →
      ∃ e', parseChunks decode { config } {} chunks = .error e' := by
  have hone := parseChunks_fresh decode hc [whole]
  have hmany := parseChunks_fresh decode hc chunks
  have htext : ([whole].map text).flatten = (chunks.map text).flatten := by
    simp [hwhole]
  rw [htext] at hone
  -- the machine runs on one text, so that the two parses end in one state or fail both
  constructor
  · intro out hout
    rw [hout] at hone
    obtain ⟨events, t, rest, hruns, hmode, hatoms⟩ := hone
    cases hchunks : parseChunks decode { config } {} chunks with
    | ok out' =>
      rw [hchunks] at hmany
      obtain ⟨events', t', rest', hruns', -, hatoms'⟩ := hmany
      obtain ⟨rfl, rfl, rfl⟩ := hruns.unique hruns'
      exact ⟨out', rfl, coalesce_eq_of_atoms (hatoms'.trans hatoms.symm)⟩
    | error e =>
      rw [hchunks] at hmany
      rcases hmany with hfails | ⟨events', t', rest', hruns', hmode'⟩
      · exact absurd hfails hruns.not_fails
      · obtain ⟨rfl, rfl, rfl⟩ := hruns.unique hruns'
        exact absurd hmode hmode'
  · intro e he
    rw [he] at hone
    cases hchunks : parseChunks decode { config } {} chunks with
    | error e' => exact ⟨e', rfl⟩
    | ok out' =>
      rw [hchunks] at hmany
      obtain ⟨events', t', rest', hruns', hmode', -⟩ := hmany
      rcases hone with hfails | ⟨events, t, rest, hruns, hmode⟩
      · exact absurd hfails hruns'.not_fails
      · obtain ⟨rfl, rfl, rfl⟩ := hruns.unique hruns'
        exact absurd hmode' hmode

end

open Documented

/-- The Qwen markers: the framed one is the bare one after a newline. -/
def qwenConfig : JsonToolCallConfig where
  parserName := "Qwen"
  startMarker := "<tool_call>".toList
  framedStartMarker := some "\n<tool_call>".toList
  endMarker := "</tool_call>".toList
  markerWhitespace := .exact ['\n']
  delimiter := none
  nameKey := "name".toList
  argumentsKey := ["arguments".toList]

/-- A call whose start marker and escaped argument string are cut in two. -/
def cutCall : List DecodedText :=
  [⟨"ok\n<tool".toList, []⟩, ⟨"_call>\n\x7b\"name\": \"f\", \"arguments\": \x7b\"a\": \"\\".toList, []⟩,
    ⟨"\"\x7d\"\x7d\x7d\n</tool_call>".toList, []⟩]

/-- The call is found although its marker and a string are cut. -/
theorem parseChunks_eq_oneShot_cutCall : qwenConfig.DistinctMarkers ∧
      ∃ out, parseChunks (fun raw => some (raw.drop 1).dropLast) { config := qwenConfig } {} cutCall =
          .ok out ∧ out.coalesce = ⟨[.text "ok".toList,
          .toolCall ⟨0, some "f".toList, "\x7b\"a\": \"\\\"\x7d\"\x7d".toList⟩]⟩ := by
  have hc : qwenConfig.DistinctMarkers := by
    refine ⟨by decide, ?_⟩
    rintro marker ⟨rfl⟩
    exact ⟨by decide, by decide, by decide⟩
  refine ⟨hc, ?_⟩
  obtain ⟨out, hout, hcoalesce⟩ := (parseChunks_eq_oneShot hc (fun raw => some (raw.drop 1).dropLast)
    cutCall ⟨(cutCall.map text).flatten, []⟩ rfl).1 _ rfl
  exact ⟨out, hout, hcoalesce.trans (by decide +kernel)⟩

end JsonToolCallParser

end Sonar.Parser
