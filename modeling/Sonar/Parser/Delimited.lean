import Sonar.Lib.Resumable
import Sonar.Parser.MarkerScan

/-!
# The delimited reasoning parser

Reasoning is set off by a start and an end delimiter. Each delimiter is one special token, may be
framed by fixed text before it, and may be followed by fixed text; framing is consumed with the
delimiter where it is there and never missed where it is not. The parser buffers decoded text,
passes body text on as soon as no delimiter can begin in it any more, and holds the rest back.

`DelimitedConfig.step` is the same parser one cell at a time, over the cells of the buffer. The
loop of the source passes on whole runs of body text; it makes the moves of this machine and stops
where the machine waits (`parseLoop_drives`). The machine's moves are settled (`step_settled`):
what it reads does not depend on text that has not arrived.
-/

namespace Sonar.Parser

open Lib List Marker
open Text (TokenId)
open Prod (fst snd)

/-- The portions of a delta. -/
structure ReasoningDelta where
  reasoning : Option DecodedText := none
  content : Option DecodedText := none
deriving DecidableEq, Repr

namespace ReasoningDelta

/-- `push_reasoning` and `push_content`: append to a portion, creating it on first use. -/
def pushPiece (portion : Option DecodedText) (piece : DecodedText) : Option DecodedText :=
  if piece.isEmpty then portion
  else match portion with
    | some existing => some (existing.append piece)
    | none => some piece

/-- `push_body`, for the parser's state. -/
def pushBody (delta : ReasoningDelta) (inReasoning : Bool) (piece : DecodedText) : ReasoningDelta :=
  if inReasoning then { delta with reasoning := pushPiece delta.reasoning piece }
  else { delta with content := pushPiece delta.content piece }

/-- The text of one portion. -/
def text (delta : ReasoningDelta) (inReasoning : Bool) : List Char :=
  ((if inReasoning then delta.reasoning else delta.content).map DecodedText.text).getD []

private theorem text_pushBody {delta : ReasoningDelta} {r r' : Bool} {piece : DecodedText} :
    (delta.pushBody r piece).text r' = delta.text r' ++ if r' = r then piece.text else [] := by
  have hpush : ∀ portion : Option DecodedText,
      ((pushPiece portion piece).map DecodedText.text).getD [] =
        (portion.map DecodedText.text).getD [] ++ piece.text := by
    intro portion
    by_cases h : piece.isEmpty = true
    · have hnil : piece.text = [] := by
        simp only [DecodedText.isEmpty, Bool.and_eq_true, List.isEmpty_iff] at h
        exact h.1
      rw [hnil, append_nil, pushPiece.eq_def, if_pos h]
    · cases portion <;> simp [pushPiece, h]
  cases r <;> cases r' <;> simp [pushBody, text, hpush]

end ReasoningDelta

/-- The delimiters and their framing. Delimiters are texts of tokens, so they are not empty. -/
structure DelimitedConfig where
  startToken : SpecialToken
  endToken : SpecialToken
  beforeStart : List Char := []
  afterStart : List Char := []
  beforeEnd : List Char := []
  afterEnd : List Char := []
  startToken_ne_nil : startToken.text ≠ []
  endToken_ne_nil : endToken.text ≠ []

namespace DelimitedConfig

variable (config : DelimitedConfig) (inReasoning : Bool)

/-- The delimiter that ends the current state. -/
def token : SpecialToken :=
  if inReasoning then config.endToken else config.startToken

/-- The framing before that delimiter. -/
def before : List Char :=
  if inReasoning then config.beforeEnd else config.beforeStart

/-- The framing after the delimiter that began the state. -/
def after : List Char :=
  if inReasoning then config.afterStart else config.afterEnd

/-- The bare delimiter. -/
def marker : Marker := .special (config.token inReasoning)

/-- The delimiter with its framing. -/
def framedMarker : Marker :=
  (ofText (config.before inReasoning)).thenSpecial (config.token inReasoning)

end DelimitedConfig

open DelimitedConfig

/-- The incremental state machine. -/
structure DelimitedReasoningParser where
  config : DelimitedConfig
  currentInReasoning : Bool := false
  buffer : DecodedText := {}
  pendingAfter : List Char := []

namespace DelimitedReasoningParser

/-- `last_reasoning_boundary_position`: the last delimiter of the prompt, unless another special
token comes after it. -/
def lastReasoningBoundaryPosition (config : DelimitedConfig) (isSpecialId : TokenId → Bool)
    (promptTokenIds : List TokenId) : Option (ℕ × Bool) :=
  go promptTokenIds.zipIdx.reverse
where
  go : List (TokenId × ℕ) → Option (ℕ × Bool)
    | [] => none
    | (tokenId, index) :: rest =>
      if tokenId = config.startToken.id then some (index, true)
      else if tokenId = config.endToken.id then some (index, false)
      else if isSpecialId tokenId then none
      else go rest

variable (p : DelimitedReasoningParser)

/-- The parser `initialize` leaves: the state and the framing still to come, from the prompt. -/
def initFromPrompt (isSpecialId : TokenId → Bool)
    (decode : List TokenId → Option (List Char)) (promptTokenIds : List TokenId) :
    Option DelimitedReasoningParser :=
  let p : DelimitedReasoningParser := { config := p.config }
  match lastReasoningBoundaryPosition p.config isSpecialId promptTokenIds with
  | none => some p
  | some (index, inReasoning) =>
    let pendingAfter := p.config.after inReasoning
    if pendingAfter ≠ [] ∧ index + 1 < promptTokenIds.length then do
      let tail ← decode (promptTokenIds.drop (index + 1))
      let pendingAfter := if tail.isPrefixOf pendingAfter then pendingAfter.drop tail.length else []
      return { p with currentInReasoning := inReasoning, pendingAfter }
    else some { p with currentInReasoning := inReasoning, pendingAfter }

variable (finishing : Bool)

/-- The framing expected next: consumed where it is there, given up where it is not; `none` while
it may still come. -/
def takePending : Option DelimitedReasoningParser :=
  if p.pendingAfter = [] then some p
  else if p.pendingAfter.isPrefixOf p.buffer.text then
    some { p with buffer := (p.buffer.drainPrefix p.pendingAfter.length).2, pendingAfter := [] }
  else if !finishing && p.buffer.text.isPrefixOf p.pendingAfter then none
  else some { p with pendingAfter := [] }

/-- The input of a round: at the end of the stream, partial delimiters are body text. -/
def input : MarkerStream :=
  if finishing then (MarkerStream.attributed p.buffer).complete
  else MarkerStream.attributed p.buffer

/-- The parser and the delta after `len` characters are passed on as body text. -/
def passBody (delta : ReasoningDelta) (len : ℕ) : DelimitedReasoningParser × ReasoningDelta :=
  ({ p with buffer := (p.buffer.drainPrefix len).2 },
    delta.pushBody p.currentInReasoning (p.buffer.drainPrefix len).1)

variable [Winnow]

/-- The rest of a round of `parse_buffer`, and whether another one follows. -/
def round (delta : ReasoningDelta) : (DelimitedReasoningParser × ReasoningDelta) × Bool :=
  let r := p.currentInReasoning
  let marker := p.config.marker r
  let framedMarker := p.config.framedMarker r
  match Winnow.alt framedMarker.parseNext marker.parseNext (p.input finishing) with
  | .ok _ boundaryLen =>
    -- zero-width tokens before the delimiter stay in the current state
    let (p, delta) := p.passBody delta 0
    (({ p with
        buffer := (p.buffer.drainPrefix boundaryLen).2
        currentInReasoning := !r
        pendingAfter := p.config.after (!r) }, delta), true)
  -- a delimiter may start here once more input arrives
  | .incomplete => (p.passBody delta 0, false)
  | .backtrack | .cut =>
    -- body text runs up to the next delimiter that may start
    match safeTextLenMul (p.input finishing) [framedMarker, marker] with
    | .ok bodyLen _ => (p.passBody delta bodyLen, true)
    | .backtrack | .cut | .incomplete => (p.passBody delta 0, false)

/-- The loop of `parse_buffer`. Every round but the last consumes text, which bounds `fuel`. -/
def parseLoop (finishing : Bool) :
    ℕ → DelimitedReasoningParser → ReasoningDelta → DelimitedReasoningParser × ReasoningDelta
  | 0, p, delta => (p, delta)
  | fuel + 1, p, delta =>
    match p.takePending finishing with
    | none => (p, delta)
    | some p =>
      let (result, again) := p.round finishing delta
      if again then parseLoop finishing fuel result.1 result.2 else result

/-- `parse_buffer`: as much of the buffer as can be decided. -/
def parseBuffer : DelimitedReasoningParser × ReasoningDelta :=
  parseLoop finishing (p.buffer.text.length + 1) p {}

/-- `push`: more output. -/
def push (delta : DecodedText) : DelimitedReasoningParser × ReasoningDelta :=
  { p with buffer := p.buffer.append delta }.parseBuffer false

/-- `finish`: there is no more output. -/
def finish : DelimitedReasoningParser × ReasoningDelta :=
  p.parseBuffer true

end DelimitedReasoningParser

/-! ### Delimiters as patterns -/

/-- The token produced these cells: they spell it, it begins at the first of them, alone, and no
visible token begins inside. -/
def SpecialToken.Produced (token : SpecialToken) (cells : List Cell) : Prop :=
  cells.map fst = token.text ∧
    cells.map snd = [token.id] :: List.replicate (token.text.length - 1) []

instance (token : SpecialToken) (cells : List Cell) : Decidable (token.Produced cells) :=
  inferInstanceAs (Decidable (_ ∧ _))

private theorem Marker.thenSpecial_wellFormed {text : List Char} {token : SpecialToken}
    (h : token.text ≠ []) : ((ofText text).thenSpecial token).WellFormed := by
  have hpos := length_pos_of_ne_nil h
  refine ⟨fun guard hguard => ?_, by simp [thenSpecial, ofText]⟩
  obtain rfl : guard = ⟨text.length, text.length + token.text.length, token.id⟩ := by
    simpa [thenSpecial, ofText] using hguard
  simp [thenSpecial, ofText]
  omega

/-- A marker fits what spells it and holds the tokens its guards ask for. -/
private theorem Marker.fit_pattern_iff {m : Marker} {cells : List Cell} : fit m.pattern cells = .fits ↔
    ∃ own rest, cells = own ++ rest ∧ own.map fst = m.text ∧
      ∀ j cell, own[j]? = some cell → ∀ guard ∈ m.guards, guard.allows j cell.2 = true := by
  constructor
  · intro hfits
    obtain ⟨hne, hlen⟩ := fit_eq_fits_iff.mp hfits
    rw [length_pattern] at hlen
    have hat : ∀ j cell, (cells.take m.text.length)[j]? = some cell → m.text[j]? = some cell.1 ∧
        ∀ guard ∈ m.guards, guard.allows j cell.2 = true := by
      intro j cell hcell
      rw [getElem?_take] at hcell
      split_ifs at hcell with hj
      obtain ⟨hchar, hguards⟩ := pattern_fst hne (getElem?_eq_getElem hj) hcell
      exact ⟨by rw [getElem?_eq_getElem hj, hchar], hguards⟩
    refine ⟨_, _, (take_append_drop _ _).symm, ?_, fun j cell hcell => (hat j cell hcell).2⟩
    refine ext_getElem (by simp [hlen]) fun j h1 h2 => ?_
    rw [length_map] at h1
    rw [getElem_map]
    exact (getElem_eq_iff h2).mpr (hat j _ (getElem?_eq_getElem h1)).1 |>.symm
  · rintro ⟨own, rest, rfl, htext, hguards⟩
    have hlen : own.length = m.text.length := by rw [← htext, length_map]
    refine fit_eq_fits_iff.mpr ⟨fit_ne_fails_iff.mpr fun j p cell hp hcell => ?_, by simp [← hlen]⟩
    have hj : j < own.length := by
      simpa [hlen] using (List.getElem?_eq_some_iff.mp hp).1
    rw [getElem?_append_left hj] at hcell
    have hchar : m.text[j]? = some cell.1 := by rw [← htext, getElem?_map, hcell]; rfl
    have hall := hguards j cell hcell
    simp only [pattern, getElem?_map, getElem?_zipIdx, hchar, Option.map_some, Option.some.injEq] at hp
    rw [← hp]
    simpa using hall

/-- A framed delimiter fits where its framing is spelled and its token produced what follows. -/
theorem fit_thenSpecial_iff {text : List Char} {token : SpecialToken} (h : token.text ≠ [])
    {cells : List Cell} : fit ((ofText text).thenSpecial token).pattern cells = .fits ↔
      ∃ framing own rest, cells = framing ++ own ++ rest ∧ framing.map fst = text ∧
        token.Produced own := by
  -- what the guard asks of the cells after the framing
  have hasks : ∀ framing own : List Cell, framing.map fst = text → own.map fst = token.text →
      ((∀ j cell, (framing ++ own)[j]? = some cell →
        ∀ guard ∈ ((ofText text).thenSpecial token).guards, guard.allows j cell.2 = true) ↔
        own.map snd = [token.id] :: replicate (token.text.length - 1) []) := by
    rintro framing own rfl hown
    rw [← hown] at h ⊢
    obtain ⟨first, own, rfl⟩ := exists_cons_of_ne_nil (mt map_eq_nil_iff.mpr h)
    simp only [thenSpecial, ofText, nil_append, mem_singleton, forall_eq, Guard.allows, length_map]
    have hskip : ∀ k, (framing ++ first :: own)[framing.length + (k + 1)]? = own[k]? := by
      simp [getElem?_append_right]
    rw [map_cons, cons.injEq, eq_replicate_iff]
    constructor
    · intro hall
      refine ⟨by simpa using hall framing.length first (by simp), length_map _, fun ids hids => ?_⟩
      obtain ⟨cell, hcell, rfl⟩ := mem_map.mp hids
      obtain ⟨k, hk⟩ := mem_iff_getElem?.mp hcell
      have hlt := (List.getElem?_eq_some_iff.mp hk).1
      have hinside := hall _ cell (by rwa [hskip])
      simpa [← hown, hlt] using hinside
    · rintro ⟨hfirst, -, hrest⟩ j cell hcell
      split_ifs with hstart hinside
      · simp_all
      · obtain ⟨k, rfl⟩ := Nat.exists_eq_add_of_lt hinside.1
        rw [Nat.add_assoc, hskip] at hcell
        exact decide_eq_true (hrest _ (mem_map_of_mem (mem_of_getElem? hcell)))
      · rfl
  rw [fit_pattern_iff]
  constructor
  · rintro ⟨whole, rest, rfl, htext, hguards⟩
    obtain ⟨framing, own, rfl, hframing, hown⟩ := map_eq_append_iff.mp htext
    exact ⟨framing, own, rest, rfl, hframing, hown, (hasks framing own hframing hown).mp hguards⟩
  · rintro ⟨framing, own, rest, rfl, hframing, hown, hids⟩
    refine ⟨framing ++ own, rest, rfl, ?_, (hasks framing own hframing hown).mpr hids⟩
    rw [map_append, hframing, hown]
    rfl

/-! ### One cell at a time -/

/-- What a stretch of the output is read as. -/
inductive Segment where
  /-- One cell of reasoning or content. -/
  | body (inReasoning : Bool) (cell : Cell)
  /-- Framing after a delimiter. -/
  | framing (cells : List Cell)
  /-- A delimiter, with the framing before it. -/
  | delimiter (cells : List Cell)
deriving DecidableEq

open Segment

namespace Segment

/-- The text of a list of segments that is in the given state. -/
def bodyText (inReasoning : Bool) : List Segment → List Char
  | [] => []
  | .body r cell :: segs => if r = inReasoning then cell.1 :: bodyText inReasoning segs
      else bodyText inReasoning segs
  | _ :: segs => bodyText inReasoning segs

/-- The body text of both parts. -/
theorem bodyText_append (r : Bool) (xs ys : List Segment) :
    bodyText r (xs ++ ys) = bodyText r xs ++ bodyText r ys := by
  induction xs with
  | nil => rfl
  | cons x xs ih =>
    cases x with
    | body r' cell =>
      simp only [cons_append, bodyText, ih]
      split_ifs <;> rfl
    | framing cells => exact ih
    | delimiter cells => exact ih

private theorem bodyText_bodies (r r' : Bool) (cells : List Cell) :
    bodyText r' (cells.map (.body r)) = if r' = r then cells.map fst else [] := by
  induction cells with
  | nil => simp [bodyText]
  | cons c cs ih =>
    rw [map_cons, bodyText, ih]
    by_cases h : r' = r
    · simp [h]
    · simp [h, Ne.symm h]

end Segment

namespace DelimitedConfig

variable (config : DelimitedConfig)

/-- The markers watched for, framing first. -/
def markers (inReasoning : Bool) : List Marker :=
  [config.framedMarker inReasoning, config.marker inReasoning]

/-- The next move when no framing is expected: a delimiter, or one cell of body text. -/
def readBody (isPartial : Bool) (r : Bool) (buf : List Cell) : Move (Bool × List Char) Segment :=
  match verdicts (config.markers r) isPartial buf with
  | .ok _ n => .advance n [.delimiter (buf.take n)] (!r, config.after (!r))
  | .backtrack =>
    match buf with
    | [] => .wait
    | c :: _ => .advance 1 [.body r c] (r, [])
  | .cut => .wait
  | .incomplete => .wait

/-- The next move when `pending` may come: it does, it does not, or that is not known yet. -/
def readFraming (isPartial : Bool) (r : Bool) (pending : List Char) (buf : List Cell) :
    Move (Bool × List Char) Segment :=
  if pending <+: buf.map fst then
    .advance pending.length [.framing (buf.take pending.length)] (r, [])
  else if isPartial = true ∧ buf.map fst <+: pending then .wait
  else .advance 0 [] (r, [])

/-- The parser as a machine over cells. Its state is whether it is in reasoning, and the framing
that may come next. -/
def step (isPartial : Bool) (s : Bool × List Char) (buf : List Cell) :
    Move (Bool × List Char) Segment :=
  if s.2 = [] then config.readBody isPartial s.1 buf
  else readFraming isPartial s.1 s.2 buf

/-- A delimiter is not empty. -/
theorem token_ne_nil (r : Bool) : (config.token r).text ≠ [] := by
  cases r
  · exact config.startToken_ne_nil
  · exact config.endToken_ne_nil

private theorem wellFormed_of_mem {r : Bool} : ∀ m ∈ config.markers r, m.WellFormed := by
  intro m hm
  have hne := config.token_ne_nil r
  rcases mem_cons.mp hm with rfl | hm
  · exact thenSpecial_wellFormed hne
  · obtain rfl := mem_singleton.mp hm
    exact thenSpecial_wellFormed hne

variable {r : Bool} {buf : List Cell}

private theorem text_ne_nil {m : Marker} (hm : m ∈ config.markers r) : m.text ≠ [] := by
  have hne := config.token_ne_nil r
  rcases mem_cons.mp hm with rfl | hm
  · simp [framedMarker, thenSpecial, hne]
  · obtain rfl := mem_singleton.mp hm
    simp [marker, special, thenSpecial, hne]

/-- At most the framed delimiter is searched for by its text. -/
private theorem watched (r : Bool) : Watched (config.markers r) := by
  have hspelled : ∀ a ∈ ((config.markers r).filter fun m => m.firstTokenId.isNone).map text,
      a = (config.framedMarker r).text := by
    intro a ha
    obtain ⟨m, hm, rfl⟩ := mem_map.mp ha
    obtain ⟨hm, hnone⟩ := mem_filter.mp hm
    rcases mem_cons.mp hm with rfl | hm
    · rfl
    · obtain rfl := mem_singleton.mp hm
      cases hnone
  have htext : (config.framedMarker r).text ≠ [] := config.text_ne_nil (.head _)
  refine ⟨config.wellFormed_of_mem, fun a ha => hspelled a ha ▸ htext, fun a ha b hb hin => ?_⟩
  rw [hspelled a ha, hspelled b hb] at hin
  have hlen := hin.length_le
  have hpos := length_pos_of_ne_nil htext
  rw [length_dropLast] at hlen
  omega

/-- The markers decide, once they do, whatever arrives later. -/
private theorem verdicts_stable (markers : List Marker) : Stable (verdicts markers true) := by
  induction markers with
  | nil => exact ⟨fun _ _ _ => rfl, nofun⟩
  | cons m markers ih =>
    have heq : verdicts (m :: markers) true = orElse (matching m.pattern) (verdicts markers true) := by
      funext cells
      rw [verdicts, verdict, orElse]
      cases matching m.pattern cells <;> rfl
    rw [heq]
    exact matching_stable.orElse ih

section ReadBody

variable {config} {isPartial r : Bool} {buf : List Cell}

/-- A delimiter that is there changes the state. -/
theorem readBody_ok {u : Unit} {n : ℕ} (h : verdicts (config.markers r) isPartial buf = .ok u n) :
    config.readBody isPartial r buf =
      .advance n [.delimiter (buf.take n)] (!r, config.after (!r)) := by
  simp [readBody, h]

/-- A delimiter that may be there is waited for. -/
theorem readBody_incomplete (h : verdicts (config.markers r) isPartial buf = .incomplete) :
    config.readBody isPartial r buf = .wait := by
  simp [readBody, h]

/-- A cell where no delimiter begins is body text. -/
theorem readBody_backtrack {c : Cell} {cs : List Cell}
    (h : verdicts (config.markers r) isPartial (c :: cs) = .backtrack) :
    config.readBody isPartial r (c :: cs) = .advance 1 [.body r c] (r, []) := by
  simp [readBody, h]

/-- Nothing is read from nothing: every delimiter has a character to wait for. -/
theorem readBody_nil : config.readBody isPartial r [] = .wait := by
  cases hv : verdicts (config.markers r) isPartial [] with
  | ok u n =>
    obtain ⟨m, hm, hfit, -⟩ := exists_of_verdicts_ok hv
    have hlen := (fit_eq_fits_iff.mp hfit).2
    have hpos := length_pos_of_ne_nil (config.text_ne_nil hm)
    rw [length_pattern, length_nil] at hlen
    omega
  | backtrack => simp [readBody, hv]
  | cut => simp [readBody, hv]
  | incomplete => simp [readBody, hv]

end ReadBody

private theorem readBody_extend {more : List Cell} (h : config.readBody true r buf ≠ .wait) :
    config.readBody true r (buf ++ more) = config.readBody true r buf := by
  have hstable := verdicts_stable (config.markers r)
  cases hv : verdicts (config.markers r) true buf with
  | ok u n =>
    rw [readBody_ok hv, readBody_ok (hstable.extend_eq hv (by simp)),
      take_append_of_le_length (hstable.consumed_le buf u n hv)]
  | backtrack =>
    cases buf with
    | nil => exact absurd readBody_nil h
    | cons c cs =>
      rw [readBody_backtrack hv]
      exact readBody_backtrack (hstable.extend_eq hv (by simp))
  | cut => exact absurd hv verdicts_ne_cut
  | incomplete => exact absurd (readBody_incomplete hv) h

private theorem readBody_consumed_le {n : ℕ} {out : List Segment}
    {t : Bool × List Char} (h : config.readBody true r buf = .advance n out t) :
    n ≤ buf.length := by
  cases hv : verdicts (config.markers r) true buf with
  | ok u k =>
    rw [readBody_ok hv] at h
    obtain ⟨rfl, -, -⟩ := Move.advance.inj h
    exact (verdicts_stable _).consumed_le buf u k hv
  | backtrack =>
    cases buf with
    | nil =>
      rw [readBody_nil] at h
      cases h
    | cons c cs =>
      rw [readBody_backtrack hv] at h
      obtain ⟨rfl, -, -⟩ := Move.advance.inj h
      exact Nat.succ_pos _
  | cut => exact absurd hv verdicts_ne_cut
  | incomplete =>
    rw [readBody_incomplete hv] at h
    cases h

/-- A mismatch stays one: neither text is a prefix of the other. -/
private theorem readFraming_extend {pending : List Char} {more : List Cell}
    (h : readFraming true r pending buf ≠ .wait) :
    readFraming true r pending (buf ++ more) = readFraming true r pending buf := by
  rw [readFraming] at h
  rw [readFraming, readFraming, map_append]
  by_cases hpre : pending <+: buf.map fst
  · have hle := hpre.length_le
    rw [length_map] at hle
    rw [if_pos hpre, if_pos (hpre.trans (prefix_append _ _)), take_append_of_le_length hle]
  · rw [if_neg hpre] at h ⊢
    have hnot : ¬ buf.map fst <+: pending := by
      intro hin
      rw [if_pos ⟨rfl, hin⟩] at h
      exact h rfl
    have hlong : ¬ pending <+: buf.map fst ++ more.map fst := fun hin =>
      ( prefix_or_prefix_of_prefix hin (prefix_append _ _)).elim hpre hnot
    rw [if_neg hlong, if_neg fun hin => hnot ((prefix_append _ _).trans hin.2),
      if_neg fun hin => hnot hin.2]

/-- More input does not change a move. -/
theorem step_settled : Settled (config.step true) where
  extend s buf more h := by
    rw [step] at h
    rw [step, step]
    split_ifs at h ⊢ with hs
    · exact config.readBody_extend h
    · exact readFraming_extend h
  consumed_le s buf n out t h := by
    rw [step] at h
    split_ifs at h with hs
    · exact config.readBody_consumed_le h
    · rw [readFraming] at h
      split_ifs at h with hpre hwait
      · obtain ⟨rfl, -, -⟩ := Move.advance.inj h
        simpa using hpre.length_le
      · obtain ⟨rfl, -, -⟩ := Move.advance.inj h
        exact Nat.zero_le _

/-- A run of rejected cells is read as body text, cell by cell. -/
private theorem advances_rejected (isPartial : Bool) {cells : List Cell} {n : ℕ}
    (hn : n ≤ rejectedLen (verdicts (config.markers r) isPartial) cells) :
    Advances (config.step isPartial) (r, []) cells ((cells.take n).map (.body r)) (r, [])
      (cells.drop n) := by
  induction n generalizing cells with
  | zero => exact .done _ _
  | succ n ih =>
    cases cells with
    | nil => exact absurd hn (Nat.not_succ_le_zero n)
    | cons c cs =>
      rw [rejectedLen] at hn
      split_ifs at hn with hv
      · have hstep : config.step isPartial (r, []) (c :: cs) = .advance 1 [.body r c] (r, []) := by
          exact readBody_backtrack hv
        exact .more hstep (ih (Nat.le_of_succ_le_succ hn))
      · exact absurd hn (Nat.not_succ_le_zero n)

end DelimitedConfig

namespace DelimitedReasoningParser

/-- The state of the machine the parser drives. -/
def state (p : DelimitedReasoningParser) : Bool × List Char :=
  (p.currentInReasoning, p.pendingAfter)

/-- What a call made of the parser's buffer: moves of the machine up to where it waits, and their
text at the end of the delta. -/
structure Drives (finishing : Bool) (p : DelimitedReasoningParser) (delta : ReasoningDelta)
    (result : DelimitedReasoningParser × ReasoningDelta) (segs : List Segment) : Prop where
  ends : RunsTo (p.config.step (!finishing)) p.state p.buffer.cells segs result.1.state
    result.1.buffer.cells
  config : result.1.config = p.config
  wellFormed : result.1.buffer.WellFormed
  text : ∀ r, result.2.text r = delta.text r ++ bodyText r segs

variable {finishing : Bool} {p q : DelimitedReasoningParser}

private theorem step_of_pending {isPartial : Bool} {buf : List Cell} (h : p.pendingAfter ≠ []) :
    p.config.step isPartial p.state buf =
      readFraming isPartial p.currentInReasoning p.pendingAfter buf :=
  if_neg h

private theorem takePending_eq_none (h : p.takePending finishing = none) :
    p.config.step (!finishing) p.state p.buffer.cells = .wait := by
  rw [takePending] at h
  split_ifs at h with hnil hpre hwait
  simp only [Bool.and_eq_true, isPrefixOf_iff_prefix] at hpre hwait
  rw [step_of_pending hnil, readFraming, p.buffer.map_fst_cells, if_neg hpre, if_pos hwait]

/-- Once the framing is decided, the parser is where the machine is after it. -/
private theorem takePending_eq_some (hwf : p.buffer.WellFormed) (h : p.takePending finishing = some q) :
    q.pendingAfter = [] ∧ q.config = p.config ∧ q.currentInReasoning = p.currentInReasoning ∧
      q.buffer.WellFormed ∧ q.buffer.text.length ≤ p.buffer.text.length ∧
      ∃ segs, (∀ r, bodyText r segs = []) ∧
        Advances (p.config.step (!finishing)) p.state p.buffer.cells segs q.state
          q.buffer.cells := by
  rw [takePending] at h
  by_cases hnil : p.pendingAfter = []
  · rw [if_pos hnil] at h
    obtain rfl := Option.some.inj h
    exact ⟨hnil, rfl, rfl, hwf, le_rfl, [], fun _ => rfl, .done _ _⟩
  · rw [if_neg hnil] at h
    have hchars := p.buffer.map_fst_cells
    by_cases hpre : p.pendingAfter <+: p.buffer.text
    · rw [if_pos ( isPrefixOf_iff_prefix.mpr hpre)] at h
      obtain rfl := Option.some.inj h
      refine ⟨rfl, rfl, rfl, hwf.drainPrefix, by simp [DecodedText.drainPrefix],
        [.framing (p.buffer.cells.take p.pendingAfter.length)], fun _ => rfl, ?_⟩
      rw [DecodedText.cells_drainPrefix_snd]
      refine .single ?_
      rw [step_of_pending hnil, readFraming, hchars, if_pos hpre]
      rfl
    · rw [if_neg (mt isPrefixOf_iff_prefix.mp hpre)] at h
      split_ifs at h with hwait
      obtain rfl := Option.some.inj h
      refine ⟨rfl, rfl, rfl, hwf, le_rfl, [], fun _ => rfl, ?_⟩
      have hmove : p.config.step (!finishing) p.state p.buffer.cells =
          .advance 0 [] (p.currentInReasoning, []) := by
        simp only [Bool.and_eq_true, isPrefixOf_iff_prefix] at hwait
        rw [step_of_pending hnil, readFraming, hchars, if_neg hpre, if_neg hwait]
      exact .single hmove

private theorem input_wellFormed (finishing : Bool) (hwf : p.buffer.WellFormed) :
    (p.input finishing).WellFormed := by
  cases finishing
  · exact MarkerStream.attributed_wellFormed hwf
  · have h := MarkerStream.attributed_wellFormed hwf
    exact ⟨h.sorted, h.visible_lt, h.plain⟩

private theorem input_cells : (p.input finishing).cells = p.buffer.cells := by
  cases finishing
  · exact MarkerStream.cells_attributed
  · exact MarkerStream.cells_attributed

private theorem input_isPartial : (p.input finishing).isPartial = !finishing := by
  cases finishing <;> rfl

private theorem input_remaining : (p.input finishing).remaining = p.buffer.text := by
  cases finishing <;> rfl

/-- Moves made before a call are part of what the call made of the buffer. -/
private theorem Drives.of_advances {delta delta' : ReasoningDelta} {segs segs' : List Segment}
    {result : DelimitedReasoningParser × ReasoningDelta}
    (hadv : Advances (p.config.step (!finishing)) p.state p.buffer.cells segs q.state
      q.buffer.cells) (hconfig : q.config = p.config)
    (htext : ∀ r, delta'.text r = delta.text r ++ bodyText r segs)
    (h : Drives finishing q delta' result segs') :
    Drives finishing p delta result (segs ++ segs') where
  ends := ⟨hadv.trans (hconfig ▸ h.ends.1), hconfig ▸ h.ends.2⟩
  config := h.config.trans hconfig
  wellFormed := h.wellFormed
  text r := by rw [h.text, htext, bodyText_append, append_assoc]

private theorem step_of_not_pending (isPartial : Bool) (buf : List Cell) (h : p.pendingAfter = []) :
    p.config.step isPartial p.state buf = p.config.readBody isPartial p.currentInReasoning buf :=
  if_pos h

private theorem passBody_text (delta : ReasoningDelta) (len : ℕ) (r : Bool) :
    (p.passBody delta len).2.text r =
      delta.text r ++ if r = p.currentInReasoning then p.buffer.text.take len else [] :=
  ReasoningDelta.text_pushBody

private theorem passBody_zero_text (delta : ReasoningDelta) (r : Bool) :
    (p.passBody delta 0).2.text r = delta.text r := by
  rw [passBody_text, take_zero, ite_self, append_nil]

private theorem passBody_cells (delta : ReasoningDelta) (len : ℕ) :
    (p.passBody delta len).1.buffer.cells = p.buffer.cells.drop len :=
  DecodedText.cells_drainPrefix_snd

section

variable [Winnow] [LawfulWinnow]

/-- Two alternatives are the markers tried in order. -/
private theorem alt_parseNext (m m' : Marker) : Winnow.alt m.parseNext m'.parseNext = probeMarkers [m, m'] := by
  funext s
  rw [LawfulWinnow.alt_eq, orElse, probeMarkers, probeMarkers, probeMarkers]
  cases m.parseNext s with
  | backtrack => cases m'.parseNext s <;> rfl
  | _ => rfl

private theorem probe_eq (finishing : Bool) (hwf : p.buffer.WellFormed) :
    probeMarkers (p.config.markers p.currentInReasoning) (p.input finishing) =
      verdicts (p.config.markers p.currentInReasoning) (!finishing) p.buffer.cells := by
  rw [probeMarkers_eq p.config.wellFormed_of_mem (input_wellFormed _ hwf), input_cells,
    input_isPartial]

end

/-- A round that only waits. -/
theorem Drives.stop (hwf : p.buffer.WellFormed) {delta : ReasoningDelta}
    (hwait : p.config.step (!finishing) p.state p.buffer.cells = .wait) :
    Drives finishing p delta (p.passBody delta 0) [] where
  ends := by
    rw [passBody_cells]
    exact ⟨.done _ _, hwait⟩
  config := rfl
  wellFormed := hwf.drainPrefix
  text r := by rw [passBody_zero_text]; simp [bodyText]

/-- A round after which another follows: it makes moves of the machine, and consumes. -/
structure Rounds (finishing : Bool) (p : DelimitedReasoningParser) (delta : ReasoningDelta)
    (result : DelimitedReasoningParser × ReasoningDelta) (segs : List Segment) : Prop where
  advances : Advances (p.config.step (!finishing)) p.state p.buffer.cells segs result.1.state
    result.1.buffer.cells
  config : result.1.config = p.config
  wellFormed : result.1.buffer.WellFormed
  text : ∀ r, result.2.text r = delta.text r ++ bodyText r segs
  consumes : result.1.buffer.text.length < p.buffer.text.length

/-- The parser after a delimiter of `len` characters. -/
def cross (p : DelimitedReasoningParser) (len : ℕ) : DelimitedReasoningParser :=
  { p with
    buffer := (p.buffer.drainPrefix len).2
    currentInReasoning := !p.currentInReasoning
    pendingAfter := p.config.after (!p.currentInReasoning) }

section Round

variable [Winnow] [LawfulWinnow] {delta : ReasoningDelta}

private theorem round_ok {u : Unit} {n : ℕ}
    (h : probeMarkers (p.config.markers p.currentInReasoning) (p.input finishing) = .ok u n) :
    p.round finishing delta = (((p.passBody delta 0).1.cross n, (p.passBody delta 0).2), true) := by
  rw [markers] at h
  simp only [round, alt_parseNext, h]
  rfl

private theorem round_backtrack
    (h : probeMarkers (p.config.markers p.currentInReasoning) (p.input finishing) = .backtrack) :
    p.round finishing delta =
      match safeTextLenMul (p.input finishing) (p.config.markers p.currentInReasoning) with
      | .ok n _ => (p.passBody delta n, true)
      | _ => (p.passBody delta 0, false) := by
  rw [markers] at h ⊢
  simp only [round, alt_parseNext, h]
  cases safeTextLenMul (p.input finishing) [p.config.framedMarker p.currentInReasoning,
    p.config.marker p.currentInReasoning] <;> rfl

end Round

/-- A delimiter that is read takes at least one character. -/
private theorem verdicts_ok_pos {r : Bool} {isPartial : Bool} {cells : List Cell} {u : Unit} {n : ℕ}
    (h : verdicts (p.config.markers r) isPartial cells = .ok u n) : 0 < n ∧ n ≤ cells.length := by
  obtain ⟨m, hm, hfit, rfl⟩ := exists_of_verdicts_ok h
  have hle := (fit_eq_fits_iff.mp hfit).2
  rw [length_pattern] at hle
  exact ⟨length_pos_of_ne_nil (p.config.text_ne_nil hm), hle⟩

private theorem round_spec [Winnow] [LawfulWinnow] (finishing : Bool) (hwf : p.buffer.WellFormed) (hnil : p.pendingAfter = [])
    (delta : ReasoningDelta) : ∃ segs, if (p.round finishing delta).2 then
        Rounds finishing p delta (p.round finishing delta).1 segs
      else Drives finishing p delta (p.round finishing delta).1 segs := by
  have hstep := step_of_not_pending (!finishing) p.buffer.cells hnil
  have hprobe := probe_eq finishing hwf
  have hlen := p.buffer.length_cells
  cases hv : verdicts (p.config.markers p.currentInReasoning) (!finishing) p.buffer.cells with
  | ok u n =>
    rw [hv] at hprobe
    rw [readBody_ok hv] at hstep
    rw [round_ok hprobe]
    obtain ⟨hpos, hle⟩ := verdicts_ok_pos hv
    have hcells : ((p.passBody delta 0).1.cross n).buffer.cells = p.buffer.cells.drop n := by
      rw [cross, DecodedText.cells_drainPrefix_snd, passBody_cells, drop_zero]
    refine ⟨[.delimiter (p.buffer.cells.take n)], ?_, rfl, hwf.drainPrefix.drainPrefix,
      fun r => ?_, ?_⟩
    · rw [hcells]
      exact .single hstep
    · rw [passBody_zero_text]
      simp [bodyText]
    · rw [← DecodedText.length_cells, hcells, length_drop]
      omega
  | incomplete =>
    rw [hv] at hprobe
    rw [readBody_incomplete hv] at hstep
    rw [markers] at hprobe
    simp only [round, alt_parseNext, hprobe]
    exact ⟨[], .stop hwf hstep⟩
  | cut => exact absurd hv verdicts_ne_cut
  | backtrack =>
    rw [hv] at hprobe
    have hsafe := safeTextLenMul_eq (input_wellFormed finishing hwf)
      (p.config.watched p.currentInReasoning)
    rw [input_remaining, input_cells, input_isPartial] at hsafe
    rw [round_backtrack hprobe, hsafe]
    cases htext : p.buffer.text with
    | nil =>
      have hcells : p.buffer.cells = [] := length_eq_zero_iff.mp (by rw [hlen, htext]; rfl)
      refine ⟨[], .stop hwf ?_⟩
      rw [hstep, hcells]
      exact readBody_nil
    | cons c cs =>
      -- the first cell is rejected, so the run of body text is not empty
      have hpos : ¬ rejectedLen (verdicts (p.config.markers p.currentInReasoning) (!finishing))
          p.buffer.cells = 0 := by
        obtain ⟨d, ds, hds⟩ := exists_cons_of_length_pos
          (show 0 < p.buffer.cells.length by rw [hlen, htext]; exact Nat.succ_pos _)
        rw [hds] at hv ⊢
        rw [rejectedLen, if_pos hv]
        exact Nat.succ_ne_zero _
      rw [if_neg (by simp), if_neg hpos]
      set n := rejectedLen (verdicts (p.config.markers p.currentInReasoning) (!finishing))
        p.buffer.cells with hn
      have hadv := p.config.advances_rejected _ hn.le
      have hstate : p.state = (p.currentInReasoning, []) := by rw [state, hnil]
      refine ⟨(p.buffer.cells.take n).map (.body p.currentInReasoning), ?_, rfl,
        hwf.drainPrefix, fun r => ?_, ?_⟩
      · rw [passBody_cells]
        rw [show (p.passBody delta n).1.state = p.state from rfl, hstate]
        exact hadv
      · rw [passBody_text, bodyText_bodies, map_take, p.buffer.map_fst_cells]
      · rw [← DecodedText.length_cells, passBody_cells, length_drop, hlen, htext, length_cons]
        omega

/-- **The loop drives the machine** until it waits, when there is fuel for every character. -/
theorem parseLoop_drives [Winnow] [LawfulWinnow] (fuel : ℕ) (hwf : p.buffer.WellFormed)
    (hfuel : p.buffer.text.length < fuel) (delta : ReasoningDelta) :
    ∃ segs, Drives finishing p delta (parseLoop finishing fuel p delta) segs := by
  induction fuel generalizing p delta with
  | zero => exact absurd hfuel (Nat.not_lt_zero _)
  | succ fuel ih =>
    rw [parseLoop]
    cases hpending : p.takePending finishing with
    | none =>
      exact ⟨[], ⟨.done _ _, takePending_eq_none hpending⟩, rfl, hwf, fun r => (append_nil _).symm⟩
    | some q =>
      obtain ⟨hnil, hconfig, -, hqwf, hqlen, segs0, htext0, hadv0⟩ :=
        takePending_eq_some hwf hpending
      have hframing : ∀ r, delta.text r = delta.text r ++ bodyText r segs0 := fun r => by
        rw [htext0, append_nil]
      obtain ⟨segs, hround⟩ := round_spec finishing hqwf hnil delta
      dsimp only
      split_ifs at hround ⊢ with hagain
      · obtain ⟨segs', hrest⟩ := ih hround.wellFormed
          (hround.consumes.trans_le (hqlen.trans (Nat.lt_succ_iff.mp hfuel))) _
        exact ⟨_, .of_advances hadv0 hconfig hframing
          (.of_advances hround.advances hround.config hround.text hrest)⟩
      · exact ⟨_, .of_advances hadv0 hconfig hframing hround⟩

end DelimitedReasoningParser

end Sonar.Parser
