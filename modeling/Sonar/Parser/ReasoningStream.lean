import Sonar.Parser.Delimited

/-!
# What a stream of reasoning is read as

`DelimitedConfig.Reads` says what a whole output, with the tokens that produced it, is read as. A
delimiter is read where its own token produced its text, framed or bare; every other cell is body
text of the current state, apart from the framing that is allowed after a delimiter. Two cells that
look the same are told apart by the token they come from, and nothing else is looked at.

A parser that is given the output in pieces and then finishes makes the moves of its machine over
the whole of it (`DelimitedReasoningParser.stream_ends`). So the pieces leave no trace, in the text
of either kind or in the final state, and what is passed on is what `Reads` says.
-/

namespace Sonar.Parser

open Lib List DecodedText ReasoningDelta Marker

/-- Without more input a marker is there or it is not. -/
private theorem Marker.verdict_complete (m : Marker) (cells : List Cell) : m.verdict false cells =
      if fit m.pattern cells = .fits then .ok () m.text.length else .backtrack := by
  rw [verdict, matching]
  cases fit m.pattern cells <;> simp [Outcome.complete]

/-- What the markers decide on part of the input they decide on all of it. -/
private theorem verdicts_complete {markers : List Marker} {cells : List Cell}
    (h : verdicts markers true cells ≠ .incomplete) :
    verdicts markers false cells = verdicts markers true cells := by
  induction markers with
  | nil => rfl
  | cons m markers ih =>
    rw [verdicts, verdict] at h
    rw [verdicts, verdicts, verdict, verdict]
    cases hm : matching m.pattern cells with
    | ok u n => rfl
    | cut => rfl
    | backtrack =>
      rw [hm] at h
      exact ih h
    | incomplete =>
      rw [hm] at h
      exact absurd rfl h

namespace DelimitedConfig

variable (config : DelimitedConfig)

/-- The cells begin with the text and then with cells that the delimiter's token produced. -/
def BeginsWith (r : Bool) (text : List Char) (cells : List Cell) : Prop :=
  ∃ framing own rest, cells = framing ++ own ++ rest ∧ framing.map Prod.fst = text ∧
    (config.token r).Produced own

/-- How an output is read, from a state and the framing that may come next, to a final state. -/
inductive Reads : Bool → List Char → List Cell → List Segment → Bool → Prop where
  | done (r : Bool) : Reads r [] [] [] r
  /-- The framing allowed after a delimiter is there. -/
  | framing {r r' : Bool} {pending : List Char} {text rest : List Cell} {segs : List Segment} :
    pending ≠ [] → text.map Prod.fst = pending → Reads r [] rest segs r' →
      Reads r pending (text ++ rest) (.framing text :: segs) r'
  /-- The framing is not there. -/
  | noFraming {r r' : Bool} {pending : List Char} {cells : List Cell} {segs : List Segment} :
    ¬ pending <+: cells.map Prod.fst → Reads r [] cells segs r' → Reads r pending cells segs r'
  /-- A delimiter after its framing. -/
  | framed {r r' : Bool} {framing own rest : List Cell} {segs : List Segment} :
    framing.map Prod.fst = config.before r → (config.token r).Produced own →
      Reads (!r) (config.after (!r)) rest segs r' →
      Reads r [] (framing ++ own ++ rest) (.delimiter (framing ++ own) :: segs) r'
  /-- A delimiter without framing. -/
  | bare {r r' : Bool} {own rest : List Cell} {segs : List Segment} :
    ¬ config.BeginsWith r (config.before r) (own ++ rest) → (config.token r).Produced own →
      Reads (!r) (config.after (!r)) rest segs r' →
      Reads r [] (own ++ rest) (.delimiter own :: segs) r'
  /-- Body text: neither a framed nor a bare delimiter begins here. -/
  | body {r r' : Bool} {cell : Cell} {cells : List Cell} {segs : List Segment} :
    ¬ config.BeginsWith r (config.before r) (cell :: cells) →
      ¬ config.BeginsWith r [] (cell :: cells) → Reads r [] cells segs r' →
      Reads r [] (cell :: cells) (.body r cell :: segs) r'

variable {config}

variable {r : Bool} {s t : Bool × List Char} {buf : List Cell} {out segs : List Segment}

private theorem fit_framedMarker_iff {cells : List Cell} :
    fit (config.framedMarker r).pattern cells = .fits ↔
      config.BeginsWith r (config.before r) cells :=
  fit_thenSpecial_iff (config.token_ne_nil r)

private theorem fit_marker_iff {cells : List Cell} :
    fit (config.marker r).pattern cells = .fits ↔ config.BeginsWith r [] cells :=
  fit_thenSpecial_iff (config.token_ne_nil r)

section Complete

variable {r : Bool} {buf : List Cell}

private theorem verdicts_of_framed (h : config.BeginsWith r (config.before r) buf) :
    verdicts (config.markers r) false buf = .ok () (config.framedMarker r).text.length := by
  rw [markers, verdicts, verdict_complete, if_pos (fit_framedMarker_iff.mpr h)]

private theorem verdicts_of_bare (hframed : ¬ config.BeginsWith r (config.before r) buf)
    (h : config.BeginsWith r [] buf) :
    verdicts (config.markers r) false buf = .ok () (config.marker r).text.length := by
  rw [markers, verdicts, verdict_complete, if_neg (mt fit_framedMarker_iff.mp hframed)]
  rw [verdicts, verdict_complete, if_pos (fit_marker_iff.mpr h)]

private theorem verdicts_of_body (hframed : ¬ config.BeginsWith r (config.before r) buf)
    (h : ¬ config.BeginsWith r [] buf) : verdicts (config.markers r) false buf = .backtrack := by
  rw [markers, verdicts, verdict_complete, if_neg (mt fit_framedMarker_iff.mp hframed)]
  rw [verdicts, verdict_complete, if_neg (mt fit_marker_iff.mp h)]
  rfl

end Complete

/-- A move on part of the input is a move on all of it. -/
private theorem step_complete
    (h : config.step true s buf ≠ .wait) : config.step false s buf = config.step true s buf := by
  rw [step] at h
  rw [step, step]
  split_ifs at h ⊢ with hs
  · have hv : verdicts (config.markers s.1) true buf ≠ .incomplete := fun hv =>
      h (readBody_incomplete hv)
    rw [readBody.eq_def, readBody.eq_def, verdicts_complete hv]
  · rw [readFraming] at h
    rw [readFraming, readFraming]
    split_ifs at h ⊢ with hpre <;> simp_all

/-- At the end of the stream the machine stops only when everything is read. -/
private theorem eq_nil_of_step_wait (h : config.step false s buf = .wait) : s.2 = [] ∧ buf = [] := by
  rw [step] at h
  split_ifs at h with hs
  · refine ⟨hs, ?_⟩
    by_contra hne
    obtain ⟨c, cs, rfl⟩ := exists_cons_of_ne_nil hne
    by_cases hframed : config.BeginsWith s.1 (config.before s.1) (c :: cs)
    · rw [readBody_ok (verdicts_of_framed hframed)] at h
      cases h
    · by_cases hbare : config.BeginsWith s.1 [] (c :: cs)
      · rw [readBody_ok (verdicts_of_bare hframed hbare)] at h
        cases h
      · rw [readBody_backtrack (verdicts_of_body hframed hbare)] at h
        cases h
  · rw [readFraming] at h
    split_ifs at h with hpre hwait
    cases hwait.1

private theorem Reads.of_readBody {r' : Bool} {n : ℕ}
    (hstep : config.readBody false r buf = .advance n out t)
    (h : config.Reads t.1 t.2 (buf.drop n) segs r') : config.Reads r [] buf (out ++ segs) r' := by
  by_cases hframed : config.BeginsWith r (config.before r) buf
  · rw [readBody_ok (verdicts_of_framed hframed)] at hstep
    obtain ⟨rfl, rfl, rfl⟩ := Move.advance.inj hstep
    obtain ⟨framing, own, rest, rfl, hframing, hown⟩ := hframed
    have hlen : (config.framedMarker r).text.length = (framing ++ own).length := by
      calc (config.framedMarker r).text.length
          = (config.before r ++ (config.token r).text).length := rfl
        _ = (framing ++ own).length := by
          rw [← hframing, ← hown.1, ← map_append, length_map]
    rw [hlen, drop_left] at h
    rw [hlen, take_left]
    exact .framed hframing hown h
  · by_cases hbare : config.BeginsWith r [] buf
    · rw [readBody_ok (verdicts_of_bare hframed hbare)] at hstep
      obtain ⟨rfl, rfl, rfl⟩ := Move.advance.inj hstep
      obtain ⟨framing, own, rest, rfl, hframing, hown⟩ := hbare
      obtain rfl := map_eq_nil_iff.mp hframing
      have hlen : (config.marker r).text.length = own.length := by
        calc (config.marker r).text.length
            = (config.token r).text.length := rfl
          _ = own.length := by rw [← hown.1, length_map]
      rw [nil_append] at hframed h ⊢
      rw [hlen, drop_left] at h
      rw [hlen, take_left]
      exact .bare hframed hown h
    · cases buf with
      | nil =>
        rw [readBody_nil] at hstep
        cases hstep
      | cons c cs =>
        rw [readBody_backtrack (verdicts_of_body hframed hbare)] at hstep
        obtain ⟨rfl, rfl, rfl⟩ := Move.advance.inj hstep
        exact .body hframed hbare h

/-- A move reads what `Reads` says. -/
private theorem Reads.of_step {n : ℕ} {r' : Bool} (hstep : config.step false s buf = .advance n out t)
    (h : config.Reads t.1 t.2 (buf.drop n) segs r') : config.Reads s.1 s.2 buf (out ++ segs) r' := by
  rw [step] at hstep
  split_ifs at hstep with hs
  · rw [hs]
    exact .of_readBody hstep h
  · rw [readFraming] at hstep
    split_ifs at hstep with hpre hwait
    · obtain ⟨rfl, rfl, rfl⟩ := Move.advance.inj hstep
      have htext : (buf.take s.2.length).map Prod.fst = s.2 := by
        rw [map_take, ← prefix_iff_eq_take.mp hpre]
      have hread := framing hs htext h
      rwa [take_append_drop] at hread
    · obtain ⟨rfl, rfl, rfl⟩ := Move.advance.inj hstep
      exact .noFraming hpre h

/-- **A run of the machine to the end of the stream reads all of it.** -/
theorem Reads.of_runsTo {rest : List Cell}
    (h : RunsTo (config.step false) s buf segs t rest) : config.Reads s.1 s.2 buf segs t.1 := by
  obtain ⟨hadv, hwait⟩ := h
  obtain ⟨hpending, hrest⟩ := eq_nil_of_step_wait hwait
  induction hadv with
  | done s buf =>
    rw [hpending, hrest]
    exact .done _
  | more hstep _ ih => exact .of_step hstep (ih hwait hpending hrest)

end DelimitedConfig

/-- The concatenated text of one kind. -/
def ReasoningDelta.allText (deltas : List ReasoningDelta) (r : Bool) : List Char :=
  (deltas.map fun delta => delta.text r).flatten

namespace DelimitedReasoningParser

/-- Successive pushes, then `finish`: the parser at the end and the deltas on the way. -/
def stream [Winnow] (p : DelimitedReasoningParser) :
    List DecodedText → DelimitedReasoningParser × List ReasoningDelta
  | [] => (p.finish.1, [p.finish.2])
  | piece :: pieces =>
    let (q, delta) := p.push piece
    let (last, deltas) := q.stream pieces
    (last, delta :: deltas)

variable {p : DelimitedReasoningParser}

private theorem text_empty (r : Bool) : text {} r = [] := by
  cases r <;> rfl

/-- **A stream is one run of the machine** over all the text, as it is at the end. -/
theorem stream_runsTo [Winnow] [LawfulWinnow] (pieces : List DecodedText) (hwf : p.buffer.WellFormed)
    (hpieces : ∀ piece ∈ pieces, piece.WellFormed) :
    ∃ segs rest, RunsTo (p.config.step false) p.state
        (p.buffer.cells ++ (pieces.map cells).flatten) segs
        (p.stream pieces).1.state rest ∧
      ∀ r, allText (p.stream pieces).2 r = Segment.bodyText r segs := by
  induction pieces generalizing p with
  | nil =>
    obtain ⟨segs, h⟩ : ∃ segs, Drives true p {} p.finish segs :=
      parseLoop_drives _ hwf (Nat.lt_succ_self _) {}
    refine ⟨segs, p.finish.1.buffer.cells, ?_, fun r => ?_⟩
    · simpa [stream] using h.ends
    · have htext := h.text r
      rw [text_empty] at htext
      simpa [stream, allText] using htext
  | cons piece pieces ih =>
    obtain ⟨hpiece, hrest⟩ := forall_mem_cons.mp hpieces
    obtain ⟨segs, h⟩ : ∃ segs, Drives false { p with buffer := p.buffer.append piece } {}
        (p.push piece) segs := parseLoop_drives _ (hwf.append hpiece) (Nat.lt_succ_self _) {}
    obtain ⟨segs', rest, ⟨hadv', hwait⟩, htext'⟩ := ih h.wellFormed hrest
    rw [show (p.push piece).1.config = p.config from h.config] at hadv' hwait
    -- what was read before the later pieces came is read with them there, and at the end
    have hadv := (h.ends.1.extend p.config.step_settled (pieces.map cells).flatten).mono
      (fun s buf n out t hstep => (DelimitedConfig.step_complete (by simp [hstep])).trans hstep)
    rw [cells_append hwf, append_assoc] at hadv
    refine ⟨segs ++ segs', rest, ⟨hadv.trans hadv', hwait⟩, fun r => ?_⟩
    have htext := h.text r
    rw [text_empty, nil_append] at htext
    rw [Segment.bodyText_append, ← htext, ← htext' r]
    rfl

private theorem foldl_append_cells (pieces : List DecodedText)
    (hpieces : ∀ piece ∈ pieces, piece.WellFormed) {d : DecodedText} (hd : d.WellFormed) :
    (pieces.foldl append d).WellFormed ∧ (pieces.foldl append d).cells =
        d.cells ++ (pieces.map cells).flatten := by
  induction pieces generalizing d with
  | nil => exact ⟨hd, (append_nil _).symm⟩
  | cons piece pieces ih =>
    obtain ⟨hpiece, hrest⟩ := forall_mem_cons.mp hpieces
    obtain ⟨hwf, hcells⟩ := ih hrest (hd.append hpiece)
    refine ⟨hwf, ?_⟩
    rw [foldl_cons, hcells, cells_append hd, append_assoc, map_cons, flatten_cons]

/-- **How the output was cut leaves no trace.** From any state, whatever the pieces a stream gives
the text of both kinds and the final state that one push of the whole output gives; they are those
of reading the output with the tokens that produced it. -/
theorem stream_eq_single_push [Winnow] [LawfulWinnow] (config : DelimitedConfig)
    (inReasoning : Bool) (pendingAfter : List Char) (pieces : List DecodedText)
    (hpieces : ∀ piece ∈ pieces, piece.WellFormed) :
    let p : DelimitedReasoningParser := { config, currentInReasoning := inReasoning, pendingAfter }
    let whole := pieces.foldl DecodedText.append {}
    (∀ r, ReasoningDelta.allText (p.stream pieces).2 r =
        ReasoningDelta.allText (p.stream [whole]).2 r) ∧
      (p.stream pieces).1.currentInReasoning = (p.stream [whole]).1.currentInReasoning ∧
      ∃ segs, config.Reads inReasoning pendingAfter whole.cells segs
          (p.stream pieces).1.currentInReasoning ∧
        ∀ r, ReasoningDelta.allText (p.stream pieces).2 r = Segment.bodyText r segs := by
  intro p whole
  obtain ⟨hwhole, hcells⟩ := foldl_append_cells pieces hpieces .empty
  obtain ⟨segs, rest, hrun, htext⟩ := stream_runsTo (p := p) pieces .empty hpieces
  obtain ⟨segs', rest', hrun', htext'⟩ := stream_runsTo (p := p) [whole] .empty (by simpa using hwhole)
  have hinput : p.buffer.cells ++ (pieces.map cells).flatten = whole.cells := by
    rw [hcells]
  have hinput' : p.buffer.cells ++ ([whole].map cells).flatten = whole.cells := by
    simp [p, cells]
  rw [hinput] at hrun
  rw [hinput'] at hrun'
  obtain ⟨rfl, hstate, -⟩ := hrun.unique hrun'
  exact ⟨fun r => (htext r).trans (htext' r).symm, congrArg Prod.fst hstate, segs,
    .of_runsTo hrun, htext⟩

open Documented

/-- Delimiters with a line break after the first one. -/
def thinkConfig : DelimitedConfig where
  startToken := ⟨['<', 't', '>'], 1⟩
  endToken := ⟨['<', '/', 't', '>'], 2⟩
  afterStart := ['\n']
  startToken_ne_nil := by simp
  endToken_ne_nil := by simp

/-- The start token cut in two, then the end delimiter spelled by an ordinary token. -/
def spelledEnd : List DecodedText :=
  [⟨['<', 't'], [⟨1, .visible 0⟩]⟩,
    ⟨['>', '\n', 'a', '<', '/', 't', '>'], [⟨7, .visible 1⟩, ⟨8, .visible 3⟩]⟩]

/-- The spelled delimiter is body text. -/
theorem stream_eq_single_push_spelledEnd : (∀ piece ∈ spelledEnd, piece.WellFormed) ∧
      ReasoningDelta.allText (stream { config := thinkConfig } spelledEnd).2 true =
        ['a', '<', '/', 't', '>'] := by
  have hwf : ∀ piece ∈ spelledEnd, piece.WellFormed := by
    intro piece hpiece
    rcases mem_pair.mp hpiece with rfl | rfl <;>
      exact ⟨by decide, by simp, by decide⟩
  exact ⟨hwf, ((stream_eq_single_push _ false [] _ hwf).1 true).trans
    (by decide +kernel)⟩

end DelimitedReasoningParser

end Sonar.Parser
