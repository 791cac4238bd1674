import Sonar.Parser.Marker
import Sonar.Parser.ToolOutput

/-!
# The parser of marked JSON tool calls

A tool call is a JSON object between two markers, with the name of the function first and the
arguments, an object, last. The parser reads text up to a start marker, then the header of the
object, then the arguments, which it passes on as they come, and then what closes the call.

The arguments are scanned for their end only: braces, brackets, strings and escapes. What a string
literal stands for is decided by a JSON library, which is the parameter `decode` here.
-/

namespace Sonar.Parser

open Lib hiding literal
open Winnow (alt literal seq)
open Winnow renaming multispace0 → ws0

/-! ### JSON literals -/

/-- The phase of a scan. -/
inductive JsonObjectScanPhase where
  | initial
  | scanning
  | complete
deriving DecidableEq, Repr

/-- Streaming lexical state for a top-level JSON object. -/
structure JsonObjectScanState where
  objectDepth : ℕ := 0
  arrayDepth : ℕ := 0
  inString : Bool := false
  escape : Bool := false
  phase : JsonObjectScanPhase := .initial
deriving DecidableEq, Repr

namespace JsonObjectScanState

/-- `complete`: the top-level object has closed. -/
def complete (s : JsonObjectScanState) : Bool := s.phase = .complete

/-- One character inside the object; `none` where brackets or braces do not balance. -/
def scanChar (s : JsonObjectScanState) (c : Char) : Option JsonObjectScanState :=
  if s.inString then
    if s.escape then some { s with escape := false }
    else if c = '\\' then some { s with escape := true }
    else if c = '"' then some { s with inString := false }
    else some s
  else if c = '"' then some { s with inString := true }
  else if c = '\x7b' then some { s with objectDepth := s.objectDepth + 1 }
  else if c = '\x7d' then
    if s.objectDepth = 0 then none
    else
      let s := { s with objectDepth := s.objectDepth - 1 }
      if s.objectDepth = 0 ∧ s.arrayDepth = 0 then some { s with phase := .complete }
      else if s.objectDepth = 0 then none
      else some s
  else if c = '[' then some { s with arrayDepth := s.arrayDepth + 1 }
  else if c = ']' then
    if s.arrayDepth = 0 then none else some { s with arrayDepth := s.arrayDepth - 1 }
  else some s

/-- The loop of `take_json_object`: up to the end of the object, or all there is. -/
def scanChars (s : JsonObjectScanState) : List Char → Outcome JsonObjectScanState
  | [] => .ok s 0
  | c :: cs =>
    match s.scanChar c with
    | none => .cut
    | some s => if s.complete then .ok s 1 else (s.scanChars cs).after 1

end JsonObjectScanState

/-- `take_json_object`: the state after the scan, and how much is safe to emit. -/
def takeJsonObject (s : JsonObjectScanState) (text : List Char) : Outcome JsonObjectScanState :=
  match text with
  | [] => .incomplete
  | c :: cs =>
    match s.phase with
    | .complete => .cut
    | .initial =>
      if c ≠ '\x7b' then .cut
      else (({ s with phase := .scanning, objectDepth := 1 } :
        JsonObjectScanState).scanChars cs).after 1
    | .scanning => s.scanChars (c :: cs)

/-- Characters up to the quote that ends a string, from inside it. -/
def stringLen : Bool → List Char → Option ℕ
  | _, [] => none
  | true, _ :: cs => (stringLen false cs).map (· + 1)
  | false, c :: cs =>
    if c = '\\' then (stringLen true cs).map (· + 1)
    else if c = '"' then some 1
    else (stringLen false cs).map (· + 1)

/-- `take_json_string`, from the default state. -/
def takeJsonString (text : List Char) : Outcome ℕ :=
  match text with
  | [] => .incomplete
  | c :: cs =>
    if c ≠ '"' then .cut
    else match stringLen false cs with
      | some len => .ok (len + 1) (len + 1)
      | none => .incomplete

/-! ### Configuration -/

/-- Whitespace inside the markers of a tool call. -/
inductive JsonToolCallWhitespace where
  | optional
  | exact (whitespace : List Char)
deriving DecidableEq, Repr

/-- The markers and keys of one format. -/
structure JsonToolCallConfig where
  parserName : String
  startMarker : List Char
  framedStartMarker : Option (List Char)
  endMarker : List Char
  markerWhitespace : JsonToolCallWhitespace
  delimiter : Option (List Char)
  nameKey : List Char
  argumentsKey : List (List Char)
deriving DecidableEq, Repr

/-- What the parser expects next. -/
inductive JsonToolCallMode where
  | text
  | header
  | arguments (jsonScan : JsonObjectScanState)
deriving DecidableEq, Repr

/-- One parsed event. -/
inductive JsonToolCallEvent where
  | text (len : ℕ)
  | toolCallStart
  | toolCallHeader (functionName : List Char)
  | arguments (len : ℕ)
  | toolCallDelimiter
  | toolCallEnd
deriving DecidableEq, Repr

/-! ### Events -/

section Events

variable [Winnow] (decode : List Char → Option (List Char)) (config : JsonToolCallConfig) (buf : List Char)

/-- `json_str`: a string literal and what it stands for. -/
def jsonStr : Outcome (List Char) :=
  match takeJsonString buf with
  | .ok len _ =>
    match decode (buf.take len) with
    | some value => .ok value len
    | none => .cut
  | .backtrack => .backtrack
  | .cut => .cut
  | .incomplete => .incomplete

/-- A quoted key. -/
def jsonKey (key : List Char) : List Char → Outcome Unit :=
  seq [literal ['"'], literal key, literal ['"']]

/-- A quoted key that is one of the candidates. -/
def jsonArgumentsKey (candidates : List (List Char)) (buf : List Char) : Outcome Unit :=
  match jsonStr decode buf with
  | .ok key len => if key ∈ candidates then .ok () len else .backtrack
  | .backtrack => .backtrack
  | .cut => .cut
  | .incomplete => .incomplete

/-- The whitespace inside a marker. -/
def markerWhitespace : List Char → Outcome Unit :=
  match config.markerWhitespace with
  | .optional => ws0
  | .exact whitespace => literal whitespace

/-- The start marker, framed or bare. -/
def startMarker : List Char → Outcome Unit :=
  match config.framedStartMarker with
  | some marker => alt (literal marker) (literal config.startMarker)
  | none => literal config.startMarker

/-- A start marker and its whitespace. -/
def toolCallStartEvent : Outcome JsonToolCallEvent :=
  (seq [startMarker config, markerWhitespace config] buf).map fun _ => .toolCallStart

/-- A marker with the whitespace that has to follow it. -/
def withWhitespace (marker : List Char) : List Char :=
  match config.markerWhitespace with
  | .optional => marker
  | .exact whitespace => marker ++ whitespace

/-- The markers at which text stops. -/
def textMarkers : List Marker :=
  match config.framedStartMarker with
  | some marker => [.ofText (withWhitespace config marker),
      .ofText (withWhitespace config config.startMarker)]
  | none => [.ofText (withWhitespace config config.startMarker)]

/-- The text before the next start marker. -/
def safeTextEvent : Outcome JsonToolCallEvent :=
  (safeTextLenMul (.ofText buf) (textMarkers config)).map .text

/-- A start marker, or text before one. -/
def parseTextEvent : List Char → Outcome JsonToolCallEvent :=
  alt (toolCallStartEvent config) (safeTextEvent config)

/-- The object up to its arguments, with the name of the function. -/
def toolCallHeaderEvent : List Char → Outcome JsonToolCallEvent :=
  andThen (seq [ws0, literal ['\x7b'], ws0, jsonKey config.nameKey, ws0, literal [':'], ws0])
    fun _ => andThen (jsonStr decode) fun functionName buf =>
      (seq [ws0, literal [','], ws0, jsonArgumentsKey decode config.argumentsKey, ws0,
        literal [':'], ws0] buf).map fun _ => .toolCallHeader functionName

/-- Whitespace and the end marker. -/
def toolCallEndEvent : Outcome JsonToolCallEvent :=
  (seq [markerWhitespace config, literal config.endMarker] buf).map fun _ => .toolCallEnd

/-- The delimiter between two calls, with whitespace around it. -/
def toolCallDelimiterEvent (delimiter buf : List Char) : Outcome JsonToolCallEvent :=
  (seq [ws0, literal delimiter, ws0] buf).map fun _ => .toolCallDelimiter

/-- The brace that ends the object, and the end of the call. -/
def toolCallCloseEvent : List Char → Outcome JsonToolCallEvent :=
  andThen (seq [ws0, literal ['\x7d']]) fun _ =>
    match config.delimiter with
    | some delimiter => alt (toolCallEndEvent config) (toolCallDelimiterEvent delimiter)
    | none => toolCallEndEvent config

/-- `argument_delta_event`: the event, and the mode with the scan after it. -/
def argumentDeltaEvent (jsonScan : JsonObjectScanState) (buf : List Char) :
    Outcome (JsonToolCallEvent × JsonToolCallMode) :=
  match takeJsonObject jsonScan buf with
  | .ok jsonScan len => .ok (.arguments len, .arguments jsonScan) len
  | .backtrack => .backtrack
  | .cut => .cut
  | .incomplete => .incomplete

/-- `parse_next_json_tool_call_event`: the event, and the mode the parse leaves. -/
def parseNextJsonToolCallEvent (mode : JsonToolCallMode) (buf : List Char) :
    Outcome (JsonToolCallEvent × JsonToolCallMode) :=
  match mode with
  | .text => (parseTextEvent config buf).map (·, mode)
  | .header => (toolCallHeaderEvent decode config buf).map (·, mode)
  | .arguments jsonScan =>
    -- `parse_arguments_event`
    if jsonScan.complete then (toolCallCloseEvent config buf).map (·, mode)
    else argumentDeltaEvent jsonScan buf

end Events

/-! ### The parser -/

/-- Why a call failed. What the combinators say about the place is left out. -/
inductive ToolParserError where
  /-- Wrong input, which begins so. -/
  | near (snippet : List Char)
  | incompleteToolCall (parserName : String)
  | argumentsWithoutActiveToolCall (parserName : String)
deriving DecidableEq, Repr

/-- `parse_buffered_event`: an event and its length, or `none` before enough is there. -/
def parseBufferedEvent {α : Type*} (buffer : List Char) (parse : List Char → Outcome α) :
    Except ToolParserError (Option (α × ℕ)) :=
  match parse buffer with
  | .ok event consumedLen => .ok (if consumedLen = 0 then none else some (event, consumedLen))
  | .incomplete => .ok none
  | .backtrack => .error (.near (buffer.take 80))
  | .cut => .error (.near (buffer.take 80))

/-- The parser's state. -/
structure JsonToolCallParser where
  config : JsonToolCallConfig
  buffer : List Char := []
  mode : JsonToolCallMode := .text
  activeToolIndex : Option ℕ := none
  emittedToolCount : ℕ := 0
deriving DecidableEq, Repr

namespace JsonToolCallParser

variable [Winnow] (decode : List Char → Option (List Char))

/-- `reset`: the parser as it was made, and the text it held. -/
def reset (p : JsonToolCallParser) : JsonToolCallParser × List Char :=
  ({ config := p.config }, p.buffer)

/-- What an event does to the parser and the output. -/
def applyEvent (p : JsonToolCallParser) (event : JsonToolCallEvent) (output : ToolParserOutput) :
    Except ToolParserError (JsonToolCallParser × ToolParserOutput) :=
  match event with
  | .text len => .ok (p, output.pushText (p.buffer.take len))
  | .toolCallStart => .ok ({ p with mode := .header }, output)
  | .toolCallHeader functionName =>
    .ok ({ p with
        emittedToolCount := p.emittedToolCount + 1
        activeToolIndex := some p.emittedToolCount
        mode := .arguments {} }, output.pushCall ⟨p.emittedToolCount, some functionName, []⟩)
  | .arguments len =>
    match p.activeToolIndex with
    | none => .error (.argumentsWithoutActiveToolCall p.config.parserName)
    | some toolIndex => .ok (p, output.pushCall ⟨toolIndex, none, p.buffer.take len⟩)
  | .toolCallDelimiter => .ok ({ p with activeToolIndex := none, mode := .header }, output)
  | .toolCallEnd => .ok ({ p with activeToolIndex := none, mode := .text }, output)

/-- The loop of `parse_into`. On failure the parser and the output are as the events before left
them. Every event consumes text, which bounds `fuel`. -/
def parseLoop : ℕ → JsonToolCallParser → ToolParserOutput →
    (JsonToolCallParser × ToolParserOutput) × Except ToolParserError Unit
  | 0, p, output => ((p, output), .ok ())
  | fuel + 1, p, output =>
    match parseBufferedEvent p.buffer (parseNextJsonToolCallEvent decode p.config p.mode) with
    | .error e => ((p, output), .error e)
    | .ok none => ((p, output), .ok ())
    | .ok (some ((event, mode), consumedLen)) =>
      match { p with mode }.applyEvent event output with
      | .error e => (({ p with mode }, output), .error e)
      | .ok (p, output) => parseLoop fuel { p with buffer := p.buffer.drop consumedLen } output

/-- `parse_into`: one chunk of the output. -/
def parseInto (p : JsonToolCallParser) (chunk : DecodedText) (output : ToolParserOutput) :
    (JsonToolCallParser × ToolParserOutput) × Except ToolParserError Unit :=
  let p := { p with buffer := p.buffer ++ chunk.text }
  parseLoop decode (p.buffer.length + 1) p output

/-- `finish`: text that was held back is passed on, and an open call is an error. -/
def finish (p : JsonToolCallParser) :
    Except ToolParserError (JsonToolCallParser × ToolParserOutput) :=
  match p.mode with
  | .text => .ok (p.reset.1, ({} : ToolParserOutput).pushText p.buffer)
  | .header => .error (.incompleteToolCall p.config.parserName)
  | .arguments _ => .error (.incompleteToolCall p.config.parserName)

/-- A whole output given in chunks, then `finish`; it ends at the first error. -/
def parseChunks (p : JsonToolCallParser) (output : ToolParserOutput) :
    List DecodedText → Except ToolParserError ToolParserOutput
  | [] => do
    let (_, last) ← p.finish
    return output.append last
  | chunk :: chunks =>
    match p.parseInto decode chunk output with
    | ((p, output), .ok ()) => p.parseChunks output chunks
    | (_, .error e) => .error e

end JsonToolCallParser

end Sonar.Parser
