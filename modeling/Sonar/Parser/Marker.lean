import Sonar.Parser.DecodedText
import Sonar.Parser.Winnow

/-!
# Markers, guarded by token identity

A marker is a fixed text some segments of which are **guarded**: they match only where the one
expected special token produced them. The same spelling written by ordinary tokens is body text.
Parsers use a marker twice, to consume it and to find out how much text may be passed on before
one can begin; `scanMarkers` decides each candidate with the marker's own parser, so that the two
uses cannot disagree.

`MarkerStream` is the input of both kinds of parser: attributed text, whose cursor knows its offset
in the buffer, and plain text, which has no anchors and reports offset zero. `isPartial` is false
once no more input will arrive. Offsets count characters.
-/

namespace Sonar.Parser

open Lib
open Text (TokenId)

/-- A special token's spelling and its id. -/
structure SpecialToken where
  text : List Char
  id : TokenId
deriving DecidableEq, Repr

/-- One special-token segment of a marker. -/
structure Guard where
  start : ℕ
  stop : ℕ
  tokenId : TokenId
deriving DecidableEq, Repr

/-- A fixed text with guarded segments. -/
structure Marker where
  text : List Char
  guards : List Guard := []
deriving DecidableEq, Repr

namespace Marker

/-- `Marker::text`: matched by spelling alone. -/
def ofText (text : List Char) : Marker := ⟨text, []⟩

/-- The marker followed by a special token. -/
def thenSpecial (m : Marker) (token : SpecialToken) : Marker where
  text := m.text ++ token.text
  guards := m.guards ++ [⟨m.text.length, m.text.length + token.text.length, token.id⟩]

/-- The marker that is one special token. -/
def special (token : SpecialToken) : Marker := (ofText []).thenSpecial token

/-- `first_token_id`: the special token the marker begins with, if it begins with one. -/
def firstTokenId (m : Marker) : Option TokenId :=
  (m.guards.head?.filter fun guard => guard.start = 0).map Guard.tokenId

end Marker

/-- The input of a parser that watches for markers. -/
structure MarkerStream where
  remaining : List Char
  offset : ℕ
  anchors : List TokenAttribution
  located : Bool
  isPartial : Bool := true
deriving DecidableEq, Repr

namespace MarkerStream

/-- `attributed_with_markers`. -/
def attributed (d : DecodedText) : MarkerStream where
  remaining := d.text
  offset := 0
  anchors := d.attributions
  located := true

/-- A text-only input. -/
def ofText (text : List Char) : MarkerStream where
  remaining := text
  offset := 0
  anchors := []
  located := false

/-- No more input will arrive. -/
def complete (s : MarkerStream) : MarkerStream := { s with isPartial := false }

/-- The cursor moved by `n`. -/
def nextSlice (s : MarkerStream) (n : ℕ) : MarkerStream :=
  { s with
    remaining := s.remaining.drop n
    offset := if s.located then s.offset + n else s.offset }

/-- The length of what is left. -/
def eofOffset (s : MarkerStream) : ℕ := s.remaining.length

end MarkerStream

/-- The visible anchor of an attribution, with the token's id. -/
def TokenAttribution.visible? (a : TokenAttribution) : Option (ℕ × TokenId) :=
  match a.anchor with
  | .visible offset => some (offset, a.tokenId)
  | .zeroWidth _ => none

/-- `visible_in`; `none` for a range without an end. -/
def visibleIn (anchors : List TokenAttribution) (start : ℕ) (stop : Option ℕ) :
    List (ℕ × TokenId) :=
  ((anchors.dropWhile fun a => a.anchor.offset < start).takeWhile fun a =>
    stop.all fun stop => a.anchor.offset < stop).filterMap TokenAttribution.visible?

/-- `is_single_token`: the range is the visible span of the one token `tokenId`. -/
def isSingleToken (anchors : List TokenAttribution) (start stop : ℕ) (tokenId : TokenId) : Bool :=
  match visibleIn anchors start (some stop) with
  | [] => false
  | first :: rest => first = (start, tokenId) && rest.isEmpty

variable [Winnow]

/-- The literal of a marker at the cursor; `none` of it is undecided on complete input. -/
def literalAt (s : MarkerStream) (text : List Char) : Outcome Unit :=
  if s.isPartial then Winnow.literal text s.remaining
  else (Winnow.literal text s.remaining).complete

/-- `MarkerRef::parse_next`: guards whose first character is there are checked first. -/
def Marker.parseNext (m : Marker) (s : MarkerStream) : Outcome Unit :=
  if (m.guards.takeWhile fun guard => guard.start < s.eofOffset).all fun guard =>
      isSingleToken s.anchors (s.offset + guard.start) (s.offset + guard.stop) guard.tokenId then
    literalAt s m.text
  else .backtrack

/-! ### Candidates -/

/-- The first occurrence of `needle`. -/
def findText (text needle : List Char) : Option ℕ :=
  (List.range (text.length + 1)).find? fun i => needle.isPrefixOf (text.drop i)

/-- `find_earliest`: the first occurrence of any spelling. -/
def findEarliest (text : List Char) (spellings : List (List Char)) : Option ℕ :=
  (spellings.filterMap (findText text)).min?

/-- `partial_prefix_len`: the length of the longest proper prefix of `token` that ends `buffer`. -/
def partialPrefixLen (buffer token : List Char) : ℕ :=
  let maxLen := min buffer.length (token.length - 1)
  let tailStart := buffer.length - maxLen
  match (List.range' tailStart maxLen).find? fun index =>
      decide (buffer.drop index = token.take (buffer.length - index)) with
  | some index => buffer.length - index
  | none => 0

/-- Where a spelling begins in the text, or a part of one that ends it. -/
def textCandidate (text : List Char) (spellings : List (List Char)) (start : ℕ) : Option ℕ :=
  let start := min start text.length
  let tail := text.drop start
  if tail.isEmpty then none
  else match findEarliest tail spellings with
    | some i => some (start + i)
    | none =>
      let keepLen := (spellings.map (partialPrefixLen tail)).max?.getD 0
      if keepLen > 0 then some (text.length - keepLen) else none

namespace MarkerStream

/-- Where a marker that begins with a special token may begin: at a visible anchor of the token. -/
def anchoredCandidate (s : MarkerStream) (markers : List Marker) (start : ℕ) : Option ℕ :=
  if markers.any fun m => m.firstTokenId.isSome then
    ((visibleIn s.anchors start none).find? fun a =>
      markers.any fun m => m.firstTokenId = some a.2).map Prod.fst
  else none

/-- Where any other marker may begin: at its spelling, or at a part of it that ends the input. -/
def spelledCandidate (s : MarkerStream) (markers : List Marker) (start : ℕ) : Option ℕ :=
  (textCandidate s.remaining ((markers.filter fun m => m.firstTokenId.isNone).map Marker.text)
    (start - s.offset)).map fun i => s.offset + i

/-- The earlier of two candidates. -/
def earlier : Option ℕ → Option ℕ → Option ℕ
  | some a, some b => some (min a b)
  | some a, none => some a
  | none, b => b

/-- `next_candidate`: the earliest offset at or after `start` where one of the markers may
begin. -/
def nextCandidate (s : MarkerStream) (markers : List Marker) (start : ℕ) : Option ℕ :=
  let start := max start s.offset
  earlier (s.anchoredCandidate markers start) (s.spelledCandidate markers start)

end MarkerStream

/-! ### Scanning -/

/-- Where the next marker may be. -/
inductive Scan where
  | found (offset : ℕ)
  | pending (offset : ℕ)
  | clear (offset : ℕ)
deriving DecidableEq, Repr

/-- The markers tried at the cursor, in order. -/
def probeMarkers (markers : List Marker) (s : MarkerStream) : Outcome Unit :=
  match markers with
  | [] => .backtrack
  | m :: markers =>
    match m.parseNext s with
    | .backtrack => probeMarkers markers s
    | r => r

/-- The loop of `scan_markers`. `fuel` bounds the number of candidates tried. -/
def scanLoop (s : MarkerStream) (markers : List Marker) : ℕ → ℕ → Outcome Scan
  | 0, _ => .ok (.clear (s.offset + s.eofOffset)) 0
  | fuel + 1, start =>
    match s.nextCandidate markers start with
    | none => .ok (.clear (s.offset + s.eofOffset)) 0
    | some candidate =>
      match probeMarkers markers (s.nextSlice (candidate - s.offset)) with
      | .ok _ _ => .ok (.found candidate) 0
      | .incomplete => .ok (.pending candidate) 0
      | .cut => .cut
      | .backtrack => scanLoop s markers fuel (candidate + 1)

/-- Where the next marker from `start` on is, or may be. -/
def scanMarkers (s : MarkerStream) (markers : List Marker) (start : ℕ) : Outcome Scan :=
  scanLoop s markers (s.eofOffset + 1) (max start s.offset)

/-- `safe_text_len_mul`: the text before the earliest next marker. -/
def safeTextLenMul (s : MarkerStream) (markers : List Marker) : Outcome ℕ :=
  if s.eofOffset = 0 then .incomplete
  else
    let decide (stop : ℕ) (found : Bool) : Outcome ℕ :=
      let emitLen := stop - s.offset
      if emitLen = 0 then if found then .backtrack else .incomplete
      else .ok emitLen emitLen
    match scanMarkers s markers s.offset with
    | .ok (.found offset) _ => decide offset true
    | .ok (.pending offset) _ => decide offset false
    | .ok (.clear offset) _ => decide offset false
    | .cut => .cut
    | .backtrack => .backtrack
    | .incomplete => .incomplete

end Sonar.Parser
