import Mathlib.Data.List.MinMax
import Sonar.Lib.Bisect
import Sonar.Lib.Completion

/-!
# The incremental detokenizer

`BaseIncrementalDetokenizer` appends the text of new tokens and looks for stop strings in it. `update`
takes the tokens of one engine step. When a stop string is found, the text is cut and the tokens after
the one that completed it are dropped. `get_next_output_text` streams the text and holds back what may
still be cut.

A token comes with the text that `decode_next` yields for it. Text is a list of characters, as
Python counts them.
-/

namespace Sonar.Engine

open Lib

/-- A generated token and the text that `decode_next` yields for it. -/
abbrev DecodedToken := ℕ × List Char

/-- `BaseIncrementalDetokenizer`. `promptLen` counts the prompt ids that the slow detokenizer keeps in
`token_ids`; the fast one keeps none. -/
structure Detokenizer where
  stop : List (List Char)
  minTokens : ℕ
  includeStopStrInOutput : Bool
  stopBufferLength : ℤ
  promptLen : ℕ
  lastOutputTextOffset : ℤ := 0
  outputText : List Char := []
  tokenIds : List ℕ
  deriving DecidableEq

/-- `text[:n]`: a negative bound counts from the end. -/
def pySliceTo (text : List Char) (n : ℤ) : List Char :=
  text.take (if n < 0 then n + text.length else n).toNat

/-- `str.find(sub, start)`: a negative start counts from the end, `-1` is `none`. -/
def pyFind (text sub : List Char) (start : ℤ) : Option ℕ :=
  findFrom text sub (if start < 0 then max (start + text.length) 0 else start).toNat

/-- The stop strings that are found, with the index of the match and its end. -/
def stopMatches (outputText : List Char) (newCharCount : ℤ) (stop : List (List Char)) :
    List ((List Char × ℕ) × ℕ) :=
  stop.filterMap fun stopStr =>
    (pyFind outputText stopStr (1 - newCharCount - stopStr.length)).map fun stopIndex =>
      ((stopStr, stopIndex), stopIndex + stopStr.length)

/-- The stop string that ends first among the new characters, and where to cut, or -1. -/
def checkStopStrings (outputText : List Char) (newCharCount : ℤ) (stop : List (List Char))
    (includeInOutput : Bool) : Option (List Char × ℤ) :=
  if newCharCount = 0 ∨ stop.isEmpty then none
  else
    (earliest (stopMatches outputText newCharCount stop)).map fun best =>
      if includeInOutput then
        if outputText.length ≤ best.2 then (best.1.1, -1) else (best.1.1, best.2)
      else (best.1.1, best.1.2)

namespace Detokenizer

/-- `__init__`, with the prompt ids that are kept in `token_ids`. -/
def new (stop : List (List Char)) (minTokens : ℕ) (includeStopStrInOutput : Bool)
    (promptIds : List ℕ) : Detokenizer :=
  { stop
    minTokens
    includeStopStrInOutput
    stopBufferLength :=
      if !stop.isEmpty && !includeStopStrInOutput then ((stop.map List.length).foldr max 0 : ℕ) - 1
      else 0
    promptLen := promptIds.length
    tokenIds := promptIds }

variable (d : Detokenizer)

/-- The number of tokens after the prompt. -/
def numOutputTokens : ℤ := d.tokenIds.length - d.promptLen

/-- One token is detokenized: the loop of `update` with its `token_offsets`. -/
def detokenize (s : Detokenizer × List ℤ) (token : DecodedToken) : Detokenizer × List ℤ :=
  let d := { s.1 with
    tokenIds := s.1.tokenIds ++ [token.1]
    outputText := s.1.outputText ++ token.2 }
  (d, s.2 ++ [(d.outputText.length : ℤ)])

/-- What `update` does when `check_stop_strings` has returned a stop string. -/
def truncate (tokenOffsets : List ℤ) (firstNewTokenIndex : ℕ)
    (stopString : List Char) (truncateTo : ℤ) : Detokenizer :=
  let stopEnd := if truncateTo = -1 then (d.outputText.length : ℤ) else truncateTo
  let stopEnd := if d.includeStopStrInOutput then stopEnd else stopEnd + stopString.length
  let numKept := bisectLeftFrom tokenOffsets id stopEnd 1
  { d with
    tokenIds := d.tokenIds.take (firstNewTokenIndex + numKept)
    outputText := if truncateTo = -1 then d.outputText else d.outputText.take truncateTo.toNat }

/-- The second part of `update`, in which stop strings are evaluated. -/
def evaluateStop (tokenOffsets : List ℤ) (numPrevTokens : ℤ)
    (firstNewTokenIndex : ℕ) : Option (List Char) × Detokenizer :=
  if d.stop.isEmpty ∨ d.numOutputTokens ≤ d.minTokens then (none, d)
  else
    let stopCheckOffset := tokenOffsets.getD (max (d.minTokens - numPrevTokens) 0).toNat 0
    match checkStopStrings d.outputText (d.outputText.length - stopCheckOffset) d.stop
        d.includeStopStrInOutput with
    | none => (none, d)
    | some (stopString, truncateTo) =>
      (some stopString, d.truncate tokenOffsets firstNewTokenIndex stopString truncateTo)

/-- `update`. A stop token that ended the request is kept without its text. -/
def update (newTokens : List DecodedToken) (stopTerminated : Bool) :
    Option (List Char) × Detokenizer :=
  if newTokens.isEmpty then (none, d)
  else
    let skip := stopTerminated && !d.includeStopStrInOutput
    let tokens := if skip then newTokens.dropLast else newTokens
    let s := tokens.foldl detokenize (d, [(d.outputText.length : ℤ)])
    let s :=
      if skip then
        ({ s.1 with tokenIds := s.1.tokenIds ++ (newTokens.getLast?.map Prod.fst).toList },
          s.2 ++ [(s.1.outputText.length : ℤ)])
      else s
    s.1.evaluateStop s.2 d.numOutputTokens d.tokenIds.length

/-- The text to pass on, all of it or what is new; a buffer is held back before the end. -/
def getNextOutputText (finished delta : Bool) : List Char × Detokenizer :=
  let bufferLength := if finished then 0 else d.stopBufferLength
  let length := d.outputText.length - bufferLength
  if !delta then
    (if bufferLength = 0 then d.outputText else pySliceTo d.outputText (-bufferLength), d)
  else if d.lastOutputTextOffset < length then
    ((d.outputText.drop d.lastOutputTextOffset.toNat).take (length - d.lastOutputTextOffset).toNat,
      { d with lastOutputTextOffset := length })
  else ([], d)

end Detokenizer

end Sonar.Engine
