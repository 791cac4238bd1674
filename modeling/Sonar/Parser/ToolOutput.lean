import Sonar.Lib.Dict

/-!
# The output of a tool parser

A tool parser emits text and updates of tool calls, in the order in which it read them.
`ToolParserOutput.coalesce` flattens that: all text into one event, then every call with the
fragments of its arguments joined.

How text and arguments were cut into events is lost in that. `atoms` cuts them into single
characters, and `coalesce_eq_of_atoms` says that outputs with the same atoms coalesce to the same
output; so a parser only has to be compared atom by atom.
-/

namespace Sonar.Parser

open Lib List

/-- One tool-call update. -/
structure ToolCallDelta where
  toolIndex : ℕ
  name : Option (List Char)
  arguments : List Char
deriving DecidableEq, Repr

/-- One ordered event. -/
inductive ToolParserEvent where
  | text (text : List Char)
  | toolCall (call : ToolCallDelta)
deriving DecidableEq, Repr

/-- Events in the order in which they were committed. -/
structure ToolParserOutput where
  events : List ToolParserEvent := []
deriving DecidableEq, Repr

namespace ToolParserEvent

/-- The text of a text event. -/
def text? : ToolParserEvent → Option (List Char)
  | text t => some t
  | toolCall _ => none

/-- The update of a tool-call event. -/
def call? : ToolParserEvent → Option ToolCallDelta
  | text _ => none
  | toolCall call => some call

end ToolParserEvent

open ToolParserEvent (text? call?)

/-- Appending text to the last event if that is text, and as a new one otherwise. -/
def pushTextEvents (text : List Char) : List ToolParserEvent → List ToolParserEvent
  | [] => [.text text]
  | [.text last] => [.text (last ++ text)]
  | [.toolCall call] => [.toolCall call, .text text]
  | event :: event' :: events => event :: pushTextEvents text (event' :: events)

namespace ToolParserOutput

variable (out : ToolParserOutput)

/-- Text is joined to text that was pushed before. -/
def pushText (text : List Char) : ToolParserOutput :=
  if text = [] then out else ⟨pushTextEvents text out.events⟩

/-- One more delta of a call. -/
def pushCall (call : ToolCallDelta) : ToolParserOutput :=
  ⟨out.events ++ [.toolCall call]⟩

/-- All the text of the output. -/
def normalText : List Char :=
  (out.events.filterMap text?).flatten

/-- The deltas of all calls. -/
def calls : List ToolCallDelta :=
  out.events.filterMap call?

/-- One event appended, as `append` does it. -/
def pushEvent : ToolParserEvent → ToolParserOutput
  | .text text => out.pushText text
  | .toolCall call => out.pushCall call

/-- The events of another output, pushed one by one. -/
def append (out other : ToolParserOutput) : ToolParserOutput :=
  other.events.foldl pushEvent out

/-- One update merged into the calls so far. -/
def mergeCall (merged : Dict ℕ ToolCallDelta) (call : ToolCallDelta) : Dict ℕ ToolCallDelta :=
  match merged.get? call.toolIndex with
  | none => merged.set call.toolIndex call
  | some existing => merged.set call.toolIndex
      { existing with
        name := existing.name.or call.name
        arguments := existing.arguments ++ call.arguments }

/-- `coalesce`. The dictionary keeps the order in which the calls were first seen. -/
def coalesce : ToolParserOutput :=
  (out.calls.foldl mergeCall ∅).values.foldl pushCall
    (({} : ToolParserOutput).pushText out.normalText)

end ToolParserOutput

/-! ### Atoms -/

/-- Arguments, one character at a time. -/
def argumentAtoms (toolIndex : ℕ) (arguments : List Char) : List ToolParserEvent :=
  arguments.map fun c => .toolCall ⟨toolIndex, none, [c]⟩

/-- Text, one character at a time. -/
def textAtoms (text : List Char) : List ToolParserEvent := text.map fun c => .text [c]

/-- An event cut into single characters. What announces a call stays an event. -/
def ToolParserEvent.atoms : ToolParserEvent → List ToolParserEvent
  | .text t => textAtoms t
  | .toolCall ⟨toolIndex, none, c :: arguments⟩ => argumentAtoms toolIndex (c :: arguments)
  | .toolCall ⟨toolIndex, name, arguments⟩ =>
    .toolCall ⟨toolIndex, name, []⟩ :: argumentAtoms toolIndex arguments

namespace ToolParserOutput

/-- The atoms of an output. -/
def atoms (out : ToolParserOutput) : List ToolParserEvent :=
  out.events.flatMap ToolParserEvent.atoms

private theorem flatMap_atoms_pushTextEvents {text : List Char} {events : List ToolParserEvent} :
    (pushTextEvents text events).flatMap ToolParserEvent.atoms =
      events.flatMap ToolParserEvent.atoms ++ textAtoms text := by
  fun_induction pushTextEvents text events with
  | case1 => simp [ToolParserEvent.atoms]
  | case2 last => simp [ToolParserEvent.atoms, textAtoms]
  | case3 call => simp [ToolParserEvent.atoms]
  | case4 event event' events ih =>
    rw [flatMap_cons, ih, flatMap_cons (x := event), append_assoc]

/-- Text is pushed character by character. -/
theorem atoms_pushText {out : ToolParserOutput} {text : List Char} :
    (out.pushText text).atoms = out.atoms ++ textAtoms text := by
  rw [pushText]
  split_ifs with h
  · simp [h, textAtoms]
  · exact flatMap_atoms_pushTextEvents

/-- A delta is pushed. -/
theorem atoms_pushCall {out : ToolParserOutput} {call : ToolCallDelta} :
    (out.pushCall call).atoms = out.atoms ++ (ToolParserEvent.toolCall call).atoms := by
  simp [pushCall, atoms]

/-- The atoms of both outputs. -/
theorem atoms_append (out other : ToolParserOutput) :
    (out.append other).atoms = out.atoms ++ other.atoms := by
  have hfold : ∀ (events : List ToolParserEvent) out,
      (events.foldl pushEvent out).atoms = out.atoms ++ events.flatMap ToolParserEvent.atoms := by
    intro events
    induction events with
    | nil => intro out; simp
    | cons event events ih =>
      intro out
      rw [foldl_cons, ih, flatMap_cons, ← append_assoc]
      cases event with
      | text text => rw [pushEvent, atoms_pushText]; rfl
      | toolCall call => rw [pushEvent, atoms_pushCall]
  exact hfold _ out

/-! ### Coalescing depends on the atoms only -/

section

variable (merged : Dict ℕ ToolCallDelta)

include merged

private theorem mergeCall_append (toolIndex : ℕ) (name : Option (List Char)) (a b : List Char) :
    mergeCall (mergeCall merged ⟨toolIndex, name, a⟩) ⟨toolIndex, none, b⟩ =
      mergeCall merged ⟨toolIndex, name, a ++ b⟩ := by
  cases h : merged.get? toolIndex with
  | none => simp [mergeCall, h, Dict.set_set]
  | some existing => simp [mergeCall, h, Dict.set_set]

/-- Fragments of the arguments, merged one after the other. -/
private theorem foldl_mergeCall_argumentAtoms (toolIndex : ℕ)
    (name : Option (List Char)) (a b : List Char) :
    ((argumentAtoms toolIndex b).filterMap call?).foldl mergeCall
        (mergeCall merged ⟨toolIndex, name, a⟩) = mergeCall merged ⟨toolIndex, name, a ++ b⟩ := by
  induction b generalizing a with
  | nil => simp [argumentAtoms]
  | cons c b ih =>
    have hcons : (argumentAtoms toolIndex (c :: b)).filterMap call? =
        ⟨toolIndex, none, [c]⟩ :: (argumentAtoms toolIndex b).filterMap call? := rfl
    rw [hcons, foldl_cons, mergeCall_append, ih, append_assoc]
    rfl

private theorem foldl_mergeCall_atoms (event : ToolParserEvent) :
    (event.atoms.filterMap call?).foldl mergeCall merged =
      event.call?.toList.foldl mergeCall merged := by
  have htext : ∀ text : List Char, (textAtoms text).filterMap call? = [] := by
    intro text
    simp [textAtoms, call?]
  cases event with
  | text text => simp [ToolParserEvent.atoms, htext, call?]
  | toolCall call =>
    obtain ⟨toolIndex, name, arguments⟩ := call
    match name, arguments with
    | none, [] => rfl
    | none, c :: arguments =>
      have := foldl_mergeCall_argumentAtoms merged toolIndex none [c] arguments
      simpa [ToolParserEvent.atoms, argumentAtoms, call?] using this
    | some name, arguments =>
      have := foldl_mergeCall_argumentAtoms merged toolIndex (some name) [] arguments
      simpa [ToolParserEvent.atoms, call?] using this

end

private theorem normalText_atoms (out : ToolParserOutput) :
    (out.atoms.filterMap text?).flatten = out.normalText := by
  have hargs : ∀ toolIndex arguments,
      (argumentAtoms toolIndex arguments).filterMap text? = [] := by
    intro toolIndex arguments
    simp [argumentAtoms, text?]
  have hevent : ∀ event : ToolParserEvent,
      (event.atoms.filterMap text?).flatten = event.text?.getD [] := by
    intro event
    cases event with
    | text text =>
      induction text with
      | nil => rfl
      | cons c text ih =>
        simpa [ToolParserEvent.atoms, textAtoms, text?] using ih
    | toolCall call =>
      obtain ⟨toolIndex, name, arguments⟩ := call
      match name, arguments with
      | none, [] => rfl
      | none, c :: arguments => simp [ToolParserEvent.atoms, hargs, text?]
      | some name, arguments =>
        change ((argumentAtoms toolIndex arguments).filterMap text?).flatten = []
        rw [hargs]
        rfl
  rw [atoms, normalText]
  induction out.events with
  | nil => rfl
  | cons event events ih =>
    rw [flatMap_cons, filterMap_append, flatten_append, hevent, ih]
    cases event <;> rfl

private theorem foldl_calls_atoms (out : ToolParserOutput) (merged : Dict ℕ ToolCallDelta) :
    (out.atoms.filterMap call?).foldl mergeCall merged = out.calls.foldl mergeCall merged := by
  rw [atoms, calls]
  induction out.events generalizing merged with
  | nil => rfl
  | cons event events ih =>
    rw [flatMap_cons, filterMap_append, foldl_append, foldl_mergeCall_atoms, ih]
    cases event <;> rfl

/-- **Coalescing forgets how events were cut.** -/
theorem coalesce_eq_of_atoms {out other : ToolParserOutput} (h : out.atoms = other.atoms) :
    out.coalesce = other.coalesce := by
  rw [coalesce, coalesce, ← foldl_calls_atoms, ← foldl_calls_atoms, ← normalText_atoms,
    ← normalText_atoms, h]

end ToolParserOutput

end Sonar.Parser
