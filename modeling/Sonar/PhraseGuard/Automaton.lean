import Mathlib.Algebra.Ring.Nat
import Sonar.Lib.Dict
import Sonar.Lib.Suffixes

/-!
# The phrase automaton

`phrase_matcher.cpp` compiles byte patterns into a trie with failure links (`add`, `finish`) and scans
data with it: `scan` follows the bytes from a saved state and returns the state, the earliest start
of a match, and the depth of the state.

The loops are bounded by the number of nodes: `advance` follows failure links, `finish` empties its
queue. Both are shown to end in time. `std::unordered_map` lists its entries in no fixed order; here
they are listed as they were inserted, and the result does not depend on it, since it is what
`Automaton.Linked` describes.
-/

namespace Sonar.PhraseGuard

open Lib

/-- A state of the automaton: a prefix of some phrase. -/
structure Node where
  edges : Dict UInt8 ℕ := ∅
  failure : ℕ := 0
  depth : ℕ := 0
  terminal : ℕ := 0

/-- The automaton; the first state is the root. -/
structure Automaton where
  nodes : List Node := [{}]

namespace Automaton

variable (a : Automaton)

/-- `nodes[i]`. -/
def node (i : ℕ) : Node := a.nodes.getD i {}

/-- `nodes[i]` is changed. -/
def modifyNode (i : ℕ) (f : Node → Node) : Automaton := ⟨a.nodes.modify i f⟩

/-- The loop of `advance`. -/
def advanceLoop (a : Automaton) (byte : UInt8) : ℕ → ℕ → ℕ
  | 0, _ => 0
  | fuel + 1, state =>
    match (a.node state).edges.get? byte with
    | some next => next
    | none => if state = 0 then 0 else advanceLoop a byte fuel (a.node state).failure

/-- The state after one byte. -/
def advance (state : ℕ) (byte : UInt8) : ℕ := a.advanceLoop byte a.nodes.length state

/-- What `add` does for one byte. -/
def addByte (s : ℕ × Automaton) (byte : UInt8) : ℕ × Automaton :=
  match (s.2.node s.1).edges.get? byte with
  | some next => (next, s.2)
  | none =>
    let next := s.2.nodes.length
    let depth := (s.2.node s.1).depth + 1
    (next, ⟨(s.2.modifyNode s.1 fun node => { node with edges := node.edges.set byte next }).nodes ++
      [{ depth }]⟩)

/-- One more phrase. -/
def add (pattern : List UInt8) : Automaton :=
  let s := pattern.foldl addByte (0, a)
  s.2.modifyNode s.1 fun node => { node with terminal := pattern.length }

/-- What `finish` does for a child of the node it took from the queue. -/
def finishChild (parent : ℕ) (s : List ℕ × Automaton) (edge : UInt8 × ℕ) : List ℕ × Automaton :=
  let failure := s.2.advance (s.2.node parent).failure edge.1
  (s.1 ++ [edge.2], s.2.modifyNode edge.2 fun node => { node with
    failure := failure
    terminal := max node.terminal (s.2.node failure).terminal })

/-- The loop of `finish`. -/
def finishLoop : ℕ → List ℕ × Automaton → Automaton
  | 0, s => s.2
  | fuel + 1, s =>
    match s.1 with
    | [] => s.2
    | parent :: queue =>
      finishLoop fuel ((s.2.node parent).edges.entries.foldl (finishChild parent) (queue, s.2))

/-- The failure links of all states, breadth first. -/
def finish : Automaton := finishLoop a.nodes.length ((a.node 0).edges.values, a)

/-- `compile`: the texts are those of its `ValueError`s. -/
def compile (patterns : List (List UInt8)) : Except String Automaton :=
  if patterns.length = 0 ∨ 2048 < patterns.length then .error "Expected 1..2048 byte patterns"
  else if patterns.any List.isEmpty ∨ 262144 < (patterns.map List.length).sum then
    .error "Empty pattern or phrase byte budget exceeded"
  else .ok (patterns.foldl add {}).finish

/-- What `scan` does for the byte at `i`. -/
def scanByte (s : ℕ × Option ℤ) (e : UInt8 × ℕ) : ℕ × Option ℤ :=
  let state := a.advance s.1 e.1
  let terminal := (a.node state).terminal
  let start : ℤ := e.2 + 1 - terminal
  (state, if terminal = 0 then s.2 else some (s.2.elim start fun earliest => min earliest start))

/-- `scan` of a state that exists: the state, the earliest start of a match and the depth. -/
def scan (state : ℕ) (data : List UInt8) : ℕ × Option ℤ × ℕ :=
  let s := data.zipIdx.foldl a.scanByte (state, none)
  (s.1, s.2, (a.node s.1).depth)

end Automaton

end Sonar.PhraseGuard
