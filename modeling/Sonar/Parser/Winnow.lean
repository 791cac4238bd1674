import Sonar.Lib.PartialInput

/-!
# The parser library

The grammars are written with the combinators of the `winnow` library, over input of which more may
arrive. The library is not part of the repository, so the combinators are a parameter (`Winnow`),
and what their documentation says of them is a hypothesis (`LawfulWinnow`). It decides every outcome:
the combinators are those of `Lib`.
-/

namespace Sonar.Parser

open Lib List

/-- The combinators that the grammars use. -/
class Winnow where
  /-- A fixed text. -/
  literal : List Char → List Char → Outcome Unit
  /-- Whitespace, of any length. -/
  multispace0 : List Char → Outcome Unit
  /-- Two alternatives, over any input. -/
  alt {ι α : Type} : (ι → Outcome α) → (ι → Outcome α) → ι → Outcome α
  /-- `seq!` over parsers whose values are dropped. -/
  seq : List (List Char → Outcome Unit) → List Char → Outcome Unit

/-- Whitespace of `multispace0`. -/
def isMultispace (c : Char) : Bool := c = ' ' || c = '\t' || c = '\r' || c = '\n'

/-- The documented behaviour of the combinators. -/
class LawfulWinnow [Winnow] : Prop where
  /-- A text that is there is consumed. -/
  literal_ok {t buf : List Char} (h : t <+: buf) : Winnow.literal t buf = .ok () t.length
  /-- A text that is there as far as the input goes needs more input. -/
  literal_incomplete {t buf : List Char} (h : buf <+: t) (hlt : buf.length < t.length) :
    Winnow.literal t buf = .incomplete
  /-- Any other input is not the text. -/
  literal_backtrack {t buf : List Char} (h : ¬ t <+: buf) (h' : ¬ buf <+: t) :
    Winnow.literal t buf = .backtrack
  /-- Whitespace may go on behind input that is all whitespace. -/
  multispace0_incomplete {buf : List Char} (h : buf.all isMultispace) :
    Winnow.multispace0 buf = .incomplete
  /-- The longest run of whitespace is consumed. -/
  multispace0_ok {buf : List Char} (h : ¬ buf.all isMultispace) :
    Winnow.multispace0 buf = .ok () (buf.takeWhile isMultispace).length
  /-- The second alternative is tried where the first backtracks. -/
  alt_backtrack {ι α : Type} {p q : ι → Outcome α} {input : ι} (h : p input = .backtrack) :
    Winnow.alt p q input = q input
  /-- Otherwise the first alternative decides, also if it is incomplete. -/
  alt_first {ι α : Type} {p q : ι → Outcome α} {input : ι} (h : p input ≠ .backtrack) :
    Winnow.alt p q input = p input
  /-- The empty sequence consumes nothing. -/
  seq_nil (buf : List Char) : Winnow.seq [] buf = .ok () 0
  /-- The parsers of a sequence are run one after the other, up to the first that does not match. -/
  seq_cons (p : List Char → Outcome Unit) (ps : List (List Char → Outcome Unit)) (buf : List Char) :
    Winnow.seq (p :: ps) buf = andThen p (fun _ => Winnow.seq ps) buf

namespace LawfulWinnow

variable [Winnow] [LawfulWinnow]

/-- The laws decide what a literal says. -/
theorem literal_eq (t : List Char) : Winnow.literal t = Lib.literal t := by
  funext buf
  rcases literal_cases t buf with ⟨⟨hin, hbuf⟩, h⟩ | ⟨hin, h⟩ | ⟨⟨hbuf, hlt⟩, h⟩
  · rw [h, literal_backtrack hin hbuf]
  · rw [h, literal_ok hin]
  · rw [h, literal_incomplete hbuf hlt]

/-- The laws decide what whitespace is taken. -/
theorem multispace0_eq : Winnow.multispace0 = takeWhile0 isMultispace := by
  funext buf
  rw [takeWhile0]
  split_ifs with h
  · exact multispace0_incomplete h
  · exact multispace0_ok h

/-- The laws decide between alternatives. -/
theorem alt_eq {ι α : Type} (p q : ι → Outcome α) : Winnow.alt p q = orElse p q := by
  funext input
  rw [orElse]
  split
  · next h => exact alt_backtrack h
  · next h => exact alt_first h

/-- The laws decide what a sequence says. -/
theorem seq_eq (ps : List (List Char → Outcome Unit)) : Winnow.seq ps = sequence ps := by
  funext buf
  induction ps generalizing buf with
  | nil => exact seq_nil buf
  | cons p ps ih =>
    rw [seq_cons, funext ih]
    rfl

end LawfulWinnow

/-! ### Combinators with the documented behaviour -/

namespace Documented

scoped instance : Winnow where
  literal := Lib.literal
  multispace0 := takeWhile0 isMultispace
  alt := orElse
  seq := sequence

scoped instance : LawfulWinnow where
  literal_ok {t buf} h := by
    rcases literal_cases t buf with ⟨hc, -⟩ | ⟨-, heq⟩ | ⟨hc, -⟩
    · exact absurd h hc.1
    · exact heq
    · exact absurd h.length_le hc.2.not_ge
  literal_incomplete {t buf} h hlt := by
    rcases literal_cases t buf with ⟨hc, -⟩ | ⟨hc, -⟩ | ⟨-, heq⟩
    · exact absurd h hc.2
    · exact absurd hc.length_le hlt.not_ge
    · exact heq
  literal_backtrack {t buf} h h' := by
    rcases literal_cases t buf with ⟨-, heq⟩ | ⟨hc, -⟩ | ⟨hc, -⟩
    · exact heq
    · exact absurd hc h
    · exact absurd hc.1 h'
  multispace0_incomplete h := if_pos h
  multispace0_ok h := if_neg h
  alt_backtrack {ι α p q input} h := by
    change orElse p q input = _
    rw [orElse, h]
  alt_first {ι α p q input} h := by
    change orElse p q input = _
    rw [orElse]
    split
    · next heq => exact absurd heq h
    · rfl
  seq_nil _ := rfl
  seq_cons _ _ _ := rfl

end Documented

end Sonar.Parser
