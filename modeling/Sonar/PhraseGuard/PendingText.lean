import Mathlib.Data.List.GetD
import Sonar.PhraseGuard.Scan

/-!
# The output journal of a guarded request

`PendingText` holds back the tokens that may still become part of a banned phrase. `feed` takes a
token with its text and releases the tokens before the one in which a match may have begun. On a
match it drops the tokens that are held and says how many were released; feeding then goes on with
other tokens. `finish` releases the rest.

Text is a list of characters. `casefold` is a parameter: what a character becomes. Python folds a
string character by character. Offsets may be negative, when a match began in released text.
-/

namespace Sonar.PhraseGuard

open Lib Automaton List

/-- How many tokens without text may be held in a row. -/
def maxZeroWidthTokens : ℕ := 256

/-- `str.encode("utf-8")`. -/
def utf8 (text : List Char) : List UInt8 := text.flatMap String.utf8EncodeChar

/-- The text that is matched: folded unless matching is case-sensitive. -/
def foldText (casefold : Char → List Char) (caseSensitive : Bool) (text : List Char) : List Char :=
  if caseSensitive then text else text.flatMap casefold

/-- The tokens to pass on, or where to rewind to and which token to block. -/
structure Decision where
  ready : List ℕ
  rewindTo : Option ℕ := none
  blockedToken : Option ℕ := none

/-- The tokens that are held back, and the state of the scan over their text. -/
structure PendingText where
  pattern : Automaton
  caseSensitive : Bool
  maxPendingTokens : ℕ
  zeroWidthTokens : ℕ := 0
  state : ℕ := 0
  tokens : List ℕ := []
  ends : List ℤ := []
  states : List ℕ := []
  publishedState : ℕ := 0
  numBytes : ℤ := 0
  published : ℕ := 0

namespace PendingText

variable (casefold : Char → List Char)

/-- `PendingText.__init__`. -/
def new (phrases : List (List Char)) (caseSensitive : Bool) : Except String PendingText := do
  let pattern ← compile (phrases.map fun phrase => utf8 (foldText casefold caseSensitive phrase))
  pure
    { pattern
      caseSensitive
      maxPendingTokens := maxZeroWidthTokens + (phrases.map fun phrase =>
        max (utf8 phrase).length (utf8 (phrase.flatMap casefold)).length).foldr max 0 }

/-- The loop of `_token_at`, at token `i` with the end of the token before. -/
def tokenAtLoop (byteOffset : ℤ) : List ℤ → ℕ → ℤ → ℕ → ℕ
  | [], _, _, start => start
  | tokenEnd :: ends, i, prev, start =>
    if byteOffset < tokenEnd then start
    else tokenAtLoop byteOffset ends (i + 1) tokenEnd (if prev < tokenEnd then i + 1 else start)

variable (p : PendingText)

/-- The token that holds the byte at the offset. -/
def tokenAt (byteOffset : ℤ) : ℕ := tokenAtLoop byteOffset p.ends 0 0 0

/-- The first tokens are no longer held. -/
def release (count : ℕ) : List ℕ × PendingText :=
  if count = 0 then ([], p)
  else
    let releasedBytes := p.ends.getD (count - 1) 0
    (p.tokens.take count, { p with
      tokens := p.tokens.drop count
      ends := (p.ends.drop count).map fun tokenEnd => tokenEnd - releasedBytes
      publishedState := p.states.getD (count - 1) 0
      states := p.states.drop count
      numBytes := p.numBytes - releasedBytes
      published := p.published + count })

/-- The journal after a match is dropped. -/
def dropped : PendingText :=
  { p with
    tokens := []
    ends := []
    states := []
    numBytes := 0
    zeroWidthTokens := 0
    state := p.publishedState }

/-- The journal with a token whose bytes are `data`, before it is scanned. -/
def append (token : ℕ) (data : List UInt8) : PendingText :=
  { p with
    tokens := p.tokens ++ [token]
    numBytes := p.numBytes + data.length
    ends := p.ends ++ [p.numBytes + data.length]
    zeroWidthTokens := if data.isEmpty then p.zeroWidthTokens + 1 else 0 }

/-- The journal after its last token is scanned. -/
def scanned (state : ℕ) : PendingText :=
  { p with state, states := p.states ++ [state] }

/-- `feed`. A `ValueError` ends the request; `self.tokens[0]` of an empty list would be an
`IndexError`. -/
def feed (token : ℕ) (text : List Char) : Except String (Decision × PendingText) :=
  let data := utf8 (foldText casefold p.caseSensitive text)
  let offset := p.numBytes
  let q := p.append token data
  if q.maxPendingTokens < q.tokens.length ∨ maxZeroWidthTokens < q.zeroWidthTokens then
    .error "banned_strings pending-token limit exceeded"
  else
    let out := q.pattern.scan q.state data
    let q := q.scanned out.1
    let keepFrom : ℤ := q.numBytes - (out.2.2 : ℕ)
    match out.2.1 with
    | some start =>
      let r := q.release (q.tokenAt (min (offset + start) keepFrom))
      match r.2.tokens with
      | [] => .error "list index out of range"
      | blocked :: _ =>
        .ok ({ ready := r.1, rewindTo := some r.2.published, blockedToken := some blocked },
          r.2.dropped)
    | none =>
      let r := q.release (q.tokenAt keepFrom)
      .ok ({ ready := r.1 }, r.2)

/-- At the end, all tokens are passed on. -/
def finish : List ℕ × PendingText := p.release p.tokens.length

/-! ### Tokens by position -/

/-- A token with its bytes. -/
abbrev Entry := ℕ × List UInt8

/-- The bytes of a list of tokens. -/
def bytes (l : List Entry) : List UInt8 := l.flatMap Prod.snd

/-- How many tokens have bytes. -/
def wide (l : List Entry) : ℕ := l.countP fun e => !e.2.isEmpty

/-- The ends of tokens, from an offset on. -/
def endsFrom (n : ℤ) : List Entry → List ℤ
  | [] => []
  | e :: l => (n + e.2.length) :: endsFrom (n + e.2.length) l

variable {casefold} {l l' done : List Entry} {e : Entry} {off : ℤ} {start k : ℕ}

/-- The bytes of both parts. -/
theorem bytes_append : bytes (l ++ l') = bytes l ++ bytes l' :=
  flatMap_append

/-- The bytes of the first entry and the others. -/
theorem length_bytes_cons (e : Entry) (l : List Entry) :
    (bytes (e :: l)).length = e.2.length + (bytes l).length := length_append

/-- The lengths add up. -/
theorem length_bytes_append (l l' : List Entry) :
    (bytes (l ++ l')).length = (bytes l).length + (bytes l').length := by
  rw [bytes_append, length_append]

/-- Tokens with text, in both parts. -/
theorem wide_append (l l' : List Entry) : wide (l ++ l') = wide l + wide l' := countP_append

/-- One more token at most. -/
theorem wide_cons_le (e : Entry) (l : List Entry) : wide (e :: l) ≤ wide l + 1 := by
  rw [wide, countP_cons]
  split_ifs
  · exact le_rfl
  · exact Nat.le_succ _

private theorem wide_singleton_of_eq_nil (h : e.2 = []) : wide [e] = 0 := by
  rw [wide, countP_cons, h]
  rfl

private theorem wide_le_length_bytes (l : List Entry) : wide l ≤ (bytes l).length := by
  induction l with
  | nil => exact Nat.zero_le _
  | cons e l ih =>
    rw [length_bytes_cons]
    by_cases hnil : e.2 = []
    · have hsplit : wide (e :: l) = wide [e] + wide l := wide_append [e] l
      have hzero := wide_singleton_of_eq_nil hnil
      omega
    · have hpos := length_pos_iff.mpr hnil
      have hle := wide_cons_le e l
      omega

/-- The ends of both parts. -/
theorem endsFrom_append (n : ℤ) (l l' : List Entry) :
    endsFrom n (l ++ l') = endsFrom n l ++ endsFrom (n + (bytes l).length) l' := by
  induction l generalizing n with
  | nil =>
    rw [bytes, flatMap_nil, length_nil, Int.natCast_zero, add_zero]
    rfl
  | cons e l ih =>
    rw [cons_append, endsFrom, endsFrom, cons_append, ih, length_bytes_cons,
      Int.natCast_add, add_assoc]

/-- One end for each token. -/
theorem length_endsFrom {n : ℤ} : (endsFrom n l).length = l.length := by
  induction l generalizing n with
  | nil => rfl
  | cons e l ih => rw [endsFrom, length_cons, ih, length_cons]

/-- The ends behind another start. -/
theorem map_sub_endsFrom (n c : ℤ) (l : List Entry) :
    (endsFrom n l).map (fun tokenEnd => tokenEnd - c) = endsFrom (n - c) l := by
  induction l generalizing n with
  | nil => rfl
  | cons e l ih =>
    rw [endsFrom, map_cons, ih]
    congr 1
    · omega
    · congr 1
      omega

/-- The end of the `k`-th token is the length of the first `k`. -/
theorem getD_endsFrom (hk : k ≠ 0) (hle : k ≤ l.length) :
    (endsFrom 0 l).getD (k - 1) 0 = (bytes (l.take k)).length := by
  obtain ⟨k, rfl⟩ := Nat.exists_eq_succ_of_ne_zero hk
  have hlt : k < l.length := hle
  have htake : l.take (k + 1) = l.take k ++ [l[k]] := take_succ_eq_append_getElem hlt
  have hlen : (endsFrom 0 (l.take k)).length = k := by
    rw [length_endsFrom, length_take]
    omega
  conv_lhs => rw [← take_append_drop (k + 1) l, htake, append_assoc, endsFrom_append]
  rw [Nat.succ_sub_one, getD_append_right _ _ _ _ hlen.le, hlen, Nat.sub_self, htake, length_bytes_append, zero_add,
    length_bytes_cons]
  rfl

/-- The tokens before position `k` go and the others stay, for a match that may begin at `off`. -/
structure Boundary (l : List Entry) (off : ℤ) (k : ℕ) : Prop where
  le : k ≤ l.length
  cut : k ≠ 0 → ∃ init e, l.take k = init ++ [e] ∧ e.2 ≠ []
  before : k ≠ 0 → ((bytes (l.take k)).length : ℤ) ≤ off
  after : (wide (l.drop k) : ℤ) ≤ max 0 ((bytes l).length - off)

/-- The loop of `_token_at` has passed the tokens `done`. -/
structure Passed (off : ℤ) (done : List Entry) (start : ℕ) : Prop where
  le : start ≤ done.length
  cut : start ≠ 0 → ∃ init e, done.take start = init ++ [e] ∧ e.2 ≠ []
  before : start ≠ 0 → ((bytes (done.take start)).length : ℤ) ≤ off
  after : wide (done.drop start) = 0

/-- One more entry that ends at or before the offset. -/
private theorem Passed.concat (h : Passed off done start) (e : Entry)
    (hoff : ((bytes (done ++ [e])).length) ≤ off) :
    Passed off (done ++ [e]) (if e.2 = [] then start else done.length + 1) := by
  split_ifs with hnil
  · have htake : (done ++ [e]).take start = done.take start := take_append_of_le_length h.le
    refine ⟨?_, ?_, ?_, ?_⟩
    · rw [length_append]
      exact h.le.trans (Nat.le_add_right _ _)
    · rw [htake]
      exact h.cut
    · rw [htake]
      exact h.before
    · rw [drop_append_of_le_length h.le, wide_append, h.after, wide_singleton_of_eq_nil hnil]
  · have hlen : (done ++ [e]).length = done.length + 1 := length_append
    refine ⟨hlen.ge, fun _ => ⟨done, e, ?_, hnil⟩, fun _ => ?_, ?_⟩
    · rw [← hlen, take_length]
    · rwa [← hlen, take_length]
    · rw [← hlen, drop_length]
      rfl

/-- The loop stops at the first token that ends after the offset. -/
theorem Passed.stop (h : Passed off done start)
    (hoff : off < ((bytes (done ++ [e])).length)) : Boundary (done ++ e :: l) off start := by
  have htake : (done ++ e :: l).take start = done.take start := take_append_of_le_length h.le
  refine ⟨?_, ?_, ?_, ?_⟩
  · rw [length_append]
    exact h.le.trans (Nat.le_add_right _ _)
  · rw [htake]
    exact h.cut
  · rw [htake]
    exact h.before
  · have hwide : wide ((done ++ e :: l).drop start) ≤ (bytes l).length + 1 := by
      rw [drop_append_of_le_length h.le, wide_append, h.after, zero_add]
      exact (wide_cons_le e l).trans (Nat.add_le_add_right (wide_le_length_bytes l) 1)
    have hsplit : (bytes (done ++ e :: l)).length = (bytes (done ++ [e])).length + (bytes l).length := by
      rw [← length_bytes_append, append_assoc, singleton_append]
    omega

/-- The search from any entry on ends at the offset's token boundary. -/
private theorem Passed.loop (h : Passed off done start) (l : List Entry) :
    Boundary (done ++ l) off (tokenAtLoop off (endsFrom (bytes done).length l) done.length
      (bytes done).length start) := by
  induction l generalizing done start with
  | nil =>
    rw [append_nil]
    refine ⟨h.le, h.cut, h.before, ?_⟩
    change (wide (done.drop start) : ℤ) ≤ _
    rw [h.after]
    exact le_max_left _ _
  | cons e l ih =>
    have hend : ((bytes (done ++ [e])).length : ℤ) = (bytes done).length + e.2.length := by
      rw [length_bytes_append, length_bytes_cons]
      rfl
    rw [endsFrom, tokenAtLoop, ← hend]
    split_ifs with hlt hprev
    · exact h.stop hlt
    -- The token has bytes: the boundary moves behind it.
    · have hne : e.2 ≠ [] := fun hnil => by
        rw [hend, hnil, length_nil] at hprev
        omega
      have hnext := ih (h.concat e (not_lt.mp hlt))
      rwa [if_neg hne, append_assoc, length_append] at hnext
    · have hnil : e.2 = [] := by
        rw [← length_eq_zero_iff]
        omega
      have hnext := ih (h.concat e (not_lt.mp hlt))
      rwa [if_pos hnil, append_assoc, length_append] at hnext

/-- The token at an offset is the boundary of the entries. -/
theorem boundary_tokenAt {p : PendingText} (hends : p.ends = endsFrom 0 l) :
    Boundary l off (p.tokenAt off) := by
  have hpassed : Passed off [] 0 := ⟨le_rfl, absurd rfl, absurd rfl, rfl⟩
  rw [tokenAt, hends]
  exact hpassed.loop l

/-- A boundary before the end of the text leaves a token. -/
theorem Boundary.lt_length (h : Boundary l off k) (hne : l ≠ []) (hoff : off < (bytes l).length) :
    k < l.length := by
  refine lt_of_le_of_ne h.le ?_
  rintro rfl
  have hbefore := h.before (length_pos_iff.mpr hne).ne'
  rw [take_length] at hbefore
  omega

/-- Tokens without text at the end are behind the boundary. -/
theorem Boundary.suffix_drop {tail : List Entry} (h : Boundary l off k) (htail : tail <:+ l)
    (hnil : ∀ e ∈ tail, e.2 = []) : tail <:+ l.drop k := by
  by_cases hk : k = 0
  · rwa [hk]
  obtain ⟨init, e, htake, hne⟩ := h.cut hk
  have hl : l = init ++ e :: l.drop k := by
    conv_lhs => rw [← take_append_drop k l, htake, append_assoc, singleton_append]
  have hsuffix : e :: l.drop k <:+ l := ⟨init, hl.symm⟩
  rcases suffix_or_suffix_of_suffix htail hsuffix with hshort | hlong
  · rcases suffix_cons_iff.mp hshort with heq | hdrop
    · exact absurd (hnil e (heq ▸ mem_cons_self)) hne
    · exact hdrop
  · exact absurd (hnil e (hlong.subset (.head _))) hne

end PendingText

end Sonar.PhraseGuard
