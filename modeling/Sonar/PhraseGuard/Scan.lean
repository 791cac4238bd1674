import Sonar.PhraseGuard.Failure

/-!
# Scanning

After a text the automaton is in the node of its longest suffix that is a word (`Reads`). `scan` goes
on from there: it finds the new state, and the earliest start of a pattern that ends in the new data
(`Earliest`), counted from the beginning of the data and negative if the pattern began before.
-/

namespace Sonar.PhraseGuard.Automaton

open Lib List

variable {words patterns : List (List UInt8)} {a : Automaton} {state : ℕ} {pre data : List UInt8}

/-- The state after a text. -/
def Reads (words : List (List UInt8)) (state : ℕ) (t : List UInt8) : Prop :=
  ∃ w, words[state]? = some w ∧ LongestSuffix {w | w ∈ words} t w

section

variable (h : Compiled patterns words a)

include h

/-- Nothing is read at the root. -/
theorem Compiled.reads_nil : Reads words 0 [] :=
  ⟨[], h.trie.root, .nil h.trie.closed⟩

/-- One more byte is read. -/
theorem Compiled.advance (hreads : Reads words state pre)
    (byte : UInt8) : Reads words (a.advance state byte) (pre ++ [byte]) := by
  obtain ⟨w, hw, hlongest⟩ := hreads
  obtain ⟨v, hv, hadvance⟩ := h.trie.advance hw (fun j u hj _ => (h.linked j u hj).fails) byte
  exact ⟨v, hv, (LongestSuffix.append_iff h.trie.closed hlongest).mpr hadvance⟩

/-- The terminal of the state is the longest pattern that ends the text. -/
private theorem Compiled.terminal {t : List UInt8}
    (hreads : Reads words state t) : LongestPattern patterns t (a.node state).terminal := by
  obtain ⟨w, hw, hlongest⟩ := hreads
  have hterminal := (h.linked state w hw).terminal
  constructor
  · exact fun p hp hpt => hterminal.bound p hp (hlongest.longest p (h.whole p hp) hpt)
  · intro hne
    obtain ⟨p, hp, hpw, hlen⟩ := hterminal.attained hne
    exact ⟨p, hp, hpw.trans hlongest.suffix, hlen⟩

end

/-- The earliest start of a pattern that ends in the data. -/
structure Earliest (patterns : List (List UInt8)) (pre data : List UInt8) (found : Option ℤ) :
    Prop where
  bound : ∀ p ∈ patterns, ∀ d, d ≠ [] → d <+: data → p <:+ pre ++ d →
    ∃ start, found = some start ∧ start ≤ (d.length : ℤ) - p.length
  attained : ∀ start, found = some start →
    ∃ p ∈ patterns, ∃ d, d ≠ [] ∧ d <+: data ∧ p <:+ pre ++ d ∧ start = (d.length : ℤ) - p.length

private theorem prefix_concat {d : List UInt8} {b : UInt8} (h : d <+: data ++ [b]) :
    d <+: data ∨ d = data ++ [b] := by
  obtain ⟨s, hs⟩ := h
  rcases eq_nil_or_concat' s with rfl | ⟨s, c, rfl⟩
  · rw [append_nil] at hs
    exact .inr hs
  · rw [← append_assoc] at hs
    exact .inl ⟨s, (append_inj' hs rfl).1⟩

/-- One more byte: an earlier match stays, and a match it ends may start earlier. -/
private theorem Earliest.concat {found : Option ℤ} {b : UInt8} {k : ℕ}
    (h : Earliest patterns pre data found) (hne : ∀ p ∈ patterns, p ≠ [])
    (hk : LongestPattern patterns (pre ++ (data ++ [b])) k) :
    Earliest patterns pre (data ++ [b]) (if k = 0 then found else
      some (found.elim (data.length + 1 - k) fun start => min start (data.length + 1 - k))) := by
  have hlen : ((data ++ [b]).length : ℤ) = data.length + 1 := by
    rw [length_append]
    rfl
  have hext : data ++ [b] ≠ [] := append_ne_nil_of_right_ne_nil _ (cons_ne_nil _ _)
  split_ifs with hzero
  · constructor
    · intro p hp d hd hpre hsuffix
      rcases prefix_concat hpre with hpre | rfl
      · exact h.bound p hp d hd hpre hsuffix
      · have hpos := length_pos_iff.mpr (hne p hp)
        have hle := hk.bound p hp hsuffix
        omega
    · intro start hstart
      obtain ⟨p, hp, d, hd, hpre, hsuffix, heq⟩ := h.attained start hstart
      exact ⟨p, hp, d, hd, hpre.trans (prefix_append _ _), hsuffix, heq⟩
  · constructor
    · intro p hp d hd hpre hsuffix
      rcases prefix_concat hpre with hpre | rfl
      · obtain ⟨start, rfl, hle⟩ := h.bound p hp d hd hpre hsuffix
        exact ⟨_, rfl, (min_le_left _ _).trans hle⟩
      · have hle := hk.bound p hp hsuffix
        refine ⟨_, rfl, ?_⟩
        cases found with
        | none =>
          change (data.length : ℤ) + 1 - k ≤ _
          omega
        | some start =>
          refine (min_le_right _ _).trans ?_
          omega
    · intro start hstart
      obtain ⟨q, hq, hqs, hqk⟩ := hk.attained hzero
      have hnew : ∃ p ∈ patterns, ∃ d, d ≠ [] ∧ d <+: data ++ [b] ∧ p <:+ pre ++ d ∧
          (data.length + 1 - k) = (d.length : ℤ) - p.length :=
        ⟨q, hq, data ++ [b], hext, prefix_rfl, hqs, by rw [hlen, hqk]⟩
      cases found with
      | none =>
        obtain rfl := Option.some.inj hstart
        exact hnew
      | some start' =>
        obtain rfl := Option.some.inj hstart
        change ∃ p ∈ patterns, ∃ d, d ≠ [] ∧ d <+: data ++ [b] ∧ p <:+ pre ++ d ∧
          min start' (data.length + 1 - k) = _
        rcases min_choice start' (data.length + 1 - k) with hmin | hmin
        · rw [hmin]
          obtain ⟨p, hp, d, hd, hpre, hsuffix, heq⟩ := h.attained start' rfl
          exact ⟨p, hp, d, hd, hpre.trans (prefix_append _ _), hsuffix, heq⟩
        · rw [hmin]
          exact hnew

/-- What `scan` returns. -/
structure Scanned (patterns words : List (List UInt8)) (pre data : List UInt8)
    (out : ℕ × Option ℤ × ℕ) : Prop where
  reads : Reads words out.1 (pre ++ data)
  earliest : Earliest patterns pre data out.2.1
  depth : ∀ w, LongestSuffix {w | w ∈ words} (pre ++ data) w → out.2.2 = w.length

/-- The scan reads the data behind what was read before. -/
theorem Compiled.scan (h : Compiled patterns words a) (hne : ∀ p ∈ patterns, p ≠ [])
    (hreads : Reads words state pre) (data : List UInt8) :
    Scanned patterns words pre data (a.scan state data) := by
  have hloop : Reads words (data.zipIdx.foldl a.scanByte (state, none)).1 (pre ++ data) ∧
      Earliest patterns pre data (data.zipIdx.foldl a.scanByte (state, none)).2 := by
    induction data using reverseRecOn with
    | nil =>
      refine ⟨?_, fun p _ d hd hpre _ => ?_, fun start hstart => nomatch hstart⟩
      · rw [append_nil]
        exact hreads
      · exact absurd (prefix_nil.mp hpre) hd
    | append_singleton data b ih =>
      rw [zipIdx_append, foldl_append]
      have hnext := h.advance ih.1 b
      rw [append_assoc] at hnext
      have hnew := ih.2.concat hne (h.terminal hnext)
      refine ⟨hnext, ?_⟩
      rw [zero_add]
      exact hnew
  refine ⟨hloop.1, hloop.2, fun w hw => ?_⟩
  obtain ⟨v, hv, hlongest⟩ := hloop.1
  rw [hw.unique hlongest]
  exact h.trie.depth _ v hv

/-- **The scan is exact**, whatever the pieces scanned before: it returns the earliest start of a
pattern that ends in the new data, and the length of the longest suffix of the text with which a
pattern begins. -/
theorem scan_exact (hcompile : compile patterns = .ok a) (pieces : List (List UInt8))
    (data : List UInt8) :
    let out := a.scan (pieces.foldl (fun state piece => (a.scan state piece).1) 0) data
    Earliest patterns pieces.flatten data out.2.1 ∧
      ∃ w, LongestSuffix {w | w = [] ∨ ∃ p ∈ patterns, w <+: p} (pieces.flatten ++ data) w ∧
        out.2.2 = w.length := by
  obtain ⟨⟨words, h⟩, hne⟩ := compiled_of_compile hcompile
  have hwords : {w | w ∈ words} = {w | w = [] ∨ ∃ p ∈ patterns, w <+: p} := by
    refine Set.ext fun w => ⟨h.needed w, ?_⟩
    rintro (rfl | ⟨p, hp, hw⟩)
    · exact h.trie.closed.nil
    · exact h.trie.closed.of_prefix (h.whole p hp) hw
  -- the state that is carried on is that of the whole text
  have hreads : Reads words (pieces.foldl (fun state piece => (a.scan state piece).1) 0)
      pieces.flatten := by
    induction pieces using reverseRecOn with
    | nil => exact h.reads_nil
    | append_singleton pieces piece ih =>
      rw [foldl_append, flatten_append, flatten_singleton]
      exact (h.scan hne ih piece).reads
  obtain ⟨⟨w, -, hw⟩, hearliest, hdepth⟩ := h.scan hne hreads data
  exact ⟨hearliest, w, hwords ▸ hw, hdepth w hw⟩

/-- A pattern cut in two. -/
theorem scan_exact_cut : ∃ a, compile [[1, 2]] = .ok a ∧
    Earliest [[1, 2]] [1] [2, 1] (a.scan (a.scan 0 [1]).1 [2, 1]).2.1 :=
  ⟨_, rfl, (scan_exact rfl [[1]] [2, 1]).1⟩

end Sonar.PhraseGuard.Automaton
