import Sonar.Parser.Marker

/-!
# What scanning for markers finds

In terms of cells a marker is a list of predicates, one for each character: the character has to
be the marker's, and inside a guard the one expected token has to begin at the first character and
no visible token at the others. `parseNext_eq` says that parsing a marker is comparing its pattern
with the cells from the cursor on, and with that every decision about a marker is a decision about
a prefix of the cells.

`safeTextLenMul_spec` says that the scan stops exactly at the first position that is not rejected
by every marker. Its candidates come from a text search and from the anchors, so the work is to
show that no position between two candidates could have been accepted.
-/

namespace Sonar.Parser

open Lib List Marker TokenAttribution Nat
open Text (TokenId)

/-! ### Sorted lists -/

section Sorted

variable {α : Type*} {key : α → ℕ}

/-- A list whose members with a property come first is split by it. -/
theorem takeWhile_dropWhile_eq_filter {p : α → Bool} {xs : List α}
    (h : xs.Pairwise fun a b => p b = true → p a = true) :
    xs.takeWhile p = xs.filter p ∧ xs.dropWhile p = xs.filter (!p ·) := by
  induction xs with
  | nil => exact ⟨rfl, rfl⟩
  | cons x xs ih =>
    obtain ⟨hx, hxs⟩ := pairwise_cons.mp h
    cases hp : p x with
    | true => simp [hp, ih hxs]
    | false =>
      have hnone : ∀ a ∈ xs, p a = false := fun a ha =>
        Bool.eq_false_iff.mpr fun hpa => Bool.false_ne_true (hp.symm.trans (hx a ha hpa))
      have hall : xs.filter (!p ·) = xs := filter_eq_self.mpr fun a ha => by simp [hnone a ha]
      simpa [hp, hall] using hnone

variable {start : ℕ} {xs : List α}

section

variable (h : xs.Pairwise fun a b => key a ≤ key b)

include h

private theorem dropWhile_lt_eq_filter :
    xs.dropWhile (fun a => decide (key a < start)) = xs.filter fun a => decide (start ≤ key a) := by
  rw [(takeWhile_dropWhile_eq_filter (h.imp fun hab => by simp; omega)).2]
  simp [← decide_not]

private theorem takeWhile_lt_eq_filter :
    xs.takeWhile (fun a => decide (key a < start)) = xs.filter fun a => decide (key a < start) :=
  (takeWhile_dropWhile_eq_filter (h.imp fun hab => by simp; omega)).1

end

end Sorted

/-! ### Visible tokens -/

variable {anchors : List TokenAttribution} {start i n : ℕ} {m : Marker} {s : MarkerStream}
  {text needle : List Char} {spellings : List (List Char)}
  {markers : List Marker} {isPartial : Bool} {v : List Cell → Outcome Unit}

/-- The visible anchors of a range, in order, whatever their order in the buffer. -/
private theorem visibleIn_eq
    (h : anchors.Pairwise fun a b => a.anchor.offset ≤ b.anchor.offset) (start stop : ℕ) :
    visibleIn anchors start (some stop) =
      (anchors.filterMap visible?).filter fun v => start ≤ v.1 ∧ v.1 < stop := by
  simp only [visibleIn, Option.all_some]
  rw [dropWhile_lt_eq_filter h, takeWhile_lt_eq_filter (h.filter _), filter_filter]
  rw [filterMap_filter, filter_filterMap]
  refine filterMap_congr fun a _ => ?_
  rcases a with ⟨id, anchor⟩
  cases anchor with
  | visible offset =>
    by_cases hstart : start ≤ offset <;> by_cases hstop : offset < stop <;>
      simp [visible?, TokenAnchor.offset, Option.filter, hstart, hstop]
  | zeroWidth offset => simp [visible?]

private theorem idsAt_eq_visible (anchors : List TokenAttribution) (i : ℕ) :
    idsAt anchors i = ((anchors.filterMap visible?).filter fun v => v.1 = i).map Prod.snd := by
  rw [filter_filterMap, map_filterMap]
  refine filterMap_congr fun a _ => ?_
  rcases a with ⟨id, anchor⟩
  cases anchor with
  | visible offset =>
    by_cases h : offset = i <;>
      simp [visible?, visibleAt, Option.filter]
  | zeroWidth offset => rfl

/-- The range is one token's exactly when that token begins at its start, alone, and no visible
token begins inside. -/
private theorem isSingleToken_iff
    (h : anchors.Pairwise fun a b => a.anchor.offset ≤ b.anchor.offset) {stop : ℕ}
    (hlt : start < stop) {tokenId : TokenId} : isSingleToken anchors start stop tokenId = true ↔
      idsAt anchors start = [tokenId] ∧ ∀ i, start < i → i < stop → idsAt anchors i = [] := by
  have hids : ∀ i, start ≤ i → i < stop → idsAt anchors i =
      ((visibleIn anchors start (some stop)).filter fun v => v.1 = i).map Prod.snd := by
    intro i hi hi'
    rw [idsAt_eq_visible, visibleIn_eq h, filter_filter]
    congr 1
    refine filter_congr fun v _ => ?_
    by_cases hv : v.1 = i
    · simp [hv, hi, hi']
    · simp [hv]
  have hin : ∀ v ∈ visibleIn anchors start (some stop), start ≤ v.1 ∧ v.1 < stop := by
    intro v hv
    rw [visibleIn_eq h] at hv
    simpa using (mem_filter.mp hv).2
  have hsingle : isSingleToken anchors start stop tokenId = true ↔
      visibleIn anchors start (some stop) = [(start, tokenId)] := by
    rw [isSingleToken]
    rcases visibleIn anchors start (some stop) with _ | ⟨first, rest⟩ <;> simp
  rw [hsingle]
  constructor
  · intro heq
    refine ⟨by simp [hids start le_rfl hlt, heq], fun i hi hi' => ?_⟩
    rw [hids i hi.le hi', heq]
    simp [hi.ne]
  · rintro ⟨hstart, hinside⟩
    -- all visible tokens of the range begin at its start
    have hall : (visibleIn anchors start (some stop)).filter (fun v => v.1 = start) =
        visibleIn anchors start (some stop) := by
      refine filter_eq_self.mpr fun v hv => ?_
      by_contra hne
      have hne : v.1 ≠ start := by simpa using hne
      have hv' := hin v hv
      have hnil := hinside v.1 (by omega) hv'.2
      rw [hids v.1 hv'.1 hv'.2, map_eq_nil_iff, filter_eq_nil_iff] at hnil
      exact hnil v hv (by simp)
    rw [hids start le_rfl hlt, hall] at hstart
    rcases hvis : visibleIn anchors start (some stop) with _ | ⟨first, rest⟩
    · simp [hvis] at hstart
    · rw [hvis] at hstart hall
      obtain ⟨hfirst, hrest⟩ := cons.inj hstart
      obtain rfl := map_eq_nil_iff.mp hrest
      have hmem := filter_eq_self.mp hall first (.head _)
      rw [← hfirst, ← of_decide_eq_true hmem]

/-! ### Markers as patterns -/

/-- What a guard asks of the tokens that begin at character `j` of the marker. -/
def Guard.allows (guard : Guard) (j : ℕ) (ids : List TokenId) : Bool :=
  if j = guard.start then ids = [guard.tokenId]
  else if guard.start < j ∧ j < guard.stop then ids = []
  else true

/-- A marker as predicates on cells. -/
def Marker.pattern (m : Marker) : List (Cell → Bool) :=
  m.text.zipIdx.map fun c cell =>
    decide (cell.1 = c.1) && m.guards.all fun guard => guard.allows c.2 cell.2

/-- Guards cover something, lie inside the marker and are in order. -/
structure Marker.WellFormed (m : Marker) : Prop where
  range : ∀ guard ∈ m.guards, guard.start < guard.stop ∧ guard.stop ≤ m.text.length
  ordered : m.guards.Pairwise fun g g' => g.start ≤ g'.start

@[simp]
theorem Marker.length_pattern (m : Marker) : m.pattern.length = m.text.length := by
  simp [pattern]

/-- Anchors in order, visible tokens at characters that are there, and none in plain text. -/
structure MarkerStream.WellFormed (s : MarkerStream) : Prop where
  sorted : s.anchors.Pairwise fun a b => a.anchor.offset ≤ b.anchor.offset
  visible_lt : ∀ a ∈ s.anchors, ∀ offset, a.anchor = .visible offset →
    offset < s.offset + s.remaining.length
  plain : s.located = false → s.anchors = []

namespace MarkerStream

/-- The cells from the cursor on. -/
def cells (s : MarkerStream) : List Cell :=
  s.remaining.zipIdx.map fun c => (c.1, idsAt s.anchors (s.offset + c.2))

@[simp]
theorem length_cells (s : MarkerStream) : s.cells.length = s.remaining.length := by
  simp [cells]

/-- A cell is a character with the tokens that begin there. -/
theorem getElem?_cells (s : MarkerStream) (i : ℕ) :
    s.cells[i]? = (s.remaining[i]?).map fun c => (c, idsAt s.anchors (s.offset + i)) := by
  simp [cells, Function.comp_def]

/-- The input of a well-formed piece. -/
theorem attributed_wellFormed {d : DecodedText} (h : d.WellFormed) : (attributed d).WellFormed :=
  ⟨h.sorted, fun a ha offset hoff => by simpa [attributed] using h.visible_lt a ha offset hoff,
    nofun⟩

/-- The cells of the input are those of the piece. -/
theorem cells_attributed {d : DecodedText} : (attributed d).cells = d.cells := by
  simp [cells, attributed, DecodedText.cells]

/-- Input without tokens. -/
theorem ofText_wellFormed (text : List Char) : (ofText text).WellFormed :=
  ⟨.nil, nofun, fun _ => rfl⟩

@[simp] theorem WellFormed.nextSlice (h : s.WellFormed) : (s.nextSlice n).WellFormed := by
  refine ⟨h.sorted, fun a ha offset hoff => ?_, h.plain⟩
  have hlt := h.visible_lt a ha offset hoff
  have hloc : s.located = true := by
    by_contra hloc
    rw [show (s.nextSlice n).anchors = s.anchors from rfl,
      h.plain (Bool.eq_false_iff.mpr hloc)] at ha
    cases ha
  simp only [MarkerStream.nextSlice, hloc, if_true, length_drop]
  omega

private theorem cells_nextSlice (h : s.WellFormed) (n : ℕ) : (s.nextSlice n).cells = s.cells.drop n := by
  refine ext_getElem? fun i => ?_
  rw [getElem?_cells, getElem?_drop, getElem?_cells]
  simp only [nextSlice, getElem?_drop]
  by_cases hloc : s.located = true
  · rw [if_pos hloc, Nat.add_assoc]
  · rw [h.plain (Bool.eq_false_iff.mpr hloc)]
    rfl

end MarkerStream

variable {cells : List Cell}

/-- The characters of a comparison that has not failed agree as far as both go. -/
theorem Marker.pattern_fst (h : fit m.pattern cells ≠ .fails)
    {c : Char} {cell : Cell} (hc : m.text[i]? = some c) (hcell : cells[i]? = some cell) :
    cell.1 = c ∧ ∀ guard ∈ m.guards, guard.allows i cell.2 = true := by
  have hpat : m.pattern[i]? = some fun cell : Cell =>
      decide (cell.1 = c) && m.guards.all fun guard => guard.allows i cell.2 := by
    simp [pattern, hc]
  have := fit_ne_fails_iff.mp h i _ cell hpat hcell
  simpa using this

/-- Every guard whose first character is there holds its one token. -/
def Marker.Guarded (m : Marker) (s : MarkerStream) : Prop :=
  ∀ guard ∈ m.guards, guard.start < s.eofOffset →
    isSingleToken s.anchors (s.offset + guard.start) (s.offset + guard.stop) guard.tokenId = true

instance (m : Marker) (s : MarkerStream) : Decidable (m.Guarded s) :=
  inferInstanceAs (Decidable (∀ guard ∈ m.guards, guard.start < s.eofOffset → _ = true))

section

variable (hm : m.WellFormed)

include hm

private theorem Marker.parseNext_of_guarded [Winnow] :
    m.parseNext s = if m.Guarded s then literalAt s m.text else .backtrack := by
  have hall : ((m.guards.takeWhile fun guard => guard.start < s.eofOffset).all fun guard =>
      isSingleToken s.anchors (s.offset + guard.start) (s.offset + guard.stop) guard.tokenId) =
        true ↔ m.Guarded s := by
    rw [takeWhile_lt_eq_filter hm.ordered, all_eq_true]
    constructor
    · intro h guard hguard hstart
      exact h guard (mem_filter.mpr ⟨hguard, decide_eq_true hstart⟩)
    · intro h guard hguard
      obtain ⟨hmem, hstart⟩ := mem_filter.mp hguard
      exact h guard hmem (of_decide_eq_true hstart)
  rw [parseNext]
  by_cases h : m.Guarded s
  · rw [if_pos (hall.mpr h), if_pos h]
  · rw [if_neg (mt hall.mp h), if_neg h]

/-- A pattern fails where its text fails or where a guard does. -/
private theorem Marker.fit_pattern_ne_fails_iff (hs : s.WellFormed) : fit m.pattern s.cells ≠ .fails ↔
      m.Guarded s ∧ fit (m.text.map fun a b => decide (b = a)) s.remaining ≠ .fails := by
  constructor
  · intro h
    refine ⟨fun guard hguard hstart => ?_, fit_ne_fails_iff.mpr fun i p c hp hc => ?_⟩
    · obtain ⟨hlt, hle⟩ := hm.range guard hguard
      have hstart' : guard.start < s.remaining.length := hstart
      -- a character of the guard that is there allows what begins at it
      have hallows : ∀ j, j < s.remaining.length → j < m.text.length →
          guard.allows j (idsAt s.anchors (s.offset + j)) = true := by
        intro j hj hj'
        exact (pattern_fst h (getElem?_eq_getElem hj')
          (by rw [s.getElem?_cells, getElem?_eq_getElem hj]; rfl)).2 guard hguard
      refine (isSingleToken_iff hs.sorted (by omega)).mpr ⟨?_, fun i hi hi' => ?_⟩
      · simpa [Guard.allows] using hallows _ hstart' (by omega)
      · obtain ⟨j, rfl⟩ := Nat.exists_eq_add_of_le (show s.offset ≤ i by omega)
        by_cases hj : j < s.remaining.length
        · have hallow := hallows j hj (by omega)
          rw [Guard.allows, if_neg (by omega), if_pos (by omega)] at hallow
          exact of_decide_eq_true hallow
        · refine idsAt_eq_nil fun a ha heq => ?_
          have := hs.visible_lt a ha _ heq
          omega
    · obtain ⟨a, ha, rfl⟩ : ∃ a, m.text[i]? = some a ∧ (fun b => decide (b = a)) = p := by
        simpa using hp
      exact decide_eq_true (pattern_fst h ha (by rw [s.getElem?_cells, hc]; rfl)).1
  · rintro ⟨hguarded, htext⟩
    refine fit_ne_fails_iff.mpr fun i p cell hp hcell => ?_
    obtain ⟨a, ha, rfl⟩ : ∃ a, m.text[i]? = some a ∧ (fun cell : Cell =>
        decide _ && m.guards.all fun guard => guard.allows i cell.2) = p := by
      simpa [pattern] using hp
    rw [s.getElem?_cells] at hcell
    obtain ⟨c, hc, rfl⟩ := Option.map_eq_some_iff.mp hcell
    have hchar : decide (c = a) = true :=
      fit_ne_fails_iff.mp htext i _ c (by rw [getElem?_map, ha]; rfl) hc
    have hi : i < s.remaining.length := (List.getElem?_eq_some_iff.mp hc).1
    dsimp only
    rw [hchar, Bool.true_and, all_eq_true]
    intro guard hguard
    obtain ⟨hlt, hle⟩ := hm.range guard hguard
    rw [Guard.allows]
    split_ifs with hstart hinside
    · subst hstart
      exact decide_eq_true
        ((isSingleToken_iff hs.sorted (by omega)).mp (hguarded guard hguard hi)).1
    · have hbefore : guard.start < s.eofOffset := hinside.1.trans hi
      exact decide_eq_true
        (((isSingleToken_iff hs.sorted (by omega)).mp (hguarded guard hguard hbefore)).2
          _ (by omega) (by omega))
    · rfl

private theorem Marker.fit_pattern (hs : s.WellFormed) : fit m.pattern s.cells =
      if m.Guarded s then fit (m.text.map fun a b => decide (b = a)) s.remaining else .fails := by
  have hiff := fit_pattern_ne_fails_iff hm hs
  by_cases hg : m.Guarded s
  · rw [if_pos hg]
    simp only [hg, true_and] at hiff
    cases htext : fit (m.text.map fun a b => decide (b = a)) s.remaining with
    | fits =>
      obtain ⟨hne, hle⟩ := fit_eq_fits_iff.mp htext
      exact fit_eq_fits_iff.mpr ⟨hiff.mpr hne, by simpa using hle⟩
    | undecided =>
      obtain ⟨hne, hlt⟩ := fit_eq_undecided_iff.mp htext
      exact fit_eq_undecided_iff.mpr ⟨hiff.mpr hne, by simpa using hlt⟩
    | fails => exact not_not.mp (mt hiff.mp (not_not.mpr htext))
  · rw [if_neg hg]
    exact not_not.mp (mt hiff.mp fun h => hg h.1)

/-- What a marker decides about a list of cells. -/
def Marker.verdict (m : Marker) (isPartial : Bool) (cells : List Cell) : Outcome Unit :=
  if isPartial then matching m.pattern cells else (matching m.pattern cells).complete

/-- **Parsing a marker is comparing its pattern** with the cells from the cursor on. -/
theorem Marker.parseNext_eq [Winnow] [LawfulWinnow]
    (hs : s.WellFormed) : m.parseNext s = m.verdict s.isPartial s.cells := by
  have hmatching : matching m.pattern s.cells =
      if m.Guarded s then Winnow.literal m.text s.remaining else .backtrack := by
    by_cases hg : m.Guarded s
    · rw [matching, fit_pattern hm hs, if_pos hg, if_pos hg]
      simp [LawfulWinnow.literal_eq, literal, matching]
    · rw [matching, fit_pattern hm hs, if_neg hg, if_neg hg]
  rw [parseNext_of_guarded hm, verdict, hmatching]
  by_cases hg : m.Guarded s <;> simp [hg, literalAt, Outcome.complete]

end

/-! ### Candidates by text -/

private theorem findText_eq_some (h : findText text needle = some i) :
    needle <+: text.drop i ∧ i ≤ text.length ∧ ∀ j < i, ¬ needle <+: text.drop j := by
  obtain ⟨hi, hmem, hbefore⟩ := find?_range_eq_some.mp h
  refine ⟨ isPrefixOf_iff_prefix.mp hi, Nat.lt_succ_iff.mp (mem_range.mp hmem),
    fun j hj hpre => ?_⟩
  have := hbefore j hj
  rw [ isPrefixOf_iff_prefix.mpr hpre] at this
  cases this

private theorem findText_eq_none (h : findText text needle = none) {j : ℕ}
    (hj : j ≤ text.length) : ¬ needle <+: text.drop j := by
  intro hpre
  have := find?_eq_none.mp h j (mem_range.mpr (lt_succ_of_le hj))
  exact this ( isPrefixOf_iff_prefix.mpr hpre)

/-- The earliest occurrence of any spelling is an occurrence, and there is none before it. -/
private theorem findEarliest_eq_some (h : findEarliest text spellings = some i) :
    (∃ a ∈ spellings, a <+: text.drop i) ∧ i ≤ text.length ∧
      ∀ a ∈ spellings, ∀ j < i, ¬ a <+: text.drop j := by
  obtain ⟨hmem, hmin⟩ := min?_eq_some_iff.mp h
  obtain ⟨a, ha, hfind⟩ := mem_filterMap.mp hmem
  obtain ⟨hpre, hle, -⟩ := findText_eq_some hfind
  refine ⟨⟨a, ha, hpre⟩, hle, fun b hb j hj hbpre => ?_⟩
  cases hfb : findText text b with
  | none => exact findText_eq_none hfb (hj.le.trans hle) hbpre
  | some k =>
    have hik := hmin k (mem_filterMap.mpr ⟨b, hb, hfb⟩)
    exact (findText_eq_some hfb).2.2 j (hj.trans_le hik) hbpre

/-- A suffix that is a proper prefix of the token is no longer than the longest one. -/
private theorem le_partialPrefixLen {buffer token : List Char} (hpos : 0 < n)
    (hn : n ≤ buffer.length) (hlt : n < token.length)
    (h : buffer.drop (buffer.length - n) = token.take n) : n ≤ partialPrefixLen buffer token := by
  have hmem : buffer.length - n ∈ range' (buffer.length - min buffer.length
      (token.length - 1)) (min buffer.length (token.length - 1)) := by
    rw [mem_range'_1]
    omega
  have hhit : decide (buffer.drop (buffer.length - n) =
      token.take (buffer.length - (buffer.length - n))) = true := by
    rw [Nat.sub_sub_self hn]
    exact decide_eq_true h
  rw [partialPrefixLen]
  split
  · next index hfind =>
    obtain ⟨-, hindex, hbefore⟩ := find?_range'_eq_some.mp hfind
    by_contra hcon
    have hlow := (mem_range'_1.mp hmem).1
    have := hbefore _ hlow (by omega)
    rw [hhit] at this
    cases this
  · next hfind => exact absurd hhit (find?_eq_none.mp hfind _ hmem)

/-- No spelling occurs inside a proper prefix of another one. -/
structure NoHiding (spellings : List (List Char)) : Prop where
  ne_nil : ∀ a ∈ spellings, a ≠ []
  not_infix : ∀ a ∈ spellings, ∀ b ∈ spellings, ¬ b <:+: a.dropLast

private theorem textCandidate_bounds
    (hs : NoHiding spellings) (h : textCandidate text spellings start = some i) :
    start ≤ i ∧ i < text.length := by
  rw [textCandidate] at h
  by_cases htail : (text.drop (min start text.length)).isEmpty = true
  · rw [if_pos htail] at h
    cases h
  have hlt : start < text.length := by
    by_contra hge
    rw [min_eq_right (not_lt.mp hge), drop_length] at htail
    exact htail rfl
  rw [if_neg htail, min_eq_left hlt.le] at h
  split at h
  · next j hj =>
    obtain rfl := Option.some.inj h
    obtain ⟨⟨a, ha, hpre⟩, -, -⟩ := findEarliest_eq_some hj
    have hpos := length_pos_of_ne_nil (hs.ne_nil a ha)
    have hlen := hpre.length_le
    rw [drop_drop, length_drop] at hlen
    omega
  · dsimp only at h
    split_ifs at h with hkeep
    obtain rfl := Option.some.inj h
    have hle : ((spellings.map (partialPrefixLen (text.drop start))).max?.getD 0) ≤
        (text.drop start).length := by
      cases hmax : (spellings.map (partialPrefixLen (text.drop start))).max? with
      | none => exact zero_le _
      | some k =>
        obtain ⟨a, -, rfl⟩ := mem_map.mp (max?_mem hmax)
        rw [partialPrefixLen]
        split
        · exact sub_le _ _
        · exact zero_le _
    rw [length_drop] at hle
    omega

/-- Before the candidate no spelling occurs, not even as far as the text goes. -/
private theorem textCandidate_skips
    (hs : NoHiding spellings) {p : ℕ} (hstart : start ≤ p) (hp : p < text.length)
    (h : ∀ i, textCandidate text spellings start = some i → p < i) {a : List Char}
    (ha : a ∈ spellings) : fit (a.map fun a b => decide (b = a)) (text.drop p) = .fails := by
  have hne : (text.drop start).isEmpty = false := by
    rw [isEmpty_eq_false_iff]
    exact ne_nil_of_length_pos (by rw [length_drop]; omega)
  have hdrop : text.drop p = (text.drop start).drop (p - start) := by
    rw [drop_drop, Nat.add_sub_cancel' hstart]
  have hlen : (text.drop start).length = text.length - start := length_drop ..
  rw [textCandidate] at h
  rw [min_eq_left (by omega), hne] at h
  cases hfit : fit (a.map fun a b => decide (b = a)) (text.drop p) with
  | fails => rfl
  | fits =>
    -- a full occurrence would have been the earliest
    have hpre := fit_literal_fits_iff.mp hfit
    rw [hdrop] at hpre
    cases hfind : findEarliest (text.drop start) spellings with
    | none =>
      have hnone := filterMap_eq_nil_iff.mp (min?_eq_none_iff.mp hfind) _ ha
      exact absurd hpre (findText_eq_none hnone (by omega))
    | some i =>
      simp only [hfind] at h
      have hlt := h _ rfl
      exact absurd hpre ((findEarliest_eq_some hfind).2.2 a ha _ (by omega))
  | undecided =>
    obtain ⟨hpre, hshort⟩ := fit_literal_undecided_iff.mp hfit
    cases hfind : findEarliest (text.drop start) spellings with
    | none =>
      -- the suffix is no longer than the longest one kept back
      simp only [hfind] at h
      have hcut : (text.drop start).length - (text.drop p).length = p - start := by
        rw [hlen, length_drop]
        omega
      have hkeep : (text.drop p).length ≤ partialPrefixLen (text.drop start) a := by
        refine le_partialPrefixLen (by omega)
          (by rw [length_drop]; omega) hshort ?_
        rw [hcut, ← hdrop]
        exact prefix_iff_eq_take.mp hpre
      obtain ⟨k, hk⟩ : ∃ k, (spellings.map (partialPrefixLen (text.drop start))).max? = some k := by
        rw [← Option.isSome_iff_exists, isSome_max?_iff]
        exact ne_nil_of_mem (mem_map_of_mem ha)
      have hmax := (max?_eq_some_iff.mp hk).2 _ (mem_map_of_mem ha)
      rw [hk] at h
      have hpos : k > 0 := by
        omega
      have := h (text.length - k) (if_pos hpos)
      omega
    | some i =>
      -- the full occurrence of `b` after `p` lies inside a proper prefix of `a`
      simp only [hfind] at h
      have hlt := h _ rfl
      obtain ⟨⟨b, hb, hbpre⟩, -, -⟩ := findEarliest_eq_some hfind
      rw [drop_drop] at hbpre
      have hbin : b <:+: text.drop p := by
        have hsplit : text.drop (start + i) = (text.drop p).drop (start + i - p) := by
          rw [drop_drop, Nat.add_sub_cancel' hlt.le]
        rw [hsplit] at hbpre
        exact hbpre.isInfix.trans (drop_suffix _ _).isInfix
      have hain : text.drop p <+: a.dropLast := by
        rw [dropLast_eq_take]
        exact prefix_take_iff.mpr ⟨hpre, by omega⟩
      exact absurd (hbin.trans hain.isInfix) (hs.not_infix a ha b hb)

/-! ### Candidates of a stream -/

/-- Markers that can be watched for together. -/
structure Watched (markers : List Marker) : Prop where
  wellFormed : ∀ m ∈ markers, m.WellFormed
  noHiding : NoHiding ((markers.filter fun m => m.firstTokenId.isNone).map Marker.text)

/-- What the markers decide together: the first one that does not reject. -/
def verdicts (markers : List Marker) (isPartial : Bool) (cells : List Cell) : Outcome Unit :=
  match markers with
  | [] => .backtrack
  | m :: markers =>
    match m.verdict isPartial cells with
    | .backtrack => verdicts markers isPartial cells
    | r => r

/-- Trying markers in order is comparing their patterns in order. -/
theorem probeMarkers_eq [Winnow] [LawfulWinnow] (hm : ∀ m ∈ markers, m.WellFormed)
    (hs : s.WellFormed) :
    probeMarkers markers s = verdicts markers s.isPartial s.cells := by
  induction markers with
  | nil => rfl
  | cons m markers ih =>
    obtain ⟨hm1, hm2⟩ := forall_mem_cons.mp hm
    rw [probeMarkers, verdicts, parseNext_eq hm1 hs]
    cases m.verdict s.isPartial s.cells with
    | backtrack => exact ih hm2
    | _ => rfl

/-- Markers are ruled out where each of them is. -/
theorem verdicts_eq_backtrack_iff : verdicts markers isPartial cells = .backtrack ↔
      ∀ m ∈ markers, m.verdict isPartial cells = .backtrack := by
  induction markers with
  | nil => simp [verdicts]
  | cons m markers ih =>
    rw [verdicts, forall_mem_cons, ← ih]
    cases m.verdict isPartial cells <;> simp

private theorem Marker.verdict_of_fails
    (h : fit m.pattern cells = .fails) : m.verdict isPartial cells = .backtrack := by
  rw [verdict, matching, h]
  cases isPartial <;> rfl

/-- The marker that matched. -/
theorem exists_of_verdicts_ok {u : Unit} (h : verdicts markers isPartial cells = .ok u n) :
    ∃ m ∈ markers, fit m.pattern cells = .fits ∧ n = m.text.length := by
  induction markers with
  | nil => cases h
  | cons m markers ih =>
    rw [verdicts] at h
    cases hfit : fit m.pattern cells with
    | fits =>
      refine ⟨m, mem_cons_self, hfit, ?_⟩
      cases isPartial <;> simp_all [verdict, matching, Outcome.complete]
    | undecided =>
      cases isPartial with
      | false =>
        simp only [verdict, matching, hfit] at h
        obtain ⟨m', hm', hfit'⟩ := ih h
        exact ⟨m', .tail _ hm', hfit'⟩
      | true => simp [verdict, matching, hfit] at h
    | fails =>
      rw [verdict_of_fails hfit] at h
      obtain ⟨m', hm', hfit'⟩ := ih h
      exact ⟨m', .tail _ hm', hfit'⟩

/-- Comparing never gives up. -/
theorem verdicts_ne_cut : verdicts markers isPartial cells ≠ .cut := by
  induction markers with
  | nil => simp [verdicts]
  | cons m markers ih =>
    rw [verdicts, verdict, matching]
    cases isPartial <;> cases fit m.pattern cells <;> simp [Outcome.complete, ih]

/-- The first element found in a sorted list is before every other that satisfies the
predicate. -/
private theorem find?_le_of_sorted {α : Type*} {key : α → ℕ} {xs : List α}
    (h : xs.Pairwise fun a b => key a ≤ key b) (p : α → Bool) {x : α} (hx : x ∈ xs)
    (hpx : p x = true) : ∃ v, xs.find? p = some v ∧ key v ≤ key x := by
  obtain ⟨v, hv⟩ := Option.isSome_iff_exists.mp (find?_isSome.mpr ⟨x, hx, hpx⟩)
  obtain ⟨-, as, bs, rfl, hbefore⟩ := find?_eq_some_iff_append.mp hv
  refine ⟨v, hv, ?_⟩
  rcases mem_append.mp hx with hx | hx
  · have := hbefore x hx
    rw [hpx] at this
    cases this
  · rcases mem_cons.mp hx with rfl | hx
    · exact le_rfl
    · exact (pairwise_cons.mp (pairwise_append.mp h).2.1).1 x hx

section

variable (h : anchors.Pairwise fun a b => a.anchor.offset ≤ b.anchor.offset)

include h

/-- All visible anchors at or after `start`. -/
private theorem visibleIn_none_eq (start : ℕ) : visibleIn anchors start none =
      (anchors.filter fun a => start ≤ a.anchor.offset).filterMap visible? := by
  simp only [visibleIn, Option.all_none]
  rw [dropWhile_lt_eq_filter h, takeWhile_eq_self_iff.mpr fun _ _ => rfl]

private theorem visibleIn_none_sorted (start : ℕ) :
    (visibleIn anchors start none).Pairwise fun v w => v.1 ≤ w.1 := by
  rw [visibleIn_none_eq h, pairwise_filterMap]
  refine (h.filter _).imp fun {a b} hab v hv w hw => ?_
  rcases a with ⟨id, a⟩
  rcases b with ⟨id', b⟩
  cases a <;> cases b <;> simp [visible?] at hv hw
  subst hv hw
  exact hab

private theorem mem_visibleIn_none {id : TokenId} :
    (i, id) ∈ visibleIn anchors start none ↔ start ≤ i ∧ id ∈ idsAt anchors i := by
  rw [visibleIn_none_eq h, idsAt, mem_filterMap, mem_filterMap]
  constructor
  · rintro ⟨⟨tid, anchor⟩, ha, hv⟩
    obtain ⟨ha, hstart⟩ := mem_filter.mp ha
    cases anchor with
    | visible o =>
      obtain ⟨rfl, rfl⟩ := Prod.mk.inj (Option.some.inj hv)
      exact ⟨of_decide_eq_true hstart, _, ha, if_pos rfl⟩
    | zeroWidth o => cases hv
  · rintro ⟨hstart, ⟨tid, anchor⟩, ha, hv⟩
    cases anchor with
    | visible o =>
      simp only [visibleAt] at hv
      split_ifs at hv with ho
      subst ho
      obtain rfl := Option.some.inj hv
      exact ⟨_, mem_filter.mpr ⟨ha, decide_eq_true hstart⟩, rfl⟩
    | zeroWidth o => cases hv

end

namespace MarkerStream

variable {s : MarkerStream} {markers : List Marker} {start : ℕ}

variable {p : ℕ}

/-- Both kinds of candidate are at or after the start and inside the input. -/
private theorem anchoredCandidate_bounds (hs : s.WellFormed)
    (h : s.anchoredCandidate markers start = some p) :
    start ≤ p ∧ p < s.offset + s.remaining.length := by
  rw [anchoredCandidate] at h
  split_ifs at h
  obtain ⟨⟨i, id⟩, hfind, rfl⟩ := Option.map_eq_some_iff.mp h
  obtain ⟨hstart, hid⟩ := (mem_visibleIn_none hs.sorted).mp (mem_of_find?_eq_some hfind)
  refine ⟨hstart, ?_⟩
  by_contra hge
  have hnil : idsAt s.anchors i = [] := idsAt_eq_nil fun a ha heq =>
    hge (hs.visible_lt a ha i heq)
  rw [hnil] at hid
  cases hid

private theorem earlier_eq_some {a b : Option ℕ} (h : earlier a b = some p) : a = some p ∨ b = some p := by
  rcases a with _ | a
  · exact .inr h
  · rcases b with _ | b
    · exact .inl h
    · obtain rfl := Option.some.inj h
      rcases le_total a b with hab | hab
      · exact .inl (by rw [min_eq_left hab])
      · exact .inr (by rw [min_eq_right hab])

private theorem exists_earlier_le {a b : Option ℕ} (h : a = some p ∨ b = some p) :
    ∃ q ≤ p, earlier a b = some q := by
  rcases h with rfl | rfl
  · rcases b with _ | b
    · exact ⟨p, le_rfl, rfl⟩
    · exact ⟨min p b, min_le_left _ _, rfl⟩
  · rcases a with _ | a
    · exact ⟨p, le_rfl, rfl⟩
    · exact ⟨min a p, min_le_right _ _, rfl⟩

/-- A marker that does not reject the cells at `n` makes `n` a candidate of its kind. -/
private theorem candidate_of_fit (hs : s.WellFormed) (hw : Watched markers)
    (hm : m ∈ markers) (hstart : s.offset ≤ start) (hn : start ≤ s.offset + n)
    (hlt : n < s.remaining.length) (hfit : fit m.pattern (s.cells.drop n) ≠ .fails) :
    ∃ p ≤ s.offset + n, s.anchoredCandidate markers start = some p ∨
      s.spelledCandidate markers start = some p := by
  cases hid : m.firstTokenId with
  | some id =>
    -- the guard at the marker's start asks for the token at `n`
    obtain ⟨guard, hguard, rfl⟩ := Option.map_eq_some_iff.mp hid
    obtain ⟨hhead, hzero⟩ := Option.filter_eq_some_iff.mp hguard
    have hzero : guard.start = 0 := of_decide_eq_true hzero
    have hmem : guard ∈ m.guards := mem_of_mem_head? hhead
    have hpos : 0 < m.text.length := by
      have := (hw.wellFormed m hm).range guard hmem
      omega
    have hcell : (s.cells.drop n)[0]? = some (s.remaining[n], idsAt s.anchors (s.offset + n)) := by
      rw [getElem?_drop, s.getElem?_cells, Nat.add_zero, getElem?_eq_getElem hlt]
      rfl
    have hallow := (pattern_fst hfit (getElem?_eq_getElem hpos) hcell).2 guard hmem
    rw [Guard.allows, if_pos hzero.symm] at hallow
    have hvis : (s.offset + n, guard.tokenId) ∈ visibleIn s.anchors start none := by
      have hids : idsAt s.anchors (s.offset + n) = [guard.tokenId] := of_decide_eq_true hallow
      refine (mem_visibleIn_none hs.sorted).mpr ⟨hn, ?_⟩
      rw [hids]
      exact mem_singleton_self _
    obtain ⟨v, hv, hle⟩ := find?_le_of_sorted (visibleIn_none_sorted hs.sorted start)
      (fun a => markers.any fun m => m.firstTokenId = some a.2) hvis
      (any_eq_true.mpr ⟨m, hm, decide_eq_true hid⟩)
    refine ⟨v.1, hle, .inl ?_⟩
    have hsome : (markers.any fun m => m.firstTokenId.isSome) = true :=
      any_eq_true.mpr ⟨m, hm, by rw [hid]; rfl⟩
    rw [anchoredCandidate, if_pos hsome, hv, Option.map_some]
  | none =>
    have htext : fit (m.text.map fun a b => decide (b = a)) (s.remaining.drop n) ≠ .fails := by
      rw [← cells_nextSlice hs] at hfit
      exact ((fit_pattern_ne_fails_iff (hw.wellFormed m hm) hs.nextSlice).mp hfit).2
    have hspelled : m.text ∈ (markers.filter fun m => m.firstTokenId.isNone).map text :=
      mem_map_of_mem (mem_filter.mpr ⟨hm, by rw [hid]; rfl⟩)
    by_contra hcon
    have hfrom : start - s.offset ≤ n := by omega
    refine htext (textCandidate_skips hw.noHiding hfrom hlt (fun i hi => ?_) hspelled)
    by_contra hle
    exact hcon ⟨s.offset + i, by omega, .inr (by rw [spelledCandidate, hi, Option.map_some])⟩

private theorem nextCandidate_bounds (hs : s.WellFormed) (hw : Watched markers) (hstart : s.offset ≤ start)
    (h : s.nextCandidate markers start = some p) :
    start ≤ p ∧ p < s.offset + s.remaining.length := by
  rw [nextCandidate, max_eq_left hstart] at h
  rcases earlier_eq_some h with h | h
  · exact anchoredCandidate_bounds hs h
  · obtain ⟨i, hi, rfl⟩ := Option.map_eq_some_iff.mp h
    have := textCandidate_bounds hw.noHiding hi
    omega

private theorem nextCandidate_skips (hs : s.WellFormed) (hw : Watched markers)
    (hstart : s.offset ≤ start) (hn : start ≤ s.offset + n) (hlt : n < s.remaining.length)
    (h : ∀ p, s.nextCandidate markers start = some p → s.offset + n < p) (isPartial : Bool) :
    verdicts markers isPartial (s.cells.drop n) = .backtrack := by
  refine verdicts_eq_backtrack_iff.mpr fun m hm => verdict_of_fails ?_
  by_contra hfit
  obtain ⟨p, hp, hcand⟩ := candidate_of_fit hs hw hm hstart hn hlt hfit
  obtain ⟨q, hq, hnext⟩ := exists_earlier_le hcand
  have := h q (by rw [nextCandidate, max_eq_left hstart]; exact hnext)
  omega

end MarkerStream

/-! ### Scanning -/

/-- The number of leading cells at which `v` rejects. -/
def rejectedLen (v : List Cell → Outcome Unit) : List Cell → ℕ
  | [] => 0
  | c :: cs => if v (c :: cs) = .backtrack then rejectedLen v cs + 1 else 0

/-- The length of what is rejected. -/
theorem rejectedLen_le (v : List Cell → Outcome Unit) (cells : List Cell) :
    rejectedLen v cells ≤ cells.length := by
  induction cells with
  | nil => exact le_rfl
  | cons c cs ih =>
    rw [rejectedLen]
    split_ifs
    · exact succ_le_succ ih
    · exact zero_le _

/-- Every position before is rejected. -/
theorem rejectedLen_rejects (h : i < rejectedLen v cells) : v (cells.drop i) = .backtrack := by
  induction cells generalizing i with
  | nil => exact absurd h (not_lt_zero i)
  | cons c cs ih =>
    rw [rejectedLen] at h
    split_ifs at h with hv
    · cases i with
      | zero => exact hv
      | succ i => exact ih (lt_of_succ_lt_succ h)
    · exact absurd h (not_lt_zero i)

/-- Rejections up to `k` are all counted. -/
private theorem rejectedLen_drop {k : ℕ} (hik : i ≤ k) (hk : k ≤ cells.length)
    (h : ∀ j, i ≤ j → j < k → v (cells.drop j) = .backtrack) :
    rejectedLen v (cells.drop i) = k - i + rejectedLen v (cells.drop k) := by
  obtain ⟨d, rfl⟩ := Nat.exists_eq_add_of_le hik
  induction d generalizing i with
  | zero => simp
  | succ d ih =>
    have hlt : i < cells.length := by omega
    have hhead := h i le_rfl (by omega)
    have hrest := ih (show i + 1 ≤ i + 1 + d by omega) (by omega)
      (fun j hj hj' => h j (by omega) (by omega))
    rw [drop_eq_getElem_cons hlt] at hhead ⊢
    rw [rejectedLen, if_pos hhead, hrest, show i + 1 + d = i + (d + 1) by omega]
    omega

/-- What a scan reports about position `k`. -/
def scanAt (s : MarkerStream) (markers : List Marker) (k : ℕ) : Scan :=
  if k < s.remaining.length then
    if verdicts markers s.isPartial (s.cells.drop k) = .incomplete then .pending (s.offset + k)
    else .found (s.offset + k)
  else .clear (s.offset + k)

/-- The scan, entered at `n`, reports the first position from `n` on that is not rejected. The
fuel covers the positions left. -/
private theorem scanLoop_eq [Winnow] [LawfulWinnow] (hs : s.WellFormed)
    (hw : Watched markers) (fuel : ℕ) (hn : n ≤ s.remaining.length)
    (hfuel : s.remaining.length < n + fuel) : scanLoop s markers fuel (s.offset + n) =
      .ok (scanAt s markers (n + rejectedLen (verdicts markers s.isPartial) (s.cells.drop n))) 0 := by
  induction fuel generalizing n with
  | zero => omega
  | succ fuel ih =>
    have hlen := s.length_cells
    have hstart : s.offset ≤ s.offset + n := le_add_right _ _
    rw [scanLoop]
    cases hnext : s.nextCandidate markers (s.offset + n) with
    | none =>
      -- no candidate: all that is left is rejected
      have hrej := rejectedLen_drop
        (hn.trans_eq hlen.symm) le_rfl fun j hj hj' =>
          s.nextCandidate_skips hs hw hstart (by omega) (by omega)
            (fun p hp => by rw [hnext] at hp; exact nomatch hp) s.isPartial
      rw [drop_length] at hrej
      have hk : n + rejectedLen (verdicts markers s.isPartial) (s.cells.drop n) =
          s.remaining.length := by
        rw [hrej, rejectedLen]
        omega
      rw [hk, scanAt, if_neg (lt_irrefl _)]
      rfl
    | some p =>
      obtain ⟨hle, hlt⟩ := s.nextCandidate_bounds hs hw hstart hnext
      obtain ⟨k, rfl⟩ := Nat.exists_eq_add_of_le (hstart.trans hle)
      have hskip : ∀ j, n ≤ j → j < k →
          verdicts markers s.isPartial (s.cells.drop j) = .backtrack := fun j hj hj' =>
        s.nextCandidate_skips hs hw hstart (by omega) (by omega)
          (fun p hp => by rw [hnext] at hp; obtain rfl := Option.some.inj hp; omega) _
      have hrej := rejectedLen_drop
        (show n ≤ k by omega) (by omega) hskip
      have hprobe : probeMarkers markers (s.nextSlice k) =
          verdicts markers s.isPartial (s.cells.drop k) := by
        rw [probeMarkers_eq hw.wellFormed hs.nextSlice, MarkerStream.cells_nextSlice hs]
        rfl
      have hcons : s.cells.drop k = s.cells[k] :: s.cells.drop (k + 1) :=
        drop_eq_getElem_cons _
      dsimp only
      rw [Nat.add_sub_cancel_left, hprobe]
      have hk : verdicts markers s.isPartial (s.cells.drop k) ≠ .backtrack →
          n + rejectedLen (verdicts markers s.isPartial) (s.cells.drop n) = k := by
        intro hv
        rw [hrej, hcons, rejectedLen, if_neg (hcons ▸ hv)]
        omega
      cases hv : verdicts markers s.isPartial (s.cells.drop k) with
      | ok u m => rw [hk (by simp [hv]), scanAt, if_pos (by omega), hv, if_neg (by simp)]
      | incomplete => rw [hk (by simp [hv]), scanAt, if_pos (by omega), hv, if_pos rfl]
      | cut => exact absurd hv verdicts_ne_cut
      | backtrack =>
        have hk : n + rejectedLen (verdicts markers s.isPartial) (s.cells.drop n) =
            k + 1 + rejectedLen (verdicts markers s.isPartial) (s.cells.drop (k + 1)) := by
          rw [hrej, hcons, rejectedLen, if_pos (by rw [← hcons, hv])]
          omega
        have hnext' := ih (show k + 1 ≤ s.remaining.length by omega) (by omega)
        rw [hk]
        exact hnext'

/-- **Safe text.** The text before the first position that is not rejected; without any, the
marker that is there or may be there decides. -/
theorem safeTextLenMul_eq [Winnow] [LawfulWinnow] (hs : s.WellFormed) (hw : Watched markers) :
    safeTextLenMul s markers = if s.remaining = [] then .incomplete
      else if rejectedLen (verdicts markers s.isPartial) s.cells = 0 then
        if verdicts markers s.isPartial s.cells = .incomplete then .incomplete else .backtrack
      else .ok (rejectedLen (verdicts markers s.isPartial) s.cells)
        (rejectedLen (verdicts markers s.isPartial) s.cells) := by
  have hscan := scanLoop_eq hs hw (s.eofOffset + 1) (zero_le _)
    (by rw [MarkerStream.eofOffset]; omega)
  simp only [Nat.add_zero, drop_zero] at hscan
  rw [safeTextLenMul, scanMarkers, max_self, hscan, MarkerStream.eofOffset]
  by_cases hnil : s.remaining = []
  · rw [if_pos hnil, hnil, length_nil, if_pos rfl]
  · have hpos : ¬ s.remaining.length = 0 := by simpa using hnil
    by_cases hzero : rejectedLen (verdicts markers s.isPartial) s.cells = 0
    · rw [hzero, scanAt, if_pos (Nat.pos_of_ne_zero hpos)]
      by_cases hv : verdicts markers s.isPartial s.cells = .incomplete
      · simp [hv]
      · simp [hv]
    · rw [scanAt]
      split_ifs <;> simp [hzero]

end Sonar.Parser
