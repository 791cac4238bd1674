import Mathlib.Data.List.DropRight
import Mathlib.Algebra.Order.Group.Int
import Mathlib.Order.Bounds.Basic
import Sonar.Lib.Suffixes

/-!
# Drafts from n-grams

The drafter looks for the last tokens of a request earlier in the request and proposes the tokens
that followed. It is a Knuth–Morris–Pratt scan of the reversed tokens for their own prefixes, with a
failure table of `max_ngram` entries. A state of the scan stands for the longest suffix that is a
prefix of at most `max_ngram` tokens; at the cap it is replaced by its failure, which the next token
cannot tell from it.
-/

namespace Sonar.SpecDecode

open Lib List

variable {α : Type}

/-- The variables of the scan. -/
structure NgramScan where
  lps : List ℕ
  longestNgram : ℕ := 0
  position : ℕ := 0
  prevLps : ℕ := 0
  i : ℕ := 1

namespace NgramScan

/-- The round where the tokens agree. -/
def matched (maxNgram : ℕ) (s : NgramScan) : Option NgramScan :=
  let prevLps := s.prevLps + 1
  let longer := s.longestNgram ≤ prevLps
  let lps := if s.i < maxNgram then s.lps.set s.i prevLps else s.lps
  if s.i < maxNgram ∧ s.lps.length ≤ s.i then none
  else (if prevLps = maxNgram then lps[maxNgram - 1]? else some prevLps).map fun fallback =>
    { lps, longestNgram := if longer then prevLps else s.longestNgram,
      position := if longer then s.i else s.position, prevLps := fallback, i := s.i + 1 }

/-- One round of the loop; `none` is an index outside an array. -/
def step [DecidableEq α] (tokens : List α) (maxNgram : ℕ) (s : NgramScan) : Option NgramScan :=
  match tokens[s.prevLps]?, tokens[s.i]? with
  | some next, some token =>
    if next = token then s.matched maxNgram
    else if s.prevLps ≠ 0 then s.lps[s.prevLps - 1]?.map fun prevLps => { s with prevLps }
    else some { s with i := s.i + 1 }
  | _, _ => none

/-- The loop, for at most `fuel` rounds. -/
def run [DecidableEq α] (tokens : List α) (maxNgram : ℕ) (s : NgramScan) : ℕ → Option NgramScan
  | 0 => if s.i < tokens.length then none else some s
  | fuel + 1 =>
    if s.i < tokens.length then do run tokens maxNgram (← s.step tokens maxNgram) fuel else some s

end NgramScan

/-- The draft, or `none` if an index is outside an array or the fuel is spent. -/
def findLongestMatchedNgramAndProposeTokens [DecidableEq α] (fuel : ℕ) (originTokens : List α)
    (minNgram maxNgram : ℕ) (maxModelLen k : ℤ) : Option (List α) :=
  let totalToken := originTokens.length
  let k := min k (maxModelLen - totalToken)
  if totalToken < minNgram ∨ k ≤ 0 then some []
  else do
    let s ← NgramScan.run originTokens.reverse maxNgram { lps := replicate maxNgram 0 } fuel
    if s.longestNgram < minNgram then return []
    let startPosition := totalToken - 1 - s.position + s.longestNgram
    return (originTokens.drop startPosition).take (min k (totalToken - startPosition)).toNat

/-- The last `n` tokens also stand at `start`, ending before the end. -/
abbrev OccursAt (tokens : List α) (n start : ℕ) : Prop :=
  tokens.rtake n <+: (tokens.drop start).dropLast

/-- The prefixes of at most `m` tokens. -/
def Prefixes (r : List α) (m : ℕ) : Set (List α) := {w | w <+: r ∧ w.length ≤ m}

variable {r : List α} {m n : ℕ} {s : NgramScan} {x y : α}

private theorem prefixClosed_prefixes : PrefixClosed (Prefixes r m) where
  nil := ⟨ nil_prefix, Nat.zero_le _⟩
  init w b := by
    rintro ⟨hpre, hlen⟩
    rw [length_append] at hlen
    exact ⟨(prefix_append _ _).trans hpre, Nat.le_of_add_right_le hlen⟩

private theorem take_succ_eq (hx : r[n]? = some x) : r.take (n + 1) = r.take n ++ [x] := by
  rw [take_add_one, hx, Option.toList_some]

private theorem take_append_mem_iff (hx : r[n]? = some x) (hn : n < m) :
    r.take n ++ [y] ∈ Prefixes r m ↔ x = y := by
  obtain ⟨hlt, rfl⟩ := List.getElem?_eq_some_iff.mp hx
  have hpre : r.take n ++ [y] <+: r ↔ y = r[n] := by
    nth_rewrite 2 [← take_append_drop n r]
    rw [prefix_append_right_inj, drop_eq_getElem_cons hlt, cons_prefix_cons]
    exact and_iff_left nil_prefix
  have hlen : (r.take n ++ [y]).length ≤ m := by simpa [hlt.le] using Nat.succ_le_of_lt hn
  exact (and_iff_left hlen).trans (hpre.trans eq_comm)

/-- The tokens up to `i`, without the first, end in `n` tokens of the prefix and not in more. -/
def EndsIn (r : List α) (m i n : ℕ) : Prop :=
  LongestSuffix (Prefixes r m) (r.take (i + 1)).tail (r.take n)

private theorem EndsIn.le {i v : ℕ} (h : EndsIn r m i n) (hi : i < r.length) (hv : v ≤ m)
    (hsuffix : r.take v <:+ (r.take (i + 1)).tail) : v ≤ n := by
  have hmem : r.take v ∈ Prefixes r m := ⟨ take_prefix _ _, (length_take_le _ _).trans hv⟩
  have hlen := (h.longest _ hmem hsuffix).length_le
  have hlt := hsuffix.length_le
  simp only [length_tail, length_take] at hlen hlt
  omega

namespace NgramScan

/-- The state stands for what the tokens so far end in, the table has the failures of the prefixes
so far, and the longest match so far is the one recorded, at its last place. -/
structure Inv (r : List α) (m : ℕ) (s : NgramScan) : Prop where
  length : s.lps.length = m
  cap : s.prevLps < m
  lt : s.prevLps < s.i
  state : ∀ x v, r[s.i]? = some x → (LongestSuffix (Prefixes r m) ((r.take s.i).tail ++ [x]) v ↔
    LongestSuffix (Prefixes r m) (r.take s.prevLps ++ [x]) v)
  table : ∀ j v, s.lps[j]? = some v → (j < s.i → v ≤ j ∧ EndsIn r m j v) ∧ (s.i ≤ j → v = 0)
  most : ∀ j < s.i, ∀ n ≤ m, 0 < n → r.take n <:+ (r.take (j + 1)).tail →
    n < s.longestNgram ∨ n = s.longestNgram ∧ j ≤ s.position
  found : 0 < s.longestNgram → s.longestNgram ≤ m ∧ s.position < r.length ∧
    r.take s.longestNgram <:+ (r.take (s.position + 1)).tail

/-- The state before the first token. -/
private theorem Inv.init (hr : 0 < r.length) (hm : 0 < m) : Inv r m { lps := replicate m 0 } := by
  have hnil : EndsIn r m 0 0 := by cases r <;> exact .nil prefixClosed_prefixes
  refine ⟨length_replicate, hm, one_pos, fun x v _ => by cases r <;> rfl, ?_, ?_,
    fun h => absurd rfl h.ne⟩
  · intro j v hv
    obtain ⟨-, rfl⟩ := List.getElem?_eq_some_iff.mp hv
    rw [getElem_replicate]
    refine ⟨fun hj => ?_, fun _ => rfl⟩
    obtain rfl := Nat.lt_one_iff.mp hj
    exact ⟨le_rfl, hnil⟩
  · intro j hj n hn hpos hsuffix
    obtain rfl := Nat.lt_one_iff.mp hj
    exact absurd (hnil.le hr hn hsuffix) hpos.not_ge

/-- What is left of the loop. -/
def left (r : List α) (s : NgramScan) : ℕ := 2 * (r.length - s.i) + s.prevLps

/-- The next token, after which the tokens end in `n` tokens of the prefix. -/
theorem Inv.advance (h : Inv r m s) {s' : NgramScan} (hi : s.i < r.length) (hn : n ≤ s.prevLps + 1)
    (hends : EndsIn r m s.i n) (hi' : s'.i = s.i + 1) (hlength : s'.lps.length = m)
    (hlps : ∀ j v, s'.lps[j]? = some v → if j = s.i then v = n else s.lps[j]? = some v)
    (hprev : (if n = m then s'.lps[m - 1]? else some n) = some s'.prevLps)
    (hfound : if 0 < n ∧ s.longestNgram ≤ n then s'.longestNgram = n ∧ s'.position = s.i
      else s'.longestNgram = s.longestNgram ∧ s'.position = s.position) :
    Inv r m s' ∧ s'.left r < s.left r := by
  have hcap := h.cap
  have hlt := h.lt
  have htable : ∀ j v, s'.lps[j]? = some v →
      (j < s'.i → v ≤ j ∧ EndsIn r m j v) ∧ (s'.i ≤ j → v = 0) := by
    intro j v hv
    have hold := hlps j v hv
    split_ifs at hold with hj
    · rw [hj, hold]
      exact ⟨fun _ => ⟨by omega, hends⟩, by omega⟩
    · refine (h.table j v hold).imp (fun hentry _ => hentry ?_) fun hentry _ => hentry ?_ <;> omega
  have hstate : s'.prevLps ≤ n ∧ s'.prevLps < m ∧ ∀ x v,
      (LongestSuffix (Prefixes r m) ((r.take (s.i + 1)).tail ++ [x]) v ↔
        LongestSuffix (Prefixes r m) (r.take s'.prevLps ++ [x]) v) := by
    split_ifs at hprev with hcapped
    · -- at the cap no token extends the state, so its failure stands for it
      subst hcapped
      obtain ⟨hle, hfail⟩ := (htable _ _ hprev).1 (by omega)
      rw [EndsIn, Nat.sub_add_cancel (by omega)] at hfail
      have hfull : (r.take n).length = n := length_take_of_le (by omega)
      refine ⟨by omega, by omega, fun x v => ?_⟩
      rw [hends.append_iff prefixClosed_prefixes]
      refine LongestSuffix.failure_iff prefixClosed_prefixes ?_ ?_ hfail
      · exact ne_nil_of_length_pos (by omega)
      · rintro ⟨-, hlen⟩
        rw [length_append, hfull] at hlen
        exact Nat.not_succ_le_self _ hlen
    · obtain rfl := Option.some.inj hprev
      exact ⟨le_rfl, by omega, fun x v => hends.append_iff prefixClosed_prefixes⟩
  refine ⟨⟨hlength, hstate.2.1, by omega, ?_, htable, ?_, ?_⟩, by simp only [left]; omega⟩
  · rw [hi']
    exact fun x v _ => hstate.2.2 x v
  · intro j hj v hv hpos hsuffix
    rcases Nat.lt_succ_iff_lt_or_eq.mp (hi' ▸ hj) with hj | rfl
    · have hold := h.most j hj v hv hpos hsuffix
      split_ifs at hfound <;> omega
    · have hle := hends.le hi hv hsuffix
      split_ifs at hfound <;> omega
  · split_ifs at hfound
    · rw [hfound.1, hfound.2]
      exact fun _ => ⟨by omega, hi, hends.suffix⟩
    · rw [hfound.1, hfound.2]
      exact h.found

/-- A match goes one token further. -/
private theorem Inv.matched (h : Inv r m s) (hi : s.i < r.length) (hends : EndsIn r m s.i (s.prevLps + 1)) :
    ∃ s', s.matched m = some s' ∧ Inv r m s' ∧ s'.left r < s.left r := by
  have hlength := h.length
  let lps := if s.i < m then s.lps.set s.i (s.prevLps + 1) else s.lps
  have hlps : lps.length = m ∧ ∀ j v, lps[j]? = some v →
      if j = s.i then v = s.prevLps + 1 else s.lps[j]? = some v := by
    constructor <;> grind
  obtain ⟨prevLps, hprev⟩ : ∃ v, (if s.prevLps + 1 = m then lps[m - 1]? else some (s.prevLps + 1)) =
      some v := by
    split_ifs
    · exact ⟨_, getElem?_eq_getElem (by omega)⟩
    · exact ⟨_, rfl⟩
  refine ⟨_, by rw [NgramScan.matched, if_neg (by omega), hprev]; rfl, ?_⟩
  refine h.advance hi le_rfl hends rfl hlps.1 hlps.2 hprev ?_
  grind

/-- A round of the search returns, and comes closer to the end. -/
theorem Inv.step [DecidableEq α] (h : Inv r m s) (hi : s.i < r.length) :
    ∃ s', s.step r m = some s' ∧ Inv r m s' ∧ s'.left r < s.left r := by
  have hcap := h.cap
  have hlt := h.lt
  have hlength := h.length
  obtain ⟨x, hx⟩ : ∃ x, r[s.prevLps]? = some x := ⟨_, getElem?_eq_getElem (hlt.trans hi)⟩
  obtain ⟨y, hy⟩ : ∃ y, r[s.i]? = some y := ⟨_, getElem?_eq_getElem hi⟩
  have hmem := take_append_mem_iff hx (y := y) hcap
  have hne : ∀ {k}, 0 < k → k ≤ s.i → r.take k ≠ [] := fun hpos hle =>
    ne_nil_of_length_pos (by rw [length_take]; omega)
  have hends : ∀ n, EndsIn r m s.i n ↔
      LongestSuffix (Prefixes r m) (r.take s.prevLps ++ [y]) (r.take n) := by
    intro n
    rw [EndsIn, take_succ_eq hy, tail_append_of_ne_nil (hne (by omega) le_rfl)]
    exact h.state y _ hy
  by_cases hxy : x = y
  · obtain ⟨s', hstep, hs'⟩ := h.matched hi ((hends _).mpr (by
      rw [take_succ_eq (hxy ▸ hx)]
      exact .of_mem (hmem.mpr hxy)))
    exact ⟨s', by simpa [NgramScan.step, hx, hy, hxy] using hstep, hs'⟩
  · have hext : r.take s.prevLps ++ [y] ∉ Prefixes r m := mt hmem.mp hxy
    by_cases hzero : s.prevLps = 0
    · rw [hzero] at hext hends
      refine ⟨{ s with i := s.i + 1 }, by rw [NgramScan.step, hx, hy]; simp [hxy, hzero], ?_⟩
      refine h.advance hi (Nat.zero_le _) ((hends 0).mpr (.of_singleton prefixClosed_prefixes hext))
        rfl hlength ?_ ?_ ⟨rfl, rfl⟩
      · intro j v hv
        split_ifs with hj
        · exact (h.table j v hv).2 hj.ge
        · exact hv
      · rw [if_neg (by omega), hzero]
    · obtain ⟨prevLps, hprev⟩ : ∃ v, s.lps[s.prevLps - 1]? = some v :=
        ⟨_, getElem?_eq_getElem (by omega)⟩
      obtain ⟨hle, hfail⟩ := (h.table _ _ hprev).1 (by omega)
      rw [EndsIn, Nat.sub_add_cancel (by omega)] at hfail
      refine ⟨{ s with prevLps }, by simp [NgramScan.step, hx, hy, hxy, hzero, hprev],
        ⟨hlength, by dsimp only; omega, by dsimp only; omega, ?_, h.table, h.most, h.found⟩,
        by dsimp only [left]; omega⟩
      intro z v hz
      obtain rfl := Option.some.inj (hy.symm.trans hz)
      rw [h.state y v hy]
      exact LongestSuffix.failure_iff prefixClosed_prefixes (hne (by omega) hlt.le) hext hfail

/-- The loop ends within its fuel, having read all of the tokens. -/
private theorem Inv.run [DecidableEq α] {fuel : ℕ} (h : Inv r m s) (hfuel : s.left r ≤ fuel) :
    ∃ s', s.run r m fuel = some s' ∧ Inv r m s' ∧ r.length ≤ s'.i := by
  induction fuel generalizing s with
  | zero =>
    have hdone : ¬s.i < r.length := by
      rw [left] at hfuel
      omega
    exact ⟨s, if_neg hdone, h, not_lt.mp hdone⟩
  | succ fuel ih =>
    rw [run]
    split_ifs with hi
    · obtain ⟨s', hstep, hs', hlt⟩ := h.step hi
      rw [hstep]
      exact ih hs' (by omega)
    · exact ⟨s, rfl, h, not_lt.mp hi⟩

end NgramScan

/-- A match in the reversed tokens. -/
private theorem occursAt_iff {tokens : List α} {j : ℕ} : OccursAt tokens n (tokens.length - 1 - j) ↔
    tokens.reverse.take n <:+ (tokens.reverse.take (j + 1)).tail := by
  rw [OccursAt, rtake, ← reverse_suffix, ← tail_reverse, take_reverse, take_reverse, Nat.sub_sub,
    Nat.add_comm 1]

/-- The draft is what followed the first place of the longest last n-gram, as far as there is
room. -/
theorem propose_eq [DecidableEq α] {tokens : List α} {minNgram maxNgram fuel : ℕ} (n start : ℕ)
    (hmin : 1 ≤ minNgram) (hmax : minNgram ≤ maxNgram) (hfuel : 2 * tokens.length ≤ fuel)
    (hn : IsGreatest {n | n ≤ maxNgram ∧ ∃ start, OccursAt tokens n start} n)
    (hstart : IsLeast {start | OccursAt tokens n start} start) (maxModelLen k : ℤ) :
    findLongestMatchedNgramAndProposeTokens fuel tokens minNgram maxNgram maxModelLen k =
      let room := min k (maxModelLen - tokens.length)
      some (if n < minNgram ∨ room ≤ 0 then [] else (tokens.drop (start + n)).take room.toNat) := by
  rw [findLongestMatchedNgramAndProposeTokens]
  by_cases hempty : tokens = []
  · simp [hempty, Nat.pos_iff_ne_zero.mp hmin]
  have hlen := length_pos_iff.mpr hempty
  obtain ⟨s, hrun, hs, hdone⟩ := (NgramScan.Inv.init (r := tokens.reverse)
    (by simpa using hlen) (hmin.trans hmax)).run
      (show NgramScan.left _ _ ≤ fuel by simp only [NgramScan.left, length_reverse]; omega)
  have hmost : ∀ n start, n ≤ maxNgram → 0 < n → OccursAt tokens n start →
      n < s.longestNgram ∨ n = s.longestNgram ∧ tokens.length - 1 - s.position ≤ start := by
    intro n start hn hpos hoccurs
    have hfits := hoccurs.length_le
    rw [rtake, length_drop, length_dropLast, length_drop] at hfits
    have hj : start = tokens.length - 1 - (tokens.length - 1 - start) := by omega
    rw [hj, occursAt_iff] at hoccurs
    rw [length_reverse] at hdone
    have := hs.most _ (by omega) n hn hpos hoccurs
    omega
  have hfound : 0 < s.longestNgram → s.longestNgram ≤ maxNgram ∧ s.position < tokens.length ∧
      OccursAt tokens s.longestNgram (tokens.length - 1 - s.position) := by
    rw [occursAt_iff, ← length_reverse]
    exact hs.found
  obtain ⟨⟨hle, place, hplace⟩, hupper⟩ := hn
  have hn : n ≤ s.longestNgram := by
    by_contra hgt
    have := hmost n place hle (by omega) hplace
    omega
  by_cases hshort : s.longestNgram < minNgram
  · simp [hrun, hshort, hn.trans_lt hshort]
  · obtain ⟨hcap, hpos, hoccurs⟩ := hfound (by omega)
    obtain rfl : n = s.longestNgram := hn.antisymm (hupper ⟨hcap, _, hoccurs⟩)
    have hfirst := hstart.2 hoccurs
    have hlast := hmost _ _ hcap (by omega) hstart.1
    obtain rfl : start = tokens.length - 1 - s.position := by omega
    have hfits := hoccurs.length_le
    rw [rtake, length_drop, length_dropLast, length_drop] at hfits
    by_cases hfull : min k (maxModelLen - tokens.length) ≤ 0
    · simp [hfull]
    · simp only [hrun, hfull, hshort, or_false, Option.bind_eq_bind, Option.bind_some]
      rw [if_neg (by omega)]
      refine congrArg some (take_eq_take_iff.mpr ?_)
      rw [length_drop]
      omega

/-- One token repeated: the proposal repeats it. -/
theorem propose_eq_repeated :
    findLongestMatchedNgramAndProposeTokens 4 [7, 7] 1 1 3 1 = some [7] :=
  propose_eq 1 0 (by decide) (by decide) (by decide) ⟨⟨le_rfl, 0, by decide⟩, fun _ h => h.1⟩
    ⟨by decide, fun _ _ => Nat.zero_le _⟩ 3 1

end Sonar.SpecDecode
