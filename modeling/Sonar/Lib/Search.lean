import Mathlib.Data.List.Basic
import Mathlib.Order.Nat
import Mathlib.Tactic.Common

/-!
# Searching an indexed store

A **probe** looks up an index in some store: it raises, misses, or finds a value. This file has
the loops that search with a probe, and the rule for a search that lowers a bound until a pass
over its constraints accepts it:

* `runUp` collects values upwards until the first miss;
* `findDown` goes down to the first value at an accepted index;
* `runDown` goes down until it has seen a run of `need` values without a miss, where a run may
  start only at an accepted index, and writes what it finds into a list;
* `descend` repeats a pass with the bound it returned, until a pass returns the bound it got.

Each has a soundness lemma (what was found is in the store), a totality lemma (no error if no
probe raises) and, where it is used, a completeness lemma (what is there is found).
-/

namespace Sonar.Lib

variable {ε α : Type*} {probe : ℕ → Except ε (Option α)} {accept : ℕ → Bool}

/-! ### Upwards to the first miss -/

/-- Collect the values at `i`, `i + 1`, …, at most `count` of them, up to the first miss. -/
def runUp (probe : ℕ → Except ε (Option α)) : ℕ → ℕ → Except ε (List α)
  | 0, _ => .ok []
  | count + 1, i =>
    match probe i with
    | .error e => .error e
    | .ok none => .ok []
    | .ok (some a) =>
      match runUp probe count (i + 1) with
      | .error e => .error e
      | .ok as => .ok (a :: as)

open List Nat

variable {i num need : ℕ} {a : α} {computed : List α}

/-- What was found is what the probes answered, in a row from `i`. -/
theorem runUp_sound {count : ℕ} {as : List α} (h : runUp probe count i = .ok as) :
    as.length ≤ count ∧ ∀ k a, as[k]? = some a → probe (i + k) = .ok (some a) := by
  induction count generalizing i as with
  | zero =>
    obtain rfl := Except.ok.inj h
    exact ⟨le_rfl, fun k a hk => by simp at hk⟩
  | succ count ih =>
    rw [runUp] at h
    split at h
    · cases h
    · obtain rfl := Except.ok.inj h
      exact ⟨zero_le _, fun k a hk => by simp at hk⟩
    · next b hb =>
      split at h
      · cases h
      · next bs hbs =>
        obtain rfl := Except.ok.inj h
        obtain ⟨hlength, hprobe⟩ := ih hbs
        refine ⟨succ_le_succ hlength, fun k a hk => ?_⟩
        rcases k with _ | k
        · obtain rfl := Option.some.inj hk
          exact hb
        · rw [← succ_add_eq_add_succ]
          exact hprobe k a hk

/-- The search returns if every probe does. -/
theorem runUp_total (probe : ℕ → Except ε (Option α)) (count i : ℕ) (h : ∀ k < count, ∃ o, probe (i + k) = .ok o) :
    ∃ as, runUp probe count i = .ok as := by
  induction count generalizing i with
  | zero => exact ⟨[], rfl⟩
  | succ count ih =>
    obtain ⟨as, has⟩ := ih (i + 1) fun k hk => by
      rw [succ_add_eq_add_succ]
      exact h (k + 1) (succ_lt_succ hk)
    obtain ⟨o, ho⟩ := h 0 (succ_pos count)
    rw [Nat.add_zero] at ho
    rw [runUp, ho, has]
    rcases o with _ | a
    · exact ⟨[], rfl⟩
    · exact ⟨a :: as, rfl⟩

/-- All probes hit, so the run is as long as it can be. -/
theorem runUp_complete {count : ℕ} (h : ∀ k < count, ∃ a, probe (i + k) = .ok (some a)) :
    ∃ as, runUp probe count i = .ok as ∧ as.length = count := by
  induction count generalizing i with
  | zero => exact ⟨[], rfl, rfl⟩
  | succ count ih =>
    obtain ⟨as, has, hlength⟩ := ih fun k hk => by
      rw [succ_add_eq_add_succ]
      exact h (k + 1) (succ_lt_succ hk)
    obtain ⟨a, ha⟩ := h 0 (succ_pos count)
    rw [Nat.add_zero] at ha
    rw [runUp, ha, has]
    exact ⟨a :: as, rfl, congrArg succ hlength⟩

/-! ### Downwards to the first hit -/

/-- The value at the largest accepted index below the bound that has one. -/
def findDown (probe : ℕ → Except ε (Option α)) (accept : ℕ → Bool) : ℕ → Except ε (Option (ℕ × α))
  | 0 => .ok none
  | i + 1 =>
    match probe i with
    | .error e => .error e
    | .ok none => findDown probe accept i
    | .ok (some a) => if accept i then .ok (some (i, a)) else findDown probe accept i

/-- What was found is accepted. -/
theorem findDown_sound {m : ℕ} (h : findDown probe accept m = .ok (some (i, a))) :
    i < m ∧ probe i = .ok (some a) ∧ accept i = true := by
  induction m with
  | zero => cases h
  | succ m ih =>
    rw [findDown] at h
    have hbelow : findDown probe accept m = .ok (some (i, a)) →
        i < m + 1 ∧ probe i = .ok (some a) ∧ accept i = true := by
      intro hm
      obtain ⟨hi, hrest⟩ := ih hm
      exact ⟨hi.trans (lt_succ_self m), hrest⟩
    split at h
    · cases h
    · exact hbelow h
    · next b hb =>
      split_ifs at h with haccept
      · cases h
        exact ⟨lt_succ_self _, hb, haccept⟩
      · exact hbelow h

/-- The search returns if every probe does. -/
theorem findDown_total (probe : ℕ → Except ε (Option α)) (accept : ℕ → Bool) (m : ℕ)
    (h : ∀ i < m, ∃ o, probe i = .ok o) : ∃ r, findDown probe accept m = .ok r := by
  induction m with
  | zero => exact ⟨none, rfl⟩
  | succ m ih =>
    obtain ⟨r, hr⟩ := ih fun i hi => h i (hi.trans (lt_succ_self m))
    obtain ⟨o, ho⟩ := h m (lt_succ_self m)
    rw [findDown, ho, hr]
    rcases o with _ | a
    · exact ⟨r, rfl⟩
    · split_ifs
      · exact ⟨_, rfl⟩
      · exact ⟨r, rfl⟩

/-- The top is found first. -/
theorem findDown_top {m : ℕ} (h : probe m = .ok (some a)) (haccept : accept m = true) :
    findDown probe accept (m + 1) = .ok (some (m, a)) := by
  simp [findDown, h, if_pos haccept]

/-! ### Downwards to a run of hits -/

/-- Go down from index `i - 1` with `num` values found in a row just above, writing each value into
its place. A run of `need` values ends the search, and cuts the list after the run; the flag says
whether that happened. -/
def runDown (probe : ℕ → Except ε (Option α)) (accept : ℕ → Bool) (need : ℕ) :
    ℕ → List α → ℕ → Except ε (List α × ℕ × Bool)
  | 0, computed, num => .ok (computed, num, false)
  | i + 1, computed, num =>
    match probe i with
    | .error e => .error e
    | .ok none => runDown probe accept need i computed 0
    | .ok (some a) =>
      if num = 0 ∧ accept i = false then runDown probe accept need i computed num
      else if need ≤ num + 1 then
        .ok ((computed.set i a).take (i + (num + 1)), num + 1, true)
      else runDown probe accept need i (computed.set i a) (num + 1)

/-- The `num` entries from `i` on are what the store has there, and the last of them is accepted. -/
structure IsRun (probe : ℕ → Except ε (Option α)) (accept : ℕ → Bool) (computed : List α)
    (i num : ℕ) : Prop where
  hit : ∀ k < num, ∃ a, computed[i + k]? = some a ∧ probe (i + k) = .ok (some a)
  accepted : 0 < num → accept (i + num - 1) = true

/-- The empty run. -/
theorem isRun_zero (computed : List α) (i : ℕ) : IsRun probe accept computed i 0 :=
  ⟨fun _ hk => absurd hk (not_lt_zero _), fun h => absurd h (lt_irrefl 0)⟩

/-- A run grows downwards by one value. -/
theorem IsRun.set (h : IsRun probe accept computed (i + 1) num) (ha : probe i = .ok (some a))
    (hi : i < computed.length) (haccept : ¬(num = 0 ∧ accept i = false)) :
    IsRun probe accept (computed.set i a) i (num + 1) := by
  refine ⟨fun k hk => ?_, fun _ => ?_⟩
  · rcases k with _ | k
    · exact ⟨a, by simp [hi], ha⟩
    · obtain ⟨b, hb, hprobe⟩ := h.hit k (by omega)
      rw [succ_add_eq_add_succ] at hb hprobe
      refine ⟨b, ?_, hprobe⟩
      rw [getElem?_set_ne (by omega)]
      exact hb
  · rcases Nat.eq_zero_or_pos num with rfl | hnum
    · simpa using haccept
    · have hlast := h.accepted hnum
      rwa [show i + 1 + num - 1 = i + (num + 1) - 1 by omega] at hlast

/-- Only the part up to the run matters. -/
theorem IsRun.take (h : IsRun probe accept computed i num) :
    IsRun probe accept (computed.take (i + num)) i num := by
  refine ⟨fun k hk => ?_, h.accepted⟩
  obtain ⟨a, ha, hprobe⟩ := h.hit k hk
  refine ⟨a, ?_, hprobe⟩
  rw [getElem?_take_of_lt (by omega)]
  exact ha

/-- The search ends with a run at the end of the list it cut, or with what it found from index 0
on. -/
theorem runDown_sound {num' : ℕ} {computed' : List α} {found : Bool}
    (h : runDown probe accept need i computed num = .ok (computed', num', found))
    (hrun : IsRun probe accept computed i num) (hlength : i + num ≤ computed.length)
    (hnum : num < max need 1) : ∃ s, s + num' ≤ i + num ∧ IsRun probe accept computed' s num' ∧
      if found then computed'.length = s + num' ∧ need ≤ num' ∧ 0 < num'
      else s = 0 ∧ computed'.length = computed.length ∧ num' < max need 1 := by
  induction i generalizing computed num with
  | zero =>
    cases h
    exact ⟨0, le_rfl, hrun, rfl, rfl, hnum⟩
  | succ i ih =>
    rw [runDown] at h
    split at h
    · cases h
    · -- a miss: the run starts again below
      obtain ⟨s, hs, hrun', hend⟩ := ih h (isRun_zero _ i) (by omega) (by omega)
      exact ⟨s, by omega, hrun', hend⟩
    · next a ha =>
      split_ifs at h with hskip hneed
      · obtain ⟨rfl, -⟩ := hskip
        obtain ⟨s, hs, hrun', hend⟩ := ih h (isRun_zero _ i) (by omega) hnum
        exact ⟨s, by omega, hrun', hend⟩
      · cases h
        have hset := hrun.set ha (by omega) hskip
        refine ⟨i, by omega, hset.take, ?_⟩
        have hlength' : ((computed.set i a).take (i + (num + 1))).length = i + (num + 1) :=
          length_take_of_le (by rw [length_set]; omega)
        exact ⟨hlength', hneed, succ_pos num⟩
      · obtain ⟨s, hs, hrun', hend⟩ :=
          ih h (hrun.set ha (by omega) hskip) (by rw [length_set]; omega) (by omega)
        rw [length_set] at hend
        exact ⟨s, by omega, hrun', hend⟩

/-- The search returns if every probe does. -/
theorem runDown_total (accept : ℕ → Bool) (need : ℕ)
    (computed : List α) (num : ℕ) (h : ∀ j < i, ∃ o, probe j = .ok o) :
    ∃ r, runDown probe accept need i computed num = .ok r := by
  induction i generalizing computed num with
  | zero => exact ⟨_, rfl⟩
  | succ i ih =>
    have hbelow : ∀ j < i, ∃ o, probe j = .ok o := fun j hj => h j (by omega)
    obtain ⟨o, ho⟩ := h i (lt_succ_self i)
    rw [runDown, ho]
    rcases o with _ | a
    · exact ih _ _ hbelow
    · split_ifs
      · exact ih _ _ hbelow
      · exact ⟨_, rfl⟩
      · exact ih _ _ hbelow

/-- No run of values with an accepted end goes further up than the one the search ends with. -/
theorem runDown_le {num' e : ℕ} {computed' : List α} {found : Bool}
    (h : runDown probe accept need i computed num = .ok (computed', num', found))
    (hlength : i + num ≤ computed.length) (hnum : num < max need 1) (he : e ≤ i + num)
    (haccept : accept (e - 1) = true)
    (hrun : ∀ j < e, e ≤ j + max need 1 → ∃ a, probe j = .ok (some a)) :
    e ≤ if found then computed'.length else num' := by
  induction i generalizing computed num with
  | zero =>
    cases h
    exact he.trans_eq (Nat.zero_add _)
  | succ i ih =>
    rw [runDown] at h
    split at h
    · cases h
    · next hmiss =>
      refine ih h (by omega) (by omega) (not_lt.mp fun hlt => ?_)
      -- the run would reach over the miss
      obtain ⟨a, ha⟩ := hrun i (by omega) (by omega)
      rw [hmiss] at ha
      cases ha
    · split_ifs at h with hskip hneed
      · obtain ⟨rfl, hreject⟩ := hskip
        refine ih h (by omega) hnum (not_lt.mp fun hlt => ?_)
        obtain rfl : e = i + 1 := by omega
        rw [Nat.add_sub_cancel, hreject] at haccept
        cases haccept
      · cases h
        rw [if_pos rfl, length_take_of_le (by rw [length_set]; omega)]
        omega
      · exact ih h (by rw [length_set]; omega) (by omega) (by omega)

/-- A run of values that ends below `e`, with nothing above to start a run at, is found. -/
theorem runDown_complete {e : ℕ} (he : max need 1 ≤ e) (hei : e ≤ i)
    (hlength : i ≤ computed.length) (haccept : accept (e - 1) = true)
    (htotal : ∀ j < i, ∃ o, probe j = .ok o)
    (hrun : ∀ j < e, e ≤ j + max need 1 → ∃ a, probe j = .ok (some a))
    (habove : ∀ j, e ≤ j → j < i → probe j = .ok none) :
    ∃ computed' num', runDown probe accept need i computed 0 = .ok (computed', num', true) ∧
      computed'.length = e := by
  obtain ⟨⟨computed', num', found⟩, h⟩ := runDown_total accept need _ 0 htotal
  obtain ⟨s, hs, hrun', hend⟩ := runDown_sound h (isRun_zero _ i) hlength (by omega)
  have hle := runDown_le h hlength (by omega) hei haccept hrun
  cases found with
  | false => exact absurd hend.2.2 (not_lt.mpr (he.trans hle))
  | true =>
    obtain ⟨hlength', -, hpos⟩ := hend
    refine ⟨computed', num', h, le_antisymm (not_lt.mp fun hlt => ?_) hle⟩
    -- the last value of the run would be above `e`
    obtain ⟨a, -, ha⟩ := hrun'.hit (num' - 1) (by omega)
    rw [habove _ (by omega) (by omega)] at ha
    cases ha

/-! ### Lowering a bound to a fixed point -/

/-- Repeat a pass with the bound it returns until it returns the bound it was given; with `once`,
take what the first pass returns. -/
def descend {σ : Type*} (pass : ℕ → σ → Except ε (ℕ × σ)) (once : Bool) (bound : ℕ) (s : σ) :
    Except ε (ℕ × σ) :=
  match pass bound s with
  | .error e => .error e
  | .ok (curr, s) =>
    if bound ≤ curr then .ok (bound, s)
    else if once then .ok (curr, s)
    else descend pass once curr s
termination_by bound

section Descend

variable {σ : Type*} {pass : ℕ → σ → Except ε (ℕ × σ)} {once : Bool} {bound r : ℕ} {s s' : σ}

/-- If every pass lowers the bound and keeps the invariant, then a search that returns has made a
pass that returned the bound it got, or just one pass. -/
theorem descend_sound {Inv : ℕ → σ → Prop} (h : descend pass once bound s = .ok (r, s'))
    (hstep : ∀ b t c t', Inv b t → pass b t = .ok (c, t') → c ≤ b ∧ Inv c t')
    (hinv : Inv bound s) : r ≤ bound ∧ ((∃ t, Inv r t ∧ pass r t = .ok (r, s')) ∨
      once = true ∧ pass bound s = .ok (r, s')) := by
  induction bound using Nat.strongRecOn generalizing s with
  | ind bound ih =>
    rw [descend] at h
    split at h
    · cases h
    · next curr t hpass =>
      obtain ⟨hle, hinv'⟩ := hstep bound s curr t hinv hpass
      split_ifs at h with hfix honce
      · obtain rfl : curr = bound := le_antisymm hle hfix
        cases h
        exact ⟨le_rfl, .inl ⟨s, hinv, hpass⟩⟩
      · cases h
        exact ⟨hle, .inr ⟨honce, hpass⟩⟩
      · obtain ⟨hr, hend⟩ := ih curr (by omega) h hinv'
        refine ⟨hr.trans hle, .inl (hend.resolve_right fun hend => ?_)⟩
        exact honce hend.1

/-- The loop ends, if every pass keeps the invariant. -/
theorem descend_total {Inv : ℕ → σ → Prop}
    (hstep : ∀ b t, Inv b t → ∃ c t', pass b t = .ok (c, t') ∧ Inv c t') (hinv : Inv bound s) :
    ∃ r s', descend pass once bound s = .ok (r, s') := by
  induction bound using Nat.strongRecOn generalizing s with
  | ind bound ih =>
    obtain ⟨c, t, hpass, hinv'⟩ := hstep bound s hinv
    rw [descend, hpass]
    dsimp only
    split_ifs
    · exact ⟨_, _, rfl⟩
    · exact ⟨_, _, rfl⟩
    · exact ih c (by omega) hinv'

end Descend

end Sonar.Lib
