import Mathlib.Data.List.TakeWhile

/-!
# Parsing input that has not all arrived

A parser over a growing buffer answers one of four things about what it has seen: it matched and
consumed a prefix, the input is not its own (`backtrack`), the input is wrong (`cut`), or it cannot
tell before more arrives (`incomplete`). What makes such a parser usable on a stream is that an
answer, once given, does not change with more input: `Stable`. Sequencing and ordered choice keep
stability, so the parsers of a grammar are stable because their literals are.

`fit` compares a list of predicates with the input, one predicate for each element. A literal is
the list of its characters; predicates on richer elements let one comparison look at a character
and at what produced it.
-/

namespace Sonar.Lib

open List

variable {σ α β : Type*}

/-- What a parser says about the input seen so far. -/
inductive Outcome (α : Type*) where
  /-- A prefix of the given length was consumed. -/
  | ok (value : α) (consumed : ℕ)
  /-- Not this parser's input; another alternative may try. -/
  | backtrack
  /-- Wrong input; no alternative is tried. -/
  | cut
  /-- Undecided before more input arrives. -/
  | incomplete
deriving DecidableEq

open Outcome

namespace Outcome

/-- The outcome when no more input will arrive: what is undecided does not match. -/
def complete : Outcome α → Outcome α
  | .incomplete => .backtrack
  | r => r

end Outcome

/-- A parser whose answers survive more input, and that consumes only what it has. -/
structure Stable (p : List σ → Outcome α) : Prop where
  extend : ∀ buf more, p buf ≠ .incomplete → p (buf ++ more) = p buf
  consumed_le : ∀ buf a n, p buf = .ok a n → n ≤ buf.length

/-! ### Comparing a prefix -/

/-- How a list of predicates compares with a list of elements. -/
inductive Fit where
  /-- Every predicate has its element. -/
  | fits
  /-- The elements end first, and satisfied their predicates. -/
  | undecided
  /-- Some element fails its predicate. -/
  | fails
deriving DecidableEq

/-- Compare the predicates with the elements, in order. -/
def fit : List (σ → Bool) → List σ → Fit
  | [], _ => .fits
  | _ :: _, [] => .undecided
  | p :: ps, c :: cs => if p c then fit ps cs else .fails

variable {ps : List (σ → Bool)} {buf : List σ} {n : ℕ} {r : Outcome α} {p : List σ → Outcome α}
  {q : α → List σ → Outcome β}

private theorem fit_append {more : List σ}
    (h : fit ps buf ≠ .undecided) : fit ps (buf ++ more) = fit ps buf := by
  induction ps generalizing buf with
  | nil => rfl
  | cons p ps ih =>
    cases buf with
    | nil => exact absurd rfl h
    | cons c cs =>
      rw [cons_append]
      simp only [fit] at h ⊢
      split_ifs with hp
      · rw [if_pos hp] at h
        exact ih h
      · rfl

/-- The lengths of what was compared. -/
theorem fit_length : match fit ps buf with
    | .fits => ps.length ≤ buf.length
    | .undecided => buf.length < ps.length
    | .fails => True := by
  induction ps generalizing buf with
  | nil => exact Nat.zero_le _
  | cons p ps ih =>
    cases buf with
    | nil => exact Nat.succ_pos _
    | cons c cs =>
      have h := @ih cs
      rw [fit]
      split_ifs
      · cases hfit : fit ps cs <;> simp_all
      · trivial

/-- The elements that are there satisfy their predicates. -/
theorem fit_ne_fails_iff : fit ps buf ≠ .fails ↔
      ∀ (i : ℕ) (p : σ → Bool) (c : σ), ps[i]? = some p → buf[i]? = some c → p c = true := by
  induction ps generalizing buf with
  | nil => simp [fit]
  | cons p ps ih =>
    cases buf with
    | nil => simp [fit]
    | cons c cs =>
      rw [fit]
      constructor
      · intro h i q d hq hd
        have hp : p c = true := by
          by_contra hp
          rw [if_neg hp] at h
          exact h rfl
        rw [if_pos hp] at h
        cases i with
        | zero =>
          obtain rfl := Option.some.inj hq
          obtain rfl := Option.some.inj hd
          exact hp
        | succ i => exact ih.mp h i q d hq hd
      · intro h
        rw [if_pos (h 0 p c rfl rfl)]
        exact ih.mpr fun i q d hq hd => h (i + 1) q d hq hd

/-- Of the two answers that are not a failure, the lengths decide. -/
theorem fit_eq_fits_iff : fit ps buf = .fits ↔ fit ps buf ≠ .fails ∧ ps.length ≤ buf.length := by
  have h := @fit_length _ ps buf
  cases hfit : fit ps buf <;> simp_all

/-- The elements that are there satisfy their predicates, and there are too few. -/
theorem fit_eq_undecided_iff :
    fit ps buf = .undecided ↔ fit ps buf ≠ .fails ∧ buf.length < ps.length := by
  have h := @fit_length _ ps buf
  cases hfit : fit ps buf <;> simp_all

/-- A comparison as a parser that consumes what it matched. -/
def matching (ps : List (σ → Bool)) (buf : List σ) : Outcome Unit :=
  match fit ps buf with
  | .fits => .ok () ps.length
  | .undecided => .incomplete
  | .fails => .backtrack

/-- A comparison does not change its answer. -/
theorem matching_stable : Stable (matching ps) where
  extend buf more h := by
    have hne : fit ps buf ≠ .undecided := by
      intro hu
      rw [matching, hu] at h
      exact h rfl
    rw [matching, matching, fit_append hne]
  consumed_le buf a n h := by
    rw [matching] at h
    split at h
    · next hfits =>
      obtain ⟨-, rfl⟩ := ok.inj h
      exact (fit_eq_fits_iff.mp hfits).2
    · cases h
    · cases h

/-! ### Combinators -/

/-- The fixed text `t`. -/
def literal [DecidableEq σ] (t : List σ) : List σ → Outcome Unit :=
  matching (t.map fun a b => decide (b = a))

/-- A literal fits where the text begins with it. -/
theorem fit_literal_fits_iff [DecidableEq σ] {t : List σ} :
    fit (t.map fun a b => decide (b = a)) buf = .fits ↔ t <+: buf := by
  induction t generalizing buf with
  | nil => simp [fit]
  | cons a t ih =>
    cases buf with
    | nil => simp [fit]
    | cons b buf =>
      rw [map_cons, fit]
      by_cases h : b = a
      · simp [h, ih]
      · simp [h, Ne.symm h]

/-- A literal is undecided where it begins with all of the text. -/
theorem fit_literal_undecided_iff [DecidableEq σ] {t : List σ} :
    fit (t.map fun a b => decide (b = a)) buf = .undecided ↔ buf <+: t ∧ buf.length < t.length := by
  induction t generalizing buf with
  | nil => simp [fit]
  | cons a t ih =>
    cases buf with
    | nil => simp [fit]
    | cons b buf =>
      rw [map_cons, fit]
      by_cases h : b = a
      · simp [h, ih]
      · simp [h]

/-- A literal is ruled out, there, or there as far as the input goes. -/
theorem literal_cases [DecidableEq σ] (t buf : List σ) :
    ((¬ t <+: buf ∧ ¬ buf <+: t) ∧ literal t buf = .backtrack) ∨
    (t <+: buf ∧ literal t buf = .ok () t.length) ∨
    ((buf <+: t ∧ buf.length < t.length) ∧ literal t buf = .incomplete) := by
  rw [literal, matching, length_map]
  cases hfit : fit (t.map fun a b => decide (b = a)) buf with
  | fits => exact .inr (.inl ⟨fit_literal_fits_iff.mp hfit, rfl⟩)
  | undecided => exact .inr (.inr ⟨fit_literal_undecided_iff.mp hfit, rfl⟩)
  | fails =>
    have hfits : ¬ t <+: buf := fun h => by
      rw [fit_literal_fits_iff.mpr h] at hfit
      cases hfit
    refine .inl ⟨⟨hfits, fun h => ?_⟩, rfl⟩
    rcases h.length_le.lt_or_eq with hlt | heq
    · rw [fit_literal_undecided_iff.mpr ⟨h, hlt⟩] at hfit
      cases hfit
    · exact hfits (h.eq_of_length heq ▸ prefix_rfl)

/-- A literal does not change its answer. -/
theorem literal_stable [DecidableEq σ] {t : List σ} : Stable (literal t) := matching_stable

/-- The longest run of elements that satisfy `pred`; undecided while the run may go on. -/
def takeWhile0 (pred : σ → Bool) (buf : List σ) : Outcome Unit :=
  if buf.all pred then .incomplete else .ok () (buf.takeWhile pred).length

/-- A run that has ended stays as it is. -/
theorem takeWhile0_stable (pred : σ → Bool) : Stable (takeWhile0 pred) where
  extend buf more h := by
    have hall : ¬ buf.all pred = true := by
      intro hall
      rw [takeWhile0, if_pos hall] at h
      exact h rfl
    have hmore : ¬ (buf ++ more).all pred = true := by
      simp [hall]
    have hlen : ¬ (buf.takeWhile pred).length = buf.length := fun hlen =>
      hall (all_eq_true.mpr
        (takeWhile_eq_self_iff.mp (( takeWhile_prefix pred).eq_of_length hlen)))
    rw [takeWhile0, takeWhile0, if_neg hall, if_neg hmore, takeWhile_append, if_neg hlen]
  consumed_le buf a n h := by
    rw [takeWhile0] at h
    split_ifs at h
    obtain ⟨-, rfl⟩ := ok.inj h
    exact ( takeWhile_prefix pred).length_le

/-- The outcome after `n` elements that were consumed before. -/
def Outcome.after (n : ℕ) : Outcome α → Outcome α
  | .ok a m => .ok a (n + m)
  | r => r

/-- `p`, then what `q` makes of the rest. -/
def andThen (p : List σ → Outcome α) (q : α → List σ → Outcome β) (buf : List σ) : Outcome β :=
  match p buf with
  | .ok a n => (q a (buf.drop n)).after n
  | .backtrack => .backtrack
  | .cut => .cut
  | .incomplete => .incomplete

/-- An answer other than `incomplete` is the one with more input. -/
theorem Stable.extend_eq (hp : Stable p) {more : List σ}
    (h : p buf = r) (hr : r ≠ .incomplete) : p (buf ++ more) = r := by
  rw [hp.extend buf more (h ▸ hr), h]

/-- Sequencing keeps stability. -/
theorem Stable.andThen (hp : Stable p) (hq : ∀ a, Stable (q a)) : Stable (andThen p q) where
  extend buf more h := by
    simp only [Lib.andThen] at h ⊢
    cases hpb : p buf with
    | ok a n =>
      simp only [hpb] at h
      rw [hp.extend_eq hpb (by simp)]
      dsimp only
      rw [drop_append_of_le_length (hp.consumed_le buf a n hpb),
        (hq a).extend _ more fun hinc => h (by rw [hinc]; rfl)]
    | backtrack => rw [hp.extend_eq hpb (by simp)]
    | cut => rw [hp.extend_eq hpb (by simp)]
    | incomplete => simp [hpb] at h
  consumed_le buf b n h := by
    simp only [Lib.andThen] at h
    cases hpb : p buf with
    | ok a k =>
      simp only [hpb] at h
      cases hqb : q a (buf.drop k) with
      | ok c m =>
        simp only [hqb, Outcome.after, ok.injEq] at h
        have hk := hp.consumed_le buf a k hpb
        have hm := (hq a).consumed_le _ c m hqb
        rw [length_drop] at hm
        omega
      | _ => simp [hqb, Outcome.after] at h
    | _ => simp [hpb] at h

/-- A sequence backtracks where one of its parts does. -/
theorem andThen_eq_backtrack : andThen p q buf = .backtrack ↔
      p buf = .backtrack ∨ ∃ a n, p buf = .ok a n ∧ q a (buf.drop n) = .backtrack := by
  rw [andThen]
  cases hp : p buf with
  | ok a n =>
    have hafter : (q a (buf.drop n)).after n = .backtrack ↔ q a (buf.drop n) = .backtrack := by
      cases q a (buf.drop n) <;> simp [Outcome.after]
    constructor
    · intro h
      exact .inr ⟨a, n, rfl, hafter.mp h⟩
    · rintro (h | ⟨b, k, hbk, h⟩)
      · cases h
      · obtain ⟨rfl, rfl⟩ := ok.inj hbk
        exact hafter.mpr h
  | _ => simp

/-- The outcome with another value. -/
def Outcome.map (f : α → β) : Outcome α → Outcome β
  | .ok a n => .ok (f a) n
  | .backtrack => .backtrack
  | .cut => .cut
  | .incomplete => .incomplete

/-- Where a mapped outcome comes from. -/
theorem exists_of_map_ok {f : α → β} {b : β} (h : r.map f = .ok b n) :
    ∃ a, r = .ok a n ∧ f a = b := by
  cases r with
  | ok a m =>
    obtain ⟨rfl, rfl⟩ := ok.inj h
    exact ⟨a, rfl, rfl⟩
  | _ => cases h

/-- A sequence matched, so its second part did. -/
theorem exists_of_andThen_ok
    {b : β} (h : andThen p q buf = .ok b n) : ∃ a rest m, q a rest = .ok b m := by
  rw [andThen] at h
  cases hp : p buf with
  | ok a k =>
    rw [hp] at h
    cases hq : q a (buf.drop k) with
    | ok c m =>
      simp only [hq, Outcome.after, ok.injEq] at h
      exact ⟨a, _, m, h.1 ▸ hq⟩
    | _ => simp [hq, Outcome.after] at h
  | _ => simp [hp] at h

/-- Values may be mapped. -/
theorem Stable.map (hp : Stable p) {f : α → β} : Stable fun buf => (p buf).map f where
  extend buf more h := by
    rw [hp.extend buf more fun heq => h (by rw [heq]; rfl)]
  consumed_le buf b n h := by
    cases hpb : p buf with
    | ok a k =>
      rw [hpb] at h
      obtain ⟨-, rfl⟩ := ok.inj h
      exact hp.consumed_le buf a k hpb
    | _ => simp [hpb, Outcome.map] at h

/-- Parsers one after the other, whose values do not matter. -/
def sequence : List (List σ → Outcome Unit) → List σ → Outcome Unit
  | [], _ => .ok () 0
  | p :: ps, buf => andThen p (fun _ => sequence ps) buf

/-- A sequence of stable parsers. -/
theorem Stable.sequence {ps : List (List σ → Outcome Unit)} (h : ∀ p ∈ ps, Stable p) :
    Stable (sequence ps) := by
  induction ps with
  | nil =>
    refine ⟨fun _ _ _ => rfl, fun buf u n h => ?_⟩
    obtain ⟨-, rfl⟩ := ok.inj h
    exact Nat.zero_le _
  | cons p ps ih =>
    obtain ⟨hp, hps⟩ := forall_mem_cons.mp h
    exact hp.andThen fun _ => ih hps

/-- `p`, or `q` where `p` backtracks. An undecided `p` is waited for. -/
def orElse {ι : Type*} (p q : ι → Outcome α) (buf : ι) : Outcome α :=
  match p buf with
  | .backtrack => q buf
  | r => r

/-- A choice of stable parsers: an undecided alternative is waited for. -/
theorem Stable.orElse {q : List σ → Outcome α} (hp : Stable p) (hq : Stable q) :
    Stable (orElse p q) where
  extend buf more h := by
    simp only [Lib.orElse] at h ⊢
    cases hpb : p buf with
    | ok a n => rw [hp.extend_eq hpb (by simp)]
    | backtrack =>
      simp only [hpb] at h
      rw [hp.extend_eq hpb (by simp)]
      exact hq.extend buf more h
    | cut => rw [hp.extend_eq hpb (by simp)]
    | incomplete => simp [hpb] at h
  consumed_le buf a n h := by
    simp only [Lib.orElse] at h
    cases hpb : p buf with
    | ok b k =>
      simp only [hpb] at h
      exact hp.consumed_le buf a n (hpb.trans h)
    | backtrack =>
      simp only [hpb] at h
      exact hq.consumed_le buf a n h
    | _ => simp [hpb] at h

end Sonar.Lib
