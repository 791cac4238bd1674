import Mathlib.Data.List.TakeDrop

/-!
# Machines that can be fed in pieces

A **resumable machine** looks at its state and at a buffer and makes a move: it advances, which
consumes a prefix of the buffer, emits some output and may change the state; or it waits for more
input; or it fails. `Settled` says that moves other than waiting do not depend on what arrives
later. From that alone, how the input was cut does not matter: running on a first piece until the
machine waits, then on what is left together with the next piece, is running on both at once
(`RunsTo.append_iff`, `Fails.append_iff`), and so for any number of pieces (`Feeds`).

Nothing here says that a run ends; a program that drives a machine shows that its own loop does.
-/

namespace Sonar.Lib

open List

variable {σ S O : Type*}

/-- One move of a machine. -/
inductive Move (S O : Type*) where
  | advance (consumed : ℕ) (out : List O) (next : S)
  | wait
  | fail

/-- A move that is not `wait` stays the same when more input arrives. -/
structure Settled (step : S → List σ → Move S O) : Prop where
  extend : ∀ s buf more, step s buf ≠ .wait → step s (buf ++ more) = step s buf
  consumed_le : ∀ s buf n out t, step s buf = .advance n out t → n ≤ buf.length

variable (step : S → List σ → Move S O)

/-- Some number of advances: the output, and the state and buffer they lead to. -/
inductive Advances : S → List σ → List O → S → List σ → Prop where
  | done (s : S) (buf : List σ) : Advances s buf [] s buf
  | more {s t u : S} {buf rest : List σ} {n : ℕ} {out outs : List O} :
    step s buf = .advance n out t → Advances t (buf.drop n) outs u rest →
      Advances s buf (out ++ outs) u rest

/-- The machine advances until it waits. -/
def RunsTo (s : S) (buf : List σ) (outs : List O) (t : S) (rest : List σ) : Prop :=
  Advances step s buf outs t rest ∧ step t rest = .wait

/-- The machine advances until it fails. -/
def Fails (s : S) (buf : List σ) : Prop :=
  ∃ outs t rest, Advances step s buf outs t rest ∧ step t rest = .fail

/-- The machine is fed one piece after the other, each time until it waits. -/
inductive Feeds : S → List σ → List (List σ) → List O → S → List σ → Prop where
  | done (s : S) (buf : List σ) : Feeds s buf [] [] s buf
  | piece {s t u : S} {buf mid rest p : List σ} {ps : List (List σ)} {outs outs' : List O} :
    RunsTo step s (buf ++ p) outs t mid → Feeds t mid ps outs' u rest →
      Feeds s buf (p :: ps) (outs ++ outs') u rest

/-- The machine fails on one of the pieces. -/
inductive FeedFails : S → List σ → List (List σ) → Prop where
  | here {s : S} {buf p : List σ} {ps : List (List σ)} :
    Fails step s (buf ++ p) → FeedFails s buf (p :: ps)
  | later {s t : S} {buf mid p : List σ} {ps : List (List σ)} {outs : List O} :
    RunsTo step s (buf ++ p) outs t mid → FeedFails t mid ps → FeedFails s buf (p :: ps)

variable {step}

variable {s t u : S} {buf mid rest : List σ} {outs outs' : List O} {ps : List (List σ)}

/-- Runs may be put together. -/
theorem Advances.trans
    (h : Advances step s buf outs t mid) (h' : Advances step t mid outs' u rest) :
    Advances step s buf (outs ++ outs') u rest := by
  induction h with
  | done => exact h'
  | more hstep _ ih =>
    rw [append_assoc]
    exact .more hstep (ih h')

/-- One move is a run. -/
theorem Advances.single {n : ℕ} {out : List O}
    (h : step s buf = .advance n out t) : Advances step s buf out t (buf.drop n) := by
  simpa using more h (.done t _)

/-- Advances of a machine are those of one that makes the same moves. -/
theorem Advances.mono {step' : S → List σ → Move S O}
    (hsub : ∀ s buf n out t, step s buf = .advance n out t → step' s buf = .advance n out t)
    (h : Advances step s buf outs t rest) : Advances step' s buf outs t rest := by
  induction h with
  | done => exact .done _ _
  | more hstep _ ih => exact .more (hsub _ _ _ _ _ hstep) ih

private theorem Settled.extend_eq (hs : Settled step) {more : List σ}
    {r : Move S O} (h : step s buf = r) (hr : r ≠ .wait) : step s (buf ++ more) = r := by
  rw [hs.extend s buf more (h ▸ hr), h]

/-- Advances are the same with more input behind them. -/
theorem Advances.extend (hs : Settled step) (h : Advances step s buf outs t rest) (more : List σ) :
    Advances step s (buf ++ more) outs t (rest ++ more) := by
  induction h with
  | done => exact .done _ _
  | more hstep _ ih =>
    have hle := hs.consumed_le _ _ _ _ _ hstep
    rw [← drop_append_of_le_length hle] at ih
    exact .more (hs.extend_eq hstep (by simp)) ih

/-- A stopped machine is reached through every run from the start: runs only differ in how far
they go. -/
theorem Advances.of_stopped (h : Advances step s buf outs t mid)
    (hstop : ∀ n out v, step t mid ≠ .advance n out v)
    (h' : Advances step s buf outs' u rest) :
    ∃ more, Advances step u rest more t mid ∧ outs = outs' ++ more := by
  induction h' generalizing outs with
  | done => exact ⟨outs, h, rfl⟩
  | more hstep _ ih =>
    cases h with
    | done => exact absurd hstep (hstop _ _ _)
    | more hstep' h =>
      obtain ⟨rfl, rfl, rfl⟩ := Move.advance.inj (hstep.symm.trans hstep')
      obtain ⟨more, hmore, rfl⟩ := ih h
      exact ⟨more, hmore, (append_assoc ..).symm⟩

private theorem Advances.eq_of_stopped
    (h : Advances step s buf outs t rest) (hstop : ∀ n out v, step s buf ≠ .advance n out v) :
    outs = [] ∧ t = s ∧ rest = buf := by
  cases h with
  | done => exact ⟨rfl, rfl, rfl⟩
  | more hstep _ => exact absurd hstep (hstop _ _ _)

/-- Where a machine waits is determined by where it starts. -/
theorem RunsTo.unique (h : RunsTo step s buf outs t mid) (h' : RunsTo step s buf outs' u rest) :
    outs = outs' ∧ t = u ∧ mid = rest := by
  have hstop : ∀ n out v, step u rest ≠ .advance n out v := by simp [h'.2]
  obtain ⟨more, hmore, rfl⟩ := h.1.of_stopped (by simp [h.2]) h'.1
  obtain ⟨rfl, rfl, rfl⟩ := hmore.eq_of_stopped hstop
  exact ⟨append_nil _, rfl, rfl⟩

/-- A machine that waits does not fail. -/
theorem RunsTo.not_fails (h : RunsTo step s buf outs t rest) : ¬ Fails step s buf := by
  rintro ⟨outs', u, rest', hadv, hfail⟩
  obtain ⟨more, hmore, -⟩ := h.1.of_stopped (by simp [h.2]) hadv
  obtain ⟨-, rfl, rfl⟩ := hmore.eq_of_stopped (by simp [hfail])
  rw [h.2] at hfail
  cases hfail

section

variable (hs : Settled step)

include hs

/-- A run on a piece and what follows it is the run on the piece, then the run on the rest. -/
theorem RunsTo.append_iff {a b : List σ} (h : RunsTo step s a outs t mid) :
    RunsTo step s (a ++ b) outs' u rest ↔
      ∃ more, outs' = outs ++ more ∧ RunsTo step t (mid ++ b) more u rest := by
  have hadv := h.1.extend hs b
  constructor
  · rintro ⟨hrun, hwait⟩
    obtain ⟨more, hmore, heq⟩ := hrun.of_stopped (by simp [hwait]) hadv
    exact ⟨more, heq, hmore, hwait⟩
  · rintro ⟨more, rfl, hrun, hwait⟩
    exact ⟨hadv.trans hrun, hwait⟩

/-- Failing after a run is failing from where the run ends. -/
theorem Fails.append_iff {a b : List σ}
    (h : RunsTo step s a outs t mid) : Fails step s (a ++ b) ↔ Fails step t (mid ++ b) := by
  have hadv := h.1.extend hs b
  constructor
  · rintro ⟨outs', u, rest, hrun, hfail⟩
    obtain ⟨more, hmore, -⟩ := hrun.of_stopped (by simp [hfail]) hadv
    exact ⟨more, u, rest, hmore, hfail⟩
  · rintro ⟨outs', u, rest, hrun, hfail⟩
    exact ⟨_, u, rest, hadv.trans hrun, hfail⟩

/-- **Feeding in pieces is feeding at once**, for a machine that was waiting. -/
theorem Feeds.ends (hwait : step s buf = .wait) (h : Feeds step s buf ps outs t rest) :
    RunsTo step s (buf ++ ps.flatten) outs t rest := by
  induction h with
  | done s buf => exact ⟨by simpa using Advances.done s buf, hwait⟩
  | piece hends hfeeds ih =>
    rw [flatten_cons, ← append_assoc]
    exact (hends.append_iff hs).mpr ⟨_, rfl, ih hends.2⟩

/-- If feeding the pieces fails, so does the whole input. -/
theorem FeedFails.fails (h : FeedFails step s buf ps) : Fails step s (buf ++ ps.flatten) := by
  induction h with
  | here hfails =>
    obtain ⟨outs, t, rest, hrun, hfail⟩ := hfails
    rw [flatten_cons, ← append_assoc]
    exact ⟨outs, t, _, hrun.extend hs _, hs.extend_eq hfail (by simp)⟩
  | later hends _ ih =>
    rw [flatten_cons, ← append_assoc]
    exact (Fails.append_iff hs hends).mpr ih

end

end Sonar.Lib
