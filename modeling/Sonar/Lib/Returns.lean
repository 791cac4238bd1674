import Mathlib.Data.List.Basic

/-!
# Rules for stateful computations that may raise

A computation in `ExceptT ε (StateM σ)` keeps what it wrote before it raised. `Returns m s Q` says
that from the state `s` the computation does not raise, and that its result and the state it leaves
satisfy `Q`. There is one rewriting rule per primitive, so a proof executes a program by rewriting
and stops at the calls, where the specification of the callee is used through `Returns.mono`.

`Ends m s Q E` is about every outcome: a result and the state with it satisfy `Q`, and the state that
a raise leaves satisfies `E`.
-/

namespace Sonar.Lib

open List

universe u

variable {ε σ α β ι : Type u}

/-- From `s` the computation returns, and its result and final state satisfy `Q`. -/
def Returns (m : ExceptT ε (StateM σ) α) (s : σ) (Q : α → σ → Prop) : Prop :=
  ∃ a s', m.run.run s = (.ok a, s') ∧ Q a s'

/-- If the computation returns, its result and final state satisfy `Q`; if it raises, the state it
leaves satisfies `E`. -/
def Ends (m : ExceptT ε (StateM σ) α) (s : σ) (Q : α → σ → Prop) (E : σ → Prop) : Prop :=
  match m.run.run s with
  | (.ok a, s') => Q a s'
  | (.error _, s') => E s'

/-- A program after another one runs on the state that it leaves. -/
theorem run_bind (m : ExceptT ε (StateM σ) α) (f : α → ExceptT ε (StateM σ) β) (s : σ) :
    (m >>= f).run.run s = match m.run.run s with
      | (.ok a, s') => (f a).run.run s'
      | (.error e, s') => (.error e, s') := by
  change (ExceptT.bindCont f (m.run.run s).1) (m.run.run s).2 = _
  rcases m.run.run s with ⟨res, s'⟩
  cases res <;> rfl

/-- Run a computation on a part of the state. What it wrote before it raised is kept. -/
def zoom {τ : Type u} (part : σ → τ) (put : σ → τ → σ) (m : ExceptT ε (StateM τ) α) :
    ExceptT ε (StateM σ) α :=
  ExceptT.mk fun s => ((m.run.run (part s)).1, put s (m.run.run (part s)).2)

/-- Run a computation for every item and put the results together. -/
def collect (f : ι → ExceptT ε (StateM σ) (List β)) : List ι → ExceptT ε (StateM σ) (List β)
  | [] => pure []
  | i :: l => do
    let xs ← f i
    let ys ← collect f l
    pure (xs ++ ys)

/-- Run a computation for every item. -/
def forAll (f : ι → ExceptT ε (StateM σ) PUnit) : List ι → ExceptT ε (StateM σ) PUnit
  | [] => pure ⟨⟩
  | i :: l => do
    f i
    forAll f l

/-! ### Every outcome -/

namespace Ends

variable {m : ExceptT ε (StateM σ) α} {s : σ} {Q Q' : α → σ → Prop} {E E' : σ → Prop}

/-- Weaker conditions. -/
theorem mono (h : Ends m s Q E) (hQ : ∀ a s', Q a s' → Q' a s') (hE : ∀ s', E s' → E' s') :
    Ends m s Q' E' := by
  rw [Ends] at h ⊢
  generalize m.run.run s = out at h ⊢
  obtain ⟨_ | _, s'⟩ := out
  · exact hE s' h
  · exact hQ _ s' h

/-- What returns ends so. -/
theorem of_returns (h : Returns m s Q) : Ends m s Q E := by
  obtain ⟨a, s', hrun, hQ⟩ := h
  rw [Ends, hrun]
  exact hQ

/-- What holds of the final state, also after a raise. -/
theorem state {P : σ → Prop} (h : Ends m s (fun _ s' => P s') P) : P (m.run.run s).2 := by
  rw [Ends] at h
  generalize m.run.run s = out at h ⊢
  obtain ⟨_ | _, s'⟩ := out
  · exact h
  · exact h

/-- What cannot raise returns. -/
theorem returns (h : Ends m s Q fun _ => False) : Returns m s Q := by
  rw [Ends] at h
  generalize hrun : m.run.run s = out at h
  obtain ⟨_ | a, s'⟩ := out
  · exact absurd h id
  · exact ⟨a, s', hrun, h⟩

@[simp] theorem pure_iff {a : α} : Ends (pure a : ExceptT ε (StateM σ) α) s Q E ↔ Q a s := Iff.rfl

@[simp] theorem bind_iff {f : α → ExceptT ε (StateM σ) β} {R : β → σ → Prop} :
    Ends (m >>= f) s R E ↔ Ends m s (fun a s' => Ends (f a) s' R E) E := by
  rw [Ends, Ends, run_bind]
  generalize m.run.run s = out
  obtain ⟨_ | _, s'⟩ := out
  · exact Iff.rfl
  · exact Iff.rfl

@[simp] theorem get_iff {Q : σ → σ → Prop} :
    Ends (get : ExceptT ε (StateM σ) σ) s Q E ↔ Q s s := Iff.rfl

@[simp] theorem set_iff {t : σ} {Q : PUnit → σ → Prop} :
    Ends (set t : ExceptT ε (StateM σ) PUnit) s Q E ↔ Q ⟨⟩ t := Iff.rfl

@[simp] theorem modify_iff {f : σ → σ} {Q : PUnit → σ → Prop} :
    Ends (modify f : ExceptT ε (StateM σ) PUnit) s Q E ↔ Q ⟨⟩ (f s) := Iff.rfl

@[simp] theorem zoom_iff {τ : Type u} {part : σ → τ} {put : σ → τ → σ} {m : ExceptT ε (StateM τ) α} :
    Ends (zoom part put m) s Q E ↔
      Ends m (part s) (fun a t => Q a (put s t)) fun t => E (put s t) := by
  change (match ((m.run.run (part s)).1, put s (m.run.run (part s)).2) with
    | (.ok a, s') => Q a s'
    | (.error _, s') => E s') ↔ _
  rw [Ends]
  generalize m.run.run (part s) = out
  obtain ⟨_ | _, t⟩ := out
  · exact Iff.rfl
  · exact Iff.rfl

/-- Both branches end so. -/
theorem ite {c : Prop} [Decidable c] {m' : ExceptT ε (StateM σ) α} (h : c → Ends m s Q E)
    (h' : ¬ c → Ends m' s Q E) : Ends (if c then m else m') s Q E := by
  split_ifs with hc
  · exact h hc
  · exact h' hc

/-- A loop keeps an assertion about the items still to come and the results so far; an item that
raises ends it. -/
theorem collect {f : ι → ExceptT ε (StateM σ) (List β)} {P : List ι → List β → σ → Prop}
    (hstep : ∀ i l out s, P (i :: l) out s → Ends (f i) s (fun xs s' => P l (out ++ xs) s') E)
    {l : List ι} (h : P l [] s) : Ends (collect f l) s (fun out s' => P [] out s') E := by
  have hloop : ∀ l out s, P l out s →
      Ends (Lib.collect f l) s (fun ys s' => P [] (out ++ ys) s') E := by
    intro l
    induction l with
    | nil =>
      intro out s hP
      rw [Lib.collect, pure_iff, append_nil]
      exact hP
    | cons i l ih =>
      intro out s hP
      rw [Lib.collect, bind_iff]
      refine (hstep i l out s hP).mono (fun xs s' hP' => ?_) fun _ hE => hE
      rw [bind_iff]
      refine (ih _ s' hP').mono (fun ys s'' hP'' => ?_) fun _ hE => hE
      rw [pure_iff, ← append_assoc]
      exact hP''
  exact hloop l [] s h

/-- A loop with an invariant over the elements that are left. -/
theorem forAll {f : ι → ExceptT ε (StateM σ) PUnit} {P : List ι → σ → Prop}
    (hstep : ∀ i l s, P (i :: l) s → Ends (f i) s (fun _ s' => P l s') E) {l : List ι}
    (h : P l s) : Ends (forAll f l) s (fun _ s' => P [] s') E := by
  induction l generalizing s with
  | nil =>
    exact h
  | cons i l ih =>
    rw [forAll, bind_iff]
    exact (hstep i l s h).mono (fun _ s' hP' => ih hP') fun _ hE => hE

end Ends

/-! ### No raise -/

namespace Returns

variable {m : ExceptT ε (StateM σ) α} {s : σ} {Q Q' : α → σ → Prop}

/-- Returning is ending where no raise is allowed. -/
theorem iff_ends : Returns m s Q ↔ Ends m s Q fun _ => False :=
  ⟨Ends.of_returns, Ends.returns⟩

/-- A weaker condition. -/
theorem mono (h : Returns m s Q) (hQ : ∀ a s', Q a s' → Q' a s') : Returns m s Q' := by
  obtain ⟨a, s', hrun, hq⟩ := h
  exact ⟨a, s', hrun, hQ a s' hq⟩

@[simp] theorem pure_iff {a : α} : Returns (pure a : ExceptT ε (StateM σ) α) s Q ↔ Q a s :=
  iff_ends

@[simp] theorem bind_iff {f : α → ExceptT ε (StateM σ) β} {R : β → σ → Prop} :
    Returns (m >>= f) s R ↔ Returns m s fun a s' => Returns (f a) s' R := by
  simp [iff_ends]

@[simp] theorem get_iff {Q : σ → σ → Prop} :
    Returns (get : ExceptT ε (StateM σ) σ) s Q ↔ Q s s := iff_ends

@[simp] theorem set_iff {t : σ} {Q : PUnit → σ → Prop} :
    Returns (set t : ExceptT ε (StateM σ) PUnit) s Q ↔ Q ⟨⟩ t := iff_ends

@[simp] theorem modify_iff {f : σ → σ} {Q : PUnit → σ → Prop} :
    Returns (modify f : ExceptT ε (StateM σ) PUnit) s Q ↔ Q ⟨⟩ (f s) := iff_ends

@[simp] theorem zoom_iff {τ : Type u} {part : σ → τ} {put : σ → τ → σ}
    {m : ExceptT ε (StateM τ) α} :
    Returns (zoom part put m) s Q ↔ Returns m (part s) fun a t => Q a (put s t) := by
  simp [iff_ends]

/-- A loop that collects results, with an invariant over what is left and what is collected. -/
theorem collect {f : ι → ExceptT ε (StateM σ) (List β)} {P : List ι → List β → σ → Prop}
    (hstep : ∀ i l out s, P (i :: l) out s → Returns (f i) s fun xs s' => P l (out ++ xs) s')
    {l : List ι} (h : P l [] s) : Returns (collect f l) s fun out s' => P [] out s' :=
  (Ends.collect (fun i l out s hP => .of_returns (hstep i l out s hP)) h).returns

/-- A loop that returns, with an invariant over the elements that are left. -/
theorem forAll {f : ι → ExceptT ε (StateM σ) PUnit} {P : List ι → σ → Prop}
    (hstep : ∀ i l s, P (i :: l) s → Returns (f i) s fun _ s' => P l s') {l : List ι}
    (h : P l s) : Returns (forAll f l) s fun _ s' => P [] s' :=
  (Ends.forAll (fun i l s hP => .of_returns (hstep i l s hP)) h).returns

end Returns

end Sonar.Lib
