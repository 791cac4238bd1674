import Mathlib.Data.List.Basic

/-!
# Leases over two channels

A client lends a slot to a server and must not take it back while the server may still write to it.
It sends `take` to lend the slot and `stop` to ask for it early; the server answers `take` with
`done` when it has finished writing, and `stop` with `ack` when it has stopped. A `sweep` tells the
server to drop what it still has open, and is sent only when every slot it concerns is free or
stopped. The channels are reliable and keep their order, and `done` and `stop` may cross.

`Lease` is the invariant of one slot: at most one of `take`, the open slot and `done` exists, at most
one of `stop`, the pending abort and `ack`, and both channels keep them in order. It is inductive if
the slot is lent again only after the last `stop` was answered (`Lease.send_take`). When `done` or
`ack` arrives, the slot is closed on the server's side (`Lease.closed_of_done`,
`Lease.closed_of_ack`).
-/

namespace Sonar.Lib

open List

/-- Messages about a slot to the server. A sweep may carry the name of the slot itself. -/
inductive Req where
  | take
  | stop
  | sweep (own : Bool)
deriving DecidableEq

/-- Messages about a slot to the client. -/
inductive Resp where
  | done
  | ack
deriving DecidableEq

/-- Which message to the server may stand before which. -/
def Req.Before : Req → Req → Prop
  | .take, .take | .stop, .stop | .stop, .take => False
  | _, _ => True

/-- Which message to the client may stand before which. -/
def Resp.Before : Resp → Resp → Prop
  | .done, .ack => True
  | _, _ => False

variable {held : Option Bool} {reqs : List Req} {resps : List Resp}
  {opened running aborting opened' running' aborting' : Prop}

/-- What is said of the tokens of a slot. The client holds nothing, a slot it lent, or a slot it
lent and asked for (`none`, `some false`, `some true`). -/
structure Tokens (held : Option Bool) (reqs : List Req) (opened aborting : Prop)
    (resps : List Resp) : Prop where
  reqOrder : reqs.Pairwise Req.Before
  respOrder : resps.Pairwise Resp.Before
  free : held = none → .take ∉ reqs ∧ ¬ opened ∧ .done ∉ resps
  fresh : held = some false → .stop ∉ reqs ∧ ¬ aborting ∧ .ack ∉ resps
  taken : .take ∈ reqs → ¬ opened ∧ ¬ aborting ∧ .done ∉ resps ∧ .ack ∉ resps
  open_ : opened → .done ∉ resps ∧ .ack ∉ resps
  stopped : .stop ∈ reqs → ¬ aborting ∧ .ack ∉ resps
  pending : aborting → .ack ∉ resps

/-- What is said of a slot that is asked for: a server that still works on it will hear of it. -/
structure Warned (held : Option Bool) (reqs : List Req) (opened running : Prop) : Prop where
  isOpen : running → opened
  asked : held = some true → (.take ∈ reqs → .stop ∈ reqs) ∧ (running → .stop ∈ reqs)
  sweeps : ∀ before own after, reqs = before ++ .sweep own :: after →
    (.take ∈ before → .stop ∈ before) ∧ (running → .stop ∈ before) ∧
      (own = true → .take ∉ before ∧ ¬ opened)

/-- The invariant of a slot. -/
structure Lease (held : Option Bool) (reqs : List Req) (opened running aborting : Prop)
    (resps : List Resp) : Prop extends Tokens held reqs opened aborting resps,
    Warned held reqs opened running

/-- Before anything is sent. -/
theorem lease_new (hopened : ¬ opened) (hrunning : ¬ running) (haborting : ¬ aborting) :
    Lease none [] opened running aborting [] where
  reqOrder := .nil
  respOrder := .nil
  free _ := ⟨not_mem_nil, hopened, not_mem_nil⟩
  fresh h := nomatch h
  taken h := nomatch h
  open_ h := absurd h hopened
  stopped h := nomatch h
  pending h := absurd h haborting
  isOpen h := absurd h hrunning
  asked h := nomatch h
  sweeps before own after h := by
    cases before <;> cases h

/-! ### The server moves on its own -/

/-- The server may close a round or an abort by itself. -/
theorem Tokens.settle (h : Tokens held reqs opened aborting resps) (hopened : opened' → opened)
    (haborting : aborting' → aborting) : Tokens held reqs opened' aborting' resps where
  reqOrder := h.reqOrder
  respOrder := h.respOrder
  free hfree := ⟨(h.free hfree).1, fun ho => (h.free hfree).2.1 (hopened ho), (h.free hfree).2.2⟩
  fresh hfresh :=
    ⟨(h.fresh hfresh).1, fun ha => (h.fresh hfresh).2.1 (haborting ha), (h.fresh hfresh).2.2⟩
  taken ht := ⟨fun ho => (h.taken ht).1 (hopened ho), fun ha => (h.taken ht).2.1 (haborting ha),
    (h.taken ht).2.2⟩
  open_ ho := h.open_ (hopened ho)
  stopped hs := ⟨fun ha => (h.stopped hs).1 (haborting ha), (h.stopped hs).2⟩
  pending ha := h.pending (haborting ha)

/-- What runs by itself may end. -/
theorem Warned.settle (h : Warned held reqs opened running) (hopened : opened' → opened)
    (hrunning : running' → running) (hopen : running' → opened') :
    Warned held reqs opened' running' where
  isOpen := hopen
  asked ha := ⟨(h.asked ha).1, fun hr => (h.asked ha).2 (hrunning hr)⟩
  sweeps before own after heq := by
    obtain ⟨htake, hrun, hown⟩ := h.sweeps before own after heq
    exact ⟨htake, fun hr => hrun (hrunning hr),
      fun ho => ⟨(hown ho).1, fun hopen' => (hown ho).2 (hopened hopen')⟩⟩

/-- The server finishes. -/
theorem Tokens.done (h : Tokens held reqs opened aborting resps) (hopen : opened)
    (hclosed : ¬ opened') (haborting : aborting' → aborting) :
    Tokens held reqs opened' aborting' (resps ++ [.done]) := by
  obtain ⟨hdone, hack⟩ := h.open_ hopen
  have hack' : .ack ∉ resps ++ [.done] := by simp [hack]
  refine ⟨h.reqOrder, ?_, fun hfree => absurd hopen (h.free hfree).2.1, fun hfresh => ?_,
    fun ht => absurd hopen (h.taken ht).1, fun ho => absurd ho hclosed, fun hs => ?_, fun _ => hack'⟩
  · refine pairwise_append.mpr ⟨h.respOrder, pairwise_singleton _ _, fun a ha b hb => ?_⟩
    cases a with
    | done => exact absurd ha hdone
    | ack => exact absurd ha hack
  · exact ⟨(h.fresh hfresh).1, fun ha => (h.fresh hfresh).2.1 (haborting ha), hack'⟩
  · exact ⟨fun ha => (h.stopped hs).1 (haborting ha), hack'⟩

/-- The server has stopped. -/
theorem Tokens.ack (h : Tokens held reqs opened aborting resps) (habort : aborting)
    (hanswered : ¬ aborting') (hclosed : ¬ opened') :
    Tokens held reqs opened' aborting' (resps ++ [.ack]) := by
  have hack := h.pending habort
  refine ⟨h.reqOrder, ?_, fun hfree => ⟨(h.free hfree).1, hclosed, ?_⟩,
    fun hfresh => absurd habort (h.fresh hfresh).2.1, fun ht => absurd habort (h.taken ht).2.1,
    fun ho => absurd ho hclosed, fun hs => absurd habort (h.stopped hs).1,
    fun ha => absurd ha hanswered⟩
  · refine pairwise_append.mpr ⟨h.respOrder, pairwise_singleton _ _, fun a ha b hb => ?_⟩
    rw [mem_singleton.mp hb]
    cases a with
    | done => trivial
    | ack => exact absurd ha hack
  · simp [(h.free hfree).2.2]

/-! ### Messages reach the server -/

/-- The server gets the request for a round. -/
theorem Tokens.deliver_take (h : Tokens held (.take :: reqs) opened aborting resps)
    (haborting : aborting' → aborting) : Tokens held reqs opened' aborting' resps := by
  obtain ⟨hbefore, hreqs⟩ := pairwise_cons.mp h.reqOrder
  obtain ⟨-, habort, hdone, hack⟩ := h.taken (.head _)
  have htake : .take ∉ reqs := hbefore .take
  exact ⟨hreqs, h.respOrder, fun hfree => absurd (.head _) (h.free hfree).1,
    fun hfresh => ⟨fun hmem => (h.fresh hfresh).1 (.tail _ hmem),
      fun ha => habort (haborting ha), hack⟩,
    fun ht => absurd ht htake, fun _ => ⟨hdone, hack⟩, fun _ => ⟨fun ha => habort (haborting ha), hack⟩,
    fun _ => hack⟩

/-- A request that is delivered opens the round. -/
theorem Warned.deliver_take (h : Warned held (.take :: reqs) opened running)
    (hopen : running' → opened') : Warned held reqs opened' running' := by
  have hstop : ∀ {l : List Req}, .stop ∈ .take :: l → .stop ∈ l := fun hmem =>
    (mem_cons.mp hmem).resolve_left nofun
  refine ⟨hopen, fun ha => ?_, fun before own after heq => ?_⟩
  · have hmem := hstop ((h.asked ha).1 (.head _))
    exact ⟨fun _ => hmem, fun _ => hmem⟩
  · obtain ⟨htake, -, hown⟩ := h.sweeps (.take :: before) own after (congrArg _ heq)
    have hmem := hstop (htake (.head _))
    exact ⟨fun _ => hmem, fun _ => hmem, fun ho => absurd (.head _) (hown ho).1⟩

/-- The server gets an abort. -/
theorem Tokens.deliver_stop (h : Tokens held (.stop :: reqs) opened aborting resps)
    (hopened : opened' → opened) : Tokens held reqs opened' aborting' resps := by
  obtain ⟨hbefore, hreqs⟩ := pairwise_cons.mp h.reqOrder
  obtain ⟨-, hack⟩ := h.stopped (.head _)
  have htake : .take ∉ reqs := hbefore .take
  have hstop : .stop ∉ reqs := hbefore .stop
  refine ⟨hreqs, h.respOrder, fun hfree => ?_, fun hfresh => ?_, fun ht => absurd ht htake,
    fun ho => h.open_ (hopened ho), fun hs => absurd hs hstop, fun _ => hack⟩
  · obtain ⟨-, hclosed, hdone⟩ := h.free hfree
    exact ⟨htake, fun ho => hclosed (hopened ho), hdone⟩
  · exact absurd (.head _) (h.fresh hfresh).1

/-- A server that hears of a stop no longer works on the slot. -/
theorem Lease.warned_deliver_stop (h : Lease held (.stop :: reqs) opened running aborting resps)
    (hopened : opened' → opened) (hrunning : ¬ running') : Warned held reqs opened' running' := by
  obtain ⟨hbefore, -⟩ := pairwise_cons.mp h.reqOrder
  refine ⟨fun hr => absurd hr hrunning, fun _ => ⟨fun hmem => (hbefore .take hmem).elim,
    fun hr => absurd hr hrunning⟩, fun before own after heq => ?_⟩
  have htake : .take ∉ before := by
    intro hmem
    refine hbefore .take ?_
    rw [heq]
    exact mem_append_left _ hmem
  obtain ⟨-, -, hown⟩ := h.sweeps (.stop :: before) own after (congrArg _ heq)
  exact ⟨fun hmem => absurd hmem htake, fun hr => absurd hr hrunning,
    fun ho => ⟨htake, fun hopen => (hown ho).2 (hopened hopen)⟩⟩

/-- A sweep changes nothing for one round. -/
theorem Lease.deliver_sweep {own : Bool}
    (h : Lease held (.sweep own :: reqs) opened running aborting resps) :
    Lease held reqs opened running aborting resps := by
  have hmem : ∀ {r : Req} {l : List Req}, (∀ b, r ≠ .sweep b) → r ∈ .sweep own :: l → r ∈ l :=
    fun hne hr => (mem_cons.mp hr).resolve_left (hne own)
  refine ⟨⟨(pairwise_cons.mp h.reqOrder).2, h.respOrder, fun hfree => ?_, fun hfresh => ?_,
    fun ht => h.taken (.tail _ ht), h.open_,
    fun hs => h.stopped (.tail _ hs), h.pending⟩, h.isOpen, fun ha => ?_,
    fun before own' after heq => ?_⟩
  · exact ⟨fun ht => (h.free hfree).1 (.tail _ ht), (h.free hfree).2⟩
  · exact ⟨fun hs => (h.fresh hfresh).1 (.tail _ hs), (h.fresh hfresh).2⟩
  · exact ⟨fun ht => hmem nofun ((h.asked ha).1 (.tail _ ht)),
      fun hr => hmem nofun ((h.asked ha).2 hr)⟩
  · obtain ⟨htake, hrun, hown⟩ := h.sweeps (.sweep own :: before) own' after (congrArg _ heq)
    exact ⟨fun ht => hmem nofun (htake (.tail _ ht)), fun hr => hmem nofun (hrun hr),
      fun ho => ⟨fun ht => (hown ho).1 (.tail _ ht), (hown ho).2⟩⟩

/-! ### The client sends -/

/-- A message in a channel with a new last message. -/
theorem append_singleton_eq {α : Type*} {l before after : List α} {a b : α}
    (h : l ++ [a] = before ++ b :: after) :
    (before = l ∧ b = a) ∨ ∃ after', l = before ++ b :: after' := by
  rcases eq_nil_or_concat after with rfl | ⟨after', c, rfl⟩
  · obtain ⟨hl, ha⟩ := append_inj' h rfl
    exact .inl ⟨hl.symm, (head_eq_of_cons_eq ha).symm⟩
  · refine .inr ⟨after', ?_⟩
    have hassoc : l ++ [a] = (before ++ b :: after') ++ [c] := by
      rw [h, concat_eq_append, append_assoc]
      rfl
    exact (append_inj' hassoc rfl).1

private theorem pairwise_concat {r : Req} (h : reqs.Pairwise Req.Before)
    (hr : ∀ a ∈ reqs, Req.Before a r) : (reqs ++ [r]).Pairwise Req.Before := by
  refine pairwise_append.mpr ⟨h, pairwise_singleton _ _, fun a ha b hb => ?_⟩
  rw [mem_singleton.mp hb]
  exact hr a ha

/-- The slot is lent, with no stop unanswered. -/
theorem Lease.send_take (h : Lease none reqs opened running aborting resps)
    (hstop : .stop ∉ reqs) (habort : ¬ aborting) (hack : .ack ∉ resps) :
    Lease (some false) (reqs ++ [.take]) opened running aborting resps := by
  obtain ⟨htake, hclosed, hdone⟩ := h.free rfl
  have hstop' : .stop ∉ reqs ++ [.take] := by simp [hstop]
  refine ⟨⟨pairwise_concat h.reqOrder fun a ha => ?_, h.respOrder, nofun, fun _ => ⟨hstop', habort, hack⟩,
    fun _ => ⟨hclosed, habort, hdone, hack⟩, fun ho => absurd ho hclosed,
    fun hs => absurd hs hstop', fun ha => absurd ha habort⟩, h.isOpen, nofun,
    fun before own after heq => ?_⟩
  · cases a with
    | take => exact absurd ha htake
    | stop => exact absurd ha hstop
    | sweep _ => trivial
  · rcases append_singleton_eq heq with ⟨-, hne⟩ | ⟨after', hold⟩
    · cases hne
    · exact h.sweeps before own after' hold

/-- The client asks for the slot. -/
theorem Lease.send_stop (h : Lease (some false) reqs opened running aborting resps) :
    Lease (some true) (reqs ++ [.stop]) opened running aborting resps := by
  obtain ⟨hstop, habort, hack⟩ := h.fresh rfl
  have hself : .stop ∈ reqs ++ [.stop] := by simp
  refine ⟨⟨pairwise_concat h.reqOrder fun a ha => ?_, h.respOrder, nofun, nofun, fun ht => ?_, h.open_,
    fun _ => ⟨habort, hack⟩, h.pending⟩, h.isOpen, fun _ => ⟨fun _ => hself, fun _ => hself⟩,
    fun before own after heq => ?_⟩
  · cases a with
    | take => trivial
    | stop => exact absurd ha hstop
    | sweep _ => trivial
  · exact h.taken ((mem_append.mp ht).resolve_right (by simp))
  · rcases append_singleton_eq heq with ⟨-, hne⟩ | ⟨after', hold⟩
    · cases hne
    · exact h.sweeps before own after' hold

/-- The client sweeps, and the slot is free or asked for. -/
theorem Lease.send_sweep {own : Bool} (h : Lease held reqs opened running aborting resps)
    (hheld : held ≠ some false) (hown : own = true → held = none) :
    Lease held (reqs ++ [.sweep own]) opened running aborting resps := by
  have hmem : ∀ {r : Req}, (∀ b, r ≠ .sweep b) → (r ∈ reqs ++ [.sweep own] ↔ r ∈ reqs) := by
    intro r hne
    simp [hne own]
  have htake := hmem (r := .take) nofun
  have hstop := hmem (r := .stop) nofun
  refine ⟨⟨pairwise_concat h.reqOrder fun a _ => ?_, h.respOrder, fun hfree => ?_, fun hfresh => ?_,
    fun ht => h.taken (htake.mp ht), h.open_, fun hs => h.stopped (hstop.mp hs), h.pending⟩,
    h.isOpen, fun ha => ?_, fun before own' after heq => ?_⟩
  · cases a <;> trivial
  · rw [htake]
    exact h.free hfree
  · exact absurd hfresh hheld
  · rw [htake, hstop]
    exact h.asked ha
  · rcases append_singleton_eq heq with ⟨rfl, hsame⟩ | ⟨after', hold⟩
    · obtain rfl : own' = own := by injection hsame
      cases held with
      | none =>
        obtain ⟨hnot, hclosed, -⟩ := h.free rfl
        exact ⟨fun ht => absurd ht hnot, fun hr => absurd (h.isOpen hr) hclosed,
          fun _ => ⟨hnot, hclosed⟩⟩
      | some asked =>
        cases asked with
        | false => exact absurd rfl hheld
        | true =>
          obtain ⟨ht, hr⟩ := h.asked rfl
          exact ⟨ht, hr, fun ho => nomatch hown ho⟩
    · exact h.sweeps before own' after' hold

/-! ### Messages reach the client -/

/-- The slot comes back with `done`. -/
theorem Lease.receive_done (h : Lease held reqs opened running aborting (.done :: resps)) :
    Lease none reqs opened running aborting resps := by
  obtain ⟨hbefore, hresps⟩ := pairwise_cons.mp h.respOrder
  have hclosed : ¬ opened := fun ho => (h.open_ ho).1 (.head _)
  have htake : .take ∉ reqs := fun ht => (h.taken ht).2.2.1 (.head _)
  have htail : ∀ {r : Resp}, r ∉ .done :: resps → r ∉ resps :=
    fun hr hmem => hr (.tail _ hmem)
  exact ⟨⟨h.reqOrder, hresps, fun _ => ⟨htake, hclosed, hbefore .done⟩, nofun,
    fun ht => absurd ht htake, fun ho => absurd ho hclosed,
    fun hs => ⟨(h.stopped hs).1, htail (h.stopped hs).2⟩, fun ha => htail (h.pending ha)⟩,
    h.isOpen, nofun, h.sweeps⟩

/-- The slot comes back with `ack`, unless it came back with `done` before. -/
theorem Lease.receive_ack (h : Lease held reqs opened running aborting (.ack :: resps)) :
    held ≠ some false ∧ Lease none reqs opened running aborting resps := by
  obtain ⟨hbefore, hresps⟩ := pairwise_cons.mp h.respOrder
  have hclosed : ¬ opened := fun ho => (h.open_ ho).2 (.head _)
  have htake : .take ∉ reqs := fun ht => (h.taken ht).2.2.2 (.head _)
  refine ⟨fun hfresh => (h.fresh hfresh).2.2 (.head _), ⟨h.reqOrder, hresps, fun _ => ?_, nofun,
    fun ht => absurd ht htake, fun ho => absurd ho hclosed, fun hs => ?_, fun ha => ?_⟩,
    h.isOpen, nofun, h.sweeps⟩
  · exact ⟨htake, hclosed, hbefore .done⟩
  · exact absurd (.head _) (h.stopped hs).2
  · exact absurd (.head _) (h.pending ha)

end Sonar.Lib
