import Sonar.P2P.ServerCalls

/-!
# Aborts and the end of a request

An abort cancels its round at once and is acknowledged when no transfer of the round can still write
to the peer. In between, the jobs of the round that no transfer reads have failed, while those that
are read stay pinned.
-/

namespace Sonar.P2P

open Lib Returns List Dict

namespace ServerRole

variable {s s' : ServerRole} {req kv : KvRequestId} {roundKey rk : ℕ} {ref : RoundRef}

/-! ### Draining an abort -/

/-- No transfer of an id and a round number is in flight. -/
def Drained (s : ServerRole) (kvRequestId : KvRequestId) (roundKey : ℕ) : Prop :=
  ∀ tid x, s.inflight.get? tid = some x → x.kvRequestId = kvRequestId → x.roundKey ≠ roundKey

private theorem Base.inflight_eq_zero (h : s.Base) (hat : s.roundAt req roundKey = some ref)
    (hdrained : s.Drained req roundKey) : (s.rounds ref).inflight = 0 := by
  rw [h.counts]
  refine sum_eq_zero fun n hn => ?_
  obtain ⟨⟨tid, x⟩, hx, rfl⟩ := mem_map.mp hn
  have hx := mem_entries.mp hx
  refine if_neg fun hround => ?_
  obtain ⟨hkv, hrk⟩ := h.inj _ _ _ _ ref (hround ▸ (h.xfers tid x hx).roundAt) hat
  exact hdrained tid x hx hkv hrk

private theorem inflightOf_mem {tid : TransferId} : tid ∈ s.inflightOf req roundKey ↔
    ∃ x, s.inflight.get? tid = some x ∧ x.kvRequestId = req ∧ x.roundKey = roundKey := by
  rw [inflightOf, mem_map]
  constructor
  · rintro ⟨⟨tid', x⟩, he, rfl⟩
    obtain ⟨hx, hkey⟩ := mem_filter.mp he
    rw [Bool.and_eq_true, decide_eq_true_eq, decide_eq_true_eq] at hkey
    exact ⟨x, mem_entries.mp hx, hkey⟩
  · rintro ⟨x, hx, hkey⟩
    refine ⟨(tid, x), mem_filter.mpr ⟨mem_entries.mpr hx, ?_⟩, rfl⟩
    rw [Bool.and_eq_true, decide_eq_true_eq, decide_eq_true_eq]
    exact hkey

private theorem Inv.markAborted (h : s.Inv) (req : KvRequestId) (roundKey : ℕ) :
    let s1 := s.markAborted (s.roundAt req roundKey)
    Forgets s s1 ∧ s1.held = s.held ∧ s1.outbox = s.outbox ∧ s1.pendingAborts = s.pendingAborts ∧
      (∀ kv rk, s1.roundAt kv rk = s.roundAt kv rk) ∧ ¬ s1.Running (req, roundKey) ∧
      ∀ kv rk ref, s.roundAt kv rk = some ref → s.roundAt req roundKey ≠ some ref →
        Offers (s1.rounds ref) := by
  cases hrnd : s.roundAt req roundKey with
  | none =>
    refine ⟨.refl, rfl, rfl, rfl, fun _ _ => rfl, ?_, fun kv rk ref hat _ => h.offers kv rk ref hat⟩
    rintro ⟨ref, hat, -⟩
    exact absurd (hrnd.symm.trans hat) nofun
  | some ref =>
    rw [ServerRole.markAborted]
    split_ifs with hcancelled
    · refine ⟨.refl, rfl, rfl, rfl, fun _ _ => rfl, ?_,
        fun kv rk ref hat _ => h.offers kv rk ref hat⟩
      rintro ⟨ref', hat, -, hnot⟩
      obtain rfl := Option.some.inj (hrnd.symm.trans hat)
      exact absurd (hcancelled.symm.trans hnot) nofun
    · obtain ⟨hf, hheld, hsame⟩ := h.toBase.forgets_cancelUnwritten ref
      refine ⟨hf.queueResults, ?_, rfl, rfl, fun _ _ => rfl, ?_, fun kv rk ref' hat hne => ?_⟩
      · rw [held, queueResults, jobsIn_append, ← add_assoc]
        exact hheld.symm
      · rintro ⟨ref', hat, -, hnot⟩
        obtain rfl := Option.some.inj (hrnd.symm.trans hat)
        simp [queueResults, failUnwrittenRoundJobs, rounds_modifyRound] at hnot
      · have hsame' := hsame ref' fun heq => hne (heq ▸ rfl)
        exact hsame'.symm ▸ h.offers kv rk ref' hat

/-- The end of a drained abort; the other aborts go on as they were. -/
private theorem Inv.finalizeAbort (h : s.Inv) (habort : s.Aborting (req, roundKey))
    (hclosed : ¬ s.IsOpen (req, roundKey)) :
    Step s (s.finalizeAbort req roundKey) [] [] ∧ ∀ p ≠ (req, roundKey),
        ((s.finalizeAbort req roundKey).Aborting p ↔ s.Aborting p) := by
  rw [ServerRole.finalizeAbort]
  set s1 := { s with
    pendingAborts := s.pendingAborts.erase (req, roundKey)
    slowAborts := discard (req, roundKey) s.slowAborts }.send
      (.abortAck req roundKey)
  have haborting : ∀ p, s1.Aborting p ↔ p ≠ (req, roundKey) ∧ s.Aborting p := by
    intro p
    have hget : s1.pendingAborts = s.pendingAborts.erase (req, roundKey) := rfl
    rw [Aborting, hget]
    by_cases hp : p = (req, roundKey)
    · rw [hp]
      simp
    · rw [get?_erase_of_ne hp]
      exact (and_iff_right hp).symm
  have hf : Forgets s s1 := by
    refine ⟨fun _ _ _ => id, fun _ _ _ => rfl, rfl, le_rfl, rfl, rfl, fun _ => .refl, fun _ => id,
      fun _ _ _ _ => id, fun _ _ _ => id, fun _ _ _ _ _ => id, fun kv rk hne => ⟨?_, id⟩,
      fun _ _ _ => id⟩
    exact ((haborting (kv, rk)).mp hne).2
  have hstep : Step s s1 [] [] := by
    refine h.toBase.step hf (h.offers) (add_zero _).symm ?_
    exact .ack hf.settles (req, roundKey) habort
      (fun hagain => ((haborting _).mp hagain).1 rfl) hclosed rfl
  refine ⟨hstep.trans (hstep.inv.step_maybePrune req), fun p hp => ?_⟩
  rw [maybePrune_eq]
  exact (haborting p).trans (and_iff_right hp)

/-- The end of an abort: the round is gone, and the abort is acknowledged. -/
private theorem Base.endAbort (h : s.Base) (habort : s.Aborting (req, roundKey))
    (hdrained : s.Drained req roundKey)
    (hoffers : ∀ kv rk ref, s.roundAt kv rk = some ref →
      s.roundAt req roundKey ≠ some ref → Offers (s.rounds ref)) :
    Returns (endAbort req roundKey (s.roundAt req roundKey)) s fun _ s' =>
      Step s s' [] [] ∧ ∀ p ≠ (req, roundKey), (s'.Aborting p ↔ s.Aborting p) := by
  rw [ServerRole.endAbort, bind_iff, finalizeAborted, bind_iff, get_iff]
  cases hat : s.roundAt req roundKey with
  | none =>
    have hinv : s.Inv := ⟨h, fun kv rk ref hreg => hoffers kv rk ref hreg (hat ▸ nofun)⟩
    have hclosed : ¬ s.IsOpen (req, roundKey) := by
      rintro ⟨ref, hreg, -⟩
      exact absurd (hat.symm.trans hreg) nofun
    rw [if_neg (by simp), pure_iff, modify_iff]
    exact hinv.finalizeAbort habort hclosed
  | some ref =>
    have hcount := h.inflight_eq_zero hat hdrained
    have hstep := h.step_finalizeRound hat (fun kv rk ref' hreg hne =>
      hoffers kv rk ref' hreg (hat ▸ fun heq => hne (Option.some.inj heq).symm)) hcount
      (some false) false
    have hclosed : ¬ (s.finalizeRound req roundKey ref (some false) false).IsOpen
        (req, roundKey) := by
      rintro ⟨ref', hreg, -⟩
      rw [roundAt_finalizeRound, if_pos ⟨rfl, rfl⟩] at hreg
      cases hreg
    have haborts : (s.finalizeRound req roundKey ref (some false) false).pendingAborts =
        s.pendingAborts := (finalizeRound_fields _ _ _ _ _ _).2.2.2.2.1
    rw [if_pos (by simp), finalizeOutbound, bind_iff, get_iff, hat]
    dsimp only
    rw [hcount, if_neg (by simp), set_iff, modify_iff]
    obtain ⟨hfinal, hothers⟩ := hstep.inv.finalizeAbort (by rwa [Aborting, haborts]) hclosed
    refine ⟨hstep.trans hfinal, fun p hp => ?_⟩
    rw [hothers p hp, Aborting, haborts, Aborting]

/-- The loop over the transfers that stopped, with those still to visit. -/
structure Stopping (s : ServerRole) (env : Transport) (kvRequestId : KvRequestId) (roundKey : ℕ)
    (l : List TransferId) (s' : ServerRole) : Prop where
  step : Step s s' [] []
  aborts : s'.pendingAborts = s.pendingAborts
  roundAt : ∀ kv rk, s'.roundAt kv rk = s.roundAt kv rk
  left : ∀ tid x, s'.inflight.get? tid = some x → x.kvRequestId = kvRequestId →
    x.roundKey = roundKey → s.inflight.get? tid = some x ∧ (tid ∈ l ∨ env.stuck tid = true)

/-- One more transfer of the round is out of the table. -/
theorem Stopping.pop {env : Transport} {tid : TransferId} {l : List TransferId}
    (h : Stopping s env req roundKey (tid :: l) s') :
    Returns (do let _ ← inflightPop tid) s' fun _ s'' =>
      Stopping s env req roundKey l s'' := by
  rw [bind_iff]
  refine h.step.inv.inflightPop (fun hnone => ?_) fun x hx => ?_
  · rw [pure_iff]
    refine ⟨h.step, h.aborts, h.roundAt, fun tid' y hy hkv hrk => ?_⟩
    refine (h.left tid' y hy hkv hrk).imp_right (Or.imp_left fun hmem => ?_)
    refine (mem_cons.mp hmem).resolve_left fun heq => ?_
    rw [heq, hnone] at hy
    cases hy
  · rw [pure_iff]
    refine ⟨h.step.trans (h.step.inv.popTransfer hx).1, ?_, fun kv rk => ?_,
      fun tid' y hy hkv hrk => ?_⟩
    · rw [popTransfer_fields]
      exact h.aborts
    · rw [roundAt_popTransfer, h.roundAt]
    · rw [inflight_popTransfer] at hy
      obtain ⟨hne, hy⟩ := get?_erase_eq_some.mp hy
      exact (h.left tid' y hy hkv hrk).imp_right (Or.imp_left fun hmem =>
        (mem_cons.mp hmem).resolve_left hne)

section

variable (h : s.Inv)

include h

private theorem Inv.noteSlowAbort (now : Time) (key : KvRequestId × ℕ) (start : Time) :
    Step s (s.noteSlowAbort now key start) [] [] ∧
      (∀ kv rk, (s.noteSlowAbort now key start).roundAt kv rk = s.roundAt kv rk) ∧
      (s.noteSlowAbort now key start).inflight = s.inflight ∧
      (s.noteSlowAbort now key start).pendingAborts = s.pendingAborts := by
  rw [ServerRole.noteSlowAbort]
  split_ifs
  · exact ⟨h.step_same (forgets_of_eq rfl rfl le_rfl rfl rfl rfl rfl rfl) rfl rfl rfl,
      fun _ _ => rfl, rfl, rfl⟩
  · exact ⟨.refl h, fun _ _ => rfl, rfl, rfl⟩

/-- A drained round is no longer running, and no other abort is touched. -/
private theorem Inv.drainAbort (habort : s.Aborting (req, roundKey)) {env : Transport} {now : Time} :
    Returns (drainAbort env now req roundKey) s fun _ s' =>
      Step s s' [] [] ∧ ¬ s'.Running (req, roundKey) ∧
        ∀ p ≠ (req, roundKey), (s'.Aborting p ↔ s.Aborting p) := by
  obtain ⟨hf, hheld, hsent, haborts, hat, hstopped, hoffers⟩ := h.markAborted req _
  rw [ServerRole.drainAbort, bind_iff, get_iff, if_neg (h.aborts req _ habort)]
  dsimp only
  set s1 := s.markAborted (s.roundAt req roundKey)
  have hbase := h.toBase.forget hf
  have habort1 : s1.Aborting (req, roundKey) := by rwa [Aborting, haborts]
  rw [bind_iff, set_iff]
  cases hids : s1.inflightOf req roundKey with
  | nil =>
    have hdrained : s1.Drained req roundKey := by
      intro tid x hx hkv hrk
      have hmem : tid ∈ s1.inflightOf req roundKey := inflightOf_mem.mpr ⟨x, hx, hkv, hrk⟩
      rw [hids] at hmem
      cases hmem
    rw [← hat req _]
    refine (hbase.endAbort habort1 hdrained fun kv rk ref hreg hne => ?_).mono
      fun _ s' hpost => ⟨hf.step hheld hsent hpost.1,
        fun hrun => hstopped (hpost.1.evolves.settles.running hrun), fun p hp => ?_⟩
    · rw [hat] at hreg hne
      exact hoffers kv rk ref hreg hne
    · rw [hpost.2 p hp, Aborting, haborts, Aborting]
  | cons tid tids =>
    have hmem : tid ∈ s1.inflightOf req roundKey := hids ▸ mem_cons_self
    obtain ⟨x, hx, hkv, hrk⟩ := inflightOf_mem.mp hmem
    -- a transfer is in flight, so the round has its demand and offers nothing
    have hreg := (hbase.xfers tid x hx).roundAt
    rw [hkv, hrk] at hreg
    have hdemand : (s1.rounds x.round).demandReceived = true := by
      have hx' : s.inflight.get? tid = some x := hf.inflight ▸ hx
      exact (hf.rounds x.round).demandReceived.trans (h.round_of_xfer hx').1
    have hinv : s1.Inv := by
      refine ⟨hbase, fun kv rk ref hreg' => ?_⟩
      by_cases href : ref = x.round
      · intro hclosed
        rw [href, hdemand] at hclosed
        cases hclosed
      · rw [hat] at hreg' hreg
        exact hoffers kv rk ref hreg' (hreg ▸ fun heq => href (Option.some.inj heq).symm)
    have hstep1 : Step s s1 [] [] := hf.step hheld hsent (.refl hinv)
    have hstays : ∀ {s'}, Step s1 s' [] [] → ¬ s'.Running (req, roundKey) :=
      fun hstep hrun => hstopped (hstep.evolves.settles.running hrun)
    obtain ⟨start, hstart⟩ := Option.ne_none_iff_exists'.mp habort1
    dsimp only
    rw [hstart, hx]
    dsimp only
    obtain ⟨hstep2, hat2, hinflight2, haborts2⟩ := hinv.noteSlowAbort now (req, roundKey) start
    set s2 := s1.noteSlowAbort now (req, roundKey) start
    have hothers : ∀ p, s2.Aborting p ↔ s.Aborting p := fun p => by
      rw [Aborting, haborts2, haborts, Aborting]
    by_cases hdue : cancelDue (s2.rounds x.round) now = true
    · rw [if_pos hdue, bind_iff, set_iff, bind_iff]
      have hnoted : Step s2 (s2.modifyRound x.round fun rnd =>
          { rnd with lastCancelAt := some now }) [] [] :=
        hstep2.inv.step_modifyRound ⟨rfl, rfl, rfl, rfl, id, fun _ => id⟩ id
      have hstep3 := hnoted.trans (hnoted.inv.clears_cancel env (tid :: tids)).toStep
      set s3 := (s2.modifyRound x.round fun rnd =>
        { rnd with lastCancelAt := some now }).cancel env (tid :: tids)
      have hmem3 : ∀ tid' y, s3.inflight.get? tid' = some y → y.kvRequestId = req →
          y.roundKey = roundKey → tid' ∈ tid :: tids := by
        intro tid' y hy hkv' hrk'
        rw [← hids]
        exact inflightOf_mem.mpr ⟨y, hinflight2 ▸ hy, hkv', hrk'⟩
      have hstop : Stopping s3 env req roundKey
          ((tid :: tids).filter fun tid => !env.stuck tid) s3 := by
        refine ⟨.refl hstep3.inv, rfl, fun _ _ => rfl, fun tid' y hy hkv' hrk' => ⟨hy, ?_⟩⟩
        have hmem' := hmem3 tid' y hy hkv' hrk'
        by_cases hstuck : env.stuck tid' = true
        · exact .inr hstuck
        · exact .inl (mem_filter.mpr ⟨hmem', by simpa using hstuck⟩)
      refine (forAll
        (fun tid l t hstopping => hstopping.pop) hstop).mono fun _ t hend => ?_
      have hstept1 := (hstep2.trans hstep3).trans hend.step
      have hstept := hstep1.trans hstept1
      have hotherst : ∀ p, t.Aborting p ↔ s.Aborting p := fun p => by
        rw [Aborting, hend.aborts]
        exact hothers p
      split_ifs with hany
      · -- none of the transfers is stuck, so none is left
        have hdrained : t.Drained req roundKey := by
          intro tid' y hy hkv' hrk'
          obtain ⟨hy3, hnil | hstuck⟩ := hend.left tid' y hy hkv' hrk'
          · cases hnil
          · rw [Bool.not_eq_true', any_eq_false] at hany
            exact hany tid' (hmem3 tid' y hy3 hkv' hrk') hstuck
        have hrnd : t.roundAt req roundKey = s.roundAt req roundKey := by
          rw [hend.roundAt, ← hat]
          exact hat2 req _
        rw [← hrnd]
        refine (hstept.inv.toBase.endAbort ((hotherst _).mpr habort) hdrained
          fun kv rk ref hreg' _ => hstept.inv.offers kv rk ref hreg').mono fun _ s' hpost => ?_
        exact ⟨hstept.trans hpost.1, hstays (hstept1.trans hpost.1),
          fun p hp => (hpost.2 p hp).trans (hotherst p)⟩
      · rw [pure_iff]
        exact ⟨hstept, hstays hstept1, fun p _ => hotherst p⟩
    · rw [if_neg hdue, set_iff]
      exact ⟨hstep1.trans hstep2, hstays hstep2, fun p _ => hothers p⟩

/-- What an abort does: it is noted, and then the server moves on its own. Its round is stopped. -/
structure Aborted (s s' : ServerRole) (p : KvRequestId × ℕ) : Prop where
  inv : s'.Inv
  accepted : s'.accepted = s.accepted
  held : s'.held = s.held
  stopped : ¬ s'.Running p
  moves : ∃ s1 : ServerRole, (∀ q, s1.IsOpen q → s.IsOpen q) ∧
    (∀ q, s1.Running q → s.Running q) ∧ (∀ q, s1.Aborting q → s.Aborting q ∨ q = p) ∧
    s1.outbox = s.outbox ∧ Evolves s1 s'

/-- An abort is either acknowledged or waits, and reports no job. -/
theorem Inv.onAbortFetch {env : Transport} {now : Time} :
    Returns (onAbortFetch env now req roundKey) s fun _ s' =>
      Aborted s s' (req, roundKey) := by
  rw [ServerRole.onAbortFetch, bind_iff, modify_iff]
  set s1 : ServerRole := { s.setRequest req (s.request req) with
    pendingAborts := if (s.pendingAborts.get? (req, roundKey)).isSome then s.pendingAborts
      else s.pendingAborts.set (req, roundKey) now }
  have haborting : ∀ p, s1.Aborting p ↔ s.Aborting p ∨ p = (req, roundKey) := by
    intro p
    rw [Aborting]
    have hget : s1.pendingAborts = if (s.pendingAborts.get? (req, roundKey)).isSome then
        s.pendingAborts else s.pendingAborts.set (req, roundKey) now := rfl
    rw [hget]
    split_ifs with hsome
    · refine (or_iff_left_of_imp ?_).symm
      rintro rfl
      exact Option.isSome_iff_ne_none.mp hsome
    · by_cases hp : p = (req, roundKey)
      · rw [hp]
        simp
      · rw [get?_set_of_ne hp]
        exact (or_iff_left hp).symm
  have hset : Forgets s (s.setRequest req (s.request req)) := forgets_setRequest rfl fun _ _ => id
  have hbase := h.toBase.forget hset
  have hinv : s1.Inv := by
    refine ⟨⟨fun tid x hx => ?_, fun kv rk ref hat => ?_, hbase.inj, hbase.counts, hbase.home,
      hbase.once, hbase.pending, hbase.owner, hbase.known, fun kv rk hne => ?_, hbase.lookups⟩,
      fun kv rk ref hat => h.offers kv rk ref (hset.roundAt kv rk ref hat)⟩
    · have hok := hbase.xfers tid x hx
      exact ⟨hok.roundAt, hok.blocks, hok.nodup, hok.pinned, hok.fresh⟩
    · have hok := hbase.rounds kv rk ref hat
      exact ⟨hok.alloc, hok.budget, hok.closed⟩
    · rcases (haborting (kv, rk)).mp hne with hold | hnew
      · exact hbase.aborts kv rk hold
      · rw [(Prod.mk.inj hnew).1]
        exact (get?_set_self _ req _).symm ▸ Option.some_ne_none _
  refine (hinv.drainAbort ((haborting _).mpr (.inr rfl))).mono fun _ s' hpost => ?_
  refine ⟨hpost.1.inv, ?_, ?_, hpost.2.1, s1, fun q hq => ?_, fun q hq => ?_,
    fun q hq => (haborting q).mp hq, rfl, hpost.1.evolves⟩
  · rw [hpost.1.accepted, append_nil]
    rfl
  · have hledger := hpost.1.ledger
    rw [jobsIn_nil, add_zero] at hledger
    exact hledger.symm.trans (zero_add _)
  · obtain ⟨ref, hat, hdem⟩ := hq
    exact ⟨ref, hset.roundAt q.1 q.2 ref hat, hdem⟩
  · obtain ⟨ref, hat, hrunning⟩ := hq
    exact ⟨ref, hset.roundAt q.1 q.2 ref hat, hrunning⟩

/-- Aborts that are tried again report nothing by themselves. -/
theorem Inv.drainPendingAborts (env : Transport) (now : Time) :
    Returns (drainPendingAborts env now) s fun _ s' => Step s s' [] [] := by
  have hstart : Step s s [] [] ∧ s.pendingAborts.keys.Nodup ∧
      ∀ p ∈ s.pendingAborts.keys, s.Aborting p := by
    refine ⟨.refl h, s.pendingAborts.nodup, fun p hp => ?_⟩
    obtain ⟨start, hstart⟩ := mem_keys.mp hp
    rw [Aborting, hstart]
    exact Option.some_ne_none _
  refine (forAll (P := fun l t => Step s t [] [] ∧ l.Nodup ∧ ∀ p ∈ l, t.Aborting p)
    (fun p l t hloop => ?_) hstart).mono fun _ _ hend => hend.1
  obtain ⟨hstep, hnodup, haborting⟩ := hloop
  obtain ⟨hnot, hnodup⟩ := nodup_cons.mp hnodup
  refine (hstep.inv.drainAbort (haborting p (.head _))).mono fun _ t' hpost => ?_
  refine ⟨hstep.trans hpost.1, hnodup, fun q hq => ?_⟩
  have hne : q ≠ p := fun heq => hnot (heq ▸ hq)
  exact (hpost.2.2 q hne).mpr (haborting q (.tail _ hq))

/-! ### Finishing a request -/

/-- The loop of `finish`, with the rounds still to visit. -/
private theorem Inv.finishRound {l : List (ℕ × RoundRef)} (hnodup : ((rk, ref) :: l).Nodup)
    (hat : ∀ e ∈ (rk, ref) :: l, s.roundAt req e.1 = some e.2) :
    Returns (finishRound req (rk, ref)) s fun _ s' => Clears s s' [] ∧
      s'.inflight = s.inflight ∧ l.Nodup ∧ ∀ e ∈ l, s'.roundAt req e.1 = some e.2 := by
  obtain ⟨hnot, hnodup⟩ := nodup_cons.mp hnodup
  have hself := hat (rk, ref) mem_cons_self
  rw [ServerRole.finishRound, bind_iff, get_iff, bind_iff, set_iff]
  have hsame : SameDemand (s.rounds ref) { s.rounds ref with finishing := true } :=
    ⟨rfl, rfl, rfl, rfl, id, fun _ => id⟩
  have hstep : Clears s (s.modifyRound ref fun rnd => { rnd with finishing := true }) [] :=
    (h.step_modifyRound hsame id).clears (forgets_modifyRound hsame)
  split_ifs with hidle
  · rw [Bool.and_eq_true, decide_eq_true_eq] at hidle
    have hcount : ((s.modifyRound ref fun rnd => { rnd with finishing := true }).rounds
        ref).inflight = 0 := by
      rw [rounds_modifyRound, if_pos rfl]
      exact hidle.2
    refine (hstep.inv.finalizeOutbound (.inr hcount) hself).mono fun _ s' hpost => ?_
    refine ⟨hstep.trans hpost.1, ?_, hnodup, fun e he => ?_⟩
    · rcases hpost.2 with ⟨-, rfl⟩ | rfl
      · rfl
      · exact (finalizeRound_fields _ req rk ref none true).1
    · have hold := hat e (.tail _ he)
      rcases hpost.2 with ⟨-, rfl⟩ | rfl
      · exact hold
      · rw [roundAt_finalizeRound, if_neg]
        · exact hold
        · rintro ⟨-, hkey⟩
          have href := Option.some.inj (hself.symm.trans (hkey ▸ hold))
          exact hnot ((Prod.ext hkey.symm href) ▸ he)
  · rw [pure_iff]
    exact ⟨hstep, rfl, hnodup, fun e he => hat e (.tail _ he)⟩

/-- The end of a request stops no transfer. -/
theorem Inv.finish :
    Returns (finish req) s fun _ s' => Clears s s' [] ∧ s'.inflight = s.inflight := by
  rw [ServerRole.finish, bind_iff, modify_iff, bind_iff, get_iff]
  obtain ⟨hstep, -, -, -, -, hinflight⟩ := h.finishInboundLookups req
  set s1 := s.finishInboundLookups req
  have hstart : Clears s s1 [] ∧ s1.inflight = s.inflight ∧
      (s1.request req).outbound.entries.Nodup ∧
      ∀ e ∈ (s1.request req).outbound.entries, s1.roundAt req e.1 = some e.2 :=
    ⟨hstep, hinflight, (s1.request req).outbound.nodup.of_map, fun e he => mem_entries.mp he⟩
  refine (forAll (P := fun l t => Clears s t [] ∧ t.inflight = s.inflight ∧ l.Nodup ∧
    ∀ e ∈ l, t.roundAt req e.1 = some e.2) (fun e l t hloop => ?_) hstart).mono
    fun _ _ hend => ⟨hend.1, hend.2.1⟩
  obtain ⟨hstep', hsame, hnodup, hat⟩ := hloop
  refine (hstep'.inv.finishRound hnodup hat).mono fun _ t' hpost => ?_
  exact ⟨hstep'.trans hpost.1, hpost.2.1.trans hsame, hpost.2.2⟩

end

end ServerRole

end Sonar.P2P
