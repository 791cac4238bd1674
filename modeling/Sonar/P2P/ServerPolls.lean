import Sonar.P2P.ServerAborts

/-!
# Polls of a server role

What `collect_results` does: store jobs that timed out cancel their rounds, transfers the transport
reports done or failed are popped and settled, and results queued by other calls are handed out. A
transfer that is done counts towards its round. When nothing remains the round has no other
transfer, since every transfer carries blocks that remain (`Base.inflight_eq_zero_of_blocks`).
-/

namespace Sonar.P2P

open Lib Returns List Dict

namespace ServerRole

variable {s s' : ServerRole} {ref : RoundRef} {tid : TransferId} {x : InflightXfer}

/-! ### Store jobs that time out -/

/-- A transfer is popped and its jobs are settled: those still in the table are read by another. -/
private theorem keeps_settleXferJobs (hx : s.inflight.get? tid = some x)
    (hf : Forgets (s.popTransfer tid x) s') {success : Bool} :
    Keeps s (s'.settleXferJobs x success).2 := by
  rw [settleXferJobs]
  generalize hlist : (x.jobIds.filter fun j => decide (j ∉
    if (s'.rounds x.round).cancelled = true then s'.readJobIds else [])) = jobIds
  have hpinned : ∀ j, (popJobs jobIds s'.storeJobs).2.get? j ≠ none → j ∉ jobIds ∧ s'.Pinned j :=
    fun j => pinned_popJobs.mp
  refine ⟨fun j hj => ?_, ?_⟩
  · have hpopped := hf.unpinned j (hpinned j hj).2
    rwa [popTransfer_fields] at hpopped
  · rintro j hj ⟨tid', ref, y, hy, hround, hjy⟩
    by_cases htid : tid' = tid
    · -- the popped transfer: its job would have been settled
      obtain rfl := Option.some.inj (hx.symm.trans (htid ▸ hy))
      have hread : j ∈ if (s'.rounds x.round).cancelled = true then s'.readJobIds else [] := by
        by_contra hnot
        refine (hpinned j hj).1 ?_
        rw [← hlist]
        exact mem_filter.mpr ⟨hjy, decide_eq_true hnot⟩
      split_ifs at hread with hcancelled
      · exact mem_readJobIds.mp hread
      · cases hread
    · refine ⟨tid', ref, y, ?_, hround, hjy⟩
      change s'.inflight.get? tid' = some y
      rw [hf.inflight, inflight_popTransfer, get?_erase_of_ne htid]
      exact hy

/-- A stopped transfer is taken out of the in-flight table. -/
private theorem Inv.popStopped (h : s.Inv) (hx : s.inflight.get? tid = some x) :
    Returns (popStopped tid) s fun out s' =>
      Clears s s' out ∧ s'.inflight = s.inflight.erase tid := by
  rw [ServerRole.popStopped, bind_iff]
  refine h.inflightPop (fun hnone => absurd (hnone.symm.trans hx) nofun) fun y hy => ?_
  obtain ⟨hstep, hpopped, -⟩ := h.popTransfer hy
  obtain ⟨hsettle, hf⟩ := hstep.inv.settleXferJobs hpopped false
  rw [bind_iff, get_iff, bind_iff, set_iff, pure_iff]
  exact ⟨⟨hstep.trans hsettle, keeps_settleXferJobs hy .refl⟩,
    hf.inflight.trans (inflight_popTransfer s tid y)⟩

private theorem Inv.finalizeStopped (h : s.Inv) {req : KvRequestId} {roundKey : ℕ} :
    Returns (finalizeStopped req roundKey ref) s fun _ s' => Clears s s' [] := by
  rw [ServerRole.finalizeStopped, bind_iff, get_iff]
  split_ifs with hidle
  · rw [Bool.and_eq_true, decide_eq_true_eq, decide_eq_true_eq] at hidle
    exact h.finalizeCancelled (.inr hidle.1) hidle.2
  · rw [pure_iff]
    exact .refl h

/-- A round with its demand can be cancelled at any time. -/
private theorem Inv.step_cancel (h : s.Inv) (hdemand : (s.rounds ref).demandReceived = true) :
    Clears s (s.modifyRound ref fun rnd => { rnd with cancelled := true }) [] := by
  have hsame : SameDemand (s.rounds ref) { s.rounds ref with cancelled := true } :=
    ⟨rfl, rfl, rfl, rfl, fun _ => rfl, fun _ => id⟩
  refine (h.step_modifyRound hsame fun _ hclosed => ?_).clears (forgets_modifyRound hsame)
  exact absurd (hclosed.symm.trans hdemand) nofun

variable {entry : (KvRequestId × ℕ) × RoundRef}

variable {env : Transport} {now : Time}

/-- Cancelling a round that has its demand reports the jobs it settles. -/
private theorem Inv.cancelRound (h : s.Inv) (hdemand : (s.rounds entry.2).demandReceived = true) :
    Returns (cancelRound env now entry) s fun out s' => Clears s s' out := by
  rw [ServerRole.cancelRound, bind_iff, get_iff]
  dsimp only
  have hstep := h.step_cancel hdemand
  set s1 := s.modifyRound entry.2 fun rnd => { rnd with cancelled := true }
  split_ifs with hdue
  · rw [bind_iff, set_iff, pure_iff]
    exact hstep
  · have hsame : SameDemand (s1.rounds entry.2)
        { s1.rounds entry.2 with lastCancelAt := some now } :=
      ⟨rfl, rfl, rfl, rfl, id, fun _ => id⟩
    set tids := (s1.inflight.entries.filter fun e => decide (e.2.round = entry.2)).map Prod.fst
    have hnoted : Clears s1 (s1.modifyRound entry.2 fun rnd =>
        { rnd with lastCancelAt := some now }) [] :=
      (hstep.inv.step_modifyRound hsame id).clears (forgets_modifyRound hsame)
    have hstep2 := hnoted.trans (hnoted.inv.clears_cancel env tids)
    set s2 := (s1.modifyRound entry.2 fun rnd => { rnd with lastCancelAt := some now }).cancel env
      tids
    have hstart : Clears s s2 [] ∧ (tids.filter fun tid => !env.stuck tid).Nodup ∧
        ∀ tid ∈ tids.filter fun tid => !env.stuck tid, s2.inflight.get? tid ≠ none := by
      refine ⟨hstep.trans hstep2, (s1.inflight.nodup.sublist (filter_sublist.map _)).filter _,
        fun tid hmem => ?_⟩
      obtain ⟨⟨tid', x⟩, he, rfl⟩ := mem_map.mp (mem_filter.mp hmem).1
      have hx := mem_entries.mp (mem_filter.mp he).1
      exact hx.symm ▸ Option.some_ne_none x
    rw [bind_iff, set_iff, bind_iff]
    refine (collect (P := fun l out t => Clears s t out ∧ l.Nodup ∧
      ∀ tid ∈ l, t.inflight.get? tid ≠ none) (fun tid l out t hloop => ?_) hstart).mono
      fun out t hend => ?_
    · obtain ⟨hstept, hnodup, hleft⟩ := hloop
      obtain ⟨hnot, hnodup⟩ := nodup_cons.mp hnodup
      obtain ⟨x, hx⟩ := Option.ne_none_iff_exists'.mp (hleft tid (.head _))
      refine (hstept.inv.popStopped hx).mono fun out' t' hpost => ?_
      refine ⟨hstept.trans hpost.1, hnodup, fun tid' hmem => ?_⟩
      rw [hpost.2, get?_erase_of_ne]
      · exact hleft tid' (.tail _ hmem)
      · rintro rfl
        exact hnot hmem
    · rw [bind_iff]
      refine hend.1.inv.finalizeStopped.mono fun _ s' hfinal => ?_
      rw [pure_iff]
      have htrans := hend.1.trans hfinal
      simpa only [append_nil] using htrans

/-- The rounds that are cancelled have transfers in flight. -/
private theorem expiredRounds_spec {expired : List JobId}
    (hentry : entry ∈ (s.expiredRounds expired).entries) :
    ∃ tid x, s.inflight.get? tid = some x ∧ x.round = entry.2 := by
  have hfold : ∀ (l : List InflightXfer) (d : Dict (KvRequestId × ℕ) RoundRef),
      (∀ p r, d.get? p = some r → ∃ x ∈ s.inflight.values, x.round = r) →
      (∀ x ∈ l, x ∈ s.inflight.values) → ∀ p r, (l.foldl (fun rounds x =>
        rounds.set (x.kvRequestId, x.roundKey) x.round) d).get? p = some r →
        ∃ x ∈ s.inflight.values, x.round = r := by
    intro l
    induction l with
    | nil => exact fun d hd _ => hd
    | cons y l ih =>
      intro d hd hl
      refine ih _ (fun p r hget => ?_) fun x hx => hl x (.tail _ hx)
      by_cases hp : p = (y.kvRequestId, y.roundKey)
      · rw [hp, get?_set_self] at hget
        exact ⟨y, hl y (.head _), Option.some.inj hget⟩
      · rw [get?_set_of_ne hp] at hget
        exact hd p r hget
  obtain ⟨x, hx, hround⟩ := hfold _ ∅ (nofun)
    (fun x hx => (mem_filter.mp hx).1) entry.1 entry.2 (mem_entries.mp hentry)
  obtain ⟨tid, htid⟩ := mem_values.mp hx
  exact ⟨tid, x, htid, hround⟩

/-- A timeout reports jobs whose blocks nothing reads. -/
theorem Inv.timeoutPendingStoreJobs (h : s.Inv) :
    Returns (timeoutPendingStoreJobs env now) s fun out s' => Clears s s' out := by
  rw [ServerRole.timeoutPendingStoreJobs, bind_iff, get_iff]
  dsimp only
  split_ifs with hnothing
  · rw [pure_iff]
    exact .refl h
  · have hstart : Clears s s [] ∧ ∀ e ∈ (s.expiredRounds (s.timedOutJobs now)).entries,
        e.2 < s.nextRound ∧ (s.rounds e.2).demandReceived = true := by
      refine ⟨.refl h, fun e he => ?_⟩
      obtain ⟨tid, x, hx, hround⟩ := expiredRounds_spec he
      rw [← hround]
      exact ⟨(h.rounds _ _ _ (h.xfers tid x hx).roundAt).alloc, (h.round_of_xfer hx).1⟩
    rw [bind_iff]
    refine (collect (P := fun l out t => Clears s t out ∧ ∀ e ∈ l,
      e.2 < t.nextRound ∧ (t.rounds e.2).demandReceived = true) (fun e l out t hloop => ?_)
      hstart).mono fun out t hend => ?_
    · obtain ⟨hstep, hleft⟩ := hloop
      refine (hstep.inv.cancelRound (hleft e (.head _)).2).mono
        fun out' t' hpost => ⟨hstep.trans hpost, fun e' he' => ?_⟩
      obtain ⟨hlt, hdemand⟩ := hleft e' (.tail _ he')
      obtain ⟨hlt', hkeep⟩ := hpost.demand e'.2 hlt
      exact ⟨hlt', hkeep hdemand⟩
    · rw [bind_iff, get_iff, bind_iff, set_iff, pure_iff]
      obtain ⟨hfail, hf⟩ := hend.1.inv.failTimedOut _
      exact hend.1.trans (hfail.clears hf)

/-! ### Transfers that are done or failed -/

/-- A round without blocks in transfers counts none in flight. -/
theorem Base.inflight_eq_zero_of_blocks (h : s.Base) (hblocks : s.blocksOf ref = 0) :
    (s.rounds ref).inflight = 0 := by
  rw [h.counts]
  refine sum_eq_zero fun n hn => ?_
  obtain ⟨⟨tid, x⟩, hx, rfl⟩ := mem_map.mp hn
  refine if_neg fun hround => ?_
  have hpos := (h.xfers tid x (mem_entries.mp hx)).blocks
  rw [blocksOf_erase (mem_entries.mp hx), if_pos hround] at hblocks
  omega

section

variable (h : s.Inv)

include h

private theorem Inv.step_progress (hat : s.roundAt req roundKey = some ref) {blockCount : ℕ}
    (hroom : s.blocksOf ref + blockCount + (s.rounds ref).demanded.entries.length ≤
      (s.rounds ref).remaining) :
    Clears s (s.modifyRound ref fun rnd => { rnd with remaining := rnd.remaining - blockCount })
      [] := by
  refine ⟨h.replaceRound (h.toBase.replaceRound hat rfl ?_ (fun hclosed => ?_) fun j hj =>
    h.toBase.pending_only hj) rfl rfl id, keeps_of_inflight rfl fun _ => id⟩
  · dsimp only
    omega
  · have hzero := (h.rounds _ _ _ hat).closed hclosed
    dsimp only
    omega

/-- A finished transfer of a live round keeps the invariant. -/
private theorem Inv.progressRound (hat : s.roundAt x.kvRequestId x.roundKey = some x.round)
    (hroom : s.blocksOf x.round + x.blockCount + (s.rounds x.round).demanded.entries.length ≤
      (s.rounds x.round).remaining) : Returns (progressRound x) s fun _ s' => Clears s s' [] := by
  rw [ServerRole.progressRound, bind_iff, get_iff, if_pos hat,
    if_neg (show ¬ (s.rounds x.round).remaining < x.blockCount by omega), bind_iff, set_iff]
  have hstep := h.step_progress hat hroom
  set s1 := s.modifyRound x.round fun rnd => { rnd with remaining := rnd.remaining - x.blockCount }
  dsimp only
  split_ifs with hcancelled hidle hremaining hfinishing
  · exact (hstep.inv.finalizeCancelled (.inr hidle) hat).mono fun _ _ hfinal => hstep.trans hfinal
  · rw [pure_iff]
    exact hstep
  · -- nothing remains, so no other transfer of the round is in flight
    have hblocks : s1.blocksOf x.round = 0 := by
      have hbudget := (hstep.inv.rounds _ _ _ hat).budget
      omega
    have hcount := hstep.inv.toBase.inflight_eq_zero_of_blocks hblocks
    exact (hstep.inv.finalizeOutbound (.inr hcount) hat).mono fun _ _ hpost =>
      hstep.trans hpost.1
  · rw [Bool.and_eq_true, decide_eq_true_eq] at hfinishing
    exact (hstep.inv.finalizeOutbound (.inr hfinishing.2) hat).mono fun _ _ hpost =>
      hstep.trans hpost.1
  · rw [pure_iff]
    exact hstep

/-- A completed transfer reports the jobs it settles, whatever became of its round. -/
private theorem Inv.onDone : Returns (onDone tid) s fun out s' => Clears s s' out := by
  rw [ServerRole.onDone, bind_iff]
  refine h.inflightPop (fun _ => ?_) fun x hx => ?_
  · rw [pure_iff]
    exact .refl h
  · obtain ⟨hstep, hpopped, hroom⟩ := h.popTransfer hx
    set s1 := s.popTransfer tid x
    have hat1 : s1.roundAt x.kvRequestId x.roundKey = some x.round :=
      roundAt_popTransfer.trans (h.xfers tid x hx).roundAt
    have hroom1 : s1.blocksOf x.round + x.blockCount +
        (s1.rounds x.round).demanded.entries.length ≤ (s1.rounds x.round).remaining := by
      rw [(h.recounts_popTransfer hx).rounds]
      exact hroom
    rw [bind_iff, get_iff, bind_iff, set_iff, bind_iff]
    generalize (!(s1.rounds x.round).cancelled) = success
    obtain ⟨hsettle, hf⟩ := hstep.inv.settleXferJobs hpopped success
    have hroom2 : (s1.settleXferJobs x success).2.blocksOf x.round + x.blockCount +
        ((s1.settleXferJobs x success).2.rounds x.round).demanded.entries.length ≤
        ((s1.settleXferJobs x success).2.rounds x.round).remaining := by
      rw [(hf.rounds x.round).demanded, (hf.rounds x.round).remaining]
      exact hroom1
    refine (hsettle.inv.progressRound hat1 hroom2).mono fun _ s3 hprogress => ?_
    rw [bind_iff, modify_iff, pure_iff]
    have hsettled : Clears s (s1.settleXferJobs x success).2 (s1.settleXferJobs x success).1 :=
      ⟨hstep.trans hsettle, keeps_settleXferJobs hx .refl⟩
    have htrans := (hsettled.trans hprogress).trans
      ((hprogress.inv.step_maybePrune _).clears (forgets_maybePrune s3 x.kvRequestId))
    simpa only [append_nil] using htrans

private theorem Inv.cancelFailed (hpopped : Popped s x) :
    Step s (s.cancelFailed x).2 [] (s.cancelFailed x).1 ∧ Forgets s (s.cancelFailed x).2 := by
  rw [ServerRole.cancelFailed]
  split_ifs with hactive
  · obtain ⟨hf, hheld, hsame⟩ := h.toBase.forgets_cancelUnwritten x.round
    refine ⟨h.step hf (fun kv rk ref hat => ?_) hheld rfl, hf⟩
    by_cases href : ref = x.round
    · intro hclosed
      rw [href, (hf.rounds x.round).demandReceived, hpopped.demand] at hclosed
      exact absurd hclosed nofun
    · exact (hsame ref href).symm ▸ h.offers kv rk ref (hf.roundAt kv rk ref hat)
  · exact ⟨.refl h, .refl⟩

/-- A failed transfer reports its round's unwritten jobs and its own. -/
private theorem Inv.onFailed : Returns (onFailed tid) s fun out s' => Clears s s' out := by
  rw [ServerRole.onFailed, bind_iff]
  refine h.inflightPop (fun _ => ?_) fun x hx => ?_
  · rw [pure_iff]
    exact .refl h
  · obtain ⟨hstep, hpopped, -⟩ := h.popTransfer hx
    obtain ⟨hcancel, hf⟩ := hstep.inv.cancelFailed hpopped
    obtain ⟨hsettle, -⟩ := hcancel.inv.settleXferJobs (hpopped.forget hf) false
    rw [bind_iff, get_iff, bind_iff, set_iff, bind_iff]
    refine hsettle.inv.finalizeStopped.mono fun _ s3 hfinal => ?_
    rw [bind_iff, modify_iff, pure_iff]
    have hsettled : Clears s _ _ :=
      ⟨(hstep.trans hcancel).trans hsettle, keeps_settleXferJobs hx hf⟩
    have htrans := (hsettled.trans hfinal).trans
      ((hfinal.inv.step_maybePrune _).clears (forgets_maybePrune s3 x.kvRequestId))
    simpa only [append_nil, nil_append] using htrans

private theorem Inv.checkStalledTransfers (now : Time) :
    Clears s (if s.peerFault = none then s.checkStalledTransfers now else s) [] := by
  rw [ServerRole.checkStalledTransfers]
  split_ifs
  · split
    · exact .refl h
    · split_ifs
      · exact .refl h
      · exact h.clears_same (forgets_of_eq rfl rfl le_rfl rfl rfl rfl rfl rfl) rfl rfl rfl
  · exact .refl h

/-- All results are handed out, also those that were queued. -/
theorem Inv.collectResults {poll : PollResult} :
    Returns (collectResults env poll now) s fun out s' =>
      Clears s s' out ∧ s'.pendingStoreResults = [] := by
  rw [ServerRole.collectResults, bind_iff]
  refine h.timeoutPendingStoreJobs.mono fun timedOut s1 hstep1 => ?_
  rw [bind_iff, modify_iff, bind_iff]
  set s2 : ServerRole := { s1 with
    peerFault := (poll.peerFault.map PeerFault.reported).or s1.peerFault
    live := s1.live.filter fun tid _ => tid ∉ poll.done ++ poll.failed }
  have hstep2 : Clears s1 s2 [] :=
    hstep1.inv.clears_same (forgets_of_eq rfl rfl le_rfl rfl rfl rfl rfl rfl) rfl rfl rfl
  refine (collect (P := fun _ out t => Clears s2 t out)
    (fun tid l out t hstep => hstep.inv.onDone.mono fun _ _ hpost => hstep.trans hpost)
    (.refl hstep2.inv)).mono fun done s3 hstep3 => ?_
  rw [bind_iff]
  refine (collect (P := fun _ out t => Clears s3 t out)
    (fun tid l out t hstep => hstep.inv.onFailed.mono fun _ _ hpost => hstep.trans hpost)
    (.refl hstep3.inv)).mono fun failed s4 hstep4 => ?_
  rw [bind_iff, modify_iff, bind_iff, get_iff, bind_iff, set_iff, pure_iff]
  have hstep5 := hstep4.inv.checkStalledTransfers now
  set s5 := if s4.peerFault = none then s4.checkStalledTransfers now else s4
  have hqueued : Clears s5 { s5 with pendingStoreResults := [] } s5.pendingStoreResults := by
    have hf : Forgets s5 { s5 with pendingStoreResults := [] } :=
      forgets_of_eq rfl rfl le_rfl rfl rfl rfl rfl rfl
    refine (hstep5.inv.step hf (hstep5.inv.offers) ?_ rfl).clears
      hf
    exact (congrArg (· + jobsIn _) (add_zero _)).symm
  have htrans := ((((hstep1.trans hstep2).trans hstep3).trans hstep4).trans hstep5).trans hqueued
  refine ⟨?_, rfl⟩
  simpa only [append_nil] using htrans

end

end ServerRole

end Sonar.P2P
