import Sonar.P2P.ServerInv

/-!
# Transfers and jobs of a server role

What the parts of a call do to `ServerRole.Inv`. A transfer that stopped is popped first and its
jobs are settled then; in between, `Popped` says that no other transfer reads them. A match of
supply and demand is taken out of the round first and submitted then; in between, `Submittable`
says that the round has room for it.
-/

namespace Sonar.P2P

open Lib List Dict OutboundRound

namespace ServerRole

open Function (update_of_ne update_self)

variable {s s' : ServerRole} {req kv : KvRequestId} {roundKey rk : ℕ} {ref : RoundRef}
  {tid : TransferId} {x : InflightXfer}

/-! ### Changes of transfers -/

/-- A step of transfers and lookups: the rounds stand, but for their counts. -/
structure Recounts (s s' : ServerRole) : Prop where
  rest : s' = { s with
    requests := s'.requests
    rounds := s'.rounds
    inflight := s'.inflight
    nextTid := s'.nextTid
    live := s'.live }
  requests : ∀ kv, (s'.request kv).outbound = (s.request kv).outbound ∧
    (s.requests.get? kv ≠ none → s'.requests.get? kv ≠ none)
  lookups : ∀ kv id lookup, (s'.request kv).lookups.get? id = some lookup → LookupOk id lookup
  rounds : ∀ ref, s'.rounds ref = { s.rounds ref with inflight := s'.countOf ref }

/-- Counting again moves no round. -/
theorem Recounts.roundAt (h : Recounts s s') : s'.roundAt = s.roundAt := by
  funext kv rk
  rw [ServerRole.roundAt, (h.requests kv).1, ServerRole.roundAt]

/-- Such a step keeps the invariant if the new transfers are sound, each round has room for its
own, and each job is read once, by a transfer of a round that knew it. -/
theorem Inv.recount (h : s.Inv) (hr : Recounts s s')
    (hxfers : ∀ tid x, s'.inflight.get? tid = some x → s'.XferOk tid x)
    (hbudget : ∀ kv rk ref, s.roundAt kv rk = some ref →
      s'.blocksOf ref + (s.rounds ref).demanded.entries.length ≤ (s.rounds ref).remaining)
    (hreads : ∀ j tid ref, s'.Reads j tid ref → s.Touches j ref)
    (honce : ∀ j tid tid' ref ref', s'.Reads j tid ref → s'.Reads j tid' ref' → tid = tid') :
    Step s s' [] [] := by
  have hnext : s'.nextRound = s.nextRound := by rw [hr.rest]
  have hpinned : ∀ j, s'.Pinned j ↔ s.Pinned j := fun j => by rw [hr.rest]; exact Iff.rfl
  have hpending : ∀ j ref, j ∈ (s'.rounds ref).pendingJobIds →
      j ∈ (s.rounds ref).pendingJobIds := fun j ref hj => by rwa [hr.rounds] at hj
  have htouches : ∀ j ref, s'.Touches j ref → s.Touches j ref := by
    rintro j ref (hmem | ⟨tid, hread⟩)
    · exact .inl (hpending j ref hmem)
    · exact hreads j tid ref hread
  have hbase : s'.Base := by
    refine ⟨hxfers, fun kv rk ref hat => ?_, fun kv rk kv' rk' ref => ?_, fun ref => ?_,
      fun j ref ref' ht ht' => h.home j ref ref' (htouches j ref ht) (htouches j ref' ht'), honce,
      fun j ref hj => (hpinned j).mpr (h.pending j ref (hpending j ref hj)), fun j ref hj => ?_,
      fun j hj => ?_, fun kv rk hne => (hr.requests kv).2 (h.aborts kv rk ?_), hr.lookups⟩
    · rw [hr.roundAt] at hat
      have hok := h.rounds kv rk ref hat
      refine ⟨hnext ▸ hok.alloc, ?_, ?_⟩ <;> rw [hr.rounds]
      · exact hbudget kv rk ref hat
      · exact hok.closed
    · rw [hr.roundAt]
      exact h.inj kv rk kv' rk' ref
    · rw [hr.rounds]
    · rw [hr.roundAt]
      exact h.owner j ref (hpending j ref hj)
    · rw [hr.rest]
      exact h.known j ((hpinned j).mp hj)
    · rwa [hr.rest] at hne
  refine ⟨⟨hbase, fun kv rk ref hat => ?_⟩, ?_, ?_, fun ref href => ?_,
    .single (.silent ⟨fun kv rk ref hat hdem => ?_, fun p hp => ?_⟩ (by rw [hr.rest]))⟩
  · rw [hr.rounds]
    exact h.offers kv rk ref (hr.roundAt ▸ hat)
  · rw [hr.rest]
    exact (append_nil _).symm
  · rw [hr.rest]
    exact add_comm _ _
  · rw [hr.rounds]
    exact ⟨hnext ▸ href, id⟩
  · rw [hr.rounds] at hdem ⊢
    exact ⟨hr.roundAt ▸ hat, hdem, id⟩
  · rwa [hr.rest] at hp

/-- A change of the transfers of a request keeps its rounds and lookups. -/
private theorem request_setTids {tids : List TransferId} :
    let s' := s.setRequest req { s.request req with inflightTids := tids }
    ((s'.request kv).outbound = (s.request kv).outbound ∧
      (s.requests.get? kv ≠ none → s'.requests.get? kv ≠ none)) ∧
      (s'.request kv).lookups = (s.request kv).lookups := by
  dsimp only
  by_cases hkv : kv = req
  · rw [hkv, request_setRequest_self, setRequest, get?_set_self]
    exact ⟨⟨rfl, fun _ => Option.some_ne_none _⟩, rfl⟩
  · rw [request_setRequest_of_ne hkv, setRequest, get?_set_of_ne hkv]
    exact ⟨⟨rfl, id⟩, rfl⟩

/-! ### Popping a transfer -/

/-- What popping a transfer leaves alone. -/
theorem popTransfer_fields (s : ServerRole) (tid : TransferId) (x : InflightXfer) :
    let s' := s.popTransfer tid x
    s' = { s with
      requests := s'.requests
      rounds := Function.update s.rounds x.round { s.rounds x.round with
        inflight := (s.rounds x.round).inflight - 1 }
      inflight := s.inflight.erase tid } := by
  rw [popTransfer]
  split <;> rfl

private theorem request_popTransfer :
    (((s.popTransfer tid x).request kv).outbound = (s.request kv).outbound ∧
      (s.requests.get? kv ≠ none → (s.popTransfer tid x).requests.get? kv ≠ none)) ∧
      ((s.popTransfer tid x).request kv).lookups = (s.request kv).lookups := by
  rw [popTransfer]
  split
  · exact ⟨⟨rfl, id⟩, rfl⟩
  · next hst =>
    obtain rfl := request_of_get? hst
    exact request_setTids

/-- The table without the transfer. -/
theorem inflight_popTransfer (s : ServerRole) (tid : TransferId) (x : InflightXfer) :
    (s.popTransfer tid x).inflight = s.inflight.erase tid := by
  rw [popTransfer_fields]

/-- The rounds are where they were. -/
theorem roundAt_popTransfer : (s.popTransfer tid x).roundAt kv rk = s.roundAt kv rk := by
  rw [roundAt, request_popTransfer.1.1, roundAt]

/-- The jobs of a transfer that was popped are read by no other, and known to its round only. -/
structure Popped (s : ServerRole) (x : InflightXfer) : Prop where
  unread : ∀ j ∈ x.jobIds, ∀ tid ref, ¬ s.Reads j tid ref
  home : ∀ j ∈ x.jobIds, ∀ ref, j ∈ (s.rounds ref).pendingJobIds → ref = x.round
  demand : (s.rounds x.round).demandReceived = true

/-- A popped transfer stays popped. -/
theorem Popped.forget (h : Popped s x) (hf : Forgets s s') : Popped s' x where
  unread j hj tid ref hread := h.unread j hj tid ref ((reads_congr hf.inflight).mp hread)
  home j hj ref hmem := h.home j hj ref ((hf.rounds ref).pending j hmem)
  demand := (hf.rounds x.round).demandReceived.trans h.demand

section

variable (hx : s.inflight.get? tid = some x)

include hx

private theorem countOf_erase (ref : RoundRef) : s.countOf ref = (if x.round = ref then 1 else 0) +
      (s.inflight.erase tid).total fun _ x => if x.round = ref then 1 else 0 := by
  rw [countOf, total_erase _ _ tid, part_of_get? _ hx]

/-- The blocks of a round, with one transfer taken out. -/
theorem blocksOf_erase (ref : RoundRef) :
    s.blocksOf ref = (if x.round = ref then x.blockCount else 0) +
      (s.inflight.erase tid).total fun _ x => if x.round = ref then x.blockCount else 0 := by
  rw [blocksOf, total_erase _ _ tid, part_of_get? _ hx]

/-- The round of a transfer has received its demand, and has room for the transfer. -/
theorem Inv.round_of_xfer (h : s.Inv) :
    (s.rounds x.round).demandReceived = true ∧ 0 < (s.rounds x.round).inflight := by
  have hok := h.xfers tid x hx
  have hround := h.rounds _ _ _ hok.roundAt
  constructor
  · by_contra hdemand
    have hzero := hround.closed (Bool.not_eq_true _ ▸ hdemand)
    have hbudget := hround.budget
    rw [blocksOf_erase hx, if_pos rfl] at hbudget
    have hpos := hok.blocks
    omega
  · rw [h.counts, countOf_erase hx, if_pos rfl]
    omega

/-- The counts after a transfer is popped. -/
theorem Inv.recounts_popTransfer (h : s.Inv) : Recounts s (s.popTransfer tid x) := by
  refine ⟨?_, fun kv => request_popTransfer.1, fun kv i lookup hget =>
    h.lookups kv i lookup (request_popTransfer.2 ▸ hget), fun ref => ?_⟩
  · rw [popTransfer_fields]
  · have hcount := countOf_erase hx ref
    rw [← h.counts] at hcount
    rw [countOf, popTransfer_fields]
    dsimp only
    by_cases href : ref = x.round
    · rw [href, if_pos rfl] at hcount
      rw [href, update_self, hcount, Nat.add_sub_cancel_left]
    · rw [if_neg fun heq => href heq.symm, zero_add] at hcount
      rw [update_of_ne href, ← hcount]

/-- A popped transfer leaves its round with room for its blocks. -/
theorem Inv.popTransfer (h : s.Inv) :
    Step s (s.popTransfer tid x) [] [] ∧ Popped (s.popTransfer tid x) x ∧
      (s.popTransfer tid x).blocksOf x.round + x.blockCount +
        (s.rounds x.round).demanded.entries.length ≤ (s.rounds x.round).remaining := by
  have hr := h.recounts_popTransfer hx
  have hinflight := inflight_popTransfer s tid x
  have hok := h.xfers tid x hx
  have hreads : ∀ j tid' ref', (s.popTransfer tid x).Reads j tid' ref' →
      s.Reads j tid' ref' ∧ tid' ≠ tid := by
    rintro j tid' ref' ⟨y, hy, hround, hj⟩
    obtain ⟨hne, hy⟩ := get?_erase_eq_some.mp (hinflight ▸ hy)
    exact ⟨⟨y, hy, hround, hj⟩, hne⟩
  have hblocks : ∀ ref', s.blocksOf ref' = (if x.round = ref' then x.blockCount else 0) +
      (s.popTransfer tid x).blocksOf ref' := fun ref' => by
    rw [blocksOf_erase hx, blocksOf, hinflight]
  refine ⟨h.recount hr (fun tid' y hy => ?_) (fun kv rk ref' hat => ?_)
    (fun j tid' ref' hread => .inr ⟨tid', (hreads _ _ _ hread).1⟩)
    fun j tid1 tid2 ref1 ref2 hread hread' =>
      h.once j tid1 tid2 ref1 ref2 (hreads _ _ _ hread).1 (hreads _ _ _ hread').1,
    ⟨fun j hj tid' ref' hread => ?_, fun j hj ref' hmem => ?_, ?_⟩, ?_⟩
  · have hoky := h.xfers tid' y (get?_erase_eq_some.mp (hinflight ▸ hy)).2
    refine ⟨roundAt_popTransfer.trans hoky.roundAt, hoky.blocks, hoky.nodup, ?_, ?_⟩
      <;> rw [popTransfer_fields]
    · exact hoky.pinned
    · exact hoky.fresh
  · have hbudget := (h.rounds kv rk ref' hat).budget
    rw [hblocks] at hbudget
    omega
  · obtain ⟨hread', hne⟩ := hreads j tid' ref' hread
    exact hne (h.once j tid' tid ref' x.round hread' ⟨x, hx, rfl, hj⟩)
  · rw [hr.rounds] at hmem
    exact h.home j ref' x.round (.inl hmem) (.inr ⟨tid, x, hx, rfl, hj⟩)
  · rw [hr.rounds]
    exact (h.round_of_xfer hx).1
  · have hbudget := (h.rounds _ _ _ hok.roundAt).budget
    rw [hblocks, if_pos rfl] at hbudget
    omega

end

/-! ### Settling jobs -/

variable {j : JobId} {rnd : OutboundRound}

private theorem mem_popJobs {jobIds : List JobId} {storeJobs : Dict JobId Time}
    (hj : j ∈ jobIds) (hpinned : storeJobs.get? j ≠ none) : j ∈ (popJobs jobIds storeJobs).1 := by
  induction jobIds generalizing storeJobs with
  | nil => cases hj
  | cons jobId jobIds ih =>
    rw [popJobs]
    cases hjob : storeJobs.get? jobId with
    | none =>
      rcases mem_cons.mp hj with rfl | hmem
      · exact absurd hjob hpinned
      · exact ih hmem hpinned
    | some submittedAt =>
      by_cases heq : j = jobId
      · exact heq ▸ mem_cons_self
      · refine .tail _ (ih ((mem_cons.mp hj).resolve_left heq) ?_)
        rwa [get?_erase_of_ne heq]

/-- The jobs of a popped transfer are reported once nothing reads their blocks. -/
theorem Inv.settleXferJobs (h : s.Inv) (hp : Popped s x) (success : Bool) :
    Step s (s.settleXferJobs x success).2 [] (s.settleXferJobs x success).1 ∧
      Forgets s (s.settleXferJobs x success).2 := by
  rw [ServerRole.settleXferJobs]
  generalize hlist : (x.jobIds.filter fun j => decide (j ∉
    if (s.rounds x.round).cancelled = true then s.readJobIds else [])) = jobIds
  have hsub : ∀ j ∈ jobIds, j ∈ x.jobIds := fun j hj =>
    (mem_filter.mp (hlist.symm ▸ hj)).1
  set rounds := Function.update s.rounds x.round { s.rounds x.round with
    pendingJobIds := (s.rounds x.round).pendingJobIds.filter
      (· ∉ (popJobs jobIds s.storeJobs).1) } with hrounds
  have hf : Forgets s { s with storeJobs := (popJobs jobIds s.storeJobs).2, rounds := rounds } := by
    refine forgets_popJobs (fun j hj => hp.unread j (hsub j hj)) (fun ref => ?_) fun ref j hj => ?_
    · by_cases href : ref = x.round
      · rw [href, hrounds, update_self]
        exact ⟨rfl, rfl, rfl, rfl, id, fun j hj => (mem_filter.mp hj).1⟩
      · rw [hrounds, update_of_ne href]
        exact .refl
    · intro hmem
      by_cases href : ref = x.round
      · rw [href, hrounds, update_self] at hj
        obtain ⟨hj, hnot⟩ := mem_filter.mp hj
        exact of_decide_eq_true hnot (mem_popJobs hmem (h.pending j x.round hj))
      · rw [hrounds, update_of_ne href] at hj
        exact href (hp.home j (hsub j hmem) ref hj)
  refine ⟨h.step hf (fun kv rk ref hat => ?_) held_popJobs rfl, hf⟩
  by_cases href : ref = x.round
  · intro hdemand
    have hdemand' := (hp.forget hf).demand
    rw [← href, hdemand] at hdemand'
    cases hdemand'
  · dsimp only
    rw [hrounds, update_of_ne href]
    exact h.offers kv rk ref hat

private theorem mem_readJobIdsOf : j ∈ s.readJobIdsOf ref ↔ ∃ tid, s.Reads j tid ref := by
  rw [readJobIdsOf, mem_flatMap]
  constructor
  · rintro ⟨x, hx, hj⟩
    obtain ⟨hx, hround⟩ := mem_filter.mp hx
    obtain ⟨tid, htid⟩ := mem_values.mp hx
    exact ⟨tid, x, htid, of_decide_eq_true hround, hj⟩
  · rintro ⟨tid, x, hx, hround, hj⟩
    exact ⟨x, mem_filter.mpr ⟨mem_values.mpr ⟨tid, hx⟩, decide_eq_true hround⟩, hj⟩

/-- The jobs that are read by some transfer. -/
theorem mem_readJobIds : j ∈ s.readJobIds ↔ ∃ tid ref, s.Reads j tid ref := by
  rw [readJobIds, mem_flatMap]
  constructor
  · rintro ⟨x, hx, hj⟩
    obtain ⟨tid, htid⟩ := mem_values.mp hx
    exact ⟨tid, x.round, x, htid, rfl, hj⟩
  · rintro ⟨tid, ref, x, hx, -, hj⟩
    exact ⟨x, mem_values.mpr ⟨tid, hx⟩, hj⟩

/-- A round is cancelled, and its jobs that no transfer reads fail. -/
def cancelUnwritten (s : ServerRole) (ref : RoundRef) : List StoreResult × ServerRole :=
  (s.modifyRound ref fun rnd => { rnd with cancelled := true }).failUnwrittenRoundJobs ref

/-- A cancelled round loses the jobs that nothing reads, and no other round changes. -/
theorem Base.forgets_cancelUnwritten (h : s.Base) (ref : RoundRef) :
    Forgets s (s.cancelUnwritten ref).2 ∧
      s.held = (s.cancelUnwritten ref).2.held + jobsIn (s.cancelUnwritten ref).1 ∧
      ∀ ref' ≠ ref, (s.cancelUnwritten ref).2.rounds ref' = s.rounds ref' := by
  set written := s.readJobIdsOf ref
  set jobIds := (s.rounds ref).pendingJobIds.filter (· ∉ written)
  set rounds := Function.update s.rounds ref { s.rounds ref with
    cancelled := true
    pendingJobIds := (s.rounds ref).pendingJobIds.filter (· ∈ written) } with hrounds
  have heq : s.cancelUnwritten ref = (resultsOf false (popJobs jobIds s.storeJobs).1,
      { s with storeJobs := (popJobs jobIds s.storeJobs).2, rounds := rounds }) := by
    rw [cancelUnwritten, failUnwrittenRoundJobs]
    simp only [rounds_modifyRound]
    refine Prod.ext rfl ?_
    simp only [modifyRound, update_self, Function.update_idem]
    rfl
  rw [heq]
  refine ⟨forgets_popJobs (fun j hj tid ref' hread => ?_) (fun ref' => ?_) fun ref' j hj => ?_,
    held_popJobs, fun ref' href => update_of_ne href _ _⟩
  · obtain ⟨hpending, hnot⟩ := mem_filter.mp hj
    refine of_decide_eq_true hnot (mem_readJobIdsOf.mpr ⟨tid, ?_⟩)
    rwa [h.home j ref ref' (.inl hpending) (.inr ⟨tid, hread⟩)]
  · by_cases href : ref' = ref
    · rw [href, hrounds, update_self]
      exact ⟨rfl, rfl, rfl, rfl, fun _ => rfl, fun j hj => (mem_filter.mp hj).1⟩
    · rw [hrounds, update_of_ne href]
      exact .refl
  · intro hmem
    obtain ⟨hpending, hnot⟩ := mem_filter.mp hmem
    by_cases href : ref' = ref
    · rw [href, hrounds, update_self] at hj
      exact of_decide_eq_true hnot (of_decide_eq_true (mem_filter.mp hj).2)
    · rw [hrounds, update_of_ne href] at hj
      exact href (h.home j ref' ref (.inl hj) (.inl hpending))

private theorem mem_registered : ref ∈ s.registered ↔ ∃ kv rk, s.roundAt kv rk = some ref := by
  rw [registered, mem_flatMap]
  constructor
  · rintro ⟨st, hst, href⟩
    obtain ⟨kv, hkv⟩ := mem_values.mp hst
    obtain ⟨rk, hrk⟩ := mem_values.mp href
    exact ⟨kv, rk, by rw [roundAt, request_of_get? hkv, hrk]⟩
  · rintro ⟨kv, rk, hat⟩
    cases hst : s.requests.get? kv with
    | none =>
      rw [roundAt, request, hst] at hat
      cases hat
    | some st =>
      rw [roundAt, request_of_get? hst] at hat
      exact ⟨st, mem_values.mpr ⟨kv, hst⟩, mem_values.mpr ⟨rk, hat⟩⟩

private theorem dropExpired_spec {expired : List JobId} : SameDemand rnd (dropExpired expired rnd) ∧
      (∀ j ∈ (dropExpired expired rnd).pendingJobIds, j ∉ expired) ∧
      (Offers rnd → Offers (dropExpired expired rnd)) := by
  rw [dropExpired]
  split_ifs with hany
  · refine ⟨⟨rfl, rfl, rfl, rfl, id, fun j hj => (mem_filter.mp hj).1⟩, fun j hj => ?_,
      fun hoffers hdemand => ⟨(hoffers hdemand).1, fun key entry hentry => ?_⟩⟩
    · exact of_decide_eq_true (mem_filter.mp hj).2
    · obtain ⟨hentry, hnot⟩ := get?_filter_eq_some.mp hentry
      exact mem_filter.mpr ⟨(hoffers hdemand).2 key entry hentry, hnot⟩
  · refine ⟨.refl, fun j hj hmem => hany ?_, id⟩
    exact any_eq_true.mpr ⟨j, hj, decide_eq_true hmem⟩

/-- Jobs that timed out fail, unless a transfer reads them. -/
theorem Inv.failTimedOut (h : s.Inv) (timedOut : List JobId) :
    Step s (s.failTimedOut timedOut).2 [] (s.failTimedOut timedOut).1 ∧
      Forgets s (s.failTimedOut timedOut).2 := by
  set jobIds := timedOut.filter (· ∉ s.readJobIds)
  set rounds := fun ref => if ref ∈ s.registered then dropExpired timedOut (s.rounds ref)
    else s.rounds ref with hrounds
  have hf : Forgets s { s with storeJobs := (popJobs jobIds s.storeJobs).2, rounds := rounds } := by
    refine forgets_popJobs (fun j hj tid ref hread => ?_) (fun ref => ?_) fun ref j hj hmem => ?_
    · exact of_decide_eq_true (mem_filter.mp hj).2 (mem_readJobIds.mpr ⟨tid, ref, hread⟩)
    · rw [hrounds]
      dsimp only
      split_ifs
      · exact dropExpired_spec.1
      · exact .refl
    · rw [hrounds] at hj
      dsimp only at hj
      split_ifs at hj with hreg
      · exact dropExpired_spec.2.1 j hj (mem_filter.mp hmem).1
      · exact hreg (mem_registered.mpr (h.owner j ref hj))
  refine ⟨h.step hf (fun kv rk ref hat => ?_) held_popJobs rfl, hf⟩
  have hreg : ref ∈ s.registered := mem_registered.mpr ⟨kv, rk, hat⟩
  rw [hrounds]
  dsimp only
  rw [if_pos hreg]
  exact dropExpired_spec.2.2 (h.offers kv rk ref hat)

/-! ### Submitting a transfer -/

/-- A match may go out as a transfer of a round. -/
structure Submittable (s : ServerRole) (kvRequestId : KvRequestId) (roundKey : ℕ) (ref : RoundRef)
    (result : MatchResult) : Prop where
  roundAt : s.roundAt kvRequestId roundKey = some ref
  demand : (s.rounds ref).demandReceived = true
  blocks : 0 < result.localIdxs.length
  budget : s.blocksOf ref + result.localIdxs.length + (s.rounds ref).demanded.entries.length ≤
    (s.rounds ref).remaining
  nodup : result.jobIds.Nodup
  pending : ∀ j ∈ result.jobIds, j ∈ (s.rounds ref).pendingJobIds
  unread : ∀ j ∈ result.jobIds, ∀ tid ref, ¬ s.Reads j tid ref

/-- A transfer enters the table with the blocks of its jobs. -/
theorem Inv.submit (h : s.Inv) {result : MatchResult}
    (hs : Submittable s req roundKey ref result) {now : Time}
    {live : Dict TransferId InflightXfer} :
    Step s (({ s with nextTid := s.nextTid + 1, live }.modifyRound ref fun rnd =>
      { rnd with inflight := rnd.inflight + 1 }).inflightAdd s.nextTid
        { kvRequestId := req, blockCount := result.localIdxs.length, jobIds := result.jobIds,
          round := ref, roundKey, submittedAt := now }) [] [] := by
  set x : InflightXfer :=
    { kvRequestId := req, blockCount := result.localIdxs.length, jobIds := result.jobIds,
      round := ref, roundKey, submittedAt := now }
  set s' := ({ s with nextTid := s.nextTid + 1, live }.modifyRound ref fun rnd =>
    { rnd with inflight := rnd.inflight + 1 }).inflightAdd s.nextTid x
  have hfresh : s.inflight.get? s.nextTid = none := by
    by_contra hne
    obtain ⟨y, hy⟩ := Option.ne_none_iff_exists'.mp hne
    exact absurd (h.xfers _ y hy).fresh (lt_irrefl _)
  have hget : ∀ tid, s'.inflight.get? tid = if tid = s.nextTid then some x
      else s.inflight.get? tid := get?_set _ _ x
  have htotal : ∀ f : InflightXfer → ℕ, s'.inflight.total (fun _ y => f y) =
      f x + s.inflight.total fun _ y => f y := by
    intro f
    have hset := total_set (fun _ y => f y) s.inflight s.nextTid x
    rwa [erase_of_get?_none hfresh] at hset
  have hreads : ∀ j tid ref', s'.Reads j tid ref' → s.Reads j tid ref' ∨
      tid = s.nextTid ∧ ref' = ref ∧ j ∈ result.jobIds := by
    rintro j tid ref' ⟨y, hy, hround, hj⟩
    rw [hget] at hy
    split_ifs at hy with heq
    · obtain rfl := Option.some.inj hy
      exact .inr ⟨heq, hround.symm, hj⟩
    · exact .inl ⟨y, hy, hround, hj⟩
  have hr : Recounts s s' := by
    refine ⟨rfl, fun kv => request_setTids.1, fun kv i lookup hget =>
      h.lookups kv i lookup (request_setTids.2 ▸ hget), fun ref' => ?_⟩
    have hcount := h.counts ref'
    rw [countOf] at hcount
    rw [countOf, htotal, ← hcount]
    refine (rounds_modifyRound fun rnd =>
      { rnd with inflight := rnd.inflight + 1 }).trans ?_
    split_ifs with href hround hround
    · rw [href, add_comm 1]
    · exact absurd href.symm hround
    · exact absurd hround.symm href
    · rw [zero_add]
  refine h.recount hr (fun tid y hy => ?_) (fun kv rk ref' hat => ?_) (fun j tid ref' hread => ?_)
    fun j tid1 tid2 ref1 ref2 hread hread' => ?_
  · rw [hget] at hy
    split_ifs at hy with heq
    · obtain rfl := Option.some.inj hy
      exact ⟨hr.roundAt ▸ hs.roundAt, hs.blocks, hs.nodup,
        fun j hj => h.pending j ref (hs.pending j hj), heq ▸ Nat.lt_succ_self _⟩
    · have hok := h.xfers tid y hy
      exact ⟨hr.roundAt ▸ hok.roundAt, hok.blocks, hok.nodup, hok.pinned,
        hok.fresh.trans (Nat.lt_succ_self _)⟩
  · have hbudget := (h.rounds kv rk ref' hat).budget
    have hroom := hs.budget
    rw [blocksOf] at hbudget hroom
    rw [blocksOf, htotal]
    split_ifs with href
    · subst href
      dsimp only [x] at hroom ⊢
      omega
    · omega
  · rcases hreads j tid ref' hread with hold | ⟨-, rfl, hj⟩
    · exact .inr ⟨tid, hold⟩
    · exact .inl (hs.pending j hj)
  · rcases hreads j tid1 ref1 hread with hold | ⟨hnew, -, hj⟩
    · rcases hreads j tid2 ref2 hread' with hold' | ⟨-, -, hj⟩
      · exact h.once j tid1 tid2 ref1 ref2 hold hold'
      · exact absurd hold (hs.unread j hj tid1 ref1)
    · rcases hreads j tid2 ref2 hread' with hold' | ⟨hnew', -, -⟩
      · exact absurd hold' (hs.unread j hj tid2 ref2)
      · rw [hnew, hnew']

/-! ### Replacing a round -/

/-- Jobs that are pending in a round are known to no other. -/
theorem Base.pending_only (h : s.Base) (hj : j ∈ (s.rounds ref).pendingJobIds) :
    s.Pinned j ∧ ∀ ref', s.Touches j ref' → ref' = ref :=
  ⟨h.pending j ref hj, fun ref' ht => h.home j ref' ref ht (.inl hj)⟩

/-- A registered round is replaced by one with as many transfers. -/
theorem Base.replaceRound (h : s.Base) (hat : s.roundAt req roundKey = some ref)
    (hinflight : rnd.inflight = (s.rounds ref).inflight)
    (hbudget : s.blocksOf ref + rnd.demanded.entries.length ≤ rnd.remaining)
    (hclosed : rnd.demandReceived = false → rnd.remaining = 0)
    (hpending : ∀ j ∈ rnd.pendingJobIds, s.Pinned j ∧ ∀ ref', s.Touches j ref' → ref' = ref) :
    (s.modifyRound ref fun _ => rnd).Base := by
  set s' := s.modifyRound ref fun _ => rnd
  have hrounds : ∀ ref', s'.rounds ref' = if ref' = ref then rnd else s.rounds ref' :=
    fun ref' => rounds_modifyRound fun _ => rnd
  -- a job of another round is not pending in the new one
  have htouches : ∀ j ref', s'.Touches j ref' → s.Touches j ref' ∨
      ref' = ref ∧ ∀ ref', s.Touches j ref' → ref' = ref := by
    rintro j ref' (hmem | hread)
    · rw [hrounds] at hmem
      split_ifs at hmem with href
      · exact .inr ⟨href, (hpending j hmem).2⟩
      · exact .inl (.inl hmem)
    · exact .inl (.inr hread)
  refine ⟨fun tid x hx => ?_, fun kv rk ref' hat' => ?_, h.inj, fun ref' => ?_,
    fun j ref1 ref2 ht ht' => ?_, h.once, fun j ref' hmem => ?_, fun j ref' hmem => ?_, h.known,
    h.aborts, h.lookups⟩
  · have hok := h.xfers tid x hx
    exact ⟨hok.roundAt, hok.blocks, hok.nodup, hok.pinned, hok.fresh⟩
  · have hok := h.rounds kv rk ref' hat'
    by_cases href : ref' = ref
    · subst href
      exact ⟨hok.alloc, by rwa [hrounds, if_pos rfl], by rwa [hrounds, if_pos rfl]⟩
    · exact ⟨hok.alloc, by rw [hrounds, if_neg href]; exact hok.budget,
        by rw [hrounds, if_neg href]; exact hok.closed⟩
  · rw [hrounds]
    split_ifs with href
    · rw [hinflight, href]
      exact h.counts ref
    · exact h.counts ref'
  · rcases htouches j ref1 ht with hold | ⟨rfl, honly⟩
    · rcases htouches j ref2 ht' with hold' | ⟨rfl, honly⟩
      · exact h.home j ref1 ref2 hold hold'
      · exact honly ref1 hold
    · rcases htouches j ref2 ht' with hold' | ⟨rfl, -⟩
      · exact (honly ref2 hold').symm
      · rfl
  · rw [hrounds] at hmem
    split_ifs at hmem
    · exact (hpending j hmem).1
    · exact h.pending j ref' hmem
  · rw [hrounds] at hmem
    split_ifs at hmem with href
    · exact ⟨req, roundKey, href ▸ hat⟩
    · exact h.owner j ref' hmem

/-- Such a step is silent, when the demand and the cancellation stand. -/
theorem Inv.replaceRound (h : s.Inv) (hbase : (s.modifyRound ref fun _ => rnd).Base)
    (hdemand : rnd.demandReceived = (s.rounds ref).demandReceived)
    (hcancelled : rnd.cancelled = (s.rounds ref).cancelled)
    (hoffers : Offers (s.rounds ref) → Offers rnd) :
    Step s (s.modifyRound ref fun _ => rnd) [] [] := by
  have hsame : ∀ ref', ((s.modifyRound ref fun _ => rnd).rounds ref').demandReceived =
        (s.rounds ref').demandReceived ∧
      ((s.modifyRound ref fun _ => rnd).rounds ref').cancelled = (s.rounds ref').cancelled ∧
      (Offers (s.rounds ref') → Offers ((s.modifyRound ref fun _ => rnd).rounds ref')) := by
    intro ref'
    rw [rounds_modifyRound]
    split_ifs with href
    · rw [href]
      exact ⟨hdemand, hcancelled, hoffers⟩
    · exact ⟨rfl, rfl, id⟩
  refine ⟨⟨hbase, fun kv rk ref' hat => (hsame ref').2.2 (h.offers kv rk ref' hat)⟩,
    (append_nil _).symm, add_comm _ _, fun ref' href => ⟨href, (hsame ref').1.trans⟩,
    .single (.silent ⟨fun kv rk ref' hat hdem => ?_, fun _ => id⟩ rfl)⟩
  exact ⟨hat, (hsame ref').1 ▸ hdem, (hsame ref').2.1.trans⟩

/-! ### Supply -/

/-- A new job is held from now on. -/
theorem Inv.accept (h : s.Inv) {jobId : JobId} (hnew : jobId ∉ s.accepted) (now : Time) :
    let s' := { s with
      accepted := s.accepted ++ [jobId]
      storeJobs := s.storeJobs.set jobId now }
    Step s s' [jobId] [] ∧ s'.Pinned jobId ∧ ∀ ref, ¬ s'.Touches jobId ref := by
  have hunpinned : s.storeJobs.get? jobId = none := by
    by_contra hne
    exact hnew (h.known jobId hne)
  have hkeep : ∀ j, s.Pinned j → (s.storeJobs.set jobId now).get? j ≠ none :=
    fun _ => get?_set_ne_none
  refine ⟨⟨⟨⟨fun tid x hx => ?_, fun kv rk ref hat => ?_, h.inj, h.counts, h.home, h.once,
    fun j ref hmem => hkeep j (h.pending j ref hmem), h.owner, fun j hj => ?_, h.aborts,
    h.lookups⟩, h.offers⟩, rfl, ?_, fun _ href => ⟨href, id⟩,
    .single (.silent ⟨fun _ _ _ hat hdem => ⟨hat, hdem, id⟩, fun _ => id⟩ rfl)⟩, ?_, ?_⟩
  · have hok := h.xfers tid x hx
    exact ⟨hok.roundAt, hok.blocks, hok.nodup, fun j hj => hkeep j (hok.pinned j hj), hok.fresh⟩
  · have hok := h.rounds kv rk ref hat
    exact ⟨hok.alloc, hok.budget, hok.closed⟩
  · by_cases heq : j = jobId
    · exact mem_append_right _ (heq ▸ mem_singleton_self _)
    · rw [Pinned, get?_set_of_ne heq] at hj
      exact mem_append_left _ (h.known j hj)
  · rw [held, held, keys_set_new hunpinned, ← Multiset.coe_add]
    abel
  · rw [Pinned, get?_set_self]
    exact Option.some_ne_none _
  · rintro ref (hmem | ⟨tid, x, hx, -, hj⟩)
    · exact h.pending jobId ref hmem hunpinned
    · exact (h.xfers tid x hx).pinned jobId hj hunpinned

private theorem rounds_registerRound (s : ServerRole) (req : KvRequestId) (roundSeq : ℕ)
    (ref : RoundRef) : (s.registerRound req roundSeq).rounds ref =
      if ref = s.nextRound then {} else s.rounds ref :=
  Function.update_apply s.rounds _ {} ref

private theorem request_registerRound (s : ServerRole) (req kv : KvRequestId) (roundSeq : ℕ) :
    (s.registerRound req roundSeq).request kv = if kv = req then
      { s.request req with
        outbound := (s.request req).outbound.set roundSeq s.nextRound }
      else s.request kv := by
  have hset : (s.registerRound req roundSeq).request kv = (s.setRequest req { s.request req with
        outbound := (s.request req).outbound.set roundSeq s.nextRound }).request kv := rfl
  rw [hset]
  split_ifs with hkv
  · rw [hkv, request_setRequest_self]
  · rw [request_setRequest_of_ne hkv]

private theorem roundAt_registerRound (s : ServerRole) (req kv : KvRequestId) (roundSeq rk : ℕ) :
    (s.registerRound req roundSeq).roundAt kv rk =
      if kv = req ∧ rk = roundSeq then some s.nextRound else s.roundAt kv rk := by
  rw [roundAt, request_registerRound]
  by_cases hkv : kv = req
  · by_cases hrk : rk = roundSeq
    · rw [if_pos hkv, if_pos ⟨hkv, hrk⟩, hrk, get?_set_self]
    · rw [if_pos hkv, if_neg fun hand => hrk hand.2, get?_set_of_ne hrk, hkv, roundAt]
  · rw [if_neg hkv, if_neg fun hand => hkv hand.1, roundAt]

private theorem Base.roundAt_registerRound_of_some (h : s.Base)
    (hnone : s.roundAt req roundKey = none) (hat : s.roundAt kv rk = some ref) :
    ref ≠ s.nextRound ∧ (s.registerRound req roundKey).roundAt kv rk = some ref := by
  refine ⟨(h.rounds kv rk ref hat).alloc.ne, ?_⟩
  rw [roundAt_registerRound, if_neg, hat]
  rintro ⟨rfl, rfl⟩
  exact absurd (hat.symm.trans hnone) nofun

private theorem Base.total_nextRound (h : s.Base) (f : InflightXfer → ℕ) :
    s.inflight.total (fun _ x => if x.round = s.nextRound then f x else 0) = 0 := by
  refine sum_eq_zero fun n hn => ?_
  obtain ⟨⟨tid, x⟩, hx, rfl⟩ := mem_map.mp hn
  have hok := h.xfers tid x (mem_entries.mp hx)
  exact if_neg (h.rounds _ _ _ hok.roundAt).alloc.ne

private theorem touches_registerRound
    (ht : (s.registerRound req roundKey).Touches j ref) : s.Touches j ref := by
  rcases ht with hmem | hread
  · rw [rounds_registerRound] at hmem
    split_ifs at hmem
    · cases hmem
    · exact .inl hmem
  · exact .inr hread

private theorem Base.registerRound (h : s.Base) (hnone : s.roundAt req roundKey = none) :
    (s.registerRound req roundKey).Base := by
  have hold : ∀ kv rk ref, s.roundAt kv rk = some ref → ref ≠ s.nextRound ∧
      (s.registerRound req roundKey).roundAt kv rk = some ref :=
    fun _ _ _ => h.roundAt_registerRound_of_some hnone
  constructor
  · intro tid x hx
    have hok := h.xfers tid x hx
    exact ⟨(hold _ _ _ hok.roundAt).2, hok.blocks, hok.nodup, hok.pinned, hok.fresh⟩
  · intro kv rk ref hreg
    rw [roundAt_registerRound] at hreg
    split_ifs at hreg with hkey
    · obtain rfl := Option.some.inj hreg
      have hblocks : (s.registerRound req roundKey).blocksOf s.nextRound = 0 :=
        h.total_nextRound _
      refine ⟨Nat.lt_succ_self _, ?_, ?_⟩
      · rw [hblocks, rounds_registerRound, if_pos rfl]
        exact le_rfl
      · rw [rounds_registerRound, if_pos rfl]
        exact fun _ => rfl
    · have hok := h.rounds kv rk ref hreg
      refine ⟨hok.alloc.trans (Nat.lt_succ_self _), ?_, ?_⟩
      · rw [rounds_registerRound, if_neg (hold kv rk ref hreg).1]
        exact hok.budget
      · rw [rounds_registerRound, if_neg (hold kv rk ref hreg).1]
        exact hok.closed
  · intro kv rk kv' rk' ref hreg hreg'
    rw [roundAt_registerRound] at hreg hreg'
    split_ifs at hreg hreg' with hkey hkey' hkey'
    · exact ⟨hkey.1.trans hkey'.1.symm, hkey.2.trans hkey'.2.symm⟩
    · exact absurd (Option.some.inj hreg).symm (hold kv' rk' ref hreg').1
    · exact absurd (Option.some.inj hreg').symm (hold kv rk ref hreg).1
    · exact h.inj kv rk kv' rk' ref hreg hreg'
  · intro ref
    rw [rounds_registerRound]
    split_ifs with href
    · rw [href]
      exact (h.total_nextRound fun _ => 1).symm
    · exact h.counts ref
  · intro j ref ref' ht ht'
    exact h.home j ref ref' (touches_registerRound ht) (touches_registerRound ht')
  · exact h.once
  · intro j ref hmem
    rw [rounds_registerRound] at hmem
    split_ifs at hmem
    · cases hmem
    · exact h.pending j ref hmem
  · intro j ref hmem
    rw [rounds_registerRound] at hmem
    split_ifs at hmem
    · cases hmem
    · obtain ⟨kv, rk, hreg⟩ := h.owner j ref hmem
      exact ⟨kv, rk, (hold kv rk ref hreg).2⟩
  · exact h.known
  · intro kv rk hne
    exact get?_set_ne_none (h.aborts kv rk hne)
  · intro kv i lookup hlookup
    rw [request_registerRound] at hlookup
    split_ifs at hlookup with hkv
    · exact h.lookups kv i lookup (hkv ▸ hlookup)
    · exact h.lookups kv i lookup hlookup

/-- What finding or registering a round does. -/
structure Found (s : ServerRole) (kvRequestId : KvRequestId) (roundSeq : ℕ)
    (found : RoundRef × ServerRole) : Prop where
  step : Step s found.2 [] []
  roundAt : found.2.roundAt kvRequestId roundSeq = some found.1
  touches : ∀ j ref, found.2.Touches j ref → s.Touches j ref
  storeJobs : found.2.storeJobs = s.storeJobs
  inflight : found.2.inflight = s.inflight
  held : found.2.held = s.held
  outbox : found.2.outbox = s.outbox
  pendingAborts : found.2.pendingAborts = s.pendingAborts
  demand : s.roundAt kvRequestId roundSeq = some found.1 ∧ found.2 = s ∨
    (found.2.rounds found.1).demandReceived = false
  others : ∀ kv rk ref, found.2.roundAt kv rk = some ref → ref = found.1 ∨
    s.roundAt kv rk = some ref ∧ found.2.rounds ref = s.rounds ref

/-- The round of a fetch, found or new. -/
theorem Inv.getOrCreateRound (h : s.Inv) (req : KvRequestId) (roundSeq : ℕ) :
    Found s req roundSeq (s.getOrCreateRound req roundSeq) := by
  rw [ServerRole.getOrCreateRound]
  cases hnone : s.roundAt req roundSeq with
  | some ref =>
    exact ⟨.refl h, hnone, fun _ _ => id, rfl, rfl, rfl, rfl, rfl, .inl ⟨hnone, rfl⟩,
      fun _ _ _ hat => .inr ⟨hat, rfl⟩⟩
  | none =>
    have hothers : ∀ kv rk ref, (s.registerRound req roundSeq).roundAt kv rk = some ref →
        ref = s.nextRound ∨ s.roundAt kv rk = some ref ∧
          (s.registerRound req roundSeq).rounds ref = s.rounds ref := by
      intro kv rk ref hreg
      rw [roundAt_registerRound] at hreg
      split_ifs at hreg with hkey
      · exact .inl (Option.some.inj hreg).symm
      · refine .inr ⟨hreg, ?_⟩
        rw [rounds_registerRound, if_neg (h.roundAt_registerRound_of_some hnone hreg).1]
    have hnew : (s.registerRound req roundSeq).rounds s.nextRound = {} := by
      rw [rounds_registerRound, if_pos rfl]
    have hoffers : ∀ kv rk ref, (s.registerRound req roundSeq).roundAt kv rk = some ref →
        Offers ((s.registerRound req roundSeq).rounds ref) := by
      intro kv rk ref hreg
      rcases hothers kv rk ref hreg with rfl | ⟨hat, hsame⟩
      · rw [hnew]
        exact fun _ => ⟨rfl, nofun⟩
      · rw [hsame]
        exact h.offers kv rk ref hat
    have hsettles : Settles s (s.registerRound req roundSeq) := by
      refine ⟨fun kv rk ref hreg hdem => ?_, fun _ => id⟩
      rcases hothers kv rk ref hreg with rfl | ⟨hat, hsame⟩
      · rw [hnew] at hdem
        cases hdem
      · exact ⟨hat, hsame ▸ hdem, fun hc => hsame.symm ▸ hc⟩
    refine ⟨⟨⟨h.toBase.registerRound hnone, hoffers⟩, (append_nil _).symm, add_comm _ _,
      fun ref href => ?_, .single (.silent hsettles rfl)⟩, ?_,
      fun _ _ => touches_registerRound, rfl, rfl, rfl, rfl, rfl, .inr ?_, hothers⟩
    · rw [rounds_registerRound, if_neg href.ne]
      exact ⟨href.trans (Nat.lt_succ_self _), id⟩
    · rw [roundAt_registerRound, if_pos ⟨rfl, rfl⟩]
    · rw [hnew]

private theorem matchStored_spec (jobId : JobId) (blocks : List (OffloadKey × ℕ)) (rnd : OutboundRound) :
    let out := matchStored jobId blocks rnd
    out.2 = { rnd with available := out.2.available, demanded := out.2.demanded } ∧
      out.2.demanded.entries.length + out.1.length = rnd.demanded.entries.length ∧
      ∀ key entry, out.2.available.get? key = some entry →
        rnd.available.get? key = some entry ∨ entry.1 = jobId := by
  induction blocks generalizing rnd with
  | nil => exact ⟨rfl, rfl, fun _ _ => .inl⟩
  | cons block blocks ih =>
    obtain ⟨key, localIdx⟩ := block
    rw [matchStored]
    cases hkey : rnd.demanded.get? key with
    | some remoteIdx =>
      obtain ⟨hrnd, hlength, havailable⟩ := ih { rnd with demanded := rnd.demanded.erase key }
      refine ⟨hrnd, ?_, havailable⟩
      have herase := length_erase hkey
      dsimp only at hlength ⊢
      rw [length_cons]
      omega
    | none =>
      obtain ⟨hrnd, hlength, havailable⟩ :=
        ih { rnd with available := rnd.available.set key (jobId, localIdx) }
      refine ⟨hrnd, hlength, fun key' entry hentry => ?_⟩
      rcases havailable key' entry hentry with hold | hjob
      · by_cases heq : key' = key
        · rw [heq, get?_set_self] at hold
          exact .inr (congrArg _ (Option.some.inj hold)).symm
        · rw [get?_set_of_ne heq] at hold
          exact .inl hold
      · exact .inr hjob

/-- The blocks of a new job are matched with the demand of its round, or parked there. -/
theorem Inv.supply (h : s.Inv) (hat : s.roundAt req roundKey = some ref) {jobId : JobId}
    (hpinned : s.Pinned jobId) (hnew : ∀ ref, ¬ s.Touches jobId ref) (lookupSupplied : Bool)
    (keys : List OffloadKey) (blockIds : List ℕ) :
    let matched := { s.rounds ref with lookupSupplied := lookupSupplied }.addStoredBlocks keys
      blockIds jobId
    Step s (s.modifyRound ref fun _ => matched.2) [] [] ∧
      (0 < matched.1.localIdxs.length → (s.rounds ref).demandReceived = true →
        Submittable (s.modifyRound ref fun _ => matched.2) req roundKey ref matched.1) := by
  rw [OutboundRound.addStoredBlocks]
  obtain ⟨hrnd, hlength, havailable⟩ := matchStored_spec jobId _
    { s.rounds ref with
      lookupSupplied := lookupSupplied
      pendingJobIds := insertSet jobId _ }
  set out := matchStored jobId (keys.zip blockIds)
    { s.rounds ref with
      lookupSupplied := lookupSupplied
      pendingJobIds := insertSet jobId (s.rounds ref).pendingJobIds }
  dsimp only at hrnd hlength havailable
  have hself : out.2.demandReceived = (s.rounds ref).demandReceived ∧
      out.2.remaining = (s.rounds ref).remaining ∧ out.2.inflight = (s.rounds ref).inflight ∧
      out.2.cancelled = (s.rounds ref).cancelled ∧
      out.2.pendingJobIds = insertSet jobId (s.rounds ref).pendingJobIds := by
    rw [hrnd]
    exact ⟨rfl, rfl, rfl, rfl, rfl⟩
  obtain ⟨hdemand, hremaining, hinflight, hcancelled, hpending⟩ := hself
  have hround := h.rounds _ _ _ hat
  have hbudget := hround.budget
  have hbase : (s.modifyRound ref fun _ => out.2).Base := by
    refine h.toBase.replaceRound hat hinflight (by omega) ?_ fun j hj => ?_
    · rw [hdemand, hremaining]
      exact hround.closed
    · rw [hpending, mem_insertSet] at hj
      rcases hj with rfl | hold
      · exact ⟨hpinned, fun ref' ht => absurd ht (hnew ref')⟩
      · exact h.toBase.pending_only hold
  have hoffers : Offers (s.rounds ref) → Offers out.2 := by
    intro hopen hclosed
    rw [hdemand] at hclosed
    obtain ⟨hnot, hold⟩ := hopen hclosed
    refine ⟨hcancelled.trans hnot, fun key entry hentry => ?_⟩
    rw [hpending, mem_insertSet]
    exact (havailable key entry hentry).symm.imp_right (hold key entry)
  have hself : (s.modifyRound ref fun _ => out.2).rounds ref = out.2 := by
    rw [rounds_modifyRound, if_pos rfl]
  refine ⟨h.replaceRound hbase hdemand hcancelled hoffers,
    fun hpos hdem => ⟨hat, ?_, hpos, ?_, ?_, ?_, ?_⟩⟩
  · rw [hself, hdemand, hdem]
  · rw [hself, length_map]
    change s.blocksOf ref + _ + _ ≤ _
    omega
  · split_ifs
    · exact nodup_nil
    · exact nodup_singleton jobId
  · intro j hj
    rw [hself, hpending, mem_insertSet]
    split_ifs at hj
    · cases hj
    · exact .inl (mem_singleton.mp hj)
  · intro j hj tid ref' hread
    split_ifs at hj
    · cases hj
    · rw [mem_singleton.mp hj] at hread
      exact hnew ref' (.inr ⟨tid, hread⟩)

/-! ### Demand -/

/-- What of a demand is stored, and the demand that is left. -/
theorem matchDemand_spec (blocks : List (OffloadKey × ℕ)) (rnd : OutboundRound) :
    let out := matchDemand blocks rnd
    out.2 = { rnd with available := out.2.available, demanded := out.2.demanded } ∧
      out.2.demanded.entries.length + out.1.length ≤ rnd.demanded.entries.length + blocks.length ∧
      ∀ e ∈ out.1, ∃ key localIdx, rnd.available.get? key = some (e.1, localIdx) := by
  induction blocks generalizing rnd with
  | nil => exact ⟨rfl, le_rfl, nofun⟩
  | cons block blocks ih =>
    obtain ⟨key, remoteIdx⟩ := block
    rw [matchDemand]
    cases hkey : rnd.available.get? key with
    | some entry =>
      obtain ⟨jobId, localIdx⟩ := entry
      obtain ⟨hrnd, hlength, hjobs⟩ := ih { rnd with available := rnd.available.erase key }
      refine ⟨hrnd, ?_, fun e he => ?_⟩
      · dsimp only at hlength ⊢
        rw [length_cons, length_cons]
        omega
      · rcases mem_cons.mp he with rfl | hmem
        · exact ⟨key, localIdx, hkey⟩
        · obtain ⟨key', localIdx', hget⟩ := hjobs e hmem
          refine ⟨key', localIdx', ?_⟩
          exact (get?_erase_eq_some.mp hget).2
    | none =>
      obtain ⟨hrnd, hlength, hjobs⟩ := ih { rnd with demanded := rnd.demanded.set key _ }
      refine ⟨hrnd, ?_, hjobs⟩
      have hset := length_set_le rnd.demanded key remoteIdx
      dsimp only at hlength ⊢
      rw [length_cons]
      omega

/-- A round without demand has no transfer. -/
theorem Inv.inflight_of_not_demand (h : s.Inv) (hclosed : (s.rounds ref).demandReceived = false) :
    (s.rounds ref).inflight = 0 := by
  rw [h.counts]
  refine sum_eq_zero fun n hn => ?_
  obtain ⟨⟨tid, x⟩, hx, rfl⟩ := mem_map.mp hn
  refine if_neg fun hround => ?_
  obtain ⟨hdemand, -⟩ := h.round_of_xfer (mem_entries.mp hx)
  rw [hround, hclosed] at hdemand
  cases hdemand

/-- The demand of a fetch is recorded in a round that had none: the round is open, and what matched
may be submitted. -/
theorem Inv.demand (h : s.Inv) (hat : s.roundAt req roundKey = some ref)
    (hclosed : (s.rounds ref).demandReceived = false) (keys : List OffloadKey)
    (blockIndexes : List ℕ) : let matched := (s.rounds ref).addFetchDemand keys blockIndexes
    let s' := s.modifyRound ref fun _ => matched.2
    s'.Inv ∧ matched.2.inflight = 0 ∧ matched.2.cancelled = false ∧
      (∀ p, s'.IsOpen p → s.IsOpen p ∨ p = (req, roundKey)) ∧
      (∀ p, s'.Running p → s.Running p ∨ p = (req, roundKey)) ∧
      (0 < matched.1.localIdxs.length → Submittable s' req roundKey ref matched.1) := by
  rw [addFetchDemand]
  dsimp only
  obtain ⟨hrnd, hlength, hjobs⟩ := matchDemand_spec _
    { s.rounds ref with demandReceived := true, remaining := keys.length }
  set out := matchDemand (keys.zip blockIndexes)
    { s.rounds ref with demandReceived := true, remaining := keys.length }
  dsimp only at hrnd hlength hjobs
  have hround := h.rounds _ _ _ hat
  obtain ⟨hnot, hoffers⟩ := h.offers _ _ _ hat hclosed
  have hzero : s.blocksOf ref = 0 ∧ (s.rounds ref).demanded.entries.length = 0 := by
    have hbudget := hround.budget
    rw [hround.closed hclosed] at hbudget
    omega
  have hunread : ∀ j tid, ¬ s.Reads j tid ref := by
    rintro j tid ⟨x, hx, hxr, -⟩
    obtain ⟨hdemand, -⟩ := h.round_of_xfer hx
    rw [hxr, hclosed] at hdemand
    cases hdemand
  have hself : out.2.demandReceived = true ∧ out.2.remaining = keys.length ∧
      out.2.inflight = (s.rounds ref).inflight ∧ out.2.cancelled = (s.rounds ref).cancelled ∧
      out.2.pendingJobIds = (s.rounds ref).pendingJobIds := by
    rw [hrnd]
    exact ⟨rfl, rfl, rfl, rfl, rfl⟩
  obtain ⟨hdemand, hremaining, hinflight, hcancelled, hpending⟩ := hself
  have hcount := h.inflight_of_not_demand hclosed
  set s' := s.modifyRound ref fun _ => out.2
  have hrounds : ∀ ref', s'.rounds ref' = if ref' = ref then out.2 else s.rounds ref' :=
    fun ref' => rounds_modifyRound fun _ => out.2
  have hpend : ∀ ref', (s'.rounds ref').pendingJobIds = (s.rounds ref').pendingJobIds := by
    intro ref'
    rw [hrounds]
    split_ifs with href
    · rw [hpending, href]
    · rfl
  have hroom : s'.blocksOf ref + out.1.length + out.2.demanded.entries.length ≤ keys.length := by
    have hzip : (keys.zip blockIndexes).length ≤ keys.length := by
      rw [length_zip]
      exact min_le_left _ _
    change s.blocksOf ref + _ + _ ≤ _
    omega
  have hown : ∀ p : KvRequestId × ℕ, s.roundAt p.1 p.2 = some ref → p = (req, roundKey) := by
    intro p hp
    obtain ⟨hkv, hrk⟩ := h.inj p.1 p.2 req _ ref hp hat
    exact Prod.ext hkv hrk
  refine ⟨?_, hinflight.trans hcount, hcancelled.trans hnot, ?_, ?_,
    fun hpos => ⟨hat, ?_, hpos, ?_, ?_, ?_, ?_⟩⟩
  · refine ⟨?_, fun kv rk ref' hat' => ?_⟩
    swap
    · rw [hrounds]
      split_ifs
      · intro hno
        rw [hdemand] at hno
        cases hno
      · exact h.offers kv rk ref' hat'
    refine h.toBase.replaceRound hat hinflight (by omega) ?_ fun j hj => ?_
    · rw [hdemand]
      exact nofun
    · exact h.toBase.pending_only (hpending ▸ hj)
  · rintro p ⟨ref', hat', hdem⟩
    rw [hrounds] at hdem
    split_ifs at hdem with href
    · exact .inr (hown p (href ▸ hat'))
    · exact .inl ⟨ref', hat', hdem⟩
  · rintro p ⟨ref', hat', hrunning⟩
    rw [hrounds] at hrunning
    split_ifs at hrunning with href
    · exact .inr (hown p (href ▸ hat'))
    · exact .inl ⟨ref', hat', hrunning⟩
  · rw [hrounds, if_pos rfl, hdemand]
  · rw [hrounds, if_pos rfl, hremaining, length_map]
    exact hroom
  · exact nodup_dedup _
  · intro j hj
    rw [mem_dedup, mem_map] at hj
    obtain ⟨e, he, rfl⟩ := hj
    obtain ⟨key, localIdx, hget⟩ := hjobs e he
    rw [hpend]
    exact hoffers key _ hget
  · intro j hj tid ref' hread
    rw [mem_dedup, mem_map] at hj
    obtain ⟨e, he, rfl⟩ := hj
    obtain ⟨key, localIdx, hget⟩ := hjobs e he
    have hread' : s.Reads e.1 tid ref' := hread
    have href := h.home e.1 ref' ref (.inr ⟨tid, hread'⟩) (.inl (hoffers key _ hget))
    exact hunread e.1 tid (href ▸ hread')

end ServerRole

end Sonar.P2P
