import Sonar.P2P.ServerTransfers

/-!
# The calls of a server role

Each function of the role returns and is a `ServerRole.Step`: it keeps the invariant, accounts for
every job, and is a sequence of moves the peer may see. The one exception is a fetch. It opens its
round, and a second fetch for an open round raises before anything changes; an empty fetch closes
every round of its id, which is safe only if no transfer of these rounds is in flight, or the round
was cancelled (`FetchSafe`).
-/

namespace Sonar.P2P

open Lib Returns List Dict

namespace ServerRole

variable {s s' : ServerRole} {req kv : KvRequestId} {roundKey rk : ℕ} {ref : RoundRef}
  {tid : TransferId} {x : InflightXfer}

/-! ### Bookkeeping -/

/-- Changes of fields that the invariant does not mention. -/
theorem forgets_of_eq (hrequests : s'.requests = s.requests) (hinflight : s'.inflight = s.inflight)
    (htid : s.nextTid ≤ s'.nextTid) (hnext : s'.nextRound = s.nextRound)
    (haccepted : s'.accepted = s.accepted) (hrounds : s'.rounds = s.rounds)
    (hjobs : s'.storeJobs = s.storeJobs) (haborts : s'.pendingAborts = s.pendingAborts) :
    Forgets s s' := by
  have hrequest : ∀ kv, s'.request kv = s.request kv := fun kv => by
    rw [request, hrequests, request]
  have hat : ∀ kv rk, s'.roundAt kv rk = s.roundAt kv rk := fun kv rk => by
    rw [roundAt, hrequest, roundAt]
  have hpinned : ∀ j, s'.Pinned j ↔ s.Pinned j := fun j => by rw [Pinned, hjobs, Pinned]
  refine ⟨fun kv rk ref => ?_, fun _ x _ => hat _ _, hinflight, htid, hnext, haccepted,
    fun ref => ?_, fun j => (hpinned j).mp, fun j _ _ _ => (hpinned j).mpr,
    fun j _ _ => (hpinned j).mpr, fun _ kv rk ref _ => ?_, fun kv rk hne => ?_,
    fun kv i lookup => ?_⟩
  · rw [hat]
    exact id
  · rw [hrounds]
    exact .refl
  · rw [hat]
    exact id
  · rw [haborts] at hne
    rw [hrequests]
    exact ⟨hne, id⟩
  · rw [hrequest]
    exact id

/-- A request keeps its rounds and loses lookups at most. -/
theorem forgets_setRequest {st : ServerRequestState} (hout : st.outbound = (s.request req).outbound)
    (hlookups : ∀ i lookup, st.lookups.get? i = some lookup →
      (s.request req).lookups.get? i = some lookup) : Forgets s (s.setRequest req st) := by
  have hat : ∀ kv rk, (s.setRequest req st).roundAt kv rk = s.roundAt kv rk := by
    intro kv rk
    rw [roundAt_setRequest]
    split_ifs with hkv
    · rw [hkv, hout, roundAt]
    · rfl
  refine ⟨fun kv rk ref => ?_, fun _ x _ => hat _ _, rfl, le_rfl, rfl, rfl, fun ref => .refl,
    fun _ => id, fun _ _ _ _ => id, fun _ _ _ => id, fun _ kv rk ref _ => ?_, fun kv rk hne => ?_,
    fun kv i lookup => ?_⟩
  · rw [hat]
    exact id
  · rw [hat]
    exact id
  · exact ⟨hne, get?_set_ne_none⟩
  · by_cases hkv : kv = req
    · rw [hkv, request_setRequest_self]
      exact hlookups i lookup
    · rw [request_setRequest_of_ne hkv]
      exact id

/-- A call that touches neither rounds nor jobs nor messages. -/
theorem Inv.step_same (h : s.Inv) (hf : Forgets s s') (hrounds : s'.rounds = s.rounds)
    (hheld : s'.held = s.held) (hsent : s'.outbox = s.outbox) : Step s s' [] [] := by
  refine h.step hf (fun kv rk ref hat => ?_) ?_ hsent
  · rw [hrounds]
    exact h.offers kv rk ref (hf.roundAt kv rk ref hat)
  · rw [hheld, jobsIn_nil, add_zero]

/-- Such a call takes in no job. -/
theorem Inv.clears_same (h : s.Inv) (hf : Forgets s s') (hrounds : s'.rounds = s.rounds)
    (hheld : s'.held = s.held) (hsent : s'.outbox = s.outbox) : Clears s s' [] :=
  (h.step_same hf hrounds hheld hsent).clears hf

/-- Forgetting an idle request is a step. -/
theorem Inv.step_maybePrune (h : s.Inv) (req : KvRequestId) : Step s (s.maybePrune req) [] [] := by
  have hfields := maybePrune_eq s req
  refine h.step_same (forgets_maybePrune s req) ?_ ?_ ?_
  · rw [hfields]
  · rw [hfields]
    rfl
  · rw [hfields]

/-- A flag of a round is set that only matters once the round has its demand. -/
theorem Inv.step_modifyRound (h : s.Inv) {f : OutboundRound → OutboundRound}
    (hsame : SameDemand (s.rounds ref) (f (s.rounds ref)))
    (hoffers : Offers (s.rounds ref) → Offers (f (s.rounds ref))) :
    Step s (s.modifyRound ref f) [] [] := by
  refine h.step (forgets_modifyRound hsame) (fun kv rk ref' hat => ?_) (add_zero _).symm rfl
  rw [rounds_modifyRound]
  split_ifs with href
  · exact hoffers (h.offers kv rk ref (href ▸ hat))
  · exact h.offers kv rk ref' hat

/-- A cancel as such changes nothing that the role reads. -/
theorem Inv.clears_cancel (h : s.Inv) (env : Transport) (tids : List TransferId) :
    Clears s (s.cancel env tids) [] :=
  h.clears_same (forgets_of_eq rfl rfl le_rfl rfl rfl rfl rfl rfl) rfl rfl rfl

/-- Lookups that are given up leave rounds, transfers, aborts and messages as they are. -/
theorem Inv.finishInboundLookups (h : s.Inv) (req : KvRequestId) :
    Clears s (s.finishInboundLookups req) [] ∧
      (∀ kv rk, (s.finishInboundLookups req).roundAt kv rk = s.roundAt kv rk) ∧
      (s.finishInboundLookups req).rounds = s.rounds ∧
      (s.finishInboundLookups req).outbox = s.outbox ∧
      (s.finishInboundLookups req).pendingAborts = s.pendingAborts ∧
      (s.finishInboundLookups req).inflight = s.inflight := by
  rw [ServerRole.finishInboundLookups]
  cases hst : s.requests.get? req with
  | none => exact ⟨.refl h, fun _ _ => rfl, rfl, rfl, rfl, rfl⟩
  | some st =>
    have hreq := request_of_get? hst
    dsimp only
    set s1 := s.setRequest req { st with pendingLookups := [], lookups := ∅ }
    set s2 : ServerRole := { s1 with
      finishedLookupCtxs := s.finishedLookupCtxs ++ st.lookups.values.map ActiveLookup.lookupId
      servePending := discard req s.servePending }
    have hset : Forgets s s1 := forgets_setRequest (by rw [hreq]) nofun
    have hstep : Step s s1 [] [] := h.step_same hset rfl rfl rfl
    have hf2 : Forgets s1 s2 := forgets_of_eq rfl rfl le_rfl rfl rfl rfl rfl rfl
    have hstep2 : Step s1 s2 [] [] := hstep.inv.step_same hf2 rfl rfl rfl
    have hprune := forgets_maybePrune s2 req
    refine ⟨((hstep.trans hstep2).trans (hstep2.inv.step_maybePrune req)).clears
      ((hset.trans hf2).trans hprune), fun kv rk => ?_, ?_, ?_, ?_, hprune.inflight⟩
    · rw [roundAt_maybePrune]
      change s1.roundAt kv rk = _
      rw [roundAt_setRequest]
      split_ifs with hkv
      · rw [hkv, roundAt, hreq]
      · rfl
    · rw [maybePrune_eq]
      rfl
    · rw [maybePrune_eq]
      rfl
    · rw [maybePrune_eq]
      rfl

/-! ### Rounds and transfers -/

section

variable (hsafe : (s.rounds ref).cancelled = true ∨ (s.rounds ref).inflight = 0)

include hsafe

/-- A round is finalized, unless it was cancelled and has transfers in flight. -/
theorem Inv.finalizeOutbound (h : s.Inv) (hat : s.roundAt req roundKey = some ref)
    {success : Option Bool} {sendDone : Bool} :
    Returns (finalizeOutbound req roundKey success sendDone) s fun _ s' =>
      Clears s s' [] ∧ ((s.rounds ref).cancelled = true ∧ s' = s ∨
        s' = s.finalizeRound req roundKey ref success sendDone) := by
  rw [ServerRole.finalizeOutbound, bind_iff, get_iff, hat]
  dsimp only
  split_ifs with hguard
  · rw [pure_iff]
    rw [Bool.and_eq_true] at hguard
    exact ⟨.refl h, .inl ⟨hguard.1, rfl⟩⟩
  · rw [set_iff]
    have hcount : (s.rounds ref).inflight = 0 := by
      by_contra hne
      exact hguard (by rw [Bool.and_eq_true]; exact ⟨hsafe.resolve_right hne, decide_eq_true hne⟩)
    have hstep := h.toBase.step_finalizeRound hat (fun kv rk ref' hat' _ => h.offers kv rk ref' hat')
      hcount success sendDone
    exact ⟨hstep.clears (h.toBase.forgets_finalizeRound hat hcount success _), .inr rfl⟩

/-- A cancelled round ends, and its jobs stay accounted for. -/
theorem Inv.finalizeCancelled (h : s.Inv) (hat : s.roundAt req roundKey = some ref) :
    Returns (finalizeCancelled req roundKey) s fun _ s' => Clears s s' [] := by
  rw [ServerRole.finalizeCancelled, bind_iff, get_iff]
  exact (h.finalizeOutbound hsafe hat).mono fun _ _ hpost => hpost.1

end

/-- Popping a transfer does not fail its assertion. -/
theorem Inv.inflightPop (h : s.Inv) {Q : Option InflightXfer → ServerRole → Prop}
    (hnone : s.inflight.get? tid = none → Q none s)
    (hsome : ∀ x, s.inflight.get? tid = some x → Q (some x) (s.popTransfer tid x)) :
    Returns (inflightPop tid) s Q := by
  rw [ServerRole.inflightPop, bind_iff, get_iff]
  cases hx : s.inflight.get? tid with
  | none =>
    rw [pure_iff]
    exact hnone hx
  | some x =>
    obtain ⟨-, hpos⟩ := h.round_of_xfer hx
    dsimp only
    rw [if_neg hpos.ne', bind_iff, set_iff, pure_iff]
    exact hsome x hx

private theorem Inv.keeps_inflightAdd (h : s.Inv) (hjobs : s'.storeJobs = s.storeJobs)
    (hinflight : s'.inflight = s.inflight.set s.nextTid x) : Keeps s s' := by
  constructor
  · intro j hj
    rwa [Pinned, hjobs] at hj
  · rintro j - ⟨tid, ref, y, hy, hround, hj⟩
    refine ⟨tid, ref, y, ?_, hround, hj⟩
    rw [hinflight, get?_set_of_ne (h.xfers tid y hy).fresh.ne]
    exact hy

variable {env : Transport} {now : Time} {keys : List OffloadKey} {blockIndexes : List ℕ}

private theorem Inv.submitTransfer (h : s.Inv) {result : MatchResult}
    (hs : Submittable s req roundKey ref result) :
    Returns (submitTransfer env now req result ref roundKey) s fun _ s' =>
      Clears s s' [] := by
  rw [ServerRole.submitTransfer, bind_iff, get_iff]
  by_cases haccept : (decide (s.peerFault = none) && env.accepts s.nextTid) = true
  · rw [if_pos haccept, set_iff]
    exact ⟨h.submit hs, h.keeps_inflightAdd rfl rfl⟩
  · rw [if_neg haccept]
    set s1 : ServerRole := { s with nextTid := s.nextTid + 1 }
    have hf1 : Forgets s s1 := forgets_of_eq rfl rfl (Nat.le_succ _) rfl rfl rfl rfl rfl
    have hf2 : Forgets s1 (s1.modifyRound ref fun rnd => { rnd with finishing := true }) :=
      forgets_modifyRound ⟨rfl, rfl, rfl, rfl, id, fun _ => id⟩
    have hstep1 : Step s s1 [] [] := h.step_same hf1 rfl rfl rfl
    have hstep2 : Step s1 (s1.modifyRound ref fun rnd => { rnd with finishing := true }) [] [] :=
      hstep1.inv.step_modifyRound ⟨rfl, rfl, rfl, rfl, id, fun _ => id⟩ id
    have hstep := (hstep1.trans hstep2).clears (hf1.trans hf2)
    rw [bind_iff, set_iff]
    split_ifs with hidle
    · rw [Bool.and_eq_true, decide_eq_true_eq, decide_eq_true_eq] at hidle
      refine (hstep.inv.finalizeOutbound (.inr hidle.2) hidle.1).mono fun _ s' hpost => ?_
      exact hstep.trans hpost.1
    · rw [pure_iff]
      exact hstep

/-- Stored blocks add one job, and what is in demand is sent. -/
theorem Inv.addStoredBlocks (h : s.Inv) {jobId : JobId} (hnew : jobId ∉ s.accepted)
    {blockIds : List ℕ} {roundSeq : ℕ} {fromLookup : Bool} :
    Returns (addStoredBlocks env now req keys blockIds jobId roundSeq fromLookup) s
      fun _ s' => Step s s' [jobId] [] := by
  rw [ServerRole.addStoredBlocks, bind_iff, get_iff]
  obtain ⟨hstep1, hpinned, huntouched⟩ := h.accept hnew now
  set s1 : ServerRole := { s with
    accepted := s.accepted ++ [jobId]
    storeJobs := s.storeJobs.set jobId now }
  have hfind := hstep1.inv.getOrCreateRound req roundSeq
  set found := s1.getOrCreateRound req roundSeq
  have hstep2 := hfind.step
  have hpinned2 : found.2.Pinned jobId := by
    rw [Pinned, hfind.storeJobs]
    exact hpinned
  have huntouched2 : ∀ ref, ¬ found.2.Touches jobId ref := fun ref ht =>
    huntouched ref (hfind.touches jobId ref ht)
  have hstep := hstep1.trans hstep2
  by_cases hcancelled : (found.2.rounds found.1).cancelled = true
  · rw [if_pos hcancelled, set_iff]
    refine hstep.trans (hstep2.inv.step ?_ (fun kv rk ref hreg => ?_) ?_ rfl)
    · -- no round and no transfer knows the job
      refine ⟨fun _ _ _ => id, fun _ _ _ => rfl, rfl, le_rfl, rfl, rfl, fun _ => .refl,
        fun j hj => ?_, fun j tid ref hread hj => ?_, fun j ref hmem hj => ?_, fun _ _ _ _ _ => id,
        fun _ _ hne => ⟨hne, id⟩, fun _ _ _ => id⟩
      · by_cases heq : j = jobId
        · exact heq ▸ hpinned2
        · rw [Pinned, get?_erase_of_ne heq] at hj
          exact hj
      · rw [Pinned, get?_erase_of_ne]
        · exact hj
        · rintro rfl
          exact huntouched2 ref (.inr ⟨tid, hread⟩)
      · rw [Pinned, get?_erase_of_ne]
        · exact hj
        · rintro rfl
          exact huntouched2 ref (.inl hmem)
    · exact hstep2.inv.offers kv rk ref hreg
    · obtain ⟨submittedAt, hget⟩ := Option.ne_none_iff_exists'.mp hpinned2
      rw [held, held, Multiset.coe_eq_coe.mpr (keys_perm hget), ← Multiset.cons_coe,
        ← Multiset.singleton_add, jobsIn_append]
      have hone : jobsIn [⟨jobId, false⟩] = {jobId} := rfl
      rw [hone]
      abel
  · obtain ⟨hstep3, hsubmit⟩ := hstep2.inv.supply hfind.roundAt hpinned2 huntouched2
      _ keys _
    rw [if_neg hcancelled, bind_iff, set_iff]
    split_ifs with hmatched
    · rw [Bool.and_eq_true, Bool.not_eq_true', isEmpty_eq_false_iff, ← length_pos_iff] at hmatched
      refine (hstep3.inv.submitTransfer (hsubmit hmatched.1 hmatched.2)).mono
        fun _ s' hstep4 => ?_
      exact (hstep.trans hstep3).trans hstep4.toStep
    · rw [pure_iff]
      exact hstep.trans hstep3

/-! ### Fetches -/

/-- A fetch that is not a second one for its round. -/
def FetchNew (s : ServerRole) (kvRequestId : KvRequestId) (roundSeq : ℕ) : Prop :=
  ∀ ref, s.roundAt kvRequestId roundSeq = some ref → (s.rounds ref).demandReceived = false

/-- Every round of an id may be finalized now, or waits for its transfers. -/
def FetchSafe (s : ServerRole) (kvRequestId : KvRequestId) : Prop :=
  ∀ rk ref, s.roundAt kvRequestId rk = some ref →
    (s.rounds ref).cancelled = true ∨ (s.rounds ref).inflight = 0

/-- A round is open unless a fetch for it would be the first. -/
theorem isOpen_iff_not_fetchNew : s.IsOpen (req, roundKey) ↔ ¬ s.FetchNew req roundKey := by
  constructor
  · rintro ⟨ref, hat, hdemand⟩ hnew
    rw [hnew ref hat] at hdemand
    cases hdemand
  · intro hnew
    by_contra hclosed
    refine hnew fun ref hat => ?_
    by_contra hdemand
    exact hclosed ⟨ref, hat, Bool.eq_true_of_not_eq_false hdemand⟩

private theorem any_demand_iff : (s.roundAt req roundKey).any (fun ref =>
    (s.rounds ref).demandReceived) = true ↔ s.IsOpen (req, roundKey) := by
  rw [IsOpen]
  cases s.roundAt req roundKey <;> simp

/-- A second fetch for an open round raises and changes nothing. -/
theorem onFetch_duplicate (hopen : s.IsOpen (req, roundKey))
    : (onFetch env now req keys blockIndexes roundKey).run.run s = (.error .valueError, s) := by
  change ((if _ then _ else _ : ServerM PUnit)).run.run s = _
  rw [if_pos (any_demand_iff.mpr hopen)]
  rfl

/-- What a fetch with blocks does: its round is opened, and then the server moves on its own. -/
structure Fetched (s s' : ServerRole) (p : KvRequestId × ℕ) : Prop where
  inv : s'.Inv
  accepted : s'.accepted = s.accepted
  held : s'.held = s.held
  keeps : Keeps s s'
  moves : ∃ s1 : ServerRole, (∀ q, s1.IsOpen q → s.IsOpen q ∨ q = p) ∧
    (∀ q, s1.Running q → s.Running q ∨ q = p) ∧ (∀ q, s1.Aborting q → s.Aborting q) ∧
    s1.outbox = s.outbox ∧ Evolves s1 s'

private theorem Inv.receiveDemand (h : s.Inv) (hnew : s.FetchNew req roundKey)
    (keys : List OffloadKey) (blockIndexes : List ℕ) : let found := s.getOrCreateRound req roundKey
    let matched := (found.2.rounds found.1).addFetchDemand keys blockIndexes
    let s1 := found.2.modifyRound found.1 fun _ => matched.2
    s1.Inv ∧ s1.accepted = s.accepted ∧ s1.held = s.held ∧ Keeps s s1 ∧ s1.outbox = s.outbox ∧
      s1.pendingAborts = s.pendingAborts ∧ (∀ q, s1.IsOpen q → s.IsOpen q ∨ q = (req, roundKey)) ∧
      (∀ q, s1.Running q → s.Running q ∨ q = (req, roundKey)) ∧
      s1.roundAt req roundKey = some found.1 ∧ (s1.rounds found.1).cancelled = false ∧
      (s1.rounds found.1).inflight = 0 ∧ (∀ kv rk ref, s1.roundAt kv rk = some ref → ref = found.1 ∨
        s.roundAt kv rk = some ref ∧ s1.rounds ref = s.rounds ref) ∧
      (0 < matched.1.localIdxs.length → Submittable s1 req roundKey found.1 matched.1) := by
  have hfind := h.getOrCreateRound req roundKey
  set found := s.getOrCreateRound req roundKey
  have hclosed : (found.2.rounds found.1).demandReceived = false := by
    rcases hfind.demand with ⟨hat, hsame⟩ | hclosed
    · rw [hsame]
      exact hnew found.1 hat
    · exact hclosed
  obtain ⟨hinv, hinflight, hcancelled, hopen, hrunning, hsubmit⟩ :=
    hfind.step.inv.demand hfind.roundAt hclosed keys _
  refine ⟨hinv, hfind.step.accepted.trans (append_nil _), hfind.held,
    keeps_of_inflight hfind.inflight fun j hj => ?_, hfind.outbox, hfind.pendingAborts, fun q hq => ?_, fun q hq => ?_, hfind.roundAt, ?_, ?_,
    fun kv rk ref hat => ?_, hsubmit⟩
  · rw [Pinned, ← hfind.storeJobs]
    exact hj
  · exact (hopen q hq).imp_left hfind.step.evolves.settles.opened
  · exact (hrunning q hq).imp_left hfind.step.evolves.settles.running
  · rw [rounds_modifyRound, if_pos rfl]
    exact hcancelled
  · rw [rounds_modifyRound, if_pos rfl]
    exact hinflight
  · by_cases href : ref = found.1
    · exact .inl href
    · rw [rounds_modifyRound, if_neg href]
      exact hfind.others kv rk ref hat

/-- The first fetch of a round opens it. -/
theorem Inv.onFetch (h : s.Inv) (hnew : s.FetchNew req roundKey) (hkeys : keys ≠ []) :
    Returns (onFetch env now req keys blockIndexes roundKey) s fun _ s' =>
      Fetched s s' (req, roundKey) := by
  obtain ⟨hinv, haccepted, hheld, hkeeps, hsent, haborts, hopen, hrunning, hat, hcancelled,
    hinflight, -, hsubmit⟩ := h.receiveDemand hnew keys _
  rw [ServerRole.onFetch, bind_iff, get_iff, if_neg fun hany =>
    isOpen_iff_not_fetchNew.mp (any_demand_iff.mp hany) hnew]
  set found := s.getOrCreateRound req roundKey
  set matched := (found.2.rounds found.1).addFetchDemand keys blockIndexes
  set s1 := found.2.modifyRound found.1 fun _ => matched.2
  have hfetched : ∀ {s'}, Clears s1 s' [] → Fetched s s' (req, roundKey) := by
    intro s' hstep
    refine ⟨hstep.inv, ?_, ?_, hkeeps.trans hstep.keeps, s1, hopen, hrunning, fun q hq => ?_, hsent,
      hstep.evolves⟩
    · rw [hstep.accepted, append_nil, haccepted]
    · rw [← hheld]
      have hledger := hstep.ledger
      rw [jobsIn_nil, add_zero] at hledger
      exact hledger.symm.trans (zero_add _)
    · rwa [Aborting, haborts] at hq
  have hround : s1.rounds found.1 = matched.2 := by
    rw [rounds_modifyRound, if_pos rfl]
  have hsafe : (s1.rounds found.1).cancelled = true ∨ (s1.rounds found.1).inflight = 0 :=
    .inr (hround ▸ hinflight)
  rw [bind_iff, set_iff, if_neg fun hempty => hkeys (isEmpty_iff.mp hempty)]
  split_ifs with hunmatched hblocks hfinishing
  · exact (hinv.finalizeOutbound hsafe hat).mono fun _ _ hpost => hfetched hpost.1
  · rw [Bool.not_eq_true', isEmpty_eq_false_iff, ← length_pos_iff] at hblocks
    exact (hinv.submitTransfer (hsubmit hblocks)).mono fun _ _ hstep => hfetched hstep
  · exact (hinv.finalizeOutbound hsafe hat).mono fun _ _ hpost => hfetched hpost.1
  · rw [pure_iff]
    exact hfetched (.refl hinv)

private theorem finalizeRound_flags (s : ServerRole) (req : KvRequestId) (roundKey : ℕ)
    (ref ref' : RoundRef) (success : Option Bool) (sendDone : Bool) :
    ((s.finalizeRound req roundKey ref success sendDone).rounds ref').cancelled =
        (s.rounds ref').cancelled ∧
      ((s.finalizeRound req roundKey ref success sendDone).rounds ref').inflight =
        (s.rounds ref').inflight := by
  obtain ⟨-, -, -, -, -, -, -, hrounds, -⟩ :=
    finalizeRound_fields s req _ ref success _
  rw [hrounds]
  by_cases href : ref' = ref
  · rw [href, Function.update_self]
    exact ⟨rfl, rfl⟩
  · rw [Function.update_of_ne href]
    exact ⟨rfl, rfl⟩

/-- The loop of an empty fetch, with the rounds still to visit. -/
structure Closing (s : ServerRole) (kvRequestId : KvRequestId) (l : List ℕ) (s' : ServerRole) :
    Prop where
  step : Clears s s' []
  outbox : s'.outbox = s.outbox
  flags : ∀ ref, (s'.rounds ref).cancelled = (s.rounds ref).cancelled ∧
    (s'.rounds ref).inflight = (s.rounds ref).inflight
  roundAt : ∀ rk ref, s'.roundAt kvRequestId rk = some ref →
    s.roundAt kvRequestId rk = some ref ∧ (rk ∈ l ∨ (s.rounds ref).cancelled = true)
  left : ∀ rk ∈ l, s'.roundAt kvRequestId rk = s.roundAt kvRequestId rk ∧
    s.roundAt kvRequestId rk ≠ none
  nodup : l.Nodup

private theorem Closing.finalize {l : List ℕ} (h : Closing s req (rk :: l) s') (hsafe : s.FetchSafe req) :
    Returns (finalizeOutbound req rk none false) s' fun _ s'' =>
      Closing s req l s'' := by
  obtain ⟨hat, hne⟩ := h.left rk (.head _)
  obtain ⟨ref, href⟩ := Option.ne_none_iff_exists'.mp hne
  obtain ⟨hnot, hnodup⟩ := nodup_cons.mp h.nodup
  have hsafe' : (s'.rounds ref).cancelled = true ∨ (s'.rounds ref).inflight = 0 := by
    rw [(h.flags ref).1, (h.flags ref).2]
    exact hsafe rk ref href
  refine (h.step.inv.finalizeOutbound hsafe' (hat.trans href)).mono ?_
  rintro _ s'' ⟨hstep, hsame | hfinal⟩
  · -- cancelled with transfers in flight: the round stays
    obtain ⟨hcancelled, rfl⟩ := hsame
    refine ⟨h.step, h.outbox, h.flags, fun rk' ref' hat' => ?_,
      fun rk' hmem => h.left rk' (.tail _ hmem), hnodup⟩
    obtain ⟨hold, hmem | hcanc⟩ := h.roundAt rk' ref' hat'
    · rcases mem_cons.mp hmem with rfl | hmem
      · obtain rfl := Option.some.inj (hold.symm.trans href)
        exact ⟨hold, .inr ((h.flags ref').1 ▸ hcancelled)⟩
      · exact ⟨hold, .inl hmem⟩
    · exact ⟨hold, .inr hcanc⟩
  · have hflags := finalizeRound_flags s' req rk ref
    have hat' := roundAt_finalizeRound s' req req rk
    rw [hfinal] at hstep ⊢
    refine ⟨h.step.trans hstep, ?_, fun ref' => ?_, fun rk' ref' hreg => ?_, fun rk' hmem => ?_,
      hnodup⟩
    · have hsent := (finalizeRound_fields s' req rk ref none false).2.2.2.2.2.2.2.2
      rw [Bool.false_and, if_neg Bool.false_ne_true, append_nil] at hsent
      rw [hsent, h.outbox]
    · rw [(hflags ref' none false).1, (hflags ref' none false).2]
      exact h.flags ref'
    · rw [hat'] at hreg
      split_ifs at hreg with hkey
      obtain ⟨hold, hmem | hcanc⟩ := h.roundAt rk' ref' hreg
      · exact ⟨hold, .inl ((mem_cons.mp hmem).resolve_left fun heq => hkey ⟨rfl, heq⟩)⟩
      · exact ⟨hold, .inr hcanc⟩
    · obtain ⟨hsame, hne'⟩ := h.left rk' (.tail _ hmem)
      refine ⟨?_, hne'⟩
      rw [hat', if_neg, hsame]
      rintro ⟨-, rfl⟩
      exact hnot hmem

/-- An empty fetch closes its id without a word to the peer. -/
theorem Inv.onFetch_empty (h : s.Inv) (hnew : s.FetchNew req roundKey) (hsafe : s.FetchSafe req) :
    Returns (ServerRole.onFetch env now req [] blockIndexes roundKey) s fun _ s' =>
      Clears s s' [] := by
  obtain ⟨hinv, haccepted, hheld, hkeeps, hsent, haborts, -, -, hat, hcancelled, hinflight,
    hothers, -⟩ := h.receiveDemand hnew [] _
  rw [ServerRole.onFetch, bind_iff, get_iff, if_neg fun hany =>
    isOpen_iff_not_fetchNew.mp (any_demand_iff.mp hany) hnew]
  have hfind := h.getOrCreateRound req roundKey
  set found := s.getOrCreateRound req roundKey
  set matched := (found.2.rounds found.1).addFetchDemand [] blockIndexes
  set s1 := found.2.modifyRound found.1 fun _ => matched.2
  obtain ⟨hstep2, hat2, hrounds2, hsent2, haborts2, -⟩ := hinv.finishInboundLookups req
  set s2 := s1.finishInboundLookups req
  have hsafe2 : s2.FetchSafe req := by
    intro rk ref hreg
    rw [hat2] at hreg
    rw [hrounds2]
    rcases hothers req rk ref hreg with rfl | ⟨hold, hsame⟩
    · exact .inr hinflight
    · rw [hsame]
      exact hsafe rk ref hold
  have hstart : Closing s2 req (s2.request req).outbound.keys s2 := by
    refine ⟨.refl hstep2.inv, rfl, fun _ => ⟨rfl, rfl⟩, fun rk ref hreg => ⟨hreg, .inl ?_⟩,
      fun rk hmem => ⟨rfl, ?_⟩, (s2.request req).outbound.nodup⟩
    · exact mem_keys.mpr ⟨ref, hreg⟩
    · obtain ⟨ref, hreg⟩ := mem_keys.mp hmem
      rw [roundAt, hreg]
      exact Option.some_ne_none _
  rw [bind_iff, set_iff, if_pos (isEmpty_nil), bind_iff, set_iff]
  refine (forAll
    (fun rk l t hclosing => hclosing.finalize hsafe2) hstart).mono fun _ s' hend => ?_
  have hevolves : Evolves s1 s' := hstep2.evolves.trans hend.step.evolves
  refine ⟨⟨hend.step.inv, ?_, ?_, fun ref href => ?_, .single (.silent
    ⟨fun kv rk ref hreg hdemand => ?_, fun q hq => ?_⟩ (hend.outbox.trans (hsent2.trans hsent)))⟩,
    (hkeeps.trans hstep2.keeps).trans hend.step.keeps⟩
  · rw [hend.step.accepted, hstep2.accepted, haccepted]
    simp
  · have hledger := (hstep2.trans hend.step).ledger
    rwa [hheld] at hledger
  · obtain ⟨hlt, hdem⟩ := hfind.step.demand ref href
    have hdem1 : (found.2.rounds ref).demandReceived = true →
        (s1.rounds ref).demandReceived = true := by
      intro hd
      rw [rounds_modifyRound]
      split_ifs
      · exact congrArg _ (matchDemand_spec _ _).1
      · exact hd
    obtain ⟨hlt', hdem'⟩ := (hstep2.trans hend.step).demand ref hlt
    exact ⟨hlt', fun hd => hdem' (hdem1 (hdem hd))⟩
  · obtain ⟨hreg1, hdemand1, hkeep⟩ := hevolves.settles.rounds kv rk ref hreg hdemand
    rcases hothers kv rk ref hreg1 with rfl | ⟨hold, hsame⟩
    · -- the round of the fetch itself is not cancelled, so it is gone
      obtain ⟨rfl, rfl⟩ := hinv.inj kv rk req _ _ hreg1 hat
      obtain ⟨-, hmem | hcanc⟩ := hend.roundAt rk _ hreg
      · cases hmem
      · rw [hrounds2, hcancelled] at hcanc
        cases hcanc
    · rw [hsame] at hdemand1 hkeep
      exact ⟨hold, hdemand1, hkeep⟩
  · have hold := hevolves.settles.aborts q hq
    rwa [Aborting, haborts] at hold

end ServerRole

end Sonar.P2P
