import Sonar.P2P.ServerLive
import Sonar.P2P.ServerLookups

/-!
# Runs of a server role

The calls a session makes on its server role, in any order, and the messages its peer sends, in any
order. A job handed in is in the job table, in a result that is queued, or reported
(`ServerRole.Accounts`); a job that some transfer in the role's table reads is in the job table; and
the role's table has every transfer that is live on the transport (`ServerRun.records`). So a reported
job is read by no live transfer, as long as no empty fetch arrives for an id with a transfer of a
round that was not cancelled: `on_fetch` then finalizes the round under its transfer.

Closing lists the jobs in the table as failed or as held by a transfer that cannot be stopped. The
results still queued are dropped.
-/

namespace Sonar.P2P

open Lib Returns List
open Dict hiding keys

/-- The calls of a session on its server role. -/
inductive ServerCall where
  | addStoredBlocks (env : Transport) (now : Time) (kvRequestId : KvRequestId)
      (keys : List OffloadKey) (blockIds : List ℕ) (jobId : JobId)
  | onMessage (env : Transport) (now : Time) (msg : PeerMsg)
  | serveExternalRequests (env : Transport) (parent : Parent) (now : Time)
  | finish (kvRequestId : KvRequestId)
  | collectResults (env : Transport) (poll : PollResult) (now : Time)
  | collectIdleTimeouts (env : Transport) (now : Time)
  | drainPendingAborts (env : Transport) (now : Time)

namespace ServerCall

/-- `_dispatch_message`, as far as the server role is concerned. -/
def dispatch (env : Transport) (now : Time) : PeerMsg → ServerM PUnit
  | .fetch kvRequestId keys blockIndexes roundSeq =>
    ServerRole.onFetch env now kvRequestId keys blockIndexes roundSeq
  | .lookup kvRequestId keys roundSeq => modify fun s => s.onLookup now kvRequestId keys roundSeq
  | .abortFetch kvRequestId roundSeq => ServerRole.onAbortFetch env now kvRequestId roundSeq
  | .lookupResp .. | .transferDone .. | .abortAck .. => pure ⟨⟩

/-- What a call does, and the results it returns. -/
def program : ServerCall → ServerM (List StoreResult)
  | addStoredBlocks env now kvRequestId keys blockIds jobId => do
    ServerRole.addStoredBlocks env now kvRequestId keys blockIds jobId 0 false
    pure []
  | onMessage env now msg => do
    dispatch env now msg
    pure []
  | serveExternalRequests env parent now => do
    ServerRole.serveExternalRequests env parent now
    pure []
  | finish kvRequestId => do
    ServerRole.finish kvRequestId
    pure []
  | collectResults env poll now => ServerRole.collectResults env poll now
  | collectIdleTimeouts env now => ServerRole.collectIdleTimeouts env now
  | drainPendingAborts env now => do
    ServerRole.drainPendingAborts env now
    pure []

variable (s : ServerRole)

/-- The role after a call. What a handler raises is caught in `_on_message`. -/
def apply (step : ServerCall) : ServerRole := (step.program.run.run s).2

/-- The results a call hands out. -/
def results (step : ServerCall) : List StoreResult :=
  (step.program.run.run s).1.toOption.getD []

/-- The call is not a message of the peer. -/
def IsOwn : ServerCall → Prop
  | onMessage .. => False
  | _ => True

/-- The messages passed `validate()`, and job ids are new. -/
def Allowed : ServerCall → Prop
  | addStoredBlocks _ _ _ _ _ jobId => jobId ∉ s.accepted
  | onMessage _ _ msg => msg.Valid
  | serveExternalRequests _ parent _ => ServerRole.Fresh parent s
  | _ => True

/-- No empty fetch is handled for an id with a transfer in flight in a round that was not
cancelled. -/
def FetchesSafe : ServerCall → Prop
  | onMessage _ _ (.fetch kvRequestId [] _ roundSeq) =>
    s.FetchNew kvRequestId roundSeq → s.FetchSafe kvRequestId
  | _ => True

end ServerCall

/-- Runs of a new server role in which every call meets a condition, with the results handed out. -/
inductive ServerRun (P : ServerRole → ServerCall → Prop) : ServerRole → List StoreResult → Prop
  | new (stallTimeout : Time) : ServerRun P { stallTimeout } []
  | call {s : ServerRole} {results : List StoreResult} (run : ServerRun P s results)
      (step : ServerCall) (hallowed : step.Allowed s) (hstep : P s step) :
      ServerRun P (step.apply s) (results ++ step.results s)

namespace ServerRole

variable {s s' : ServerRole} {out results : List StoreResult}

/-- What a call does to the jobs: each one handed in is reported or held. -/
structure Accounts (s s' : ServerRole) (out : List StoreResult) : Prop where
  inv : s'.Inv
  ledger : ∃ added : List JobId, s'.accepted = s.accepted ++ added ∧
    (added : Multiset JobId) + s.held = s'.held + jobsIn out
  nodup : s.accepted.Nodup → s'.accepted.Nodup

/-- A step that may take new jobs in. -/
def Takes (s s' : ServerRole) (out : List StoreResult) : Prop :=
  ∃ added, Step s s' added out ∧ (s.accepted.Nodup → s'.accepted.Nodup)

private theorem Step.takes (h : Step s s' [] out) : Takes s s' out := by
  refine ⟨[], h, ?_⟩
  rw [h.accepted, append_nil]
  exact id

private theorem Takes.accounts (h : Takes s s' out) : Accounts s s' out := by
  obtain ⟨added, hstep, hnodup⟩ := h
  exact ⟨hstep.inv, ⟨added, hstep.accepted, hstep.ledger⟩, hnodup⟩

private theorem accounts_of_eq (hinv : s'.Inv) (haccepted : s'.accepted = s.accepted)
    (hheld : s'.held = s.held) : Accounts s s' [] := by
  refine ⟨hinv, ⟨[], haccepted.trans (append_nil _).symm, ?_⟩, ?_⟩
  · rw [hheld]
    exact add_comm _ _
  · rw [haccepted]
    exact id

variable {step : ServerCall} {P : ServerRole → List StoreResult → Prop}

/-- What a program ensures holds after the call. -/
theorem of_returns
    (h : Returns step.program s fun out s' => P s' out) : P (step.apply s) (step.results s) := by
  obtain ⟨out, s', hrun, hP⟩ := h
  rw [ServerCall.apply, ServerCall.results, hrun]
  exact hP

/-- A program without results of its own. -/
theorem returns_unit {m : ServerM PUnit}
    (h : Returns m s fun _ s' => P s' []) : Returns (do m; pure []) s fun out s' => P s' out := by
  rw [bind_iff]
  refine h.mono fun _ s' hP => ?_
  rw [pure_iff]
  exact hP

/-- A call of the role itself keeps its part of the protocol. -/
theorem Inv.apply_own (h : s.Inv) (hallowed : step.Allowed s)
    (hown : step.IsOwn) : Takes s (step.apply s) (step.results s) := by
  cases step with
  | addStoredBlocks env now req keys blockIds jobId =>
    refine of_returns (returns_unit ?_)
    refine (h.addStoredBlocks hallowed).mono
      fun _ s' hstep => ⟨[jobId], hstep, fun hnodup => ?_⟩
    rw [hstep.accepted]
    exact hnodup.append (nodup_singleton _) (disjoint_singleton.mpr hallowed)
  | onMessage env now msg => exact hown.elim
  | serveExternalRequests env parent now =>
    refine of_returns (returns_unit ?_)
    exact (h.serveExternalRequests hallowed).mono
      fun _ s' ⟨added, hstep, _, hnodup, _⟩ => ⟨added, hstep, hnodup⟩
  | finish req =>
    refine of_returns (returns_unit ?_)
    exact h.finish.mono fun _ s' hpost => hpost.1.toStep.takes
  | collectResults env poll now =>
    refine of_returns ?_
    exact h.collectResults.mono fun _ s' hpost => hpost.1.toStep.takes
  | collectIdleTimeouts env now =>
    refine of_returns ?_
    exact h.timeoutPendingStoreJobs.mono fun _ s' hclears => hclears.toStep.takes
  | drainPendingAborts env now =>
    refine of_returns (returns_unit ?_)
    exact (h.drainPendingAborts env now).mono fun _ s' hstep => hstep.takes

/-- A call whose handler raises before it changes anything. -/
private theorem Inv.accounts_raise (h : s.Inv) {m : ServerM PUnit} {e : RoleError}
    (hraise : m.run.run s = (.error e, s)) :
    Accounts s ((do m; pure [] : ServerM (List StoreResult)).run.run s).2
      (((do m; pure [] : ServerM (List StoreResult)).run.run s).1.toOption.getD []) := by
  rw [run_bind, hraise]
  exact (Step.refl h).takes.accounts

/-- A fetch either raises or opens its round, and an empty one closes the rounds of its id. -/
private theorem Inv.accounts_fetch (h : s.Inv) {env : Transport} {now : Time} {req : KvRequestId}
    {keys : List OffloadKey} {blockIndexes : List ℕ} {roundSeq : ℕ}
    (hsafe : ServerCall.FetchesSafe s
      (.onMessage env now (.fetch req keys blockIndexes roundSeq))) : Accounts s
      ((ServerCall.onMessage env now (.fetch req keys blockIndexes roundSeq)).apply s)
      ((ServerCall.onMessage env now (.fetch req keys blockIndexes roundSeq)).results s) := by
  by_cases hnew : s.FetchNew req roundSeq
  · refine of_returns (returns_unit ?_)
    cases keys with
    | nil =>
      exact (h.onFetch_empty hnew (hsafe hnew)).mono fun _ s' hclears =>
        hclears.toStep.takes.accounts
    | cons key keys =>
      exact (h.onFetch hnew (cons_ne_nil _ _)).mono fun _ s' hfetched =>
        accounts_of_eq hfetched.inv hfetched.accepted hfetched.held
  · exact h.accounts_raise
      (onFetch_duplicate (isOpen_iff_not_fetchNew.mpr hnew))

private theorem Inv.apply (h : s.Inv) (hallowed : step.Allowed s)
    (hsafe : step.FetchesSafe s) : Accounts s (step.apply s) (step.results s) := by
  cases step with
  | onMessage env now msg =>
    cases msg with
    | fetch req keys blockIndexes roundSeq =>
      exact h.accounts_fetch hsafe
    | lookup req keys roundSeq =>
      refine of_returns (returns_unit ?_)
      rw [ServerCall.dispatch, modify_iff]
      exact (h.onLookup now req keys _).takes.accounts
    | abortFetch req roundSeq =>
      refine of_returns (returns_unit ?_)
      exact h.onAbortFetch.mono fun _ s' haborted =>
        accounts_of_eq haborted.inv haborted.accepted haborted.held
    | lookupResp _ _ _ => exact (Step.refl h).takes.accounts
    | transferDone _ _ _ => exact (Step.refl h).takes.accounts
    | abortAck _ _ => exact (Step.refl h).takes.accounts
  | addStoredBlocks _ _ _ _ _ _ => exact (h.apply_own hallowed trivial).accounts
  | serveExternalRequests _ _ _ => exact (h.apply_own hallowed trivial).accounts
  | finish _ => exact (h.apply_own hallowed trivial).accounts
  | collectResults _ _ _ => exact (h.apply_own hallowed trivial).accounts
  | collectIdleTimeouts _ _ => exact (h.apply_own hallowed trivial).accounts
  | drainPendingAborts _ _ => exact (h.apply_own hallowed trivial).accounts

/-- What holds along a run: every job handed in is held or reported, once. -/
structure Ledger (s : ServerRole) (results : List StoreResult) : Prop where
  inv : s.Inv
  balance : (s.accepted : Multiset JobId) = s.held + jobsIn results
  nodup : s.accepted.Nodup

/-- A new role has no requests. -/
theorem inv_new {stallTimeout : Time} : Inv { stallTimeout } where
  xfers _ _ hx := nomatch hx
  rounds _ _ _ hat := nomatch hat
  inj _ _ _ _ _ hat := nomatch hat
  counts _ := rfl
  home := by
    rintro j ref ref' (hmem | ⟨tid, x, hx, -⟩) -
    · cases hmem
    · cases hx
  once := by
    rintro j tid tid' ref ref' ⟨x, hx, -⟩ -
    cases hx
  pending _ _ hmem := nomatch hmem
  owner _ _ hmem := nomatch hmem
  known _ hj := absurd rfl hj
  aborts _ _ hne := absurd rfl hne
  lookups _ _ _ hget := nomatch hget
  offers _ _ _ hat := nomatch hat

private theorem ledger_of_run (run : ServerRun (fun s step => step.FetchesSafe s) s results) :
    s.Ledger results := by
  induction run with
  | new stallTimeout => exact ⟨inv_new, rfl, nodup_nil⟩
  | @call s results _ step hallowed hsafe ih =>
    have haccounts := ih.inv.apply hallowed hsafe
    obtain ⟨added, haccepted, hledger⟩ := haccounts.ledger
    refine ⟨haccounts.inv, ?_, haccounts.nodup ih.nodup⟩
    rw [haccepted, ← Multiset.coe_add, ih.balance, jobsIn_append]
    calc s.held + jobsIn results + added
        = (added + s.held) + jobsIn results := by abel
      _ = ((step.apply s).held + jobsIn (step.results s)) + jobsIn results := by rw [hledger]
      _ = (step.apply s).held + (jobsIn results + jobsIn (step.results s)) := by abel

/-- A job with a result is not in the table. -/
private theorem Ledger.not_pinned (h : s.Ledger results) {result : StoreResult}
    (hresult : result ∈ results ++ s.pendingStoreResults) : ¬ s.Pinned result.jobId := by
  intro hpinned
  obtain ⟨submittedAt, hget⟩ := Option.ne_none_iff_exists'.mp hpinned
  have hkeys : result.jobId ∈ s.storeJobs.keys :=
    Multiset.mem_coe.mpr (mem_keys.mpr ⟨submittedAt, hget⟩)
  have hreported : result.jobId ∈ jobsIn results + jobsIn s.pendingStoreResults := by
    rw [← jobsIn_append]
    exact mem_map_of_mem hresult
  -- the job would be handed in twice
  have hnodup : (s.storeJobs.keys +
      (jobsIn results + jobsIn s.pendingStoreResults)).Nodup := by
    have hbalance : s.storeJobs.keys +
        (jobsIn results + jobsIn s.pendingStoreResults) = s.accepted := by
      rw [h.balance, held]
      abel
    rw [hbalance]
    exact Multiset.coe_nodup.mpr h.nodup
  exact Multiset.disjoint_left.mp (Multiset.nodup_add.mp hnodup).2.2 hkeys hreported

/-! ### Live transfers -/

private theorem tracks_program (step : ServerCall) : Tracks step.program := by
  have hunit : ∀ {m : ServerM PUnit}, Tracks m →
      Tracks (do m; pure [] : ServerM (List StoreResult)) := fun hm =>
    hm.bind fun _ => (silent_pure _).tracks
  cases step with
  | addStoredBlocks env now req keys blockIds jobId => exact hunit tracks_addStoredBlocks
  | onMessage env now msg =>
    refine hunit ?_
    cases msg with
    | fetch req keys blockIndexes roundSeq => exact tracks_onFetch
    | lookup req keys roundSeq => exact Silent.tracks fun _ => rfl
    | abortFetch req roundSeq => exact tracks_onAbortFetch
    | lookupResp req keys hits => exact (silent_pure _).tracks
    | transferDone req success roundSeq => exact (silent_pure _).tracks
    | abortAck req roundSeq => exact (silent_pure _).tracks
  | serveExternalRequests env parent now => exact hunit tracks_serveExternalRequests
  | finish req => exact hunit silent_finish.tracks
  | collectResults env poll now => exact tracks_collectResults
  | collectIdleTimeouts env now => exact tracks_timeoutPendingStoreJobs
  | drainPendingAborts env now => exact hunit tracks_drainPendingAborts

/-- Whatever is called, and whether or not it raises, the table has the live transfers. -/
theorem Records.apply (h : s.Records) (step : ServerCall) : (step.apply s).Records :=
  (tracks_program step s h).state

/-- What is live after closing is stuck, and its jobs are held. -/
private theorem Records.live_close (h : s.Records) {env : Transport} {tid : TransferId} {x : InflightXfer}
    (hx : (s.close env).2.live.get? tid = some x) :
    s.inflight.get? tid = some x ∧ env.stuck tid = true := by
  obtain ⟨hlive, hkept⟩ := get?_filter_eq_some.mp hx
  have hinflight := h tid x hlive
  rw [Bool.or_eq_true, decide_eq_true_eq] at hkept
  exact ⟨hinflight, hkept.resolve_left (not_not_intro (mem_keys.mpr ⟨x, hinflight⟩))⟩

/-! ### Closing -/

private theorem Base.retained_nodup (h : s.Base) (env : Transport) :
    ((s.close env).1.retained.flatMap Prod.snd).Nodup := by
  rw [close, flatMap_map, nodup_flatMap]
  constructor
  · intro e he
    exact (h.xfers e.1 e.2 (mem_entries.mp (mem_filter.mp he).1)).nodup
  · have hdistinct : s.inflight.entries.Pairwise fun e e' => e.1 ≠ e'.1 :=
      pairwise_map.mp s.inflight.nodup
    refine (hdistinct.sublist filter_sublist).imp_of_mem fun {e e'} he he' hne => ?_
    intro j hj hj'
    have hx := mem_entries.mp (mem_filter.mp he).1
    have hx' := mem_entries.mp (mem_filter.mp he').1
    exact hne (h.once j e.1 e'.1 _ _ ⟨e.2, hx, rfl, hj⟩ ⟨e'.2, hx', rfl, hj'⟩)

private theorem Base.retained_subset (h : s.Base) (env : Transport) :
    (s.close env).1.retained.flatMap Prod.snd ⊆ s.storeJobs.keys := by
  intro j hj
  rw [close, flatMap_map] at hj
  obtain ⟨e, he, hj⟩ := mem_flatMap.mp hj
  have hx := mem_entries.mp (mem_filter.mp he).1
  obtain ⟨submittedAt, hget⟩ := Option.ne_none_iff_exists'.mp ((h.xfers e.1 e.2 hx).pinned j hj)
  exact mem_keys.mpr ⟨submittedAt, hget⟩

private theorem Base.close_perm (h : s.Base) (env : Transport) :
    ((s.close env).1.failedStores ++ (s.close env).1.retained.flatMap Prod.snd).Perm
      s.storeJobs.keys := by
  have hretained := h.retained_nodup env
  have hsubset := h.retained_subset env
  set retained := (s.close env).1.retained.flatMap Prod.snd
  have hfailed : (s.close env).1.failedStores = s.storeJobs.keys.filter (· ∉ retained) := rfl
  rw [hfailed]
  refine (perm_ext_iff_of_nodup ?_ s.storeJobs.nodup).mpr fun j => ?_
  · refine (s.storeJobs.nodup.filter _).append hretained fun j hj hj' => ?_
    exact of_decide_eq_true (mem_filter.mp hj).2 hj'
  · rw [mem_append, mem_filter, decide_eq_true_eq]
    constructor
    · rintro (hj | hj)
      · exact hj.1
      · exact hsubset hj
    · intro hj
      by_cases hheld : j ∈ retained
      · exact .inr hheld
      · exact .inl ⟨hj, hheld⟩

end ServerRole

open ServerRole

/-! ### Results over a run -/

section Results

variable {s : ServerRole} {results : List StoreResult}

/-- Over every run, the role's table has every transfer that is live on the transport. -/
theorem ServerRun.records {P : ServerRole → ServerCall → Prop} (run : ServerRun P s results) :
    s.Records := by
  induction run with
  | new stallTimeout => exact fun _ _ hx => by cases hx
  | call _ step _ _ ih => exact ih.apply step

/-- **Pins outlive reads.** In every state of a run in which empty fetches are safe, a job with a
result, handed out or queued, is read by no transfer that the transport accepted and has not
reported done, failed or stopped; and a job that `close` lists as failed is read by no transfer that
is live after the close. -/
theorem ServerRun.reported_not_read (run : ServerRun (fun s step => step.FetchesSafe s) s results) :
    (∀ result ∈ results ++ s.pendingStoreResults, ∀ tid x, s.live.get? tid = some x →
      result.jobId ∉ x.jobIds) ∧ ∀ env : Transport, ∀ j ∈ (s.close env).1.failedStores, ∀ tid x,
      (s.close env).2.live.get? tid = some x → j ∉ x.jobIds := by
  have hledger := ledger_of_run run
  constructor
  · intro result hresult tid x hx hmem
    exact hledger.not_pinned hresult
      ((hledger.inv.xfers tid x (run.records tid x hx)).pinned _ hmem)
  · intro env j hj tid x hx hmem
    obtain ⟨hinflight, hstuck⟩ := run.records.live_close hx
    refine of_decide_eq_true (mem_filter.mp hj).2 ?_
    rw [flatMap_map]
    exact mem_flatMap.mpr
      ⟨(tid, x), mem_filter.mpr ⟨mem_entries.mpr hinflight, hstuck⟩, hmem⟩

/-- A transport that accepts every write and can stop every transfer. -/
def Transport.smooth : Transport := ⟨fun _ => true, fun _ => false⟩

/-- A transport that accepts every write and can stop no transfer. -/
def Transport.stalling : Transport := ⟨fun _ => true, fun _ => true⟩

/-- Two jobs are written for one fetch. The transport reports the first transfer done; the second
times out, and neither the cancel nor the close can stop it. The first job is reported, and the
second is neither reported nor listed as failed. -/
theorem ServerRun.reported_not_read_stuck :
    ∃ (s : ServerRole) (results : List StoreResult),
      ServerRun (fun s step => step.FetchesSafe s) s results ∧ ⟨1, true⟩ ∈ results ∧
      s.live.keys = [1] ∧ (s.live.get? 1).map InflightXfer.jobIds = some [2] ∧
      (∀ tid x, s.live.get? tid = some x → 1 ∉ x.jobIds) ∧
      (s.close .stalling).2.live.keys = [1] ∧
      ∀ j ∈ (s.close .stalling).1.failedStores, ∀ tid x,
        (s.close .stalling).2.live.get? tid = some x → j ∉ x.jobIds := by
  let steps : ServerRun (fun s step => step.FetchesSafe s) _ _ :=
    (((((new 60000).call (.onMessage .smooth 0 (.fetch "r" [[1], [2]] [5, 6] 0)) rfl
      trivial).call (.addStoredBlocks .smooth 1 "r" [[1]] [7] 1) not_mem_nil trivial).call
      (.addStoredBlocks .smooth 2 "r" [[2]] [8] 2) (by change 2 ∉ accepted _; decide) trivial).call
      (.collectResults .smooth ⟨[0], [], none⟩ 4) trivial trivial).call
      (.collectResults .stalling ⟨[], [], none⟩ 40000) trivial trivial
  exact ⟨_, _, steps, by decide +kernel, by decide +kernel, by decide +kernel,
    (reported_not_read steps).1 ⟨1, true⟩ (by decide +kernel), by decide +kernel,
    (reported_not_read steps).2 .stalling⟩

/-- An empty fetch while a transfer of the id is live: the job of the transfer is reported. -/
theorem ServerRun.emptyFetch_reports_read_job :
    ∃ s : ServerRole, ServerRun (fun _ _ => True) s [⟨1, false⟩] ∧
      ∃ x, s.live.get? 0 = some x ∧ 1 ∈ x.jobIds := by
  let steps : ServerRun (fun _ _ => True) _ _ :=
    ((((new 60000).call (.onMessage .smooth 0 (.fetch "r" [[1]] [5] 0)) rfl trivial).call
      (.addStoredBlocks .smooth 1 "r" [[1]] [7] 1) not_mem_nil trivial).call
      (.onMessage .smooth 2 (.fetch "r" [] [] 1)) rfl trivial).call
      (.collectResults .smooth ⟨[], [], none⟩ 3) trivial trivial
  exact ⟨_, steps, ⟨"r", 1, [1], 0, 0, 1⟩, by decide, by decide⟩

/-- In every state of a run in which empty fetches are safe, closing completes the reports: every
job handed in was reported, is listed as failed or is held by a transfer that cannot be stopped,
once, if and only if no result is queued. -/
theorem ServerRun.stores_reported_once
    (run : ServerRun (fun s step => step.FetchesSafe s) s results) (env : Transport) :
    (results.map StoreResult.jobId ++ (s.close env).1.failedStores ++
        (s.close env).1.retained.flatMap Prod.snd).Perm s.accepted ↔
      s.pendingStoreResults = [] := by
  have hledger := ledger_of_run run
  have hclose := Multiset.coe_eq_coe.mpr (hledger.inv.toBase.close_perm env)
  have hbalance : s.accepted =
      ((results.map StoreResult.jobId ++ (s.close env).1.failedStores ++
        (s.close env).1.retained.flatMap Prod.snd : List JobId)) +
      jobsIn s.pendingStoreResults := by
    rw [hledger.balance, held, ← hclose, append_assoc,
      ← Multiset.coe_add (results.map _)]
    abel
  rw [← Multiset.coe_eq_coe, hbalance, left_eq_add, jobsIn, Multiset.coe_eq_zero, map_eq_nil_iff]

/-- Closing over a transfer that cannot be stopped: its job is held by it. -/
theorem ServerRun.stores_reported_once_stuck :
    ∃ s : ServerRole, ServerRun (fun s step => step.FetchesSafe s) s [] ∧ s.accepted = [1] ∧
      (s.close ⟨fun _ => true, fun _ => true⟩).1.retained = [(0, [1])] ∧
      ([] ++ (s.close ⟨fun _ => true, fun _ => true⟩).1.failedStores ++ [1]).Perm [1] := by
  let steps : ServerRun (fun s step => step.FetchesSafe s) _ _ :=
    ((new 60000).call (.onMessage .smooth 0 (.fetch "r" [[1]] [5] 0)) rfl trivial).call
      (.addStoredBlocks .smooth 1 "r" [[1]] [7] 1) not_mem_nil trivial
  exact ⟨_, steps, by decide, by decide,
    (stores_reported_once steps ⟨fun _ => true, fun _ => true⟩).mpr (by decide)⟩

/-- A write that the transport refuses queues a failed result, and closing drops it. -/
theorem ServerRun.close_drops_queued_result :
    ∃ s : ServerRole, ServerRun (fun s step => step.FetchesSafe s) s [] ∧ s.accepted = [1] ∧
      (s.close .smooth).1.failedStores = [] ∧ (s.close .smooth).1.retained = [] := by
  let steps : ServerRun (fun s step => step.FetchesSafe s) _ _ :=
    ((new 60000).call (.onMessage .smooth 0 (.fetch "r" [[1]] [5] 0)) rfl trivial).call
      (.addStoredBlocks ⟨fun _ => false, fun _ => false⟩ 1 "r" [[1]] [7] 1) not_mem_nil trivial
  exact ⟨_, steps, by decide, by decide, by decide⟩

end Results

end Sonar.P2P
