import Sonar.P2P.ClientInv

/-!
# Runs of the client role

A run of a client role is a sequence of its calls: loads and lookups from the tiering manager,
messages of the peer in any order, and polls. Every call keeps `ClientRole.Inv`, but for one
message: an `AbortAck` for a load that was never aborted. The load is popped before the assertion
fails, so its job is lost and the work list still names its id. In runs without such messages
(`AckExpected`) every job is reported once and polls do not raise.
-/

namespace Sonar.P2P

open Lib List
open Dict hiding keys

namespace ClientRole

variable {c c' : ClientRole} {req : KvRequestId} {st : ClientRequestState}
  {submitted : List JobId} {results : List LoadResult}

/-! ### The calls -/

section

variable (h : c.Inv submitted results)

include h

variable {st' : ClientRequestState} {req : KvRequestId} {now : Time}

private theorem Inv.visited (hst : c.getOrCreateRequest req = st)
    {out : ClientRequestState × ClientRole} (hvisited : Visited st c out)
    (hreq : c'.requests = c.requests.set req st')
    (hround : st'.roundSeq = out.1.roundSeq) (hloads : st'.loads = out.1.loads)
    (hactive : c'.activeLoads = c.activeLoads)
    (hcompleted : c'.completedLoads = out.2.completedLoads) (hreleased : c'.released = c.released) :
    c'.Inv submitted results := by
  have hawaits : ∀ e, EntryAwaits out.1 e → EntryAwaits st' e := by
    rintro e ⟨r, load, hload, hrel⟩
    exact ⟨r, load, hloads ▸ hload, hrel⟩
  refine h.update hst hreq (fun kv => ?_) ⟨?_, ?_⟩ ?_ ?_
    (fun e he => .inr (hawaits e (hvisited.kept e he))) fun e he => ?_
  · rw [hactive]
    split_ifs with hkv
    · rw [h.active, hkv, loadsOf, hst, hloads, ne_eq, ne_eq, eq_empty_iff, eq_empty_iff]
      exact not_congr (forall_congr' fun r => (hvisited.loads r).symm)
    · rfl
  · rw [hloads, hround]
    exact hvisited.entry.rounds
  · rw [hloads]
    exact hvisited.entry.synced
  · have htotal : entryTotal owedLoad st' = entryTotal owedLoad out.1 := by
      rw [entryTotal, hloads, entryTotal]
    rw [hcompleted, htotal, add_assoc _, add_comm (jobsOf c.completedLoads),
      ← hvisited.jobs, add_assoc _, add_comm (entryTotal _ out.1)]
  · rw [hreleased]
    exact fun _ => id
  · rw [hcompleted, eventsOf, filterMap_append, mem_append] at he
    rw [eventsOf, filterMap_append, mem_append]
    rcases he with he | he
    · exact .inl (.inl he)
    · exact (hvisited.events e he).imp .inr (hawaits e)

/-- A call that changes only the lookup state of one entry. -/
private theorem Inv.lookupState (hreq : c'.requests = c.requests.set req st')
    (hround : st'.roundSeq = (c.getOrCreateRequest req).roundSeq)
    (hloads : st'.loads = c.loadsOf req) (hactive : c'.activeLoads = c.activeLoads)
    (hcompleted : c'.completedLoads = c.completedLoads) (hreleased : c'.released = c.released) :
    c'.Inv submitted results :=
  h.visited rfl (.refl (h.entries req)) hreq hround hloads hactive hcompleted hreleased

private theorem Inv.registerLookup
    {key : OffloadKey} : (c.registerLookup req key).2.Inv submitted results := by
  rw [ClientRole.registerLookup]
  split <;> exact h.lookupState rfl rfl rfl rfl rfl rfl

private theorem Inv.flushLoop {reqIds : List KvRequestId} :
    (flushLoop now reqIds c).Inv submitted results := by
  induction reqIds generalizing c with
  | nil => exact h
  | cons reqId reqIds ih =>
    rw [flushLoop]
    cases hst : c.requests.get? reqId with
    | none => exact ih h
    | some st =>
      dsimp only
      split_ifs
      · exact ih h
      all_goals
        refine ih (h.lookupState rfl ?_ (loadsOf_of_get? hst).symm rfl rfl rfl)
        rw [getOrCreateRequest_of_get? hst]

private theorem Inv.flushPendingLookups {sendReady : Bool} :
    (c.flushPendingLookups sendReady now).Inv submitted results := by
  rw [ClientRole.flushPendingLookups]
  split_ifs
  · exact h.flushLoop.congr rfl rfl rfl rfl
  · exact h

private theorem Inv.onLookupResp {keys : List OffloadKey} {hits : List Bool} :
    (c.onLookupResp req keys hits now).Inv submitted results := by
  rw [ClientRole.onLookupResp]
  cases hst : c.requests.get? req with
  | none => exact h
  | some st =>
    have hround : st.roundSeq = (c.getOrCreateRequest req).roundSeq := by
      rw [getOrCreateRequest_of_get? hst]
    dsimp only
    split_ifs
    all_goals exact h.lookupState rfl hround (loadsOf_of_get? hst).symm rfl rfl rfl

/-- A load that is handed in is owed, whether or not the assertions of `request_blocks` hold. -/
private theorem Inv.requestBlocks (jobId : JobId)
    (req : KvRequestId) (keys : List OffloadKey) (blockIds : List ℕ) (now : Time) :
    (c.requestBlocks jobId req keys blockIds now).2.Inv (submitted ++ [jobId]) results := by
  have hentry := h.entries req
  set st := c.getOrCreateRequest req with hst
  have hnew : st.loads.get? st.roundSeq = none := by
    by_contra hne
    exact absurd (hentry.rounds _ hne) (lt_irrefl _)
  have hget := get?_set st.loads st.roundSeq
  -- what both branches leave: the new load is the entry's, and nothing else changed
  have hregistered : ∀ {c' : ClientRole} {st' : ClientRequestState} {timeout : Time},
      c'.requests = c.requests.set req st' → st'.roundSeq = st.roundSeq + 1 → st'.loads =
        st.loads.set st.roundSeq { jobId, submittedAt := now, timeout } →
      c'.activeLoads = insertSet req c.activeLoads →
      c'.completedLoads = c.completedLoads → c'.released = c.released →
      c'.Inv (submitted ++ [jobId]) results := by
    intro c' st' timeout hreq hround hloads hactive hcompleted hreleased
    refine h.update hst.symm hreq (fun kv => ?_) ⟨fun r hr => ?_, fun r other hother => ?_⟩ ?_ ?_
      (fun e he => ?_) fun e he => .inl (hcompleted ▸ he)
    · rw [hactive, mem_insertSet]
      split_ifs with hkv
      · refine iff_of_true (.inl hkv) fun hempty => ?_
        have hsome := hget { jobId, submittedAt := now, timeout } st.roundSeq
        rw [← hloads, hempty, if_pos rfl] at hsome
        cases hsome
      · simp [hkv]
    · rw [hloads, hget] at hr
      split_ifs at hr with heq
      · omega
      · have hlt := hentry.rounds r hr
        omega
    · rw [hloads, hget] at hother
      split_ifs at hother with heq
      · obtain rfl := Option.some.inj hother
        exact iff_of_true rfl rfl
      · exact hentry.synced r other hother
    · have htotal : entryTotal owedLoad st' = entryTotal owedLoad st + {jobId} := by
        rw [entryTotal, hloads, total_set, erase_of_get?_none hnew, add_comm]
        rfl
      rw [hcompleted, htotal, ← Multiset.coe_add, Multiset.coe_singleton]
      abel
    · rw [hreleased]
      exact fun _ => id
    · obtain ⟨r, other, hother, hrel⟩ := he
      refine .inr ⟨r, other, ?_, hrel⟩
      rw [hloads, hget, if_neg (fun heq => by rw [heq, hnew] at hother; cases hother), hother]
  rw [ClientRole.requestBlocks]
  generalize (if st.probed = true then p2pLoadTimeout else pdLoadTimeout) = timeout
  split_ifs
  · exact hregistered rfl rfl rfl rfl rfl rfl
  · exact hregistered set_set rfl rfl rfl rfl rfl

/-- The end of a request keeps the loads it aborts, until they are acknowledged. -/
theorem Inv.finish : (c.finish req now).Inv submitted results := by
  rw [ClientRole.finish]
  cases hst : c.requests.get? req with
  | none => exact h
  | some st =>
    have hentry : EntryInv st := getOrCreateRequest_of_get? hst ▸ h.entries req
    have hvisited : Visited st c (forLoads (fun roundSeq load c =>
        if load.abortedAt = none then abortLoad now req roundSeq load c else (load, c))
        st.loads.keys st c) := by
      exact visited_forLoads (fun r _ _ => visit_abort now req r) _ hentry
    have hreq := congrArg (fun d : Dict KvRequestId ClientRequestState => d.set req)
      hvisited.requests
    refine maybePrune ?_
    split_ifs
    all_goals
      refine h.visited (getOrCreateRequest_of_get? hst) hvisited (congrFun hreq _) rfl rfl
        hvisited.activeLoads rfl ?_
      exact hvisited.released

/-- A load that ends is reported if it still owes its report, and sets its event otherwise. -/
private theorem Inv.onLoadTerminal
    (hst : c.requests.get? req = some st) {roundSeq : ℕ} {load : InboundLoadState}
    (hload : st.loads.get? roundSeq = some load)
    (hreq : c'.requests = c.requests.set req { st with loads := st.loads.erase roundSeq })
    (hactive : c'.activeLoads = c.activeLoads)
    (hjobs : jobsOf c'.completedLoads = jobsOf c.completedLoads + owedLoad load)
    (hevents : eventsOf c'.completedLoads = eventsOf c.completedLoads)
    (hreleased : ∀ e, e ∈ c'.released ↔ load.release = some e ∨ e ∈ c.released) :
    (c'.onLoadTerminal req { st with loads := st.loads.erase roundSeq }).Inv
      submitted results := by
  have hget := getOrCreateRequest_of_get? hst
  have hentry : EntryInv st := hget ▸ h.entries req
  have herase : ∀ r other, (st.loads.erase roundSeq).get? r = some other →
      st.loads.get? r = some other := fun r other hother => (get?_erase_eq_some.mp hother).2
  have hupdate : ∀ {c1 : ClientRole}, c1.requests = c'.requests → (∀ kv, kv ∈ c1.activeLoads ↔
        if kv = req then st.loads.erase roundSeq ≠ ∅ else kv ∈ c.activeLoads) →
      c1.completedLoads = c'.completedLoads → c1.released = c'.released →
      c1.Inv submitted results := by
    intro c1 hreq1 hactive1 hcompleted1 hreleased1
    refine h.update hget (hreq1.trans hreq) hactive1 ⟨fun r hr => ?_, fun r other hother =>
      hentry.synced r other (herase r other hother)⟩ ?_ (fun e he => ?_) (fun e he => ?_)
      fun e he => .inl ?_
    · obtain ⟨other, hother⟩ := Option.ne_none_iff_exists'.mp hr
      exact hentry.rounds r (by rw [herase r other hother]; exact Option.some_ne_none _)
    · rw [hcompleted1, hjobs, entryTotal, total_erase _ _ _, part_of_get? _ hload]
      abel
    · rw [hreleased1]
      exact (hreleased e).mpr (.inr he)
    · obtain ⟨r, other, hother, hrel⟩ := he
      by_cases hr : r = roundSeq
      · rw [hr, hload] at hother
        obtain rfl := Option.some.inj hother
        rw [hreleased1]
        exact .inl ((hreleased e).mpr (.inl hrel))
      · exact .inr ⟨r, other, by rw [get?_erase_of_ne hr, hother], hrel⟩
    · rw [hcompleted1, eventsOf, filterMap_append] at he
      rw [eventsOf, filterMap_append, ← eventsOf, ← eventsOf, ← hevents]
      exact he
  have hself : req ∈ c.activeLoads := by
    rw [h.active, loadsOf, hget]
    intro hempty
    rw [hempty] at hload
    cases hload
  rw [ClientRole.onLoadTerminal]
  split_ifs with hempty
  · refine hupdate rfl (fun kv => ?_) rfl rfl
    rw [hactive]
    split_ifs with hkv
    · exact iff_of_true (hkv ▸ hself) hempty
    · rfl
  · refine maybePrune ?_
    refine hupdate rfl (fun kv => ?_) rfl rfl
    rw [mem_discard, hactive]
    split_ifs with hkv
    · exact iff_of_false (fun hmem => hmem.2 hkv) hempty
    · exact and_iff_left hkv

private theorem Inv.onTransferDone {success : Bool} {roundSeq : ℕ} :
    (c.onTransferDone req success roundSeq).Inv submitted results := by
  rw [ClientRole.onTransferDone]
  cases hst : c.requests.get? req with
  | none => exact h
  | some st =>
    dsimp only
    cases hload : st.loads.get? roundSeq with
    | none => exact h
    | some load =>
      dsimp only
      cases hrel : load.release with
      | some event =>
        refine h.onLoadTerminal hst hload rfl rfl ?_ rfl fun e => ?_
        · rw [owedLoad, if_neg (hrel ▸ Option.some_ne_none event), add_zero]
          rfl
        · rw [mem_insertSet, hrel, Option.some_inj, eq_comm]
          rfl
      | none =>
        refine h.onLoadTerminal hst hload rfl rfl ?_ ?_ fun e => ?_
        · rw [jobsOf_append, owedLoad, if_pos hrel]
          rfl
        · rw [eventsOf, filterMap_append]
          exact append_nil _
        · rw [hrel]
          exact (or_iff_right fun hnone => by cases hnone).symm

end

/-- `AbortAck` ends an aborted load as `TransferDone` does; any other load it drops. -/
theorem onAbortAck_cases (c : ClientRole) (req : KvRequestId) (roundSeq : ℕ) :
    (c.onAbortAck req roundSeq).2 = c.onTransferDone req false roundSeq ∨
    ∃ st load, c.requests.get? req = some st ∧ st.loads.get? roundSeq = some load ∧
      load.release = none ∧ (c.onAbortAck req roundSeq).2 =
        c.setRequest req { st with loads := st.loads.erase roundSeq } := by
  rw [onAbortAck, onTransferDone]
  cases hst : c.requests.get? req with
  | none => exact .inl rfl
  | some st =>
    dsimp only
    cases hload : st.loads.get? roundSeq with
    | none => exact .inl rfl
    | some load =>
      dsimp only
      cases hrel : load.release with
      | some event => exact .inl rfl
      | none => exact .inr ⟨st, load, rfl, hload, hrel, rfl⟩

/-- An `AbortAck` may arrive: it is for a load that was aborted, or for no load. -/
def AckExpected (c : ClientRole) (kvRequestId : KvRequestId) (roundSeq : ℕ) : Prop :=
  ∀ load, (c.loadsOf kvRequestId).get? roundSeq = some load → load.abortedAt ≠ none

section

variable (h : c.Inv submitted results)

include h

private theorem Inv.onAbortAck {roundSeq : ℕ} (hack : c.AckExpected req roundSeq) :
    (c.onAbortAck req roundSeq).2.Inv submitted results := by
  rcases onAbortAck_cases c req roundSeq with heq | ⟨st, load, hst, hload, hrel, -⟩
  · exact heq ▸ h.onTransferDone
  · have hget := getOrCreateRequest_of_get? hst
    have hsynced := (hget ▸ h.entries req).synced _ load hload
    exact absurd (hsynced.mpr hrel) (hack load (by rw [loadsOf, hget, hload]))

/-- The loop of `collect_results` goes on behind an id with loads. -/
theorem Inv.checkLoads_cons (now : Time) {reqId : KvRequestId} (hid : reqId ∈ c.activeLoads)
    (reqIds : List KvRequestId) :
    let out := forLoads (checkLoad now reqId) (c.loadsOf reqId).keys (c.getOrCreateRequest reqId) c
    checkLoads now (reqId :: reqIds) c = checkLoads now reqIds (out.2.setRequest reqId out.1) ∧
      (out.2.setRequest reqId out.1).Inv submitted results ∧
      (out.2.setRequest reqId out.1).activeLoads = c.activeLoads := by
  have hloads := (h.active reqId).mp hid
  have hvisited := visited_forLoads (c := c) (fun r load c => visit_checkLoad now reqId r)
    (c.loadsOf reqId).keys (h.entries reqId)
  refine ⟨?_, h.visited rfl hvisited ?_ rfl rfl hvisited.activeLoads rfl hvisited.released,
    hvisited.activeLoads⟩
  · rw [checkLoads, get?_requests_of_loads hloads]
    exact if_neg hloads
  · rw [setRequest, hvisited.requests]

/-- The loop of `collect_results` does not raise: every id it visits has loads. -/
private theorem Inv.checkLoads (now : Time) (reqIds : List KvRequestId)
    (hids : ∀ kv ∈ reqIds, kv ∈ c.activeLoads) :
    (checkLoads now reqIds c).1 = .ok () ∧ (checkLoads now reqIds c).2.Inv submitted results := by
  induction reqIds generalizing c with
  | nil => exact ⟨rfl, h⟩
  | cons reqId reqIds ih =>
    obtain ⟨heq, hinv, hactive⟩ := h.checkLoads_cons now (hids reqId (.head _)) reqIds
    rw [heq]
    exact ih hinv fun kv hkv => hactive ▸ hids kv (.tail _ hkv)

private theorem Inv.collectResults (now : Time) : ∃ loads, (c.collectResults now).1 = .ok loads ∧
      (c.collectResults now).2.Inv submitted (results ++ loads) := by
  obtain ⟨hok, hinv⟩ := h.checkLoads now _ fun _ => id
  rcases hcheck : ClientRole.checkLoads now c.activeLoads c with ⟨res, c'⟩
  rw [hcheck] at hok hinv
  dsimp only at hok hinv
  rw [ClientRole.collectResults, hcheck, hok]
  refine ⟨c'.completedLoads, rfl, hinv.active, hinv.entries, ?_, ?_⟩
  · rw [jobsOf_append, hinv.jobs]
    exact congrArg (· + c'.owed) (add_zero _).symm
  · intro e he
    exact hinv.events e (by simpa using he)

end

/-! ### Closing -/

private theorem owed_eq_allLoads (c : ClientRole) : c.owed = ((c.allLoads.filterMap fun load =>
      if load.release = none then some load.jobId else none)) := by
  have hentry : ∀ st : ClientRequestState, entryTotal owedLoad st =
      ((st.loads.values.filterMap fun load =>
        if load.release = none then some load.jobId else none)) := by
    intro st
    have hload : owedLoad = fun load => ((if load.release = none then [load.jobId] else [] :
        List JobId) : Multiset JobId) := by
      funext load
      rw [owedLoad]
      split_ifs <;> rfl
    rw [entryTotal, hload, total_coe, values, filterMap_map, filterMap_eq_flatMap_toList]
    refine congrArg (fun f => ((st.loads.entries.flatMap f : List JobId) : Multiset JobId)) ?_
    funext e
    dsimp only [Function.comp_apply]
    split_ifs <;> rfl
  have htotal : c.owed = c.requests.total fun _ st => ((st.loads.values.filterMap fun load =>
      if load.release = none then some load.jobId else none) : Multiset JobId) := by
    rw [owed, loadTotal]
    simp [hentry]
  rw [htotal, total_coe, allLoads, values, flatMap_map, filterMap_flatMap]

/-- Closing reports what is owed and sets the events that are left. -/
theorem Inv.close (h : c.Inv submitted results) :
    (results.map LoadResult.jobId ++ c.close.1.failedJobs).Perm submitted ∧
      ∀ e ∈ eventsOf results, e ∈ c.close.2.released := by
  constructor
  · rw [← Multiset.coe_eq_coe, h.jobs, owed_eq_allLoads, add_assoc]
    rfl
  · intro e he
    have hmem : e ∈ eventsOf (results ++ c.completedLoads) := by
      rw [eventsOf, filterMap_append]
      exact mem_append_left _ he
    rcases h.events e hmem with hrel | ⟨kv, r, load, hload, hrel⟩
    · exact mem_append_left _ hrel
    · refine mem_append_right _ (mem_filterMap.mpr ⟨load, ?_, hrel⟩)
      have hne : c.loadsOf kv ≠ ∅ := by
        intro hempty
        rw [← loadsOf, hempty] at hload
        cases hload
      have hst := get?_requests_of_loads hne
      exact mem_flatMap.mpr ⟨_, mem_values.mpr ⟨kv, hst⟩, mem_values.mpr ⟨r, hload⟩⟩

end ClientRole

/-! ### Runs -/

/-- The calls a session makes on its client role. -/
inductive ClientCall where
  | requestBlocks (jobId : JobId) (kvRequestId : KvRequestId) (keys : List OffloadKey)
      (blockIds : List ℕ) (now : Time)
  | registerLookup (kvRequestId : KvRequestId) (key : OffloadKey)
  | flushPendingLookups (sendReady : Bool) (now : Time)
  | finish (kvRequestId : KvRequestId) (now : Time)
  | onMessage (msg : PeerMsg) (now : Time)
  | collectResults (now : Time)

namespace ClientCall

variable (c : ClientRole)

/-- `_dispatch_message`, as far as the client role is concerned. -/
def dispatch (now : Time) : PeerMsg → Outcome ClientRole Unit
  | .transferDone kvRequestId success roundSeq =>
    (.ok (), c.onTransferDone kvRequestId success roundSeq)
  | .abortAck kvRequestId roundSeq => c.onAbortAck kvRequestId roundSeq
  | .lookupResp kvRequestId keys hits => (.ok (), c.onLookupResp kvRequestId keys hits now)
  | .fetch .. | .lookup .. | .abortFetch .. => (.ok (), c)

/-- The role after a call. What a handler raises is caught in `_on_message`. -/
def apply : ClientCall → ClientRole
  | requestBlocks jobId kvRequestId keys blockIds now =>
    (c.requestBlocks jobId kvRequestId keys blockIds now).2
  | registerLookup kvRequestId key => (c.registerLookup kvRequestId key).2
  | flushPendingLookups sendReady now => c.flushPendingLookups sendReady now
  | finish kvRequestId now => c.finish kvRequestId now
  | onMessage msg now => (dispatch c now msg).2
  | collectResults now => (c.collectResults now).2

/-- The job a call hands in. -/
def jobs : ClientCall → List JobId
  | requestBlocks jobId _ _ _ _ => [jobId]
  | _ => []

/-- The results a call hands out. -/
def loads : ClientCall → List LoadResult
  | collectResults now => (c.collectResults now).1.toOption.getD []
  | _ => []

/-- The messages passed `validate()`. -/
def Valid : ClientCall → Prop
  | onMessage msg _ => msg.Valid
  | _ => True

/-- No `AbortAck` is handled for a load in flight that was not aborted. -/
def AcksExpected : ClientCall → Prop
  | onMessage (.abortAck kvRequestId roundSeq) _ => c.AckExpected kvRequestId roundSeq
  | _ => True

end ClientCall

/-- Runs of a new client role in which every call meets a condition, with the jobs handed in and the
results handed out. -/
inductive ClientRun (P : ClientRole → ClientCall → Prop) :
    ClientRole → List JobId → List LoadResult → Prop
  | new : ClientRun P {} [] []
  | call {c : ClientRole} {submitted : List JobId} {results : List LoadResult}
      (run : ClientRun P c submitted results) (step : ClientCall) (hvalid : step.Valid)
      (hstep : P c step) :
      ClientRun P (step.apply c) (submitted ++ step.jobs) (results ++ step.loads c)

namespace ClientRole

variable {c : ClientRole} {submitted : List JobId} {results : List LoadResult}

/-- A new role has no loads. -/
theorem inv_new : Inv {} [] [] :=
  ⟨fun _ => iff_of_false not_mem_nil fun h => h rfl,
    fun _ => ⟨fun _ h => absurd rfl h, fun _ _ h => nomatch h⟩, rfl, nofun⟩

/-- Every call keeps the invariant, with the jobs it submits and those it reports. -/
theorem Inv.apply (h : c.Inv submitted results) {step : ClientCall} (hack : step.AcksExpected c) :
    (step.apply c).Inv (submitted ++ step.jobs) (results ++ step.loads c) := by
  -- all calls but two hand in no job and hand out no result
  have hsame : ∀ {c' : ClientRole}, c'.Inv submitted results →
      c'.Inv (submitted ++ []) (results ++ []) := by
    intro c' h'
    rwa [append_nil, append_nil]
  cases step with
  | requestBlocks jobId req keys blockIds now =>
    have h' := h.requestBlocks jobId req keys blockIds now
    rwa [← append_nil results] at h'
  | registerLookup req key => exact hsame h.registerLookup
  | flushPendingLookups sendReady now => exact hsame h.flushPendingLookups
  | finish req now => exact hsame h.finish
  | collectResults now =>
    obtain ⟨loads, hloads, hinv⟩ := h.collectResults now
    rw [ClientCall.loads, hloads]
    exact (append_nil _).symm ▸ hinv
  | onMessage msg now =>
    refine hsame ?_
    cases msg with
    | transferDone req success roundSeq =>
      exact h.onTransferDone
    | abortAck req roundSeq => exact h.onAbortAck hack
    | lookupResp req keys hits => exact h.onLookupResp
    | fetch _ _ _ _ => exact h
    | lookup _ _ _ => exact h
    | abortFetch _ _ => exact h

private theorem inv_of_run (run : ClientRun (fun c step => step.AcksExpected c) c submitted results) :
    c.Inv submitted results := by
  induction run with
  | new => exact inv_new
  | call _ step _ hack ih => exact ih.apply hack

end ClientRole

/-- In every state of a run without unexpected `AbortAck`s, polls do not raise, every job handed in
has been reported or is reported by `close`, once, and `close` leaves every event that was handed
out set. -/
theorem ClientRun.loads_reported_once {c : ClientRole} {submitted : List JobId}
    {results : List LoadResult}
    (run : ClientRun (fun c step => step.AcksExpected c) c submitted results) :
    (∀ now, ∃ loads, (c.collectResults now).1 = .ok loads) ∧
      (results.map LoadResult.jobId ++ c.close.1.failedJobs).Perm submitted ∧
      ∀ result ∈ results, ∀ event, result.deferredRelease = some event →
        event ∈ c.close.2.released := by
  have hinv := ClientRole.inv_of_run run
  refine ⟨fun now => ?_, hinv.close.1, fun result hresult event hevent => ?_⟩
  · obtain ⟨loads, hloads, -⟩ := hinv.collectResults now
    exact ⟨loads, hloads⟩
  · exact hinv.close.2 event (mem_filterMap.mpr ⟨result, hresult, hevent⟩)

/-- A load that times out, then is acknowledged: it was reported with an event, and the event is
set. -/
theorem ClientRun.loads_reported_once_timeout :
    ∃ c : ClientRole, ClientRun (fun c step => step.AcksExpected c) c [7]
        [⟨7, "r", false, some 0⟩] ∧ c.released = [0] ∧ ([7] ++ c.close.1.failedJobs).Perm [7] := by
  let steps : ClientRun (fun c step => step.AcksExpected c) _ _ _ :=
    (((new.call (.requestBlocks 7 "r" [] [] 0) trivial trivial).call
      (.collectResults 30000) trivial trivial).call (.onMessage (.abortAck "r" 0) 30001) trivial
        (fun load hload => by cases hload; decide))
  exact ⟨_, steps, by decide, (loads_reported_once steps).2.1⟩

/-- An acknowledgement for a load that was not aborted: the load is gone, its job is never reported,
and the next poll raises. -/
theorem ClientRun.abortAck_loses_load : ∃ c : ClientRole, ClientRun (fun _ _ => True) c [7] [] ∧
      (c.collectResults 1).1 = .error .assertionError ∧ c.close.1.failedJobs = [] := by
  refine ⟨_, (new.call (.requestBlocks 7 "r" [] [] 0) trivial trivial).call
    (.onMessage (.abortAck "r" 0) 1) trivial trivial, ?_, ?_⟩
  · decide
  · decide

end Sonar.P2P
