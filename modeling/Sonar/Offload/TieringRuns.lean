import Sonar.Offload.ARCPolicy
import Sonar.Offload.Cascades
import Sonar.Offload.LRUPolicy

/-!
# Runs of the tiering manager

A run is any sequence of calls that keeps to the contract of the manager: request ids are used once, a
request is looked up and stored between its beginning and its end, only keys that are ready are read, the GPU
completes the transfers it was given, and a tier reports the jobs it was given, each once. A request
has an origin: the tier that serves it for a peer, or none if it is a request of this engine.

Every call keeps the invariant and has one of few effects on the requests (`Inv.next`). In every state of a
run the chunks are `Owned`.
-/

namespace Sonar.Offload

open Lib Returns List TieringOffloadingManager
open P2P (OffloadKey JobId)
open Multiset (coe_add coe_eq_coe coe_nil mem_add)

/-- A transfer between the GPU and the primary tier. -/
structure Transfer where
  keys : List OffloadKey
  chunkIds : List ℕ
  ctx : ReqContext

/-- The chunks a transfer uses. -/
def Transfer.users (t : Transfer) : List User := t.keys.zip t.chunkIds

open Transfer (users)

/-- The manager, the transfers that the GPU has not completed, and the requests there have been. -/
structure TieringState (π : Type) where
  manager : TieringOffloadingManager π
  loads : List Transfer := []
  stores : List Transfer := []
  opened : List String := []

/-- The calls of the manager, with what the tiers answer. A transfer is named by its position. -/
inductive TieringCall where
  | newRequest (answers : TierAnswers) (ctx : ReqContext)
  | lookup (answers : TierAnswers) (key : OffloadKey) (ctx : ReqContext)
  | prepareLoad (keys : List OffloadKey) (ctx : ReqContext)
  | completeLoad (i : ℕ)
  | prepareStore (answers : TierAnswers) (keys : List OffloadKey) (ctx : ReqContext)
  | completeStore (answers : TierAnswers) (i : ℕ) (success : Bool)
  | createStoreJob (keys : List OffloadKey) (ctx : ReqContext) (tierIdx : ℕ)
  | requestFinished (ctx : ReqContext)
  | pollTiers (answers : TierAnswers)
  | restoreGate (gate : Bool)
  | scheduleEndPoll (answers : TierAnswers)
  | scheduleEndFlush (answers : TierAnswers)

/-- The call begins a request. -/
def TieringCall.isNew : TieringCall → Bool
  | .newRequest _ _ => true
  | _ => false

namespace TieringState

variable {π : Type} [CachePolicy π]

/-- The state after a call, which may have raised. -/
def next (origin : String → Option ℕ) (s : TieringState π) : TieringCall → TieringState π
  | .newRequest answers ctx =>
    { s with
      manager := ((onNewRequest answers ctx (origin ctx.reqId)).run.run s.manager).2
      opened := s.opened ++ [ctx.reqId] }
  | .lookup answers key ctx =>
    { s with manager :=
      ((lookup answers key ctx (origin ctx.reqId)).run.run s.manager).2 }
  | .prepareLoad keys ctx =>
    match (prepareLoad keys ctx).run.run s.manager with
    | (.ok chunkIds, manager) => { s with manager, loads := s.loads ++ [⟨keys, chunkIds, ctx⟩] }
    | (.error _, manager) => { s with manager }
  | .completeLoad i =>
    match s.loads[i]? with
    | none => s
    | some t =>
      { s with
        manager := ((completeLoad t.keys).run.run s.manager).2
        loads := s.loads.eraseIdx i }
  | .prepareStore answers keys ctx =>
    match (prepareStore answers keys ctx).run.run s.manager with
    | (.ok (some out), manager) =>
      if out.keysToStore = [] then { s with manager }
      else { s with manager, stores := s.stores ++ [⟨out.keysToStore, out.storeSpec, ctx⟩] }
    | (_, manager) => { s with manager }
  | .completeStore answers i success =>
    match s.stores[i]? with
    | none => s
    | some t =>
      { s with
        manager := ((completeStore answers t.keys t.ctx success).run.run s.manager).2
        stores := s.stores.eraseIdx i }
  | .createStoreJob keys ctx tierIdx =>
    { s with manager := ((createStoreJob keys ctx tierIdx).run.run s.manager).2 }
  | .requestFinished ctx =>
    { s with manager :=
      ((onRequestFinished ctx (origin ctx.reqId)).run.run s.manager).2 }
  | .pollTiers answers =>
    { s with manager := ((pollTiers answers).run.run s.manager).2 }
  | .restoreGate gate =>
    { s with manager := ((restoreGate gate).run.run s.manager).2 }
  | .scheduleEndPoll answers =>
    { s with manager := ((onScheduleEndPoll answers).run.run s.manager).2 }
  | .scheduleEndFlush answers =>
    { s with manager := ((onScheduleEndFlush answers).run.run s.manager).2 }

variable (s : TieringState π)

/-- The request has begun and was not finished. -/
def Running (reqId : String) : Prop :=
  ∃ state, s.manager.reqState.get? reqId = some state ∧ state.isFinished = false

/-- The keys can be read. -/
def Ready (keys : List OffloadKey) : Prop :=
  ∀ k ∈ keys, s.manager.primaryTier.cpu.lookup k = .hit

/-- What the tiers report if the call polls them. -/
def Polls (answers : TierAnswers) : Prop :=
  s.manager.processedJobsThisStep = false → s.manager.Reported answers s.manager.tierIndexes

/-- The contract of a call. -/
def Allowed (origin : String → Option ℕ) (s : TieringState π) : TieringCall → Prop
  | .newRequest _ ctx => ctx.reqId ∉ s.opened
  | .lookup answers _ ctx => s.Running ctx.reqId ∧ s.Polls answers
  | .prepareLoad keys ctx => s.Ready keys ∧ s.manager.primaryTier.cpu.Live ctx
  | .completeLoad i => i < s.loads.length
  | .prepareStore answers keys ctx => keys.Nodup ∧ s.Running ctx.reqId ∧ origin ctx.reqId = none ∧
      s.manager.Reported answers s.manager.tierIndexes
  | .completeStore _ i _ => i < s.stores.length
  | .createStoreJob keys _ _ => s.Ready keys
  | .requestFinished ctx => s.Running ctx.reqId
  | .pollTiers answers => s.manager.Reported answers s.manager.polledTiers
  | .restoreGate _ => True
  | .scheduleEndPoll answers => s.Polls answers
  | .scheduleEndFlush _ => True

/-- The states of the runs whose calls all satisfy a condition. -/
inductive Reaches (origin : String → Option ℕ) (ok : TieringState π → TieringCall → Prop)
    (start : TieringState π) : TieringState π → Prop
  | start : Reaches origin ok start start
  | call {s : TieringState π} (call : TieringCall) (hs : Reaches origin ok start s) (hok : ok s call) :
      Reaches origin ok start (s.next origin call)

/-- The manager at the beginning: nothing is stored, and there are any tiers. -/
def new (numChunks : ℕ) (enableEvents : Bool) (storeThreshold maxTrackerSize : ℕ)
    (secondaryTiers : List SecondaryTier) (promotionsHeld : Bool) : TieringState π where
  manager :=
    { primaryTier := { cpu := CPUOffloadingManager.new numChunks enableEvents storeThreshold maxTrackerSize }
      secondaryTiers
      promotionsHeld }

/-! ### The invariant of runs -/

/-- The call closes the request. -/
def Closes (reqId : String) : TieringCall → Prop
  | .completeStore _ i _ => ∃ t state, s.stores[i]? = some t ∧ t.ctx.reqId = reqId ∧
      s.manager.reqState.get? reqId = some state ∧
      RequestState.waits { state with pendingPrimaryStores := state.pendingPrimaryStores - 1 } = false
  | .requestFinished ctx => ctx.reqId = reqId ∧ ∃ state, s.manager.reqState.get? reqId = some state ∧
      RequestState.waits { state with isFinished := true } = false
  | _ => False

/-- What a call can do to the protocol of requests. -/
inductive Effect (origin : String → Option ℕ) (s : TieringState π) (call : TieringCall)
    (m' : TieringOffloadingManager π) : Prop
  | quiet (hold : call.isNew = false) (h : s.manager.Quiet m')
  | opens (answers : TierAnswers) (ctx : ReqContext) (hcall : call = .newRequest answers ctx)
      (h : s.manager.Opens origin ctx m')
  | queues (r : String) (hold : call.isNew = false) (hopen : s.manager.reqState.get? r ≠ none)
      (h : Queues r s.manager m')
  | serves (r : String) (hold : call.isNew = false)
      (h : Serves origin r s.manager m')
      (hcloses : m'.reqState.get? r = none → s.Closes r call)
  | flushes (m1 : TieringOffloadingManager π) (hold : call.isNew = false) (h : s.manager.Flushes m1)
      (hserves : Relation.ReflTransGen
        (fun m1 m2 => ∃ r, Serves origin r m1 m2) m1 m')

variable {origin : String → Option ℕ} {s : TieringState π} {call : TieringCall}
  {m' : TieringOffloadingManager π} {i : ℕ} {keys : List OffloadKey} {answers : TierAnswers}
  {ok : TieringState π → TieringCall → Prop} {start : TieringState π}

/-- Only new requests open. -/
theorem opened_next (hold : call.isNew = false) : (s.next origin call).opened = s.opened := by
  cases call with
  | newRequest answers ctx => cases hold
  | prepareLoad keys ctx => simp only [next]; split <;> rfl
  | completeLoad i => simp only [next]; split <;> rfl
  | prepareStore answers keys ctx =>
    simp only [next]
    split
    · split_ifs <;> rfl
    · rfl
  | completeStore answers i success => simp only [next]; split <;> rfl
  | _ => rfl

private theorem next_eq {α : Type} {f : TieringM π α} {a : α}
    (hnext : s.next origin call = { s with manager := (f.run.run s.manager).2 })
    (hrun : f.run.run s.manager = (.ok a, m')) : s.next origin call = { s with manager := m' } := by
  rw [hnext, hrun]

/-- The state after the calls of a run. -/
def after (origin : String → Option ℕ) (s : TieringState π) (calls : List TieringCall) : TieringState π :=
  calls.foldl (next origin) s

/-- One more call. -/
theorem Reaches.after
    {calls : List TieringCall} (h : Reaches origin ok start (start.after origin calls))
    (call : TieringCall) (hok : ok (start.after origin calls) call) :
    Reaches origin ok start (start.after origin (calls ++ [call])) := by
  rw [TieringState.after, foldl_append]
  exact .call call h hok

variable [LawfulPolicy π]

/-- What holds in every state of a run. -/
structure Inv (origin : String → Option ℕ) (s : TieringState π) : Prop where
  ledger : s.manager.Inv (s.loads.flatMap users : List User)
    (s.stores.flatMap users : List User)
  requests : Requests origin s.manager.reqState (s.stores.map fun t => t.ctx.reqId : List String)
  loads : ∀ t ∈ s.loads, t.chunkIds.length = t.keys.length
  stores : ∀ t ∈ s.stores, t.chunkIds.length = t.keys.length
  opened : ∀ r, s.manager.reqState.get? r ≠ none → r ∈ s.opened

omit [CachePolicy π] [LawfulPolicy π] in
/-- A request is open only if it was, or if it is new. -/
private theorem Effect.isOpen {r : String} (h : Effect origin s call m')
    (hopen : m'.reqState.get? r ≠ none) :
    s.manager.reqState.get? r ≠ none ∨ ∃ answers ctx, call = .newRequest answers ctx ∧ ctx.reqId = r := by
  have hserves : ∀ {r' m1 m2}, Serves (π := π) origin r' m1 m2 →
      m2.reqState.get? r ≠ none → m1.reqState.get? r ≠ none := by
    intro r' m1 m2 h12 hopen2
    by_cases hr : r = r'
    · exact hr ▸ h12.isOpen
    · exact h12.others r hr ▸ hopen2
  cases h with
  | quiet _ h => exact .inl (h.reqState ▸ hopen)
  | opens answers ctx hcall h =>
    by_cases hr : r = ctx.reqId
    · exact .inr ⟨answers, ctx, hcall, hr.symm⟩
    · exact .inl (h.others r hr ▸ hopen)
  | queues _ _ _ h => exact .inl (h.reqState ▸ hopen)
  | serves r' _ h _ => exact .inl (hserves h hopen)
  | flushes m1 _ h hsteps =>
    left
    rw [← h.reqState]
    induction hsteps with
    | refl => exact hopen
    | tail _ hstep ih =>
      obtain ⟨r', hstep⟩ := hstep
      exact ih (hserves hstep hopen)

private theorem users_eraseIdx {l : List Transfer} {t : Transfer} (h : l[i]? = some t) :
    ((l.flatMap users)) =
      ((l.eraseIdx i).flatMap users) + (t.users : Multiset User) := by
  obtain ⟨hi, rfl⟩ := List.getElem?_eq_some_iff.mp h
  rw [coe_eq_coe.mpr ((getElem_cons_eraseIdx_perm hi).flatMap_right _).symm,
    flatMap_cons, ← coe_add, add_comm]

private theorem reqIds_eraseIdx {l : List Transfer} {t : Transfer} (h : l[i]? = some t) :
    ((l.map fun t => t.ctx.reqId) : Multiset String) =
      ((l.eraseIdx i).map fun t => t.ctx.reqId) + {t.ctx.reqId} := by
  obtain ⟨hi, rfl⟩ := List.getElem?_eq_some_iff.mp h
  rw [coe_eq_coe.mpr ((getElem_cons_eraseIdx_perm hi).map _).symm, map_cons,
    ← Multiset.cons_coe, ← Multiset.singleton_add, add_comm]

/-- What has to be shown of a call, apart from the requests it opens. -/
structure Kept (origin : String → Option ℕ) (s s' : TieringState π) (call : TieringCall) : Prop where
  ledger : s'.manager.Inv (s'.loads.flatMap users : List User)
    (s'.stores.flatMap users : List User)
  requests : Requests origin s'.manager.reqState (s'.stores.map fun t => t.ctx.reqId : List String)
  loads : ∀ t ∈ s'.loads, t.chunkIds.length = t.keys.length
  stores : ∀ t ∈ s'.stores, t.chunkIds.length = t.keys.length
  effect : Effect origin s call s'.manager

section

variable (h : s.Inv origin)

include h

/-- A call that leaves the transfers and the requests as they are. -/
theorem Inv.kept (hledger : m'.Inv (s.loads.flatMap users)
      (s.stores.flatMap users))
    (hrequests : m'.reqState = s.manager.reqState) (heffect : Effect origin s call m') :
    Kept origin s { s with manager := m' } call :=
  ⟨hledger, hrequests ▸ h.requests, h.loads, h.stores, heffect⟩

private theorem Inv.kept_prepareLoad {ctx : ReqContext}
    (hallowed : s.Allowed origin (.prepareLoad keys ctx)) :
    Kept origin s (s.next origin (.prepareLoad keys ctx)) (.prepareLoad keys ctx) := by
  obtain ⟨hready, hlive⟩ := hallowed
  obtain ⟨ids, m', hrun, hlen, h', -, p, rfl⟩ := h.ledger.beginReads hready fun _ : true = true => hlive
  have hnext : s.next origin (.prepareLoad keys ctx) =
      { s with manager := { s.manager with primaryTier := p }, loads := s.loads ++ [⟨keys, ids, ctx⟩] } := by
    rw [next, prepareLoad, CPUOffloadingManager.prepareLoad, hrun]
  rw [hnext]
  refine ⟨?_, h.requests, fun t ht => ?_, h.stores, .quiet rfl (Quiet.primary _ _)⟩
  · rw [flatMap_append, flatMap_singleton]
    exact h'
  · rcases mem_append.mp ht with hold | hnew
    · exact h.loads t hold
    · rw [mem_singleton.mp hnew]
      exact hlen

private theorem Inv.kept_completeLoad (hi : i < s.loads.length) :
    Kept origin s (s.next origin (.completeLoad i)) (.completeLoad i) := by
  have hget : s.loads[i]? = some s.loads[i] := getElem?_eq_getElem hi
  generalize s.loads[i] = t at hget
  have hlen := h.loads t (mem_of_getElem? hget)
  have hledger := h.ledger
  rw [users_eraseIdx hget] at hledger
  have hread := hledger.endReads
  rw [users, users_keys hlen] at hread
  obtain ⟨_, m', hrun, h', p, rfl⟩ := hread
  have hnext : s.next origin (.completeLoad i) =
      { s with manager := { s.manager with primaryTier := p }, loads := s.loads.eraseIdx i } := by
    rw [next, hget]
    dsimp only [completeLoad]
    rw [hrun]
  rw [hnext]
  exact ⟨h', h.requests, fun t ht => h.loads t (mem_of_mem_eraseIdx ht), h.stores,
    .quiet rfl (Quiet.primary _ _)⟩

private theorem Inv.kept_prepareStore {ctx : ReqContext} (hallowed : s.Allowed origin (.prepareStore answers keys ctx)) :
    Kept origin s (s.next origin (.prepareStore answers keys ctx)) (.prepareStore answers keys ctx) := by
  obtain ⟨hnodup, ⟨state, hget, hunfinished⟩, horigin, hreported⟩ := hallowed
  have hstore := h.ledger.prepareStore h.requests hnodup hget hunfinished horigin hreported
  rw [Ends] at hstore
  rw [next]
  generalize (prepareStore answers keys ctx).run.run s.manager = result
    at hstore ⊢
  obtain ⟨_ | _ | out, m'⟩ := result
  · exact h.kept hstore.1 hstore.2.reqState (.quiet rfl hstore.2)
  · exact h.kept hstore.1 hstore.2.reqState (.quiet rfl hstore.2)
  · obtain ⟨h', hlen, hrequests, hserves, hopen⟩ := hstore
    have heffect : Effect origin s (.prepareStore answers keys ctx) m' :=
      .serves _ rfl hserves fun hnone => absurd hnone hopen
    rw [admittedStore] at hrequests
    dsimp only
    split_ifs at hrequests ⊢ with hempty
    · rw [hempty, zip_nil_left, coe_nil, add_zero] at h'
      rw [add_zero] at hrequests
      exact ⟨h', hrequests, h.loads, h.stores, heffect⟩
    · refine ⟨?_, ?_, h.loads, fun t ht => ?_, heffect⟩
      · rw [flatMap_append, flatMap_singleton]
        exact h'
      · rw [map_append]
        exact hrequests
      · rcases mem_append.mp ht with hold | hnew
        · exact h.stores t hold
        · rw [mem_singleton.mp hnew]
          exact hlen

private theorem Inv.kept_completeStore {success : Bool} (hi : i < s.stores.length) :
    Kept origin s (s.next origin (.completeStore answers i success))
      (.completeStore answers i success) := by
  have hget : s.stores[i]? = some s.stores[i] := getElem?_eq_getElem hi
  generalize s.stores[i] = t at hget
  have hlen := h.stores t (mem_of_getElem? hget)
  have hledger := h.ledger
  have hrequests := h.requests
  rw [users_eraseIdx hget] at hledger
  rw [reqIds_eraseIdx hget] at hrequests
  have hstore := hledger.completeStore hrequests answers success
  rw [users, users_keys hlen] at hstore
  obtain ⟨_, m', hrun, h', hrequests', hserves, hcloses⟩ := hstore
  have hnext : s.next origin (.completeStore answers i success) =
      { s with manager := m', stores := s.stores.eraseIdx i } := by
    rw [next, hget]
    dsimp only
    rw [hrun]
  rw [hnext]
  refine ⟨h', hrequests', h.loads, fun t ht => h.stores t (mem_of_mem_eraseIdx ht),
    .serves _ rfl hserves fun hnone => ?_⟩
  obtain ⟨state, hstate, hwaits⟩ := hcloses hnone
  exact ⟨t, state, hget, rfl, hstate, hwaits⟩

/-- Every call of a run keeps the invariant, and has one of the effects. -/
private theorem Inv.kept_next (hallowed : s.Allowed origin call) :
    Kept origin s (s.next origin call) call := by
  -- A call that polls the tiers or reads keys is quiet.
  have hquiet : ∀ {α : Type} {f : TieringM π α}, call.isNew = false →
      s.next origin call = { s with manager := (f.run.run s.manager).2 } →
      Returns f s.manager (fun _ m' => m'.Inv (s.loads.flatMap users)
        (s.stores.flatMap users) ∧ s.manager.Quiet m') →
      Kept origin s (s.next origin call) call := by
    rintro α f hold hnext ⟨a, m', hrun, h', hquiet⟩
    rw [next_eq hnext hrun]
    exact h.kept h' hquiet.reqState (.quiet hold hquiet)
  cases call with
  | newRequest answers ctx =>
    have hnew : s.manager.reqState.get? ctx.reqId = none := by
      by_contra hopen
      exact hallowed (h.opened _ hopen)
    obtain ⟨_, m', hrun, h', hrequests, hopens⟩ := h.ledger.onNewRequest h.requests hnew answers
    have hnext : s.next origin (.newRequest answers ctx) =
        { s with manager := m', opened := s.opened ++ [ctx.reqId] } := by
      rw [next, hrun]
    rw [hnext]
    exact ⟨h', hrequests, h.loads, h.stores, .opens answers ctx rfl hopens⟩
  | lookup answers key ctx =>
    obtain ⟨⟨state, hget, -⟩, hpolls⟩ := hallowed
    obtain ⟨h', hqueues⟩ := (h.ledger.lookup key ctx _ hpolls).state
    exact h.kept h' hqueues.reqState (.queues _ rfl (hget ▸ Option.some_ne_none state) hqueues)
  | prepareLoad keys ctx => exact h.kept_prepareLoad hallowed
  | completeLoad i => exact h.kept_completeLoad hallowed
  | prepareStore answers keys ctx => exact h.kept_prepareStore hallowed
  | completeStore answers i success => exact h.kept_completeStore hallowed
  | createStoreJob keys ctx tierIdx =>
    exact hquiet rfl rfl ((h.ledger.createStoreJob hallowed).mono fun _ _ hm' =>
      ⟨hm'.2.1, hm'.2.2.1⟩)
  | requestFinished ctx =>
    obtain ⟨state, hget, -⟩ := hallowed
    obtain ⟨_, m', hrun, h', hrequests, hserves, hcloses⟩ :=
      h.ledger.onRequestFinished h.requests (hget ▸ Option.some_ne_none state)
    rw [next_eq rfl hrun]
    exact ⟨h', hrequests, h.loads, h.stores, .serves _ rfl hserves fun hnone => ⟨rfl, hcloses hnone⟩⟩
  | pollTiers answers =>
    refine hquiet rfl rfl ?_
    rw [pollTiers, bind_iff, modify_iff, bind_iff, get_iff]
    refine ((h.ledger.gate true).processFinishedJobs (nodup_range.filter _)
      ⟨hallowed.once, hallowed.reports⟩).mono fun _ m' hm' => ⟨hm'.1, ?_⟩
    exact ⟨hm'.2.1, hm'.2.2, hm'.2.3, hm'.2.4⟩
  | restoreGate gate =>
    exact hquiet rfl rfl (modify_iff.mpr ⟨h.ledger.gate gate, rfl, rfl, rfl, rfl⟩)
  | scheduleEndPoll answers => exact hquiet rfl rfl (h.ledger.maybeProcessFinishedJobs hallowed)
  | scheduleEndFlush answers =>
    have hflush : Returns (onScheduleEndFlush answers) s.manager fun _ m' =>
        m'.Inv (s.loads.flatMap users)
          (s.stores.flatMap users) ∧
        Requests origin m'.reqState (s.stores.map fun t => t.ctx.reqId) ∧
        Effect origin s (.scheduleEndFlush answers) m' := by
      rw [onScheduleEndFlush, bind_iff, modify_iff, bind_iff]
      refine (h.ledger.gate false).flushPendingPromotions.mono ?_
      rintro _ m1 ⟨h1, hflushes⟩
      refine (h1.flushPendingCascades (hflushes.reqState ▸ h.requests)).mono ?_
      rintro _ m' ⟨h', hrequests, hserves⟩
      exact ⟨h', hrequests, .flushes m1 rfl ⟨hflushes.1, hflushes.2, hflushes.3, hflushes.4⟩ hserves⟩
    obtain ⟨_, m', hrun, h', hrequests, heffect⟩ := hflush
    rw [next_eq rfl hrun]
    exact ⟨h', hrequests, h.loads, h.stores, heffect⟩

/-- Every allowed call keeps the invariant and has its documented effect. -/
theorem Inv.next (hallowed : s.Allowed origin call) :
    (s.next origin call).Inv origin ∧ Effect origin s call (s.next origin call).manager := by
  obtain ⟨hledger, hrequests, hloads, hstores, heffect⟩ := h.kept_next hallowed
  refine ⟨⟨hledger, hrequests, hloads, hstores, fun r hopen => ?_⟩, heffect⟩
  rcases heffect.isOpen hopen with hold | ⟨answers, ctx, rfl, rfl⟩
  · have hmem := h.opened r hold
    cases hnew : call.isNew with
    | false => rwa [opened_next hnew]
    | true =>
      cases call with
      | newRequest answers ctx => exact mem_append_left _ hmem
      | _ => cases hnew
  · exact mem_append_right _ (.head _)

end

/-- A new manager has no requests and no jobs. -/
theorem inv_new {numChunks : ℕ} {enableEvents : Bool} {storeThreshold maxTrackerSize : ℕ}
    {secondaryTiers : List SecondaryTier} {promotionsHeld : Bool} :
    (new numChunks enableEvents storeThreshold maxTrackerSize secondaryTiers promotionsHeld :
      TieringState π).Inv origin := by
  refine ⟨⟨⟨rfl, ∅, CPUOffloadingManager.inv_new _ _ _ _, rfl, rfl⟩, fun _ _ hj => (nomatch hj),
    fun _ _ _ _ hi => (nomatch hi), fun _ _ hj => (nomatch hj), rfl⟩, ?_, fun _ ht => (nomatch ht),
    fun _ ht => (nomatch ht), fun r hopen => absurd rfl hopen⟩
  exact ⟨fun _ _ hr => (nomatch hr), fun _ _ hr => (nomatch hr), fun _ _ hr => (nomatch hr),
    fun _ => rfl, fun _ hr => absurd hr (Multiset.notMem_zero _)⟩

private theorem Reaches.inv (hstart : start.Inv origin) (hok : ∀ s call, ok s call → s.Allowed origin call)
    (h : Reaches origin ok start s) : s.Inv origin := by
  induction h with
  | start => exact hstart
  | call call _ hcall ih => exact (ih.next (hok _ call hcall)).1

/-! ### Who owns the chunks -/

/-- The readers that are not finished: stores that the tiers have and have not reported, and loads of the
GPU. -/
def readers (s : TieringState π) : Multiset User :=
  jobUsers s.manager.running false + (s.loads.flatMap users : List User)

/-- The writes that are not finished: loads that the tiers have and have not reported, promotions that are
queued, and stores of the GPU. -/
def writers (s : TieringState π) : Multiset User :=
  jobUsers s.manager.running true + pendingUsers s.manager.pendingLoadSubmissions +
    (s.stores.flatMap users : List User)

/-- A chunk that is used belongs to its key and is not free, a chunk with a deferred release is neither
free nor resident, and the reference counts are those of the users. -/
structure Owned (s : TieringState π) : Prop where
  used : ∀ key chunkId, (key, chunkId) ∈ s.readers + s.writers →
    (∃ c, CachePolicy.get s.manager.primaryTier.cpu.policy key = some c ∧ c.chunkId = chunkId) ∧
    chunkId ∉ s.manager.primaryTier.cpu.freeList ∧
    ∀ k c, CachePolicy.get s.manager.primaryTier.cpu.policy k = some c → c.chunkId = chunkId → k = key
  deferred : ∀ chunkId ∈ heldIds s.manager.deferredReleases,
    chunkId ∉ s.manager.primaryTier.cpu.freeList ∧
    ∀ k c, CachePolicy.get s.manager.primaryTier.cpu.policy k = some c → c.chunkId ≠ chunkId
  refCnt : ∀ k c, CachePolicy.get s.manager.primaryTier.cpu.policy k = some c →
    c.refCnt = -1 ∧ s.writers.count (k, c.chunkId) = 1 ∧ s.readers.count (k, c.chunkId) = 0 ∨
    c.refCnt = s.readers.count (k, c.chunkId) ∧ s.writers.count (k, c.chunkId) = 0

private theorem Inv.owned (h : s.Inv origin) : s.Owned := by
  obtain ⟨-, d, hinv, hledger⟩ := h.ledger.uses
  rw [← h.ledger.running] at hledger
  change Ledger d s.readers s.writers at hledger
  refine ⟨fun key chunkId huser => ?_, fun chunkId hheld => ?_, fun k c hc => ?_⟩
  · have hc : ∃ c, d.get? key = some c ∧ c.chunkId = chunkId := by
      rcases mem_add.mp huser with hreader | hwriter
      · obtain ⟨c, hc, hid, -⟩ := hledger.of_reader hreader
        exact ⟨c, hc, hid⟩
      · exact ⟨_, hledger.of_writer hwriter, rfl⟩
    obtain ⟨c, hc, rfl⟩ := hc
    refine ⟨⟨c, (hinv.get_eq key).trans hc, rfl⟩, (hinv.id_notMem hc).1, fun k c' hc' hid => ?_⟩
    exact hinv.id_unique hc ((hinv.get_eq k).symm.trans hc') hid
  · obtain ⟨hleft, -, -⟩ := Multiset.nodup_add.mp hinv.nodup_ids
    obtain ⟨-, -, hdisjoint⟩ := Multiset.nodup_add.mp hleft
    refine ⟨fun hfree => Multiset.disjoint_left.mp hdisjoint hfree hheld, ?_⟩
    rintro k c hc rfl
    exact (hinv.id_notMem ((hinv.get_eq k).symm.trans hc)).2 hheld
  · rw [hinv.get_eq] at hc
    have hreaders := hledger.count_readers hc
    have hwriters := hledger.count_writers hc
    have hrefs := hinv.refs k c hc
    by_cases hpending : c.refCnt = -1
    · left
      rw [hwriters, hreaders, hpending]
      exact ⟨rfl, rfl, rfl⟩
    · right
      rw [hwriters, if_neg hpending, hreaders]
      exact ⟨(Int.toNat_of_nonneg (by omega)).symm, rfl⟩

omit [LawfulPolicy π] in
/-- A count is that of the readers, so it fits while there are fewer than `2 ^ 31`. -/
theorem Owned.fitsInt32 (h : s.Owned) (hreaders : s.readers.card < 2 ^ 31) {k : OffloadKey}
    {c : ChunkStatus} (hc : CachePolicy.get s.manager.primaryTier.cpu.policy k = some c) :
    c.FitsInt32 := by
  have hcount := Multiset.count_le_card (k, c.chunkId) s.readers
  rcases h.refCnt k c hc with ⟨href, -, -⟩ | ⟨href, -⟩
  · exact ChunkStatus.fitsInt32 href.ge (by omega)
  · exact ChunkStatus.fitsInt32 (by omega) (by omega)

/-- In every state of every run, with the LRU policy and with the ARC policy, a chunk that a promotion, a
cascade, a transfer of the GPU or a deferred release uses is not free and belongs to no other key,
and the reference counts are those of the users. -/
theorem runs_owned (origin : String → Option ℕ) (numChunks : ℕ) (enableEvents : Bool)
    (storeThreshold maxTrackerSize : ℕ) (secondaryTiers : List SecondaryTier) (promotionsHeld : Bool) :
    (∀ s : TieringState LRUCachePolicy, Reaches origin (Allowed origin)
      (new numChunks enableEvents storeThreshold maxTrackerSize secondaryTiers promotionsHeld) s →
      s.Owned) ∧
    ∀ (F : Type) [FloatOps F] (s : TieringState (ARCCachePolicy F)), Reaches origin (Allowed origin)
      (new numChunks enableEvents storeThreshold maxTrackerSize secondaryTiers promotionsHeld) s →
      s.Owned :=
  ⟨fun _ h => (h.inv inv_new fun _ _ hallowed => hallowed).owned,
    fun _ _ _ h => (h.inv inv_new fun _ _ hallowed => hallowed).owned⟩

omit [CachePolicy π] [LawfulPolicy π] in
/-- Tiers that report nothing. -/
theorem reported_nil {m : TieringOffloadingManager π} {tiers : List ℕ}
    (h : ∀ i, answers.finishedJobs i = []) : m.Reported answers tiers := by
  refine ⟨fun i _ => ?_, fun i _ result hresult => ?_⟩
  · rw [h i]
    exact nodup_nil
  · rw [h i] at hresult
    cases hresult

omit [CachePolicy π] [LawfulPolicy π] in
/-- A request that has not ended. -/
theorem running_of_map {r : String}
    (h : (s.manager.reqState.get? r).map RequestState.isFinished = some false) : s.Running r := by
  obtain ⟨state, hget, hfinished⟩ := Option.map_eq_some_iff.mp h
  exact ⟨state, hget, hfinished⟩

/-- A request whose key is on disk: the promotion is queued and submitted, and its read fails with a
release that is deferred. -/
theorem runs_owned_deferred : let ctx : ReqContext := { ident := 0, reqId := "r" }
    let start : TieringState LRUCachePolicy := new 1 false 0 64000 [⟨.disk, false⟩] false
    let failed : JobResult := { jobId := 0, success := false, deferredRelease := true }
    let s := start.after (fun _ => none) [.newRequest {} ctx, .lookup { lookup := fun _ => .hit } [1] ctx,
      .scheduleEndFlush {}, .scheduleEndPoll { finishedJobs := fun _ => [failed] }]
    Reaches (fun _ => none) (Allowed fun _ => none) start s ∧
      TieringOffloadingManager.heldIds s.manager.deferredReleases = {0} ∧
      s.manager.primaryTier.cpu.freeList = [] ∧ s.Owned := by
  intro ctx start failed s
  have hreaches : Reaches (fun _ => none) (Allowed fun _ => none) start s := by
    have h0 : Reaches (fun _ => none) (Allowed fun _ => none) start (start.after (fun _ => none) []) :=
      .start
    have h1 := h0.after (.newRequest {} ctx) not_mem_nil
    have h2 := h1.after (.lookup { lookup := fun _ => .hit } [1] ctx)
      ⟨running_of_map (by decide +kernel), fun _ => reported_nil fun _ => rfl⟩
    have h3 := h2.after (.scheduleEndFlush {}) trivial
    refine h3.after _ fun _ => ?_
    generalize hm : after _ start _ = s3
    have hjob : (s3.manager.running.get? 0).map (fun metadata => (metadata.tierIdx,
        metadata.transferJob.isPromotion, metadata.transferJob.keys)) = some (0, true, [[1]]) := by
      rw [← hm]
      decide +kernel
    have htiers : s3.manager.tierIndexes = [0] := by
      rw [← hm]
      decide +kernel
    obtain ⟨metadata, hget, heq⟩ := Option.map_eq_some_iff.mp hjob
    simp only [Prod.mk.injEq] at heq
    refine ⟨fun _ _ => nodup_singleton _, fun i hi result hresult => ?_⟩
    rw [htiers, mem_singleton] at hi
    rw [mem_singleton.mp hresult, hi]
    refine ⟨metadata, hget, heq.1, ⟨fun _ hkeys => (nomatch hkeys), fun _ => ⟨heq.2.1, rfl, [1], ?_⟩⟩⟩
    rw [heq.2.2]
    exact ⟨mem_cons_self, fun _ hkeys => (nomatch hkeys)⟩
  exact ⟨hreaches, by decide +kernel, by decide +kernel,
    (runs_owned (fun _ => none) 1 false 0 64000 [⟨.disk, false⟩] false).1 s hreaches⟩

end TieringState

end Sonar.Offload
