import Sonar.Offload.Promotions

/-!
# Stores, cascades and the end of requests

What is stored in the primary tier is cascaded to the secondary tiers: a store job of a tier reads the
chunks until the tier reports it. A request that is finished is closed as soon as none of its
stores is unfinished and none of its keys waits for a write; then every tier is told, but for the tier
it came from.

`Requests` is what holds of the requests between calls. Its parameters are the tier that each request
came from, if any, and the requests of the stores that the GPU has not completed.
-/

namespace Sonar.Offload

open Lib Returns List Dict RequestState
open P2P (OffloadKey JobId)
open Multiset (count_pos mem_add)

/-- Something has to happen before a request can be closed. -/
def RequestState.waits (state : RequestState) : Bool :=
  !state.isFinished || state.pendingPrimaryStores ≠ 0 || !state.pendingCascadeKeys.isEmpty

/-- The request a call is about. -/
def TierCall.reqId : TierCall → String
  | .onNewRequest ctx => ctx.reqId
  | .submitStore job => job.ctx.reqId
  | .submitLoad job => job.ctx.reqId
  | .onRequestFinished ctx => ctx.reqId

/-- The call submits a store of the request. -/
def StoreOf (reqId : String) (c : ℕ × TierCall) : Prop :=
  ∃ job, c.2 = .submitStore job ∧ job.ctx.reqId = reqId

namespace TieringOffloadingManager

variable {π : Type} {m m' : TieringOffloadingManager π} {readers writers : Multiset User}
  {keys : List OffloadKey} {reqId : String} {state : RequestState}
  {Q : PUnit → TieringOffloadingManager π → Prop}

/-! ### The state of a request -/

private theorem getReqState_iff
    {Q : RequestState → TieringOffloadingManager π → Prop} (hget : m.reqState.get? reqId = some state) :
    Returns (getReqState reqId) m Q ↔ Q state m := by
  rw [getReqState, bind_iff, get_iff, hget]
  exact pure_iff

private theorem setReqState_iff :
    Returns (setReqState reqId state) m Q ↔ Q ⟨⟩ { m with reqState := m.reqState.set reqId state } :=
  modify_iff

private theorem becomes_set {P : ℕ × TierCall → Prop} :
    Becomes (m.reqState.set reqId state) P m { m with reqState := m.reqState.set reqId state } :=
  ⟨rfl, rfl, rfl, [], (append_nil _).symm, nofun⟩

/-- A request that is changed twice is changed to what it became last. -/
theorem Becomes.reset {d : Dict String RequestState} {P : ℕ × TierCall → Prop} {r : String}
    {s s' : RequestState} {m'' : TieringOffloadingManager π} (h : Becomes (d.set r s) P m m')
    (h' : Becomes (m'.reqState.set r s') P m' m'') : Becomes (d.set r s') P m m'' := by
  have hboth := h.trans h'
  rwa [h.reqState, Dict.set_set] at hboth

/-- The state after a request is closed. -/
def closeRequest (m : TieringOffloadingManager π) (reqId : String) (ctx : ReqContext)
    (excludeTierIdx : Option ℕ) : TieringOffloadingManager π :=
  { m with
    tierCalls := m.tierCalls ++ (m.tierIndexes.filter fun i => some i ≠ excludeTierIdx).map
      fun i => (i, .onRequestFinished ctx)
    requestLoadSources := m.requestLoadSources.erase reqId
    reqState := m.reqState.erase reqId }

private theorem forAll_callTier_iff {call : TierCall} {tiers : List ℕ} :
    Returns (forAll (fun i => callTier i call) tiers) m Q ↔
      Q ⟨⟩ { m with tierCalls := m.tierCalls ++ tiers.map fun i => (i, call) } := by
  induction tiers generalizing m with
  | nil => rw [Lib.forAll, pure_iff, map_nil, append_nil]
  | cons i tiers ih =>
    rw [Lib.forAll, bind_iff, callTier, modify_iff, ih, map_cons, append_assoc, singleton_append]

private theorem maybeFinalizeRequest_iff {excludeTierIdx : Option ℕ}
    (hget : m.reqState.get? reqId = some state) :
    Returns (maybeFinalizeRequest reqId excludeTierIdx) m Q ↔
      Q ⟨⟩ (if state.waits then m else m.closeRequest reqId state.ctx excludeTierIdx) := by
  rw [maybeFinalizeRequest, bind_iff, getReqState_iff hget, waits]
  split_ifs
  · exact pure_iff
  · rw [bind_iff, get_iff, bind_iff, forAll_callTier_iff, modify_iff]
    rfl

/-! ### Cascades -/

variable [CachePolicy π] [LawfulPolicy π]

/-- Keys that are ready stay so. -/
def KeepsReady (m m' : TieringOffloadingManager π) : Prop :=
  ∀ k, m.primaryTier.cpu.lookup k = .hit → m'.primaryTier.cpu.lookup k = .hit

section

variable (h : m.Inv readers writers) (hready : ∀ k ∈ keys, m.primaryTier.cpu.lookup k = .hit)

include h hready

variable {ctx : ReqContext} {answers : TierAnswers}

/-- A store job reads chunks that can be read. -/
protected theorem Inv.createStoreJob {tierIdx : ℕ} :
    Returns (createStoreJob keys ctx tierIdx) m fun job m' => job.ctx = ctx ∧ m'.Inv readers writers ∧
      Quiet m m' ∧ KeepsReady m m' := by
  rw [createStoreJob, bind_iff]
  refine (h.beginReads hready fun hfalse : false = true => nomatch hfalse).mono ?_
  rintro ids m1 ⟨hlen, h1, hhit, p, rfl⟩
  rw [registerJob_iff, pure_iff]
  refine ⟨rfl, register ?_ hlen rfl, ⟨rfl, rfl, rfl, rfl⟩, hhit⟩
  rw [JobMetadata.usersOf, JobMetadata.usersOf, if_neg (by decide : ¬false = true), add_zero]
  exact h1

/-- A cascade to one tier: some keys are submitted, the others wait. -/
protected theorem Inv.cascadeTo {tierIdx : ℕ} :
    Returns (cascadeTo answers keys ctx tierIdx) m fun _ m' => m'.Inv readers writers ∧
      Becomes m.reqState (StoreOf ctx.reqId) m m' ∧ KeepsReady m m' := by
  rw [cascadeTo]
  split_ifs
  · rw [bind_iff]
    refine (h.createStoreJob hready).mono ?_
    rintro job m1 ⟨hctx, h1, hquiet, hhit⟩
    rw [callTier, modify_iff]
    refine ⟨h1.other ⟨rfl, rfl, rfl, rfl, rfl, rfl⟩, hquiet.becomes.keep ⟨rfl, rfl, rfl, _, rfl, ?_⟩, hhit⟩
    intro c hc
    rw [mem_singleton.mp hc]
    exact ⟨job, rfl, by rw [hctx]⟩
  · exact pure_iff.mpr ⟨h, Quiet.refl.becomes, fun _ hk => hk⟩

private theorem Inv.cascadeToAll {tiers : List ℕ} :
    Returns (forAll (cascadeTo answers keys ctx) tiers) m fun _ m' =>
      m'.Inv readers writers ∧ Becomes m.reqState (StoreOf ctx.reqId) m m' := by
  refine (forAll (P := fun _ m1 => m1.Inv readers writers ∧
    Becomes _ _ m m1 ∧ KeepsReady m m1) (fun i l m1 hP => ?_)
    ⟨h, Quiet.refl.becomes, fun _ hk => hk⟩).mono fun _ m' hm' => ⟨hm'.1, hm'.2.1⟩
  obtain ⟨h1, hlogs, hhit⟩ := hP
  refine (h1.cascadeTo (fun k hk => hhit k (hready k hk))).mono ?_
  rintro _ m2 ⟨h2, hlogs2, hhit2⟩
  exact ⟨h2, hlogs.keep hlogs2, fun k hk => hhit2 k (hhit k hk)⟩

end

/-- Keys that are ready are cascaded, and keys that are being written wait. -/
protected theorem Inv.cascadeExistingChunks {ctx : ReqContext} (h : m.Inv readers writers)
    (hget : m.reqState.get? ctx.reqId = some state) {answers : TierAnswers}
    {tiers : List ℕ} :
    Returns (cascadeExistingChunks answers keys ctx tiers) m fun _ m' => m'.Inv readers writers ∧
      ∃ waiting, Becomes (m.reqState.set ctx.reqId { state with
        pendingCascadeKeys := state.pendingCascadeKeys ++ waiting }) (StoreOf ctx.reqId) m m' := by
  rw [cascadeExistingChunks, bind_iff, getReqState_iff hget,
    bind_iff, get_iff, bind_iff, setReqState_iff]
  dsimp only
  split_ifs
  · exact pure_iff.mpr ⟨h.withReqState, _, becomes_set⟩
  · refine (h.withReqState.cascadeToAll (fun k hk => ?_)).mono ?_
    · exact of_decide_eq_true (mem_filter.mp hk).2
    · rintro _ m' ⟨h', hlogs⟩
      exact ⟨h', _, becomes_set.keep hlogs⟩

end TieringOffloadingManager

/-! ### The requests between calls -/

/-- What holds of the requests between calls, for the tiers they came from and the requests of the stores
that are not completed. -/
structure Requests (origin : String → Option ℕ) (reqState : Dict String RequestState)
    (stores : Multiset String) : Prop where
  ctx : ∀ r state, reqState.get? r = some state → state.ctx.reqId = r
  waits : ∀ r state, reqState.get? r = some state → state.waits = true
  cascading : ∀ r state, reqState.get? r = some state → state.pendingCascadeKeys ≠ [] →
    state.requestLevelTiers ≠ [] ∧ origin r = none
  counts : ∀ r, stores.count r = ((reqState.get? r).map pendingPrimaryStores).getD 0
  own : ∀ r ∈ stores, origin r = none

namespace Requests

variable {origin : String → Option ℕ} {reqState : Dict String RequestState} {stores : Multiset String}
  {r : String} {state : RequestState}

section

variable (h : Requests origin reqState stores)

include h

/-- The pending stores of an open request are counted in its state. -/
theorem count_eq (hget : reqState.get? r = some state) :
    stores.count r = state.pendingPrimaryStores := by
  rw [h.counts, hget]
  rfl

/-- A request is changed together with the stores of it that are not completed. -/
theorem put {stores' : Multiset String} (hctx : state.ctx.reqId = r) (hwaits : state.waits = true)
    (hcascading : state.pendingCascadeKeys ≠ [] → state.requestLevelTiers ≠ [] ∧ origin r = none)
    (hcount : stores'.count r = state.pendingPrimaryStores)
    (hothers : ∀ r', r' ≠ r → stores'.count r' = stores.count r')
    (hown : r ∈ stores' → origin r = none) : Requests origin (reqState.set r state) stores' := by
  -- Nothing is new about the other requests.
  have hget : ∀ r' state', (reqState.set r state).get? r' = some state' →
      r' = r ∧ state' = state ∨ reqState.get? r' = some state' := by
    intro r' state' hr'
    rw [get?_set] at hr'
    split_ifs at hr' with heq
    · exact .inl ⟨heq, (Option.some.inj hr').symm⟩
    · exact .inr hr'
  refine ⟨fun r' state' hr' => ?_, fun r' state' hr' => ?_, fun r' state' hr' => ?_, fun r' => ?_,
    fun r' hr' => ?_⟩
  · rcases hget r' state' hr' with ⟨rfl, rfl⟩ | hold
    · exact hctx
    · exact h.ctx r' state' hold
  · rcases hget r' state' hr' with ⟨rfl, rfl⟩ | hold
    · exact hwaits
    · exact h.waits r' state' hold
  · rcases hget r' state' hr' with ⟨rfl, rfl⟩ | hold
    · exact hcascading
    · exact h.cascading r' state' hold
  · rw [get?_set]
    split_ifs with heq
    · rw [heq, hcount]
      rfl
    · rw [hothers r' heq, h.counts]
  · by_cases heq : r' = r
    · exact heq ▸ hown (heq ▸ hr')
    · rw [← count_pos, hothers r' heq, count_pos] at hr'
      exact h.own r' hr'

/-- A request without stores may be closed. -/
theorem close {stores' : Multiset String}
    (hcount : stores'.count r = 0) (hothers : ∀ r', r' ≠ r → stores'.count r' = stores.count r') :
    Requests origin (reqState.erase r) stores' := by
  have hget : ∀ r' state', (reqState.erase r).get? r' = some state' →
      reqState.get? r' = some state' := by
    intro r' state' hr'
    rw [get?_erase] at hr'
    split_ifs at hr'
    exact hr'
  refine ⟨fun r' state' hr' => h.ctx r' state' (hget r' state' hr'),
    fun r' state' hr' => h.waits r' state' (hget r' state' hr'),
    fun r' state' hr' => h.cascading r' state' (hget r' state' hr'), fun r' => ?_, fun r' hr' => ?_⟩
  · rw [get?_erase]
    split_ifs with heq
    · rw [heq, hcount]
      rfl
    · rw [hothers r' heq, h.counts]
  · have hne : r' ≠ r := by
      rintro rfl
      exact absurd hcount (count_pos.mpr hr').ne'
    rw [← count_pos, hothers r' hne, count_pos] at hr'
    exact h.own r' hr'

end

end Requests

namespace TieringOffloadingManager

variable {π : Type} {m m' m1 : TieringOffloadingManager π} {readers writers : Multiset User}
  {origin : String → Option ℕ} {stores : Multiset String} {r : String} {state : RequestState}
  {ctx : ReqContext} {keys : List OffloadKey}

/-- A call serves a request: it submits stores of it, and the request stays open or is closed. -/
structure Serves (origin : String → Option ℕ) (r : String) (m m' : TieringOffloadingManager π) : Prop where
  isOpen : m.reqState.get? r ≠ none
  pending : m'.pendingLoadSubmissions = m.pendingLoadSubmissions
  secondaryTiers : m'.secondaryTiers = m.secondaryTiers
  others : ∀ r', r' ≠ r → m'.reqState.get? r' = m.reqState.get? r'
  calls : ∃ calls, (∀ c ∈ calls, StoreOf r c) ∧
    (m'.reqState.get? r ≠ none ∧ m'.tierCalls = m.tierCalls ++ calls ∨
      m'.reqState.get? r = none ∧ ∃ ctx : ReqContext, ctx.reqId = r ∧
        m'.tierCalls = m.tierCalls ++ calls ++ (m.tierIndexes.filter fun i => some i ≠ origin r).map
          fun i => (i, .onRequestFinished ctx))

private theorem Becomes.serves
    (h : Becomes (m.reqState.set r state) (StoreOf r) m m') (hopen : m.reqState.get? r ≠ none) :
    Serves origin r m m' := by
  obtain ⟨calls, hcalls, hstores⟩ := h.calls
  refine ⟨hopen, h.pending, h.secondaryTiers, fun r' hr' => ?_, calls, hstores, .inl ⟨?_, hcalls⟩⟩
  · rw [h.reqState, get?_set_of_ne hr']
  · rw [h.reqState, get?_set_self]
    exact Option.some_ne_none _

private theorem Quiet.serves (h : Quiet m m1) (hserves : Serves origin r m1 m') : Serves origin r m m' := by
  obtain ⟨hopen, hpending, htiers, hothers, hcalls⟩ := hserves
  rw [h.reqState] at hopen hothers
  rw [h.tierCalls, tierIndexes, h.secondaryTiers] at hcalls
  exact ⟨hopen, hpending.trans h.pending, htiers.trans h.secondaryTiers, hothers, hcalls⟩

variable [CachePolicy π] [LawfulPolicy π]

section

variable (hrequests : Requests origin m.reqState stores)

include hrequests

/-- The end of every call that serves a request: it is closed if it does not wait any more. -/
private theorem Inv.maybeFinalizeRequest {excludeTierIdx : Option ℕ} {stores' : Multiset String}
    (h : m1.Inv readers writers) (hstep : Becomes (m.reqState.set r state) (StoreOf r) m m1) (hopen : m.reqState.get? r ≠ none)
    (hctx : state.ctx.reqId = r)
    (hcascading : state.pendingCascadeKeys ≠ [] → state.requestLevelTiers ≠ [] ∧ origin r = none)
    (hcount : stores'.count r = state.pendingPrimaryStores)
    (hothers : ∀ r', r' ≠ r → stores'.count r' = stores.count r') (hown : r ∈ stores' → origin r = none)
    (hexclude : excludeTierIdx = origin r) :
    Returns (maybeFinalizeRequest r excludeTierIdx) m1 fun _ m' => m'.Inv readers writers ∧
      Requests origin m'.reqState stores' ∧ Serves origin r m m' ∧
      (m'.reqState.get? r = none → state.waits = false) := by
  have hget : m1.reqState.get? r = some state := by
    rw [hstep.reqState, get?_set_self]
  rw [maybeFinalizeRequest_iff hget]
  split_ifs with hwaits
  · refine ⟨h, ?_, hstep.serves hopen, fun hnone => absurd (hget.symm.trans hnone) (Option.some_ne_none _)⟩
    rw [hstep.reqState]
    exact hrequests.put hctx hwaits hcascading hcount hothers hown
  · have hreqState : (m1.closeRequest r state.ctx excludeTierIdx).reqState = m.reqState.erase r := by
      change m1.reqState.erase r = _
      rw [hstep.reqState, erase_set]
    -- A request that does not wait has no stores.
    have hzero : state.pendingPrimaryStores = 0 := by
      simp only [waits, Bool.or_eq_true, not_or, decide_eq_true_eq, not_not] at hwaits
      exact hwaits.1.2
    obtain ⟨calls, hcalls, hstores⟩ := hstep.calls
    refine ⟨h.other ⟨rfl, rfl, rfl, rfl, rfl, rfl⟩, ?_, ⟨hopen, hstep.pending, hstep.secondaryTiers,
      fun r' hr' => ?_, calls, hstores, .inr ⟨?_, state.ctx, hctx, ?_⟩⟩,
      fun _ => Bool.eq_false_iff.mpr hwaits⟩
    · rw [hreqState]
      exact hrequests.close (hcount.trans hzero) hothers
    · rw [hreqState, get?_erase_of_ne hr']
    · rw [hreqState, get?_erase_self]
    · change m1.tierCalls ++ _ = _
      rw [hcalls, tierIndexes, tierIndexes, hstep.secondaryTiers, hexclude]

variable {answers : TierAnswers}

/-- Keys of a request that waited for a write are looked at again. -/
protected theorem Inv.flushCascade (h : m.Inv readers writers) (hopen : m.reqState.get? r ≠ none)
    : Returns (flushCascade answers r) m fun _ m' => m'.Inv readers writers ∧
      Requests origin m'.reqState stores ∧ (m' = m ∨ Serves origin r m m') := by
  obtain ⟨state, hget⟩ := Option.ne_none_iff_exists'.mp hopen
  obtain rfl := hrequests.ctx r state hget
  rw [flushCascade, bind_iff, getReqState_iff hget]
  by_cases hempty : state.pendingCascadeKeys = []
  · rw [if_pos (isEmpty_iff.mpr hempty)]
    exact pure_iff.mpr ⟨h, hrequests, .inl rfl⟩
  · obtain ⟨htiers, horigin⟩ := hrequests.cascading _ state hget hempty
    rw [if_neg (fun hnil => hempty (isEmpty_iff.mp hnil)),
      if_neg (fun hnil => htiers (isEmpty_iff.mp hnil)), bind_iff, setReqState_iff, bind_iff]
    generalize hs : ({ state with pendingCascadeKeys := [] }) = state'
    have hset : Becomes (m.reqState.set state.ctx.reqId state') (StoreOf state.ctx.reqId) m
      { m with reqState := m.reqState.set state.ctx.reqId state' } := becomes_set
    refine (h.withReqState.cascadeExistingChunks (get?_set_self _ _ _)).mono ?_
    rintro _ m2 ⟨h2, waiting, hstep⟩
    rw [← hs] at hset hstep
    have hcount := hrequests.count_eq hget
    refine (h2.maybeFinalizeRequest hrequests (hset.reset hstep) hopen rfl (fun _ => ⟨htiers, horigin⟩)
      hcount (fun _ _ => rfl) (fun _ => horigin) horigin.symm).mono ?_
    rintro _ m' ⟨h', hrequests', hserves, -⟩
    exact ⟨h', hrequests', .inr hserves⟩

/-- Cascades that are tried again close requests that wait for nothing else. -/
protected theorem Inv.flushPendingCascades (h : m.Inv readers writers) :
    Returns (flushPendingCascades answers) m fun _ m' => m'.Inv readers writers ∧
      Requests origin m'.reqState stores ∧
      Relation.ReflTransGen (fun m1 m2 => ∃ r, Serves origin r m1 m2) m m' := by
  rw [flushPendingCascades, bind_iff, get_iff]
  -- A request that is closed on the way is not visited again.
  refine (forAll (P := fun l m1 => m1.Inv readers writers ∧
    Requests origin m1.reqState stores ∧
    Relation.ReflTransGen (fun m1 m2 => ∃ r, Serves origin r m1 m2) m m1 ∧ l.Nodup ∧
    ∀ r ∈ l, m1.reqState.get? r ≠ none) (fun r l m1 hP => ?_)
    ⟨h, hrequests, .refl, nodup _, fun r hr => ?_⟩).mono
    fun _ m' hm' => ⟨hm'.1, hm'.2.1, hm'.2.2.1⟩
  · obtain ⟨h1, hrequests1, hsteps, hnodup, hopen⟩ := hP
    obtain ⟨hr, hnodup⟩ := nodup_cons.mp hnodup
    refine (h1.flushCascade hrequests1 (hopen r (.head _))).mono ?_
    rintro _ m2 ⟨h2, hrequests2, rfl | hserves⟩
    · exact ⟨h2, hrequests2, hsteps, hnodup, fun r' hr' => hopen r' (.tail _ hr')⟩
    · refine ⟨h2, hrequests2, hsteps.tail ⟨r, hserves⟩, hnodup, fun r' hr' => ?_⟩
      rw [hserves.others r' fun heq => hr (heq ▸ hr')]
      exact hopen r' (.tail _ hr')
  · obtain ⟨state, hget⟩ := mem_keys.mp hr
    exact hget ▸ Option.some_ne_none state

end

/-! ### The calls about a request -/

/-- A store of the GPU completes: its chunks are cascaded, and its request may be closed. -/
protected theorem Inv.completeStore {l : List User} (h : m.Inv readers (writers + l))
    (hrequests : Requests origin m.reqState (stores + {ctx.reqId})) (answers : TierAnswers)
    (success : Bool) : Returns (completeStore answers (l.map Prod.fst) ctx success) m fun _ m' =>
      m'.Inv readers writers ∧ Requests origin m'.reqState stores ∧ Serves origin ctx.reqId m m' ∧
      (m'.reqState.get? ctx.reqId = none → ∃ state, m.reqState.get? ctx.reqId = some state ∧
        waits { state with
          pendingPrimaryStores := state.pendingPrimaryStores - 1 } = false) := by
  have hmem : ctx.reqId ∈ stores + {ctx.reqId} := mem_add.mpr (.inr (mem_singleton_self _))
  have hopen : m.reqState.get? ctx.reqId ≠ none := by
    intro hnone
    have hcount := hrequests.counts ctx.reqId
    rw [hnone, Multiset.count_add, Multiset.count_singleton_self] at hcount
    exact Nat.succ_ne_zero _ hcount
  obtain ⟨state, hget⟩ := Option.ne_none_iff_exists'.mp hopen
  have hcount := hrequests.count_eq hget
  rw [Multiset.count_add, Multiset.count_singleton_self] at hcount
  rw [completeStore, bind_iff]
  refine h.endWrites.mono ?_
  rintro _ m1 ⟨h1, hready, p, rfl⟩
  -- What is left after the cascade, if there is one.
  have hrest : ∀ m2 : TieringOffloadingManager π, m2.Inv readers writers →
      Becomes m.reqState (StoreOf ctx.reqId) m m2 → Returns (do
        let state ← getReqState ctx.reqId
        if state.pendingPrimaryStores = 0 then throw (.assertionError "")
        else
          setReqState ctx.reqId { state with pendingPrimaryStores := state.pendingPrimaryStores - 1 }
          TieringOffloadingManager.maybeFinalizeRequest ctx.reqId none) m2 fun _ m' =>
        m'.Inv readers writers ∧ Requests origin m'.reqState stores ∧ Serves origin ctx.reqId m m' ∧
          (m'.reqState.get? ctx.reqId = none → ∃ state, m.reqState.get? ctx.reqId = some state ∧
            waits { state with
              pendingPrimaryStores := state.pendingPrimaryStores - 1 } = false) := by
    intro m2 h2 hlogs
    have hget2 : m2.reqState.get? ctx.reqId = some state := hlogs.reqState ▸ hget
    rw [bind_iff, getReqState_iff hget2, if_neg (by omega), bind_iff, setReqState_iff]
    have hset : ∀ state', Becomes (m.reqState.set ctx.reqId state') (StoreOf ctx.reqId) m
        { m2 with reqState := m2.reqState.set ctx.reqId state' } := by
      intro state'
      rw [← hlogs.reqState]
      exact hlogs.trans becomes_set
    refine (h2.withReqState.maybeFinalizeRequest hrequests (hset { state with
        pendingPrimaryStores := state.pendingPrimaryStores - 1 }) hopen
      (hrequests.ctx _ state hget) (hrequests.cascading _ state hget) ?_ (fun r' hr' => ?_)
      (fun _ => hrequests.own _ hmem) (hrequests.own _ hmem).symm).mono fun _ m' hm' =>
        ⟨hm'.1, hm'.2.1, hm'.2.2.1, fun hnone => ⟨state, hget, hm'.2.2.2 hnone⟩⟩
    · exact Nat.eq_sub_of_add_eq hcount
    · rw [Multiset.count_add, Multiset.count_singleton, if_neg hr', add_zero]
  rw [bind_iff, get_iff]
  split_ifs with hsuccess
  · rw [bind_iff]
    refine (h1.cascadeToAll (hready hsuccess)).mono ?_
    rintro _ m2 ⟨h2, hlogs⟩
    exact hrest m2 h2 (((Quiet.primary m p).becomes).keep hlogs)
  · exact hrest _ h1 ((Quiet.primary m p).becomes)

section

variable (hrequests : Requests origin m.reqState stores) (h : m.Inv readers writers)

include hrequests h

/-- A request ends now, or when its last store does. -/
protected theorem Inv.onRequestFinished (hopen : m.reqState.get? ctx.reqId ≠ none) :
    Returns (onRequestFinished ctx (origin ctx.reqId)) m fun _ m' => m'.Inv readers writers ∧
      Requests origin m'.reqState stores ∧ Serves origin ctx.reqId m m' ∧
      (m'.reqState.get? ctx.reqId = none → ∃ state, m.reqState.get? ctx.reqId = some state ∧
        waits { state with isFinished := true } = false) := by
  obtain ⟨state, hget⟩ := Option.ne_none_iff_exists'.mp hopen
  rw [onRequestFinished, bind_iff]
  obtain ⟨d, hinv, hledger⟩ := h.uses.2
  refine (h.cpuCall (hinv.onRequestFinished.mono fun _ _ hcpu =>
    ⟨trivial, d, hcpu, hledger⟩)).mono ?_
  rintro _ m1 ⟨-, h1, p, rfl⟩
  rw [bind_iff]
  refine (getReqState_iff (m := { m with primaryTier := p }) hget).mpr ?_
  rw [bind_iff, setReqState_iff]
  have hcount := hrequests.count_eq hget
  have hset : ∀ state', Becomes (m.reqState.set ctx.reqId state') (StoreOf ctx.reqId) m
      { m with primaryTier := p, reqState := m.reqState.set ctx.reqId state' } := fun state' =>
    ⟨rfl, rfl, rfl, [], (append_nil _).symm, nofun⟩
  have h2 : ∀ reqState, Inv { m with primaryTier := p, reqState } readers writers :=
    fun reqState => h1.withReqState
  refine ((h2 _).maybeFinalizeRequest hrequests (hset { state with isFinished := true }) hopen
    (hrequests.ctx _ state hget) (hrequests.cascading _ state hget) hcount (fun _ _ => rfl)
    (hrequests.own _) rfl).mono fun _ m' hm' => ?_
  exact ⟨hm'.1, hm'.2.1, hm'.2.2.1, fun hnone => ⟨state, hget, hm'.2.2.2 hnone⟩⟩

/-- What a new request does: every tier is told, but for the tier it came from. -/
structure Opens (origin : String → Option ℕ) (ctx : ReqContext) (m m' : TieringOffloadingManager π) :
    Prop where
  pending : m'.pendingLoadSubmissions = m.pendingLoadSubmissions
  secondaryTiers : m'.secondaryTiers = m.secondaryTiers
  isOpen : ∃ state, m'.reqState.get? ctx.reqId = some state ∧ state.isFinished = false
  others : ∀ r', r' ≠ ctx.reqId → m'.reqState.get? r' = m.reqState.get? r'
  calls : m'.tierCalls = m.tierCalls ++ (m.tierIndexes.filter fun i => some i ≠ origin ctx.reqId).map
    fun i => (i, .onNewRequest ctx)

/-- A new request is open, and the tiers are told of it. -/
protected theorem Inv.onNewRequest (hnew : m.reqState.get? ctx.reqId = none) (answers : TierAnswers) :
    Returns (onNewRequest answers ctx (origin ctx.reqId)) m fun _ m' => m'.Inv readers writers ∧
      Requests origin m'.reqState stores ∧ Opens origin ctx m m' := by
  have hzero : stores.count ctx.reqId = 0 := by
    rw [hrequests.counts, hnew]
    rfl
  rw [onNewRequest, bind_iff, get_iff]
  rw [bind_iff, forAll_callTier_iff, bind_iff, setReqState_iff, pure_iff]
  refine ⟨h.other ⟨rfl, rfl, rfl, rfl, rfl, rfl⟩, hrequests.put rfl rfl (absurd rfl) hzero
    (fun _ _ => rfl) (hrequests.own _), rfl, rfl, ⟨_, get?_set_self _ _ _, rfl⟩, fun r' hr' => ?_, rfl⟩
  exact get?_set_of_ne hr'

/-- The store that a request waits for once it was admitted: none if there is nothing to store. -/
def admittedStore (out : PrepareStoreOutput) (reqId : String) : Multiset String :=
  if out.keysToStore = [] then 0 else {reqId}

/-- The part of a store after the primary tier has admitted it. -/
protected theorem Inv.cascadeOffered {out : PrepareStoreOutput}
    (hget : m.reqState.get? ctx.reqId = some state) (hunfinished : state.isFinished = false)
    (horigin : origin ctx.reqId = none) :
    Returns (cascadeOffered answers keys ctx out) m fun _ m' => m'.Inv readers writers ∧
      Requests origin m'.reqState (stores + admittedStore out ctx.reqId) ∧
      Serves origin ctx.reqId m m' ∧ m'.reqState.get? ctx.reqId ≠ none := by
  have hopen : m.reqState.get? ctx.reqId ≠ none := hget ▸ Option.some_ne_none state
  -- Once the store is counted, keys that are there already are cascaded.
  have hrest : ∀ m1 n, m1.Inv readers writers →
      Becomes (m.reqState.set ctx.reqId { state with pendingPrimaryStores := n })
        (StoreOf ctx.reqId) m m1 → (stores + admittedStore out ctx.reqId).count ctx.reqId = n →
      Returns (do
        let state ← getReqState ctx.reqId
        let keysAlreadyInPrimary := keys.filter (· ∉ out.keysToStore)
        if state.requestLevelTiers.isEmpty || keysAlreadyInPrimary.isEmpty then pure ⟨⟩
        else (cascadeExistingChunks answers keysAlreadyInPrimary ctx
          state.requestLevelTiers)) m1 fun _ m' => m'.Inv readers writers ∧
        Requests origin m'.reqState (stores + admittedStore out ctx.reqId) ∧
        Serves origin ctx.reqId m m' ∧ m'.reqState.get? ctx.reqId ≠ none := by
    intro m1 n h1 hstep hcount
    have hget1 : m1.reqState.get? ctx.reqId = some { state with pendingPrimaryStores := n } := by
      rw [hstep.reqState, get?_set_self]
    -- The request has not finished, so it waits.
    have hdone : ∀ m2 waiting, m2.Inv readers writers →
        (waiting ≠ [] → state.requestLevelTiers ≠ []) →
        Becomes (m.reqState.set ctx.reqId { state with
          pendingPrimaryStores := n
          pendingCascadeKeys := state.pendingCascadeKeys ++ waiting }) (StoreOf ctx.reqId) m m2 →
        m2.Inv readers writers ∧
          Requests origin m2.reqState (stores + admittedStore out ctx.reqId) ∧
          Serves origin ctx.reqId m m2 ∧ m2.reqState.get? ctx.reqId ≠ none := by
      intro m2 waiting h2 hwaiting hstep2
      refine ⟨h2, ?_, hstep2.serves hopen, ?_⟩
      swap
      · rw [hstep2.reqState, get?_set_self]
        exact Option.some_ne_none _
      rw [hstep2.reqState]
      refine hrequests.put (hrequests.ctx _ state hget) ?_ (fun hne => ⟨?_, horigin⟩) hcount
        (fun r' hr' => ?_) fun _ => horigin
      · rw [hunfinished]
        rfl
      · by_cases hold : state.pendingCascadeKeys = []
        · exact hwaiting fun hnil => hne (by rw [hold, hnil]; rfl)
        · exact (hrequests.cascading _ state hget hold).1
      · rw [admittedStore]
        split_ifs
        · rw [add_zero]
        · rw [Multiset.count_add, Multiset.count_singleton, if_neg hr', add_zero]
    rw [bind_iff, getReqState_iff hget1]
    dsimp only
    split_ifs with hempty
    · refine pure_iff.mpr (hdone m1 [] h1 (absurd rfl) ?_)
      rw [append_nil]
      exact hstep
    · refine (h1.cascadeExistingChunks hget1).mono ?_
      rintro _ m2 ⟨h2, waiting, hstep2⟩
      refine hdone m2 waiting h2 (fun _ htiers => hempty ?_) (hstep.reset hstep2)
      rw [htiers]
      rfl
  rw [cascadeOffered]
  by_cases hnone : out.keysToStore = []
  · rw [if_pos (isEmpty_iff.mpr hnone)]
    refine hrest m state.pendingPrimaryStores h ?_ ?_
    · rw [set_of_get? hget]
      exact Quiet.refl.becomes
    · rw [admittedStore, if_pos hnone, add_zero]
      exact hrequests.count_eq hget
  · rw [if_neg fun hnil => hnone (isEmpty_iff.mp hnil), bind_iff, getReqState_iff hget,
      bind_iff, setReqState_iff]
    refine hrest _ _ h.withReqState becomes_set ?_
    rw [admittedStore, if_neg hnone, Multiset.count_add, Multiset.count_singleton_self, hrequests.count_eq hget]

/-- A store is refused or admitted; if it raises, only finished jobs were processed. -/
protected theorem Inv.prepareStore (hnodup : keys.Nodup) (hget : m.reqState.get? ctx.reqId = some state)
    (hunfinished : state.isFinished = false) (horigin : origin ctx.reqId = none)
    (hreported : m.Reported answers m.tierIndexes) : Ends (prepareStore answers keys ctx) m
      (fun r m' => match r with
        | none => m'.Inv readers writers ∧ Quiet m m'
        | some out => m'.Inv readers (writers + (out.keysToStore.zip out.storeSpec)) ∧
            out.storeSpec.length = out.keysToStore.length ∧
            Requests origin m'.reqState (stores + admittedStore out ctx.reqId) ∧
            Serves origin ctx.reqId m m' ∧ m'.reqState.get? ctx.reqId ≠ none)
      fun m' => m'.Inv readers writers ∧ Quiet m m' := by
  obtain ⟨honce, hreports⟩ := hreported
  rw [prepareStore, Ends.bind_iff, Ends.modify_iff, Ends.bind_iff, Ends.get_iff, Ends.bind_iff]
  refine Ends.of_returns (((h.gate true).processFinishedJobs nodup_range ⟨honce, hreports⟩).mono ?_)
  rintro _ m1 ⟨h1, hquiet1⟩
  have hquiet : Quiet m m1 := ⟨hquiet1.1, hquiet1.2, hquiet1.3, hquiet1.4⟩
  rw [Ends.bind_iff]
  refine (h1.prepareStoreCall hnodup).mono (fun r m2 hr => ?_) ?_
  · obtain ⟨⟨p, rfl⟩, hr⟩ := hr
    have hquiet2 := hquiet.trans (Quiet.primary m1 p)
    cases r with
    | none => exact Ends.pure_iff.mpr ⟨hr, hquiet2⟩
    | some out =>
      obtain ⟨hlen, h2⟩ := hr
      rw [Ends.bind_iff]
      refine Ends.of_returns ((h2.cascadeOffered (hquiet2.reqState ▸ hrequests)
        (hquiet2.reqState ▸ hget) hunfinished horigin).mono ?_)
      rintro _ m' ⟨h', hrequests', hserves, hopen⟩
      exact Ends.pure_iff.mpr ⟨h', hlen, hrequests', hquiet2.serves hserves, hopen⟩
  · rintro m2 ⟨h2, p, rfl⟩
    exact ⟨h2, hquiet.trans (Quiet.primary m1 p)⟩

end

end TieringOffloadingManager

end Sonar.Offload
