import Sonar.Offload.TieringRuns

/-!
# The end of requests at the tiers

A tier is told that a request has finished after everything else about it: no `submit_store` and no
`submit_load` may follow. The manager waits for the stores of the request and for its cascades before
it closes the request. It does not wait for promotions that are queued, and those are submitted at
the end of the schedule step.

`Protocol` is the invariant of the runs in which no request is closed while a promotion of it is queued.
In those runs the contract holds (`Finishes`), and there is a run of a request of a peer in which
it does not.
-/

namespace Sonar.Offload

open Lib List
open P2P (OffloadKey JobId)

/-- The call tells a tier that the request has finished. -/
def TierCall.finishes (reqId : String) : TierCall → Bool
  | .onRequestFinished ctx => ctx.reqId = reqId
  | _ => false

/-- After the first call the tier does not hear of the request again. -/
def Silences (c c' : ℕ × TierCall) : Prop :=
  ∀ ctx, c.2 = .onRequestFinished ctx → c'.1 = c.1 → c'.2.reqId ≠ ctx.reqId

namespace TieringOffloadingManager

variable {π : Type} {m m' : TieringOffloadingManager π} {origin : String → Option ℕ}
  {opened : List String}

/-- What the tiers have heard of the requests there have been. -/
structure Protocol (origin : String → Option ℕ) (opened : List String) (m : TieringOffloadingManager π) :
    Prop where
  begun : ∀ r, m.reqState.get? r ≠ none → r ∈ opened
  queued : ∀ i r, m.Queued i r → m.reqState.get? r ≠ none
  known : ∀ c ∈ m.tierCalls, c.2.reqId ∈ opened
  unfinished : ∀ i ctx, (i, .onRequestFinished ctx) ∈ m.tierCalls → m.reqState.get? ctx.reqId = none
  last : m.tierCalls.Pairwise Silences
  finished : ∀ r ∈ opened, m.reqState.get? r = none → ∀ i ∈ m.tierIndexes, some i ≠ origin r →
    ∃ ctx : ReqContext, ctx.reqId = r ∧ (i, .onRequestFinished ctx) ∈ m.tierCalls

/-- Tiers are called about requests that are open. -/
private theorem Protocol.logs {calls : List (ℕ × TierCall)} (h : Protocol origin opened m)
    (hlog : m'.tierCalls = m.tierCalls ++ calls)
    (hcalls : ∀ c ∈ calls, m.reqState.get? c.2.reqId ≠ none ∧ ∀ ctx, c.2 ≠ .onRequestFinished ctx)
    (hopen : ∀ r, m'.reqState.get? r = none ↔ m.reqState.get? r = none)
    (hqueued : ∀ i r, m'.Queued i r → m.reqState.get? r ≠ none)
    (htiers : m'.secondaryTiers = m.secondaryTiers) : Protocol origin opened m' := by
  have hold : ∀ i ctx, (i, .onRequestFinished ctx) ∈ m'.tierCalls →
      (i, .onRequestFinished ctx) ∈ m.tierCalls := by
    intro i ctx hmem
    rw [hlog] at hmem
    refine (mem_append.mp hmem).resolve_right fun hnew => ?_
    exact (hcalls _ hnew).2 ctx rfl
  refine ⟨fun r hr => h.begun r fun hnone => hr ((hopen r).mpr hnone),
    fun i r hq hnone => hqueued i r hq ((hopen r).mp hnone), fun c hc => ?_,
    fun i ctx hmem => (hopen _).mpr (h.unfinished i ctx (hold i ctx hmem)), ?_, fun r hr hnone i hi hne => ?_⟩
  · rw [hlog] at hc
    rcases mem_append.mp hc with hc | hc
    · exact h.known c hc
    · exact h.begun _ (hcalls c hc).1
  · rw [hlog]
    refine pairwise_append.mpr ⟨h.last, ?_, fun c hc c' hc' ctx hctx _ heq => ?_⟩
    · exact pairwise_of_forall_mem_list fun c hc _ _ ctx hctx => absurd hctx ((hcalls c hc).2 ctx)
    · have hfinished : (c.1, .onRequestFinished ctx) ∈ m.tierCalls := by
        rw [← hctx]
        exact hc
      exact (hcalls c' hc').1 (heq ▸ h.unfinished _ ctx hfinished)
  · rw [tierIndexes, htiers] at hi
    obtain ⟨ctx, hctx, hmem⟩ := h.finished r hr ((hopen r).mp hnone) i hi hne
    refine ⟨ctx, hctx, ?_⟩
    rw [hlog]
    exact mem_append_left _ hmem

section

variable (h : Protocol origin opened m)

include h

private theorem Protocol.closes {r : String} {ctx : ReqContext}
    (hlog : m'.tierCalls = m.tierCalls ++ (m.tierIndexes.filter fun i => some i ≠ origin r).map
      fun i => (i, .onRequestFinished ctx))
    (hctx : ctx.reqId = r) (hopen : m.reqState.get? r ≠ none) (hclosed : m'.reqState.get? r = none)
    (hothers : ∀ r', r' ≠ r → m'.reqState.get? r' = m.reqState.get? r')
    (hpending : m'.pendingLoadSubmissions = m.pendingLoadSubmissions) (hunqueued : ∀ i, ¬m.Queued i r)
    (htiers : m'.secondaryTiers = m.secondaryTiers) : Protocol origin opened m' := by
  -- A request that is open now was open, and is another one.
  have hstill : ∀ r', m'.reqState.get? r' ≠ none → r' ≠ r ∧ m.reqState.get? r' ≠ none := by
    intro r' hr'
    have hne : r' ≠ r := fun heq => hr' (heq ▸ hclosed)
    exact ⟨hne, hothers r' hne ▸ hr'⟩
  refine ⟨fun r' hr' => h.begun r' (hstill r' hr').2, fun i r' hq => ?_, fun c hc => ?_,
    fun i ctx' hmem => ?_, ?_, fun r' hr' hnone i hi hne => ?_⟩
  · rw [Queued.congr hpending] at hq
    have hne : r' ≠ r := fun heq => hunqueued i (heq ▸ hq)
    rw [hothers r' hne]
    exact h.queued i r' hq
  · rw [hlog] at hc
    rcases mem_append.mp hc with hc | hc
    · exact h.known c hc
    · obtain ⟨i, -, rfl⟩ := mem_map.mp hc
      change ctx.reqId ∈ opened
      exact hctx ▸ h.begun r hopen
  · rw [hlog] at hmem
    rcases mem_append.mp hmem with hmem | hmem
    · have hnone := h.unfinished i ctx' hmem
      by_cases hr : ctx'.reqId = r
      · exact hr ▸ hclosed
      · rw [hothers _ hr, hnone]
    · obtain ⟨_, -, heq⟩ := mem_map.mp hmem
      obtain rfl := TierCall.onRequestFinished.inj (Prod.mk.inj heq).2
      exact hctx ▸ hclosed
  · rw [hlog]
    refine pairwise_append.mpr ⟨h.last, ?_, fun c hc c' hc' ctx' hctx' _ heq => ?_⟩
    · -- Every tier is told once.
      refine pairwise_map.mpr ((nodup_range.filter _).imp ?_)
      intro i j hij _ _ htier
      exact absurd htier.symm hij
    · obtain ⟨_, -, rfl⟩ := mem_map.mp hc'
      have hfinished : (c.1, .onRequestFinished ctx') ∈ m.tierCalls := by
        rw [← hctx']
        exact hc
      change ctx.reqId = ctx'.reqId at heq
      have hnone := h.unfinished _ ctx' hfinished
      rw [← heq, hctx] at hnone
      exact hopen hnone
  · rw [tierIndexes, htiers] at hi
    rw [hlog]
    by_cases hr : r' = r
    · refine ⟨ctx, hctx.trans hr.symm, mem_append_right _ (mem_map.mpr ⟨i, ?_, rfl⟩)⟩
      exact mem_filter.mpr ⟨hi, decide_eq_true (hr ▸ hne)⟩
    · obtain ⟨ctx', hctx', hmem⟩ := h.finished r' hr' (hothers r' hr ▸ hnone) i hi hne
      exact ⟨ctx', hctx', mem_append_left _ hmem⟩

/-- A call serves a request of which no promotion is queued if the call closes it. -/
private theorem Protocol.serves {r : String} (hserves : Serves origin r m m')
    (hunqueued : m'.reqState.get? r = none → ∀ i, ¬m.Queued i r) : Protocol origin opened m' := by
  obtain ⟨hopen, hpending, htiers, hothers, calls, hcalls, hor⟩ := hserves
  have hstores : ∀ c ∈ calls, m.reqState.get? c.2.reqId ≠ none ∧
      ∀ ctx, c.2 ≠ .onRequestFinished ctx := by
    intro c hc
    obtain ⟨job, hjob, hreq⟩ := hcalls c hc
    rw [hjob]
    exact ⟨by rw [TierCall.reqId, hreq]; exact hopen, nofun⟩
  rcases hor with ⟨hstays, hlog⟩ | ⟨hclosed, ctx, hctx, hlog⟩
  · refine h.logs hlog hstores (fun r' => ?_) (fun i r' hq => ?_) htiers
    · by_cases hr : r' = r
      · rw [hr]
        exact iff_of_false hstays hopen
      · rw [hothers r' hr]
    · exact h.queued i r' ((Queued.congr hpending).mp hq)
  · -- The stores come before the end of the request.
    have hmiddle : Protocol origin opened { m with tierCalls := m.tierCalls ++ calls } :=
      h.logs rfl hstores (fun _ => Iff.rfl) (h.queued) rfl
    exact hmiddle.closes hlog hctx hopen hclosed hothers hpending (hunqueued hclosed) htiers

private theorem Protocol.opens {ctx : ReqContext} (hopens : Opens origin ctx m m')
    (hnew : ctx.reqId ∉ opened) : Protocol origin (opened ++ [ctx.reqId]) m' := by
  obtain ⟨hpending, htiers, ⟨state, hget, -⟩, hothers, hlog⟩ := hopens
  have hopen : m'.reqState.get? ctx.reqId ≠ none := hget ▸ Option.some_ne_none state
  have hcalls : ∀ c ∈ (m.tierIndexes.filter fun i => some i ≠ origin ctx.reqId).map
      (fun i => (i, TierCall.onNewRequest ctx)), c.2 = .onNewRequest ctx := by
    intro c hc
    obtain ⟨_, -, rfl⟩ := mem_map.mp hc
    rfl
  have hold : ∀ i ctx', (i, .onRequestFinished ctx') ∈ m'.tierCalls →
      (i, .onRequestFinished ctx') ∈ m.tierCalls := by
    intro i ctx' hmem
    rw [hlog] at hmem
    refine (mem_append.mp hmem).resolve_right fun hmem => ?_
    exact TierCall.noConfusion (hcalls _ hmem)
  refine ⟨fun r hr => ?_, fun i r hq => ?_, fun c hc => ?_, fun i ctx' hmem => ?_, ?_,
    fun r hr hnone i hi hne => ?_⟩
  · by_cases heq : r = ctx.reqId
    · exact mem_append_right _ (heq ▸ mem_singleton_self _)
    · exact mem_append_left _ (h.begun r (hothers r heq ▸ hr))
  · by_cases heq : r = ctx.reqId
    · exact heq ▸ hopen
    · rw [hothers r heq]
      exact h.queued i r ((Queued.congr hpending).mp hq)
  · rw [hlog] at hc
    rcases mem_append.mp hc with hc | hc
    · exact mem_append_left _ (h.known c hc)
    · rw [hcalls c hc]
      exact mem_append_right _ (.head _)
  · have hmem := hold i ctx' hmem
    have hne : ctx'.reqId ≠ ctx.reqId := fun heq => hnew (heq ▸ h.known _ hmem)
    rw [hothers _ hne]
    exact h.unfinished i ctx' hmem
  · rw [hlog]
    refine pairwise_append.mpr ⟨h.last, ?_, fun c hc c' hc' ctx' hctx' _ heq => ?_⟩
    · refine pairwise_of_forall_mem_list fun c hc _ _ ctx' hctx' => ?_
      rw [hcalls c hc] at hctx'
      cases hctx'
    · rw [hcalls c' hc'] at heq
      change ctx.reqId = ctx'.reqId at heq
      have hknown := h.known c hc
      rw [hctx'] at hknown
      exact hnew (heq ▸ hknown)
  · have hne' : r ≠ ctx.reqId := fun heq => hopen (heq ▸ hnone)
    rw [tierIndexes, htiers] at hi
    have hr : r ∈ opened := (mem_append.mp hr).resolve_right fun hmem =>
      hne' (mem_singleton.mp hmem)
    obtain ⟨ctx', hctx', hmem⟩ := h.finished r hr (hothers r hne' ▸ hnone) i hi hne
    refine ⟨ctx', hctx', ?_⟩
    rw [hlog]
    exact mem_append_left _ hmem

/-- With an empty queue, requests are served and closed one after the other. -/
private theorem Protocol.serves_all (hempty : m.pendingLoadSubmissions = ∅)
    (hserves : Relation.ReflTransGen (fun m1 m2 => ∃ r, Serves origin r m1 m2) m m') :
    Protocol origin opened m' ∧ m'.pendingLoadSubmissions = ∅ := by
  induction hserves with
  | refl => exact ⟨h, hempty⟩
  | tail _ hstep ih =>
    obtain ⟨r, hstep⟩ := hstep
    refine ⟨ih.1.serves hstep fun _ i hq => ?_, hstep.pending.trans ih.2⟩
    obtain ⟨byCtx, entry, hbyCtx, -⟩ := hq
    rw [ih.2] at hbyCtx
    cases hbyCtx

private theorem Protocol.quiet (hquiet : Quiet m m') : Protocol origin opened m' := by
  refine h.logs (hquiet.tierCalls.trans (append_nil _).symm) nofun
    (fun r => by rw [hquiet.reqState]) (fun i r hq => ?_) hquiet.secondaryTiers
  exact h.queued i r ((Queued.congr hquiet.pending).mp hq)

private theorem Protocol.queues {r : String} (hqueues : Queues r m m')
    (hopen : m.reqState.get? r ≠ none) : Protocol origin opened m' := by
  refine h.logs (hqueues.tierCalls.trans (append_nil _).symm) nofun
    (fun r => by rw [hqueues.reqState]) (fun i r' hq => ?_) hqueues.secondaryTiers
  rcases hqueues.queued i r' hq with hold | rfl
  · exact h.queued i r' hold
  · exact hopen

/-- What is queued is of requests that are open, so its submission is in time. -/
private theorem Protocol.flushes (hflushes : Flushes m m') : Protocol origin opened m' := by
  obtain ⟨hreqState, hpending, htiers, calls, hlog, hcalls⟩ := hflushes
  refine h.logs hlog (fun c hc => ?_) (fun r => by rw [hreqState]) (fun i r hq => ?_) htiers
  · obtain ⟨job, hjob, hq⟩ := hcalls c hc
    rw [hjob]
    exact ⟨h.queued _ _ hq, nofun⟩
  · obtain ⟨byCtx, entry, hbyCtx, -⟩ := hq
    rw [hpending] at hbyCtx
    cases hbyCtx

end

end TieringOffloadingManager

namespace TieringState

variable {π : Type} [CachePolicy π] {origin : String → Option ℕ} {s : TieringState π} {call : TieringCall}

/-- No promotion is queued of a request that the call closes. -/
def Unqueued (s : TieringState π) (call : TieringCall) : Prop :=
  ∀ r, s.Closes r call → ∀ i, ¬s.manager.Queued i r

/-- What the contract of the tiers says in a state: a tier that was told that a request has finished hears
nothing of it again, and every request is closed with every tier told once, apart from the tier it came
from, or is open because it has not finished, a store of it is not completed or a key of it waits for
a write. -/
structure Finishes (origin : String → Option ℕ) (s : TieringState π) : Prop where
  last : s.manager.tierCalls.Pairwise Silences
  once : ∀ r ∈ s.opened,
    (∃ state, s.manager.reqState.get? r = some state ∧ (state.isFinished = true →
      r ∈ s.stores.map (fun t => t.ctx.reqId) ∨ state.pendingCascadeKeys ≠ [])) ∨
    s.manager.reqState.get? r = none ∧ ∀ i ∈ s.manager.tierIndexes, some i ≠ origin r →
      s.manager.tierCalls.countP (fun c => c.1 = i && c.2.finishes r) = 1

/-- A tier hears of the end of a request once at most. -/
private theorem countP_finishes_le {calls : List (ℕ × TierCall)} (h : calls.Pairwise Silences) {i : ℕ}
    {r : String} : calls.countP (fun c => c.1 = i && c.2.finishes r) ≤ 1 := by
  rw [countP_eq_length_filter]
  have hfilter := h.filter fun c => c.1 = i && c.2.finishes r
  have hmem : ∀ c ∈ calls.filter (fun c => c.1 = i && c.2.finishes r),
      ∃ ctx : ReqContext, c = (i, .onRequestFinished ctx) ∧ ctx.reqId = r := by
    rintro ⟨j, call⟩ hc
    obtain ⟨hj, hfinishes⟩ := Bool.and_eq_true_iff.mp (mem_filter.mp hc).2
    obtain rfl : j = i := of_decide_eq_true hj
    cases call with
    | onRequestFinished ctx => exact ⟨ctx, rfl, of_decide_eq_true hfinishes⟩
    | _ => cases hfinishes
  generalize calls.filter (fun c => c.1 = i && c.2.finishes r) = l at hfilter hmem
  match l, hfilter, hmem with
  | [], _, _ => exact Nat.zero_le 1
  | [_], _, _ => exact le_rfl
  | c :: c' :: l, hfilter, hmem =>
    obtain ⟨ctx, rfl, hctx⟩ := hmem c (.head _)
    obtain ⟨ctx', rfl, hctx'⟩ := hmem c' (.tail _ (.head _))
    have hsilences := (pairwise_cons.mp hfilter).1 _ (.head _)
    exact absurd (hctx'.trans hctx.symm) (hsilences ctx rfl rfl)

variable [LawfulPolicy π]

private theorem Inv.protocol_next (h : s.Inv origin)
    (hprotocol : s.manager.Protocol origin s.opened) (hallowed : s.Allowed origin call)
    (hunqueued : s.Unqueued call) :
    (s.next origin call).manager.Protocol origin (s.next origin call).opened := by
  cases (h.next hallowed).2 with
  | quiet hold hquiet =>
    rw [opened_next hold]
    exact hprotocol.quiet hquiet
  | opens answers ctx hcall hopens =>
    subst hcall
    exact hprotocol.opens hopens hallowed
  | queues r hold hopen hqueues =>
    rw [opened_next hold]
    exact hprotocol.queues hqueues hopen
  | serves r hold hserves hcloses =>
    rw [opened_next hold]
    exact hprotocol.serves hserves fun hnone => hunqueued r (hcloses hnone)
  | flushes m1 hold hflushes hserves =>
    rw [opened_next hold]
    exact ((hprotocol.flushes hflushes).serves_all hflushes.pending hserves).1

private theorem Inv.finishes (h : s.Inv origin) (hprotocol : s.manager.Protocol origin s.opened) :
    s.Finishes origin := by
  refine ⟨hprotocol.last, fun r hr => ?_⟩
  cases hget : s.manager.reqState.get? r with
  | some state =>
    refine .inl ⟨state, rfl, fun hfinished => ?_⟩
    have hwaits := h.requests.waits r state hget
    simp only [RequestState.waits, hfinished, Bool.not_true, Bool.false_or, Bool.or_eq_true,
      decide_eq_true_eq, Bool.not_eq_true', isEmpty_eq_false_iff] at hwaits
    refine hwaits.imp_left fun hstores => ?_
    rw [← h.requests.count_eq hget] at hstores
    exact Multiset.mem_coe.mp (Multiset.count_pos.mp (Nat.pos_of_ne_zero hstores))
  | none =>
    refine .inr ⟨rfl, fun i hi hne => le_antisymm (countP_finishes_le hprotocol.last) ?_⟩
    obtain ⟨ctx, hctx, hmem⟩ := hprotocol.finished r hr hget i hi hne
    refine countP_pos_iff.mpr ⟨_, hmem, ?_⟩
    simp [TierCall.finishes, hctx]

/-- The contract holds in every state of a run in which no request is closed while a promotion of it is
queued. -/
private theorem Reaches.protocol {start : TieringState π} (hstart : start.Inv origin)
    (hprotocol : start.manager.Protocol origin start.opened)
    (h : Reaches origin (fun s call => s.Allowed origin call ∧ s.Unqueued call) start s) :
    s.Inv origin ∧ s.manager.Protocol origin s.opened := by
  induction h with
  | start => exact ⟨hstart, hprotocol⟩
  | call call _ hok ih =>
    exact ⟨(ih.1.next hok.1).1, ih.1.protocol_next ih.2 hok.1 hok.2⟩

omit [LawfulPolicy π] in
private theorem protocol_new {numChunks : ℕ} {enableEvents : Bool} {storeThreshold maxTrackerSize : ℕ}
    {secondaryTiers : List SecondaryTier} {promotionsHeld : Bool} :
    (new numChunks enableEvents storeThreshold maxTrackerSize secondaryTiers promotionsHeld :
      TieringState π).manager.Protocol origin [] where
  begun r hr := absurd rfl hr
  queued i r hq := by
    obtain ⟨_, _, hget, -⟩ := hq
    cases hget
  known c hc := nomatch hc
  unfinished i ctx hmem := nomatch hmem
  last := .nil
  finished r hr := nomatch hr

end TieringState

end Sonar.Offload
