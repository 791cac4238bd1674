import Sonar.Offload.TieringInv

/-!
# Queued promotions

`lookup` allocates the chunk of a key that a tier has and queues its promotion; the end of the schedule
step submits what is queued, one load for each tier and request. The queue is a third place, next to
the table of jobs and the users outside, that a write may be listed in: queueing moves it from outside
to the queue, and flushing moves the whole queue to the table.
-/

namespace Sonar.Offload

open Lib Returns List Dict PendingPromotion
open P2P (OffloadKey JobId)

namespace TieringOffloadingManager

open Multiset (coe_add coe_nil)

variable {π : Type} {m m' : TieringOffloadingManager π} {readers writers : Multiset User}
  {tierIdx : ℕ} {reqId : String} {ctx : ReqContext} {answers : TierAnswers}

/-- A promotion is queued for the tier and the request. -/
def Queued (m : TieringOffloadingManager π) (tierIdx : ℕ) (reqId : String) : Prop :=
  ∃ byCtx entry, m.pendingLoadSubmissions.get? tierIdx = some byCtx ∧ byCtx.get? reqId = some entry

/-- Only the queue counts. -/
theorem Queued.congr (h : m'.pendingLoadSubmissions = m.pendingLoadSubmissions) {i : ℕ} {r : String} :
    m'.Queued i r ↔ m.Queued i r := by
  rw [Queued, h, Queued]

private theorem queued_queuePromotion {i : ℕ} {out : PrepareStoreOutput} {r : String}
    (h : (m.queuePromotion tierIdx ctx out).Queued i r) : m.Queued i r ∨ r = ctx.reqId := by
  obtain ⟨byCtx, entry, hbyCtx, hentry⟩ := h
  by_cases hr : r = ctx.reqId
  · exact .inr hr
  · left
    simp only [queuePromotion, get?_set] at hbyCtx
    split_ifs at hbyCtx with hi
    · obtain rfl := Option.some.inj hbyCtx
      rw [get?_set_of_ne hr] at hentry
      cases htier : m.pendingLoadSubmissions.get? tierIdx with
      | none =>
        rw [htier] at hentry
        cases hentry
      | some byCtx =>
        rw [htier] at hentry
        exact ⟨byCtx, entry, hi ▸ htier, hentry⟩
    · exact ⟨byCtx, entry, hbyCtx, hentry⟩

/-- What a lookup does to the protocol of requests: it may queue promotions of its own request. -/
structure Queues (reqId : String) (m m' : TieringOffloadingManager π) : Prop where
  reqState : m'.reqState = m.reqState
  tierCalls : m'.tierCalls = m.tierCalls
  secondaryTiers : m'.secondaryTiers = m.secondaryTiers
  queued : ∀ i r, m'.Queued i r → m.Queued i r ∨ r = reqId

private theorem Quiet.queues (h : Quiet m m') (reqId : String) : Queues reqId m m' :=
  ⟨h.reqState, h.tierCalls, h.secondaryTiers, fun _ _ hq => .inl ((Queued.congr h.pending).mp hq)⟩

private theorem Queues.trans {m'' : TieringOffloadingManager π} (h : Queues reqId m m')
    (h' : Queues reqId m' m'') : Queues reqId m m'' where
  reqState := h'.reqState.trans h.reqState
  tierCalls := h'.tierCalls.trans h.tierCalls
  secondaryTiers := h'.secondaryTiers.trans h.secondaryTiers
  queued i r hq := (h'.queued i r hq).elim (h.queued i r) .inr

variable [CachePolicy π] [LawfulPolicy π]

/-! ### Queueing -/

/-- A promotion that is queued takes its writes from outside the manager. -/
private theorem Inv.queuePromotion {out : PrepareStoreOutput}
    (h : m.Inv readers (writers + (out.keysToStore.zip out.storeSpec)))
    (hlen : out.storeSpec.length = out.keysToStore.length) :
    (m.queuePromotion tierIdx ctx out).Inv readers writers := by
  set tierPending := (m.pendingLoadSubmissions.get? tierIdx).getD ∅ with htierPending
  set entry := (tierPending.get? ctx.reqId).getD { ctx } with hentry
  -- What is queued for the tier is well formed, also if nothing is.
  have htier : ∀ r e, tierPending.get? r = some e →
      e.ctx.reqId = r ∧ e.chunkIds.length = e.keys.length := by
    intro r e he
    cases hget : m.pendingLoadSubmissions.get? tierIdx with
    | none =>
      rw [htierPending, hget] at he
      cases he
    | some byCtx =>
      rw [htierPending, hget] at he
      exact h.pending _ _ _ _ hget he
  have hold : entry.ctx.reqId = ctx.reqId ∧ entry.chunkIds.length = entry.keys.length := by
    cases hget : tierPending.get? ctx.reqId with
    | none =>
      rw [hentry, hget]
      exact ⟨rfl, rfl⟩
    | some e =>
      rw [hentry, hget]
      exact htier _ e hget
  have hqueue : (m.queuePromotion tierIdx ctx out).pendingLoadSubmissions =
      m.pendingLoadSubmissions.set tierIdx (tierPending.set ctx.reqId { entry with
        keys := entry.keys ++ out.keysToStore
        chunkIds := entry.chunkIds ++ out.storeSpec }) := rfl
  refine ⟨h.uses.congr rfl rfl ?_, h.jobs, fun i byCtx r e hi he => ?_, h.deferred, h.running⟩
  · have husers : pendingUsers (m.queuePromotion tierIdx ctx out).pendingLoadSubmissions =
        pendingUsers m.pendingLoadSubmissions + (out.keysToStore.zip out.storeSpec) := by
      refine total_set_add (fun _ byCtx => entryUsers byCtx) ?_
      rw [part_eq_getD (v := ∅) _ rfl]
      refine total_set_add (fun _ e => (users e : Multiset User)) ?_
      rw [part_eq_getD (v := { ctx }) _ rfl]
      exact congrArg _ (zip_append hold.2.symm)
    rw [husers]
    change _ = jobUsers m.jobs true + _ + _
    abel
  · rw [hqueue, get?_set] at hi
    split_ifs at hi
    · obtain rfl := Option.some.inj hi
      rw [get?_set] at he
      split_ifs at he with hr
      · obtain rfl := Option.some.inj he
        refine ⟨hold.1.trans hr.symm, ?_⟩
        rw [length_append, length_append, hold.2, hlen]
      · exact htier r e he
    · exact h.pending i byCtx r e hi he

section

variable (h : m.Inv readers writers)

include h

/-- A store of the primary tier: what it admits is written from outside the manager. -/
theorem Inv.prepareStoreCall {keys : List OffloadKey} (hnodup : keys.Nodup) :
    Ends (TieringOffloadingManager.cpuCall (CPUOffloadingManager.prepareStore keys ctx)) m
      (fun r m' => (∃ p, m' = { m with primaryTier := p }) ∧ match r with
        | none => m'.Inv readers writers
        | some out => out.storeSpec.length = out.keysToStore.length ∧
            m'.Inv readers (writers + (out.keysToStore.zip out.storeSpec)))
      fun m' => m'.Inv readers writers ∧ ∃ p, m' = { m with primaryTier := p } := by
  rw [TieringOffloadingManager.cpuCall, primaryCall, CPUPrimaryTier.inherited,
    Ends.zoom_iff, Ends.zoom_iff]
  refine (h.uses.2.prepareStore hnodup).mono (fun r cpu hr => ⟨⟨_, rfl⟩, ?_⟩) fun cpu hcpu =>
    ⟨⟨⟨h.uses.1, hcpu⟩, h.jobs, h.pending, h.deferred, h.running⟩, _, rfl⟩
  cases r with
  | none => exact ⟨⟨h.uses.1, hr⟩, h.jobs, h.pending, h.deferred, h.running⟩
  | some out =>
    obtain ⟨hlen, huses⟩ := hr
    rw [add_assoc] at huses
    exact ⟨hlen, ⟨h.uses.1, huses⟩, h.jobs, h.pending, h.deferred, h.running⟩

/-- Where a load comes from is no part of the pool. -/
protected theorem Inv.learnSources (tierIdx : ℕ) (ctx : ReqContext)
    (keys : List OffloadKey) : (m.learnSources tierIdx ctx keys).Inv readers writers ∧
      Quiet m (m.learnSources tierIdx ctx keys) := by
  rw [learnSources]
  split
  · exact ⟨h.other ⟨rfl, rfl, rfl, rfl, rfl, rfl⟩, rfl, rfl, rfl, rfl⟩
  · exact ⟨h, Quiet.refl⟩

/-- A promotion takes a chunk to write, or fails and takes none. -/
protected theorem Inv.initiatePromotion (tierIdx : ℕ) (key : OffloadKey) (ctx : ReqContext) :
    Ends (initiatePromotion tierIdx key ctx) m
      (fun _ m' => m'.Inv readers writers ∧ Queues ctx.reqId m m')
      fun m' => m'.Inv readers writers ∧ Queues ctx.reqId m m' := by
  rw [initiatePromotion, Ends.bind_iff]
  refine (h.prepareStoreCall (nodup_singleton key)).mono (fun r m1 hr => ?_) ?_
  · obtain ⟨⟨p, rfl⟩, hr⟩ := hr
    cases r with
    | none => exact Ends.pure_iff.mpr ⟨hr, ⟨rfl, rfl, rfl, fun _ _ hq => .inl hq⟩⟩
    | some out =>
      obtain ⟨hlen, h1⟩ := hr
      obtain ⟨h2, hquiet⟩ := h1.learnSources tierIdx ctx _
      refine ⟨h2.queuePromotion hlen, ?_⟩
      refine (((Quiet.primary m p).trans hquiet).queues _).trans ?_
      exact ⟨rfl, rfl, rfl, fun _ _ hq => queued_queuePromotion hq⟩
  · rintro m' ⟨h', p, rfl⟩
    exact ⟨h', ⟨rfl, rfl, rfl, fun _ _ hq => .inl hq⟩⟩

/-- The first tier that holds the key promotes it. -/
protected theorem Inv.lookupTiers (answers : TierAnswers) (key : OffloadKey)
    (ctx : ReqContext) (tiers : List ℕ) (anyRetry : Bool) :
    Ends (lookupTiers answers key ctx tiers anyRetry) m
      (fun _ m' => m'.Inv readers writers ∧ Queues ctx.reqId m m')
      fun m' => m'.Inv readers writers ∧ Queues ctx.reqId m m' := by
  induction tiers generalizing anyRetry with
  | nil => exact Ends.pure_iff.mpr ⟨h, Quiet.refl.queues _⟩
  | cons tierIdx tiers ih =>
    rw [lookupTiers]
    -- Only a tier that has the key ends the loop.
    cases answers.lookup tierIdx with
    | hit =>
      rw [Ends.bind_iff]
      exact (h.initiatePromotion tierIdx key ctx).mono (fun _ _ h' => Ends.pure_iff.mpr h') fun _ h' => h'
    | retry => exact ih true
    | miss => exact ih _
    | hitPending => exact ih _

/-- A lookup queues promotions of its own request at most. -/
protected theorem Inv.lookup (key : OffloadKey) (ctx : ReqContext) (excludeTierIdx : Option ℕ)
    (hreported : m.processedJobsThisStep = false → m.Reported answers m.tierIndexes) :
    Ends (lookup answers key ctx excludeTierIdx) m
      (fun _ m' => m'.Inv readers writers ∧ Queues ctx.reqId m m')
      fun m' => m'.Inv readers writers ∧ Queues ctx.reqId m m' := by
  rw [lookup, Ends.bind_iff]
  refine Ends.of_returns ((h.maybeProcessFinishedJobs hreported).mono ?_)
  rintro _ m1 ⟨h1, hquiet⟩
  have hqueues := hquiet.queues ctx.reqId
  rw [Ends.bind_iff, Ends.get_iff]
  split
  · exact Ends.pure_iff.mpr ⟨h1, hqueues⟩
  · exact Ends.pure_iff.mpr ⟨h1, hqueues⟩
  · split_ifs
    · exact Ends.pure_iff.mpr ⟨h1, hqueues⟩
    · exact (h1.lookupTiers answers key ctx _ false).mono (fun _ _ h' => ⟨h'.1, hqueues.trans h'.2⟩)
        fun _ h' => ⟨h'.1, hqueues.trans h'.2⟩

end

/-! ### Flushing -/

/-- The state with an empty queue, as it is at the end of the flush. -/
def flushed (m : TieringOffloadingManager π) : TieringOffloadingManager π :=
  { m with pendingLoadSubmissions := ∅ }

/-- The loads of one tier are submitted; the queue is emptied later. -/
private theorem Inv.submitPromotions {entries : List PendingPromotion} {P : ℕ × TierCall → Prop}
    (h : m.flushed.Inv readers (writers + (entries.flatMap users)))
    (hlen : ∀ e ∈ entries, e.chunkIds.length = e.keys.length)
    (hP : ∀ e ∈ entries, ∀ job : TransferJob, job.ctx = e.ctx → P (tierIdx, .submitLoad job)) :
    Returns (forAll (submitPromotion tierIdx) entries) m fun _ m' =>
      m'.flushed.Inv readers writers ∧ Becomes m.reqState P m m' := by
  induction entries generalizing m with
  | nil =>
    rw [flatMap_nil, coe_nil, add_zero] at h
    exact pure_iff.mpr ⟨h, Quiet.refl.becomes⟩
  | cons e entries ih =>
    rw [flatMap_cons, ← coe_add, add_left_comm, add_comm] at h
    rw [Lib.forAll, bind_iff, submitPromotion, registerJob_iff, callTier, modify_iff]
    generalize hjob : (⟨m.jobIdCounter, e.keys, e.chunkIds, true, e.ctx⟩ : TransferJob) = job
    have hnext : (flushed { m.register job tierIdx with
        tierCalls := m.tierCalls ++ [(tierIdx, .submitLoad job)] }).Inv readers
        (writers + (entries.flatMap users)) := by
      have hregister : (m.flushed.register job tierIdx).Inv readers
          (writers + (entries.flatMap users)) := by
        refine register ?_ (hjob ▸ hlen e (.head _)) (hjob ▸ rfl)
        rw [JobMetadata.usersOf, ← hjob, if_neg (by decide : ¬true = false),
          add_zero]
        exact h
      exact hregister.other ⟨rfl, rfl, rfl, rfl, rfl, rfl⟩
    refine (ih hnext (fun e' he' => hlen e' (.tail _ he'))
      fun e' he' => hP e' (.tail _ he')).mono fun _ m' h' => ⟨h'.1, Becomes.keep ?_ h'.2⟩
    refine ⟨rfl, rfl, rfl, [(tierIdx, .submitLoad job)], rfl, fun c hc => ?_⟩
    rw [mem_singleton.mp hc]
    exact hP e (.head _) job (hjob ▸ rfl)

/-- What the flush does: every load it submits was queued, and the queue is empty. -/
structure Flushes (m m' : TieringOffloadingManager π) : Prop where
  reqState : m'.reqState = m.reqState
  pending : m'.pendingLoadSubmissions = ∅
  secondaryTiers : m'.secondaryTiers = m.secondaryTiers
  calls : ∃ calls, m'.tierCalls = m.tierCalls ++ calls ∧
    ∀ c ∈ calls, ∃ job, c.2 = .submitLoad job ∧ m.Queued c.1 job.ctx.reqId

/-- The queue is empty afterwards, and each promotion is a job. -/
protected theorem Inv.flushPendingPromotions (h : m.Inv readers writers) :
    Returns flushPendingPromotions m fun _ m' => m'.Inv readers writers ∧ Flushes m m' := by
  -- The users that are queued are those of the entries, tier by tier.
  have husers : pendingUsers m.pendingLoadSubmissions = ((m.pendingLoadSubmissions.entries.flatMap
      fun e => e.2.values.flatMap users)) := by
    refine trans ?_ (total_coe (fun _ (byCtx : Dict String PendingPromotion) =>
      byCtx.values.flatMap users))
    rw [pendingUsers]
    congr 1
    funext _ byCtx
    exact total_values
  have hstart : m.flushed.Inv readers (writers + (m.pendingLoadSubmissions.entries.flatMap
      fun e => e.2.values.flatMap users)) := by
    refine ⟨h.uses.congr rfl rfl ?_, h.jobs, fun i byCtx r e hi => (nomatch hi), h.deferred,
      h.running⟩
    rw [← husers]
    change _ = jobUsers m.jobs true + 0 + _
    abel
  rw [flushPendingPromotions, bind_iff, get_iff, bind_iff]
  refine (forAll (P := fun l
    m1 => m1.flushed.Inv readers
      (writers + (l.flatMap fun e => e.2.values.flatMap users)) ∧
    Becomes _ (fun c => ∃ job, c.2 = .submitLoad job ∧ m.Queued c.1 job.ctx.reqId) m m1 ∧
    ∀ e ∈ l, m.pendingLoadSubmissions.get? e.1 = some e.2) (fun e l m1 hP => ?_)
    ⟨hstart, Quiet.refl.becomes, fun e he => mem_entries.mp he⟩).mono fun _ m' hm' => ?_
  · obtain ⟨h1, hlogs, hl⟩ := hP
    have htier := hl e (.head _)
    rw [flatMap_cons, ← coe_add, add_left_comm, add_comm] at h1
    refine (h1.submitPromotions (fun entry hentry => ?_) fun entry hentry job hjob => ?_).mono
      fun _ m2 hm2 => ⟨hm2.1, hlogs.keep hm2.2, fun e' he' => hl e' (.tail _ he')⟩
    · obtain ⟨r, hr⟩ := mem_values.mp hentry
      exact (h.pending _ _ _ _ htier hr).2
    · obtain ⟨r, hr⟩ := mem_values.mp hentry
      refine ⟨job, rfl, e.2, entry, htier, ?_⟩
      rw [hjob, (h.pending _ _ _ _ htier hr).1, hr]
  · obtain ⟨h', hlogs, -⟩ := hm'
    rw [flatMap_nil, coe_nil, add_zero] at h'
    rw [modify_iff]
    exact ⟨h', hlogs.reqState, rfl, hlogs.secondaryTiers, hlogs.calls⟩

end TieringOffloadingManager

end Sonar.Offload
