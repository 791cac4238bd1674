import Sonar.Offload.Tiering

/-!
# The invariant of the tiering manager

Chunks are used by the jobs of the manager, by promotions that are queued, and by users outside the
manager: transfers from and to the GPU. The invariant is the ledger of all of them. It has the users
outside as parameters, so that a part of a call is described by what it takes from them and gives to
them: a job that is popped from the table leaves its users outside, and the end of its transfer removes
them. The table has exactly the jobs that the tiers have (`running`), so what is proved about its jobs is
proved about the transfers of the tiers.
-/

namespace Sonar.Offload

open Lib Returns List Dict
open Prod (fst)
open P2P (OffloadKey JobId)

/-- The chunks a job uses. -/
def TransferJob.users (job : TransferJob) : List User := job.keys.zip job.chunkIds

/-- The chunks a queued promotion uses. -/
def PendingPromotion.users (entry : PendingPromotion) : List User := entry.keys.zip entry.chunkIds

/-- The users of a job in one direction. -/
def JobMetadata.usersOf (isPromotion : Bool) (metadata : JobMetadata) : Multiset User :=
  if metadata.transferJob.isPromotion = isPromotion then metadata.transferJob.users else 0

namespace TieringOffloadingManager

variable {π : Type}

/-- The users of the jobs in one direction. -/
def jobUsers (jobs : Dict JobId JobMetadata) (isPromotion : Bool) : Multiset User :=
  jobs.total fun _ metadata => metadata.usersOf isPromotion

/-- The users of the queued promotions of a tier. -/
def entryUsers (byCtx : Dict String PendingPromotion) : Multiset User :=
  byCtx.total fun _ entry => (entry.users : Multiset User)

/-- The users of the queued promotions. -/
def pendingUsers (pending : Dict ℕ (Dict String PendingPromotion)) : Multiset User :=
  pending.total fun _ byCtx => entryUsers byCtx

/-- The ids with a deferred release. -/
def heldIds (deferredReleases : Dict JobId DeferredRelease) : Multiset ℕ :=
  deferredReleases.total fun _ deferred => (deferred.chunkIds : Multiset ℕ)

variable {m m' m'' : TieringOffloadingManager π} {readers writers : Multiset User}
  {keys : List OffloadKey} {P : ℕ × TierCall → Prop} {d : Dict String RequestState}

/-- The keys of the users of a job. -/
theorem users_keys {chunkIds : List ℕ}
    (hlen : chunkIds.length = keys.length) : (keys.zip chunkIds).map fst = keys :=
  map_fst_zip hlen.ge

/-- The requests, the queue and the calls of the tiers are as before. -/
structure Quiet (m m' : TieringOffloadingManager π) : Prop where
  reqState : m'.reqState = m.reqState
  pending : m'.pendingLoadSubmissions = m.pendingLoadSubmissions
  tierCalls : m'.tierCalls = m.tierCalls
  secondaryTiers : m'.secondaryTiers = m.secondaryTiers

/-- A call that does nothing. -/
theorem Quiet.refl : Quiet m m := ⟨rfl, rfl, rfl, rfl⟩

/-- Two quiet calls in a row. -/
theorem Quiet.trans (h : Quiet m m') (h' : Quiet m' m'') : Quiet m m'' :=
  ⟨h'.reqState.trans h.reqState, h'.pending.trans h.pending, h'.tierCalls.trans h.tierCalls,
    h'.secondaryTiers.trans h.secondaryTiers⟩

/-- Calls of the primary tier are quiet. -/
theorem Quiet.primary (m : TieringOffloadingManager π) (p : CPUPrimaryTier π) :
    Quiet m { m with primaryTier := p } := ⟨rfl, rfl, rfl, rfl⟩

/-- The requests become the given ones, the queue is as before, and the tiers have received calls of one
kind. -/
structure Becomes (reqState : Dict String RequestState) (P : ℕ × TierCall → Prop)
    (m m' : TieringOffloadingManager π) : Prop where
  reqState : m'.reqState = reqState
  pending : m'.pendingLoadSubmissions = m.pendingLoadSubmissions
  secondaryTiers : m'.secondaryTiers = m.secondaryTiers
  calls : ∃ calls, m'.tierCalls = m.tierCalls ++ calls ∧ ∀ c ∈ calls, P c

/-- A quiet call changes no request. -/
theorem Quiet.becomes (h : Quiet m m') : Becomes m.reqState P m m' :=
  ⟨h.reqState, h.pending, h.secondaryTiers, [], by rw [h.tierCalls, append_nil], nofun⟩

/-- What becomes of the requests in two calls. -/
theorem Becomes.trans
    {d' : Dict String RequestState} (h : Becomes d P m m') (h' : Becomes d' P m' m'') :
    Becomes d' P m m'' := by
  obtain ⟨calls, hcalls, hP⟩ := h.calls
  obtain ⟨calls', hcalls', hP'⟩ := h'.calls
  refine ⟨h'.reqState, h'.pending.trans h.pending, h'.secondaryTiers.trans h.secondaryTiers,
    calls ++ calls', ?_, fun c hc => ?_⟩
  · rw [hcalls', hcalls, append_assoc]
  · exact (mem_append.mp hc).elim (hP c) (hP' c)

/-- The second call starts from the requests that the first one leaves. -/
theorem Becomes.keep (h : Becomes d P m m') (h' : Becomes m'.reqState P m' m'') :
    Becomes d P m m'' :=
  h.reqState ▸ h.trans h'

/-- The state after a job is registered and handed over. -/
def register (m : TieringOffloadingManager π) (job : TransferJob) (tierIdx : ℕ) :
    TieringOffloadingManager π :=
  { m with
    jobIdCounter := m.jobIdCounter + 1
    jobs := m.jobs.set m.jobIdCounter ⟨job, tierIdx⟩
    running := m.running.set job.jobId ⟨job, tierIdx⟩ }

variable {ctx : ReqContext}

/-- A job is registered and handed over before anything else happens. -/
theorem registerJob_iff {chunkIds : List ℕ} {isPromotion : Bool} {tierIdx : ℕ} {α : Type}
    {f : TransferJob → TieringM π α} {Q : α → TieringOffloadingManager π → Prop} :
    Returns (do
      let job ← registerJob keys chunkIds isPromotion ctx tierIdx
      handOver job tierIdx
      f job) m Q ↔
      Returns (f { jobId := m.jobIdCounter, keys, chunkIds, isPromotion, ctx })
        (m.register { jobId := m.jobIdCounter, keys, chunkIds, isPromotion, ctx } tierIdx) Q := by
  rw [bind_iff, registerJob, bind_iff, get_iff, bind_iff, set_iff, pure_iff, bind_iff, handOver,
    modify_iff]
  rfl

variable [CachePolicy π] [LawfulPolicy π]

/-- What holds between calls, for the readers and the writers outside the manager. -/
structure Inv (m : TieringOffloadingManager π) (readers writers : Multiset User) : Prop where
  uses : m.primaryTier.Uses (heldIds m.deferredReleases) (jobUsers m.jobs false + readers)
    (jobUsers m.jobs true + pendingUsers m.pendingLoadSubmissions + writers)
  jobs : ∀ j metadata, m.jobs.get? j = some metadata → j < m.jobIdCounter ∧
    metadata.transferJob.chunkIds.length = metadata.transferJob.keys.length
  pending : ∀ i byCtx reqId entry, m.pendingLoadSubmissions.get? i = some byCtx →
    byCtx.get? reqId = some entry → entry.ctx.reqId = reqId ∧
      entry.chunkIds.length = entry.keys.length
  deferred : ∀ j deferred, m.deferredReleases.get? j = some deferred →
    j < m.jobIdCounter ∧ m.jobs.get? j = none
  running : m.running = m.jobs

section

variable (h : m.Inv readers writers)

include h

/-- The rest of the state does not matter. -/
theorem Inv.other
    (hsame : m'.primaryTier = m.primaryTier ∧ m'.jobs = m.jobs ∧ m'.jobIdCounter = m.jobIdCounter ∧
      m'.deferredReleases = m.deferredReleases ∧
      m'.pendingLoadSubmissions = m.pendingLoadSubmissions ∧ m'.running = m.running) :
    m'.Inv readers writers := by
  obtain ⟨hprimary, hjobs, hcounter, hdeferred, hpending, hrunning⟩ := hsame
  refine ⟨?_, ?_, ?_, ?_, hrunning.trans (h.running.trans hjobs.symm)⟩
  · rw [hprimary, hjobs, hdeferred, hpending]
    exact h.uses
  · rw [hjobs, hcounter]
    exact h.jobs
  · rw [hpending]
    exact h.pending
  · rw [hjobs, hcounter, hdeferred]
    exact h.deferred

/-- The requests are no part of the invariant. -/
theorem Inv.withReqState {reqState : Dict String RequestState} :
    Inv { m with reqState } readers writers :=
  h.other ⟨rfl, rfl, rfl, rfl, rfl, rfl⟩

/-! ### Calls of the primary tier -/

/-- A call of the primary tier, with the ledgers that it leaves. -/
theorem Inv.cpuCall {α : Type} {call : ManagerM π α} {readers' writers' : α → Multiset User}
    {Q : α → Prop}
    (hcall : Returns call m.primaryTier.cpu fun a cpu => Q a ∧ cpu.Uses (heldIds m.deferredReleases)
      (jobUsers m.jobs false + readers' a) (jobUsers m.jobs true + pendingUsers m.pendingLoadSubmissions + writers' a)) :
    Returns (cpuCall call) m fun a m' => Q a ∧ m'.Inv (readers' a) (writers' a) ∧
      ∃ p, m' = { m with primaryTier := p } := by
  rw [TieringOffloadingManager.cpuCall, primaryCall,
    CPUPrimaryTier.inherited, zoom_iff, zoom_iff]
  refine hcall.mono fun a cpu hcpu => ?_
  exact ⟨hcpu.1, ⟨⟨h.uses.1, hcpu.2⟩, h.jobs, h.pending, h.deferred, h.running⟩, _, rfl⟩

end

/-- The writes of a list of users end. -/
theorem Inv.endWrites {l : List User} (h : m.Inv readers (writers + l)) {success : Bool} :
    Returns (TieringOffloadingManager.cpuCall
      (CPUOffloadingManager.completeStore (l.map fst) ctx success)) m
      fun _ m' => m'.Inv readers writers ∧ (success = true → ∀ k ∈ l.map fst,
        m'.primaryTier.cpu.lookup k = .hit) ∧ ∃ p, m' = { m with primaryTier := p } := by
  have huses := h.uses.2
  rw [← add_assoc] at huses
  rw [TieringOffloadingManager.cpuCall, primaryCall, CPUPrimaryTier.inherited,
    zoom_iff, zoom_iff]
  refine huses.completeStore.mono fun _ cpu hcpu => ?_
  exact ⟨⟨⟨h.uses.1, hcpu.1⟩, h.jobs, h.pending, h.deferred, h.running⟩, hcpu.2, _, rfl⟩

private theorem Inv.endSome {users : Multiset User} (h : m.Inv readers (writers + users))
    (hkeys : ∀ k ∈ keys, k ∈ users.map fst) {success : Bool} :
    Returns (TieringOffloadingManager.cpuCall (CPUOffloadingManager.completeStore keys ctx success)) m
      fun _ m' => m'.Inv readers (writers + users.filter fun e => e.1 ∉ keys) ∧
        ∃ p, m' = { m with primaryTier := p } := by
  have huses := h.uses.2
  rw [← add_assoc] at huses
  refine (h.cpuCall (Q := fun _ => True) ?_).mono fun _ m' hm' => hm'.2
  refine (huses.completeSome hkeys).mono fun _ _ hcpu => ⟨trivial, ?_⟩
  rw [← add_assoc]
  exact hcpu.1

/-- The reads of a list of users end. -/
theorem Inv.endReads {l : List User} (h : m.Inv (readers + l) writers) :
    Returns (TieringOffloadingManager.cpuCall
      (CPUOffloadingManager.completeLoad (l.map fst))) m
      fun _ m' => m'.Inv readers writers ∧ ∃ p, m' = { m with primaryTier := p } := by
  have huses := h.uses.2
  rw [← add_assoc] at huses
  refine (h.cpuCall (Q := fun _ => True) ?_).mono fun _ m' hm' => hm'.2
  exact huses.completeLoad.mono fun _ _ hcpu => ⟨trivial, hcpu⟩

/-- Reads begin outside the manager, of keys that are ready. -/
theorem Inv.beginReads {recordAccess : Bool}
    (h : m.Inv readers writers) (hready : ∀ k ∈ keys, m.primaryTier.cpu.lookup k = .hit)
    (hlive : recordAccess = true → m.primaryTier.cpu.Live ctx) :
    Returns (TieringOffloadingManager.cpuCall
      (CPUOffloadingManager.prepareLoadWith recordAccess keys ctx)) m
      fun ids m' => ids.length = keys.length ∧ m'.Inv (readers + (keys.zip ids)) writers ∧
        (∀ k, m.primaryTier.cpu.lookup k = .hit → m'.primaryTier.cpu.lookup k = .hit) ∧
        ∃ p, m' = { m with primaryTier := p } := by
  rw [TieringOffloadingManager.cpuCall, primaryCall, CPUPrimaryTier.inherited,
    zoom_iff, zoom_iff]
  refine (h.uses.2.prepareLoadWith hready hlive).mono fun ids cpu hcpu => ?_
  obtain ⟨hlen, huses, hhit⟩ := hcpu
  rw [add_assoc] at huses
  exact ⟨hlen, ⟨⟨h.uses.1, huses⟩, h.jobs, h.pending, h.deferred, h.running⟩, hhit, _, rfl⟩

/-! ### Jobs -/

/-- A job that is popped leaves its users outside the manager. -/
theorem Inv.pop {j : JobId} {metadata : JobMetadata} (h : m.Inv readers writers)
    (hget : m.jobs.get? j = some metadata) :
    Inv { m with jobs := m.jobs.erase j, running := m.running.erase j }
      (readers + metadata.usersOf false) (writers + metadata.usersOf true) := by
  have hsplit : ∀ isPromotion, jobUsers m.jobs isPromotion = metadata.usersOf isPromotion +
      jobUsers (m.jobs.erase j) isPromotion := by
    intro isPromotion
    rw [jobUsers, total_erase _ m.jobs j, part_of_get? _ hget, jobUsers]
  refine ⟨h.uses.congr rfl ?_ ?_, fun j' md hj => ?_, h.pending, fun j' r hj => ?_,
    congrArg (erase · j) h.running⟩
  · rw [hsplit]
    abel
  · rw [hsplit]
    abel
  · rw [get?_erase] at hj
    split_ifs at hj
    exact h.jobs j' md hj
  · obtain ⟨hlt, hnone⟩ := h.deferred j' r hj
    refine ⟨hlt, ?_⟩
    rw [get?_erase, hnone, ite_self]

/-- A job that is registered takes its users from outside the manager. -/
theorem Inv.register {job : TransferJob} {tierIdx : ℕ}
    (h : m.Inv (readers + JobMetadata.usersOf false ⟨job, tierIdx⟩)
      (writers + JobMetadata.usersOf true ⟨job, tierIdx⟩))
    (hlen : job.chunkIds.length = job.keys.length) (hid : job.jobId = m.jobIdCounter) :
    (m.register job tierIdx).Inv readers writers := by
  -- The counter is new in the table.
  have hnew : m.jobs.get? m.jobIdCounter = none := by
    refine Option.eq_none_iff_forall_not_mem.mpr fun md hmd => ?_
    exact absurd (h.jobs _ md hmd).1 (lt_irrefl _)
  have hset : ∀ p, jobUsers (m.register job tierIdx).jobs p =
      jobUsers m.jobs p + JobMetadata.usersOf p ⟨job, tierIdx⟩ := by
    intro p
    refine total_set_add _ ?_
    rw [part_of_none _ hnew, zero_add]
  refine ⟨h.uses.congr rfl ?_ ?_, fun j md hj => ?_, h.pending, fun j r hj => ?_, ?_⟩
  · rw [hset]
    abel
  · rw [hset]
    change _ = _ + pendingUsers m.pendingLoadSubmissions + _
    abel
  · change (m.jobs.set _ _).get? j = some md at hj
    rw [get?_set] at hj
    split_ifs at hj with heq
    · obtain rfl := Option.some.inj hj
      exact ⟨heq ▸ Nat.lt_succ_self _, hlen⟩
    · exact ⟨Nat.lt_succ_of_lt (h.jobs j md hj).1, (h.jobs j md hj).2⟩
  · obtain ⟨hlt, hnone⟩ := h.deferred j r hj
    refine ⟨Nat.lt_succ_of_lt hlt, ?_⟩
    change (m.jobs.set _ _).get? j = none
    rw [get?_set_of_ne (ne_of_lt hlt), hnone]
  · change m.running.set _ _ = m.jobs.set _ _
    rw [hid, h.running]

/-! ### Finished jobs -/

end TieringOffloadingManager

/-- The result fits the job: the keys that succeeded are keys of the job, and a release is deferred only
for a promotion with keys that failed. -/
structure JobResult.Fits (result : JobResult) (job : TransferJob) : Prop where
  known : ∀ keys, result.successfulKeys = some keys → ∀ k ∈ keys, k ∈ job.keys
  deferred : result.deferredRelease = true → job.isPromotion = true ∧ result.success = false ∧
    ∃ k ∈ job.keys, ∀ keys, result.successfulKeys = some keys → k ∉ keys

private theorem JobResult.Fits.promotedKeys {result : JobResult} {job : TransferJob} (h : result.Fits job) :
    ∃ successfulKeys, (∀ k ∈ successfulKeys, k ∈ job.keys) ∧
      result.promotedKeys job = .ok (successfulKeys, job.keys.filter (· ∉ successfulKeys)) ∧
      (result.deferredRelease = true → job.keys.filter (· ∉ successfulKeys) ≠ []) := by
  rw [JobResult.promotedKeys]
  by_cases hsuccess : result.success = true
  · refine ⟨job.keys, fun _ hk => hk, ?_, fun hdeferred => ?_⟩
    · rw [if_pos hsuccess, filter_eq_nil_iff.mpr fun k hk => by simp [hk]]
    · exact absurd hsuccess (Bool.eq_false_iff.mp (h.deferred hdeferred).2.1)
  · rw [if_neg hsuccess]
    split
    · rename_i key keys heq
      have hsub := h.known _ heq
      rw [if_pos (all_eq_true.mpr fun k hk => decide_eq_true (hsub k hk))]
      refine ⟨key :: keys, hsub, rfl, fun hdeferred => ?_⟩
      obtain ⟨-, -, k, hk, hfailed⟩ := h.deferred hdeferred
      exact ne_nil_of_mem (mem_filter.mpr ⟨hk, decide_eq_true (hfailed _ heq)⟩)
    · -- Without successful keys everything failed.
      have hall : job.keys.filter (fun k => k ∉ ([])) = job.keys :=
        filter_eq_self.mpr fun _ _ => by simp
      refine ⟨[], fun _ hk => (nomatch hk), by rw [hall], fun hdeferred => ?_⟩
      obtain ⟨-, -, k, hk, -⟩ := h.deferred hdeferred
      rw [hall]
      exact ne_nil_of_mem hk

namespace TieringOffloadingManager

variable {π : Type} [CachePolicy π] [LawfulPolicy π] {m m' : TieringOffloadingManager π}
  {readers writers : Multiset User}

variable {tierIdx : ℕ}

/-- Failed writes outside the manager are released later. -/
private theorem Inv.deferWrites {l : List User} {j : JobId} (h : m.Inv readers (writers + l))
    (hj : j < m.jobIdCounter ∧ m.jobs.get? j = none) (hnew : m.deferredReleases.get? j = none)
    : Returns (do
      let chunkIds ← primaryCall
        (CPUPrimaryTier.deferWriteRelease (l.map fst))
      modify fun m => { m with
        deferredReleases := m.deferredReleases.set j ⟨tierIdx, chunkIds⟩ } : TieringM π PUnit) m
      fun _ m' => m'.Inv readers writers ∧ Quiet m m' ∧ m'.jobs = m.jobs := by
  have huses := h.uses
  rw [← add_assoc] at huses
  rw [bind_iff]
  refine zoom_iff.mpr (huses.deferWriteRelease.mono ?_)
  rintro ids p ⟨-, hp⟩
  rw [modify_iff]
  refine ⟨⟨?_, h.jobs, h.pending, fun j' r hj' => ?_, h.running⟩, ⟨rfl, rfl, rfl, rfl⟩, rfl⟩
  · refine hp.congr ?_ rfl rfl
    rw [heldIds, heldIds, total_set, erase_of_get?_none hnew, add_comm]
  · rw [get?_set] at hj'
    split_ifs at hj' with heq
    · exact heq ▸ hj
    · exact h.deferred j' r hj'

/-- Where failed loads came from is forgotten, and nothing else. -/
protected theorem Inv.forgetSources (h : m.Inv readers writers) (metadata : JobMetadata)
    (failedKeys : List OffloadKey) : (m.forgetSources metadata failedKeys).Inv readers writers ∧
      Quiet m (m.forgetSources metadata failedKeys) ∧
      (m.forgetSources metadata failedKeys).jobs = m.jobs ∧
      (m.forgetSources metadata failedKeys).jobIdCounter = m.jobIdCounter ∧
      (m.forgetSources metadata failedKeys).deferredReleases = m.deferredReleases := by
  rw [forgetSources]
  split
  · exact ⟨h.other ⟨rfl, rfl, rfl, rfl, rfl, rfl⟩, ⟨rfl, rfl, rfl, rfl⟩, rfl, rfl, rfl⟩
  · exact ⟨h, Quiet.refl, rfl, rfl, rfl⟩

variable {metadata : JobMetadata} {result : JobResult} {answers : TierAnswers}

/-- The chunks of failed keys are released, now or later. -/
protected theorem Inv.releaseFailed {l : List User} (h : m.Inv readers (writers + l))
    (hj : result.jobId < m.jobIdCounter ∧ m.jobs.get? result.jobId = none)
    (hnew : m.deferredReleases.get? result.jobId = none)
    (hdeferred : result.deferredRelease = true → l.map fst ≠ []) :
    Returns (releaseFailed metadata result (l.map fst)) m fun _ m' => m'.Inv readers writers ∧
      Quiet m m' ∧ m'.jobs = m.jobs := by
  rw [releaseFailed]
  split_ifs with hempty hdef hdef
  · exact absurd (isEmpty_iff.mp hempty) (hdeferred hdef)
  · rw [List.isEmpty_iff, map_eq_nil_iff] at hempty
    rw [hempty, Multiset.coe_nil, add_zero] at h
    exact pure_iff.mpr ⟨h, Quiet.refl, rfl⟩
  · exact h.deferWrites hj hnew
  · refine h.endWrites.mono ?_
    rintro _ m' ⟨h', -, p, rfl⟩
    exact ⟨h', ⟨rfl, rfl, rfl, rfl⟩, rfl⟩

/-- The end of a promotion that was popped: the writes of its keys succeed, fail, or fail with a release
that is deferred. -/
protected theorem Inv.completePromotion (h : m.Inv readers (writers + metadata.transferJob.users))
    (hlen : metadata.transferJob.chunkIds.length = metadata.transferJob.keys.length)
    (hfits : result.Fits metadata.transferJob)
    (hj : result.jobId < m.jobIdCounter ∧ m.jobs.get? result.jobId = none)
    (hnew : m.deferredReleases.get? result.jobId = none) :
    Returns (completePromotion metadata result) m fun _ m' => m'.Inv readers writers ∧ Quiet m m' ∧
      m'.jobs = m.jobs := by
  obtain ⟨successfulKeys, hsub, hkeys, hdeferred⟩ := hfits.promotedKeys
  -- The users that are left after the successful keys are those of the failed keys.
  have hfailed : metadata.transferJob.keys.filter (· ∉ successfulKeys) =
      (metadata.transferJob.users.filter fun e => e.1 ∉ successfulKeys).map fst := by
    conv_lhs => rw [← users_keys hlen, filter_map]
    rfl
  rw [completePromotion, hkeys]
  rw [bind_iff, modify_iff]
  obtain ⟨h1, hquiet1, hjobs1, hcounter1, hdeferred1⟩ := h.forgetSources _
    _
  rw [← hcounter1, ← hjobs1] at hj
  rw [← hdeferred1] at hnew
  generalize m.forgetSources metadata _ = m1 at h1 hquiet1 hjobs1 hj hnew ⊢
  rw [hfailed] at hdeferred ⊢
  split_ifs with hempty
  · rw [List.isEmpty_iff] at hempty
    have hall : (metadata.transferJob.users.filter fun e => e.1 ∉ successfulKeys) =
        metadata.transferJob.users := filter_eq_self.mpr fun _ _ => by simp [hempty]
    rw [← hall] at h1
    refine (h1.releaseFailed hj hnew hdeferred).mono ?_
    rintro _ m' ⟨h', hquiet, hjobs⟩
    exact ⟨h', hquiet1.trans hquiet, hjobs.trans hjobs1⟩
  · rw [bind_iff]
    have hmem : ∀ k ∈ successfulKeys,
        k ∈ (metadata.transferJob.users : Multiset User).map fst := fun k hk => by
      rw [Multiset.map_coe, TransferJob.users, users_keys hlen]
      exact hsub k hk
    refine (h1.endSome hmem).mono ?_
    rintro _ m2 ⟨h2, p, rfl⟩
    refine (Inv.releaseFailed h2 hj hnew hdeferred).mono ?_
    rintro _ m' ⟨h', hquiet, hjobs⟩
    exact ⟨h', hquiet1.trans ⟨hquiet.1, hquiet.2, hquiet.3, hquiet.4⟩, hjobs.trans hjobs1⟩

/-- A tier reports a job that it has. -/
def Reports (m : TieringOffloadingManager π) (tierIdx : ℕ) (result : JobResult) : Prop :=
  ∃ metadata, m.running.get? result.jobId = some metadata ∧ metadata.tierIdx = tierIdx ∧
    result.Fits metadata.transferJob

section

variable (h : m.Inv readers writers)

include h

/-- A job that is reported ends its reads or writes. -/
protected theorem Inv.processFinishedJob (hreports : m.Reports tierIdx result) :
    Returns (processFinishedJob tierIdx result) m fun _ m' => m'.Inv readers writers ∧ Quiet m m' ∧
      m'.jobs = m.jobs.erase result.jobId := by
  obtain ⟨metadata, hget, htier, hfits⟩ := hreports
  rw [h.running] at hget
  obtain ⟨hlt, hlen⟩ := h.jobs _ _ hget
  rw [processFinishedJob, bind_iff, handBack, modify_iff, bind_iff, get_iff, hget]
  rw [bind_iff, set_iff, if_neg (not_not.mpr htier)]
  have hpop := h.pop hget
  rw [JobMetadata.usersOf, JobMetadata.usersOf] at hpop
  cases hdirection : metadata.transferJob.isPromotion with
  | true =>
    rw [hdirection, if_neg (by decide), add_zero] at hpop
    refine (Inv.completePromotion hpop hlen hfits ⟨hlt, get?_erase_self⟩ ?_).mono ?_
    · refine Option.eq_none_iff_forall_not_mem.mpr fun r hr => ?_
      exact Option.some_ne_none _ (hget.symm.trans (h.deferred _ r hr).2)
    · rintro _ m' ⟨h', hquiet, hjobs⟩
      exact ⟨h', ⟨hquiet.1, hquiet.2, hquiet.3, hquiet.4⟩, hjobs⟩
  | false =>
    have hnot : result.deferredRelease = false := by
      refine Bool.eq_false_iff.mpr fun hdeferred => ?_
      exact Bool.false_ne_true (hdirection.symm.trans (hfits.deferred hdeferred).1)
    rw [hdirection, if_neg (by decide : ¬false = true), add_zero, TransferJob.users] at hpop
    rw [hnot]
    have hread := hpop.endReads
    rw [users_keys hlen] at hread
    refine hread.mono ?_
    rintro _ m' ⟨h', p, rfl⟩
    exact ⟨h', ⟨rfl, rfl, rfl, rfl⟩, rfl⟩

/-- A confirmed release frees the ids that it holds. -/
protected theorem Inv.completeDeferredRelease {j : JobId} {r : DeferredRelease}
    (hget : m.deferredReleases.get? j = some r) :
    Returns (completeDeferredRelease j) m fun _ m' => m'.Inv readers writers ∧ Quiet m m' ∧
      m'.jobs = m.jobs ∧ m'.deferredReleases = m.deferredReleases.erase j := by
  rw [completeDeferredRelease, bind_iff, get_iff, hget]
  rw [bind_iff, set_iff]
  have huses := h.uses
  rw [heldIds, total_erase _ _ j, part_of_get? _ hget, add_comm] at huses
  refine zoom_iff.mpr (huses.releaseDeferredWrite.mono fun _ p hp => ?_)
  refine ⟨⟨hp, h.jobs, h.pending, fun j' r' hj' => ?_, h.running⟩, ⟨rfl, rfl, rfl, rfl⟩, rfl, rfl⟩
  rw [get?_erase] at hj'
  split_ifs at hj'
  exact h.deferred j' r' hj'

/-- All confirmed releases of a tier. -/
protected theorem Inv.completeDeferredReleases :
    Returns (completeDeferredReleases answers tierIdx) m fun _ m' => m'.Inv readers writers ∧
      Quiet m m' ∧ m'.jobs = m.jobs := by
  rw [completeDeferredReleases, bind_iff, get_iff]
  -- The releases to come are in the table, each once.
  refine (forAll (P := fun l m1 => m1.Inv readers writers ∧
    Quiet m m1 ∧ m1.jobs = m.jobs ∧ l.Nodup ∧ ∀ j ∈ l, ∃ r, m1.deferredReleases.get? j = some r)
    (fun j l m1 hP => ?_) ⟨h, Quiet.refl, rfl, nodup _, fun j hj => ?_⟩).mono
    fun _ m' hm' => ⟨hm'.1, hm'.2.1, hm'.2.2.1⟩
  · obtain ⟨h1, hquiet, hjobs, hnodup, hmem⟩ := hP
    obtain ⟨hj, hnodup⟩ := nodup_cons.mp hnodup
    obtain ⟨r, hr⟩ := hmem j (.head _)
    refine (h1.completeDeferredRelease hr).mono ?_
    rintro _ m2 ⟨h2, hquiet2, hjobs2, hdeferred⟩
    refine ⟨h2, hquiet.trans hquiet2, hjobs2.trans hjobs, hnodup, fun j' hj' => ?_⟩
    have hne : j' ≠ j := fun heq => hj (heq ▸ hj')
    rw [hdeferred, get?_erase_of_ne hne]
    exact hmem j' (.tail _ hj')
  · obtain ⟨r, hr⟩ := mem_keys.mp hj
    exact ⟨r, (get?_filter_eq_some.mp hr).1⟩

/-- The listed tiers report jobs that they were given, each once. -/
structure Reported (m : TieringOffloadingManager π) (answers : TierAnswers) (tiers : List ℕ) : Prop where
  once : ∀ i ∈ tiers, ((answers.finishedJobs i).map JobResult.jobId).Nodup
  reports : ∀ i ∈ tiers, ∀ result ∈ answers.finishedJobs i, m.Reports i result

/-- The results of a tier are processed; the jobs of the other tiers stay. -/
private theorem Inv.processResults {results : List JobResult} (honce : (results.map JobResult.jobId).Nodup)
    (hreports : ∀ result ∈ results, m.Reports tierIdx result) :
    Returns (forAll (processFinishedJob tierIdx) results) m fun _ m' =>
      m'.Inv readers writers ∧ Quiet m m' ∧ ∀ j metadata, m.jobs.get? j = some metadata →
        metadata.tierIdx ≠ tierIdx → m'.jobs.get? j = some metadata := by
  refine (forAll (P := fun l m1 => m1.Inv readers writers ∧
    Quiet m m1 ∧ (l.map _).Nodup ∧ (∀ result ∈ l, m1.Reports tierIdx result) ∧
    ∀ j metadata, m.jobs.get? j = some metadata → metadata.tierIdx ≠ tierIdx →
      m1.jobs.get? j = some metadata) (fun result l m1 hP => ?_)
    ⟨h, Quiet.refl, honce, hreports, fun _ _ hj _ => hj⟩).mono
    fun _ m' hm' => ⟨hm'.1, hm'.2.1, hm'.2.2.2.2⟩
  obtain ⟨h1, hquiet, hnodup, hreports, hothers⟩ := hP
  obtain ⟨hnew, hnodup⟩ := nodup_cons.mp hnodup
  have hreport := hreports result (.head _)
  refine (h1.processFinishedJob hreport).mono ?_
  rintro _ m2 ⟨h2, hquiet2, hjobs⟩
  refine ⟨h2, hquiet.trans hquiet2, hnodup, fun result' hresult' => ?_, fun j metadata hj htier => ?_⟩
  · obtain ⟨metadata, hget, hrest⟩ := hreports result' (.tail _ hresult')
    have hne : result'.jobId ≠ result.jobId := fun heq =>
      hnew (heq ▸ mem_map_of_mem hresult')
    rw [h1.running] at hget
    exact ⟨metadata, by rw [h2.running, hjobs, get?_erase_of_ne hne, hget], hrest⟩
  · -- The job that was popped is one of this tier.
    have hne : j ≠ result.jobId := by
      rintro rfl
      obtain ⟨metadata', hget, htier', -⟩ := hreport
      rw [h1.running] at hget
      obtain rfl := Option.some.inj (hget.symm.trans (hothers _ _ hj htier))
      exact htier htier'
    rw [hjobs, get?_erase_of_ne hne, hothers j _ hj htier]

/-- The reports of all tiers, each for jobs that it was given. -/
theorem Inv.processFinishedJobs {tiers : List ℕ}
    (htiers : tiers.Nodup) (hreported : m.Reported answers tiers) :
    Returns (processFinishedJobs answers tiers) m fun _ m' => m'.Inv readers writers ∧ Quiet m m' := by
  refine (forAll (P := fun l m1 => m1.Inv readers writers ∧
    Quiet m m1 ∧ l.Nodup ∧ m1.Reported answers l) (fun i l m1 hP => ?_)
    ⟨h, Quiet.refl, htiers, hreported⟩).mono fun _ m' hm' => ⟨hm'.1, hm'.2.1⟩
  obtain ⟨h1, hquiet, htiers, honce, hreports⟩ := hP
  obtain ⟨hi, htiers⟩ := nodup_cons.mp htiers
  rw [bind_iff]
  refine (h1.processResults (honce i (.head _)) (hreports i (.head _))).mono ?_
  rintro _ m2 ⟨h2, hquiet2, hothers⟩
  refine h2.completeDeferredReleases.mono ?_
  rintro _ m3 ⟨h3, hquiet3, hjobs⟩
  refine ⟨h3, (hquiet.trans hquiet2).trans hquiet3, htiers,
    fun i' hi' => honce i' (.tail _ hi'), fun i' hi' result hresult => ?_⟩
  obtain ⟨metadata, hget, htier, hfits⟩ := hreports i' (.tail _ hi') result hresult
  have hne : metadata.tierIdx ≠ i := by
    rintro rfl
    exact hi (htier ▸ hi')
  rw [h1.running] at hget
  exact ⟨metadata, by rw [h3.running, hjobs, hothers _ _ hget hne], htier, hfits⟩

/-- The gate of the polling is no part of the invariant. -/
theorem Inv.gate (gate : Bool) : Inv { m with processedJobsThisStep := gate } readers writers :=
  h.other ⟨rfl, rfl, rfl, rfl, rfl, rfl⟩

/-- The reports are processed in the first call of a step. -/
protected theorem Inv.maybeProcessFinishedJobs
    (hreported : m.processedJobsThisStep = false → m.Reported answers m.tierIndexes) :
    Returns (maybeProcessFinishedJobs answers) m fun _ m' => m'.Inv readers writers ∧ Quiet m m' := by
  rw [maybeProcessFinishedJobs, bind_iff, get_iff]
  split_ifs with hgate
  · exact pure_iff.mpr ⟨h, Quiet.refl⟩
  · obtain ⟨honce, hreports⟩ := hreported (Bool.eq_false_iff.mpr hgate)
    refine ((h.gate true).processFinishedJobs nodup_range ⟨honce, hreports⟩).mono ?_
    rintro _ m' ⟨h', hquiet⟩
    exact ⟨h', hquiet.1, hquiet.2, hquiet.3, hquiet.4⟩

end

end TieringOffloadingManager

end Sonar.Offload
