import Sonar.P2P.Server

/-!
# Transfers on the transport

The history `live` has the transfers that the transport accepted and has not reported done, failed
or stopped. The role knows them only through its own table: `inflight` has to hold every live
transfer (`ServerRole.Records`), or the role would take the blocks of a running transfer for free.

Most of the role touches neither of the two (`Silent`). An entry leaves the table in `_inflight_pop`
only, and each of its callers pops what the transport has just reported (`Pops`): the
cancel leaves stuck transfers live, so a caller that popped those as well would not pass here.
-/

namespace Sonar.P2P

open Lib List Dict

namespace ServerRole

variable {s t : ServerRole} {α β : Type} {m : ServerM α} {f : α → ServerM β}

/-- The role's table and the transfers on the transport. -/
def wire (s : ServerRole) : Dict TransferId InflightXfer × Dict TransferId InflightXfer :=
  (s.inflight, s.live)

/-- Every transfer on the transport is in the role's table. -/
def Records (s : ServerRole) : Prop :=
  ∀ tid x, s.live.get? tid = some x → s.inflight.get? tid = some x

/-- No transfer of a round is on the transport. -/
def Stopped (s : ServerRole) (kvRequestId : KvRequestId) (roundKey : ℕ) : Prop :=
  ∀ tid x, s.live.get? tid = some x → x.kvRequestId = kvRequestId → x.roundKey ≠ roundKey

/-- A computation that touches neither the table nor the transport, also when it raises. -/
def Silent (m : ServerM α) : Prop :=
  ∀ s, Ends m s (fun _ s' => s'.wire = s.wire) fun s' => s'.wire = s.wire

/-- A computation that keeps every live transfer in the table, also when it raises. -/
def Tracks (m : ServerM α) : Prop :=
  ∀ s, s.Records → Ends m s (fun _ s' => s'.Records) fun s' => s'.Records

/-- Only what is on the wire and in the table matters. -/
theorem Records.congr (h : s.Records) (hwire : t.wire = s.wire) : t.Records := by
  obtain ⟨hinflight, hlive⟩ := Prod.mk.inj hwire
  intro tid x hx
  rw [hinflight]
  exact h tid x (hlive ▸ hx)

/-- A transport that forgets transfers leaves the rest in the table. -/
private theorem Records.filter (h : s.Records) (p : TransferId → InflightXfer → Bool)
    (hwire : t.wire = (s.inflight, s.live.filter p)) : t.Records := by
  obtain ⟨hinflight, hlive⟩ := Prod.mk.inj hwire
  intro tid x hx
  rw [hlive, get?_filter_eq_some] at hx
  rw [hinflight]
  exact h tid x hx.1

private theorem Records.cancel (h : s.Records) (env : Transport) (tids : List TransferId) :
    (s.cancel env tids).Records :=
  h.filter (fun tid _ => decide (tid ∉ tids) || env.stuck tid) rfl

/-! ### Rules -/

/-- A program that leaves the wire and the table alone. -/
theorem Silent.tracks (h : Silent m) : Tracks m := fun s hs =>
  (h s).mono (fun _ _ hwire => hs.congr hwire) fun _ hwire => hs.congr hwire

private theorem Silent.after (h : Silent m) (hwire : t.wire = s.wire) :
    Ends m t (fun _ s' => s'.wire = s.wire) fun s' => s'.wire = s.wire :=
  (h t).mono (fun _ _ h' => h'.trans hwire) fun _ h' => h'.trans hwire

private theorem Silent.bind (hm : Silent m) (hf : ∀ a, Silent (f a)) : Silent (m >>= f) := fun s => by
  rw [Ends.bind_iff]
  exact (hm s).mono (fun a s' hwire => (hf a).after hwire) fun _ hwire => hwire

/-- One program after another. -/
theorem Tracks.bind (hm : Tracks m) (hf : ∀ a, Tracks (f a)) : Tracks (m >>= f) := fun s hs => by
  rw [Ends.bind_iff]
  exact (hm s hs).mono (fun a s' hs' => hf a s' hs') fun _ hs' => hs'

/-- Nothing happens. -/
theorem silent_pure (a : α) : Silent (pure a : ServerM α) := fun _ => rfl

private theorem silent_get : Silent (get : ServerM ServerRole) := fun _ => rfl

private theorem silent_throw (e : RoleError) : Silent (throw e : ServerM α) := fun _ => rfl

private theorem silent_modify {g : ServerRole → ServerRole} (h : ∀ s, (g s).wire = s.wire) :
    Silent (modify g : ServerM PUnit) := h

private theorem Silent.ite {c : Prop} [Decidable c] {m' : ServerM α} (h : Silent m) (h' : Silent m') :
    Silent (if c then m else m') := by
  split_ifs
  · exact h
  · exact h'

private theorem Tracks.ite {c : Prop} [Decidable c] {m' : ServerM α} (h : Tracks m) (h' : Tracks m') :
    Tracks (if c then m else m') := by
  split_ifs
  · exact h
  · exact h'

private theorem Silent.forAll {ι : Type} {g : ι → ServerM PUnit} (h : ∀ i, Silent (g i)) (l : List ι) :
    Silent (forAll g l) := by
  induction l with
  | nil => exact silent_pure _
  | cons i l ih => exact (h i).bind fun _ => ih

private theorem Tracks.forAll {ι : Type} {g : ι → ServerM PUnit} (h : ∀ i, Tracks (g i)) (l : List ι) :
    Tracks (forAll g l) := by
  induction l with
  | nil => exact (silent_pure _).tracks
  | cons i l ih => exact (h i).bind fun _ => ih

private theorem Tracks.collect {ι : Type} {g : ι → ServerM (List β)} (h : ∀ i, Tracks (g i))
    (l : List ι) : Tracks (collect g l) := by
  induction l with
  | nil => exact (silent_pure _).tracks
  | cons i l ih => exact (h i).bind fun _ => ih.bind fun _ => (silent_pure _).tracks

/-- A computation that starts from the state it reads. -/
private theorem tracks_get {g : ServerRole → ServerM β}
    (h : ∀ s, s.Records → Ends (g s) s (fun _ s' => s'.Records) fun s' => s'.Records) :
    Tracks (get >>= g) := fun s hs => by
  rw [Ends.bind_iff, Ends.get_iff]
  exact h s hs

/-! ### State helpers -/

variable {req : KvRequestId} {roundKey : ℕ} {ref : RoundRef} {tid : TransferId} {x : InflightXfer}

@[simp] theorem wire_maybePrune : (s.maybePrune req).wire = s.wire := by
  rw [maybePrune]
  split_ifs <;> rfl

@[simp] theorem wire_getOrCreateRound : (s.getOrCreateRound req roundKey).2.wire = s.wire := by
  rw [getOrCreateRound]
  split <;> rfl

@[simp] theorem wire_finishInboundLookups : (s.finishInboundLookups req).wire = s.wire := by
  rw [finishInboundLookups]
  split
  · rfl
  · rw [wire_maybePrune]
    rfl

@[simp] theorem wire_markAborted {rnd : Option RoundRef} : (s.markAborted rnd).wire = s.wire := by
  cases rnd with
  | none => rfl
  | some ref =>
    rw [markAborted]
    split_ifs <;> rfl

@[simp] theorem wire_noteSlowAbort {now : Time} {key : KvRequestId × ℕ} {start : Time} :
    (s.noteSlowAbort now key start).wire = s.wire := by
  rw [noteSlowAbort]
  split_ifs <;> rfl

@[simp] theorem wire_cancelFailed : (s.cancelFailed x).2.wire = s.wire := by
  rw [cancelFailed]
  split_ifs <;> rfl

@[simp] theorem wire_checkStalledTransfers {now : Time} :
    (s.checkStalledTransfers now).wire = s.wire := by
  rw [checkStalledTransfers]
  split
  · rfl
  · split_ifs <;> rfl

private theorem wire_popTransfer : (s.popTransfer tid x).wire = (s.inflight.erase tid, s.live) := by
  rw [popTransfer]
  split <;> rfl

/-! ### Rounds -/

private theorem silent_finalizeOutbound {success : Option Bool} {sendDone : Bool} :
    Silent (finalizeOutbound req roundKey success sendDone) := fun s => by
  rw [finalizeOutbound, Ends.bind_iff, Ends.get_iff]
  split
  · rfl
  · split_ifs
    · rfl
    · rw [Ends.set_iff, finalizeRound, wire_maybePrune]
      split_ifs <;> rfl

private theorem silent_finalizeCancelled : Silent (finalizeCancelled req roundKey) :=
  silent_get.bind fun _ => silent_finalizeOutbound

private theorem silent_finalizeStopped : Silent (finalizeStopped req roundKey ref) :=
  silent_get.bind fun _ => silent_finalizeCancelled.ite (silent_pure _)

private theorem silent_endAbort {rnd : Option RoundRef} : Silent (endAbort req roundKey rnd) := by
  have haborted : Silent (finalizeAborted req roundKey rnd) :=
    silent_get.bind fun _ => silent_finalizeOutbound.ite (silent_pure _)
  refine haborted.bind fun _ => silent_modify fun s => ?_
  rw [finalizeAbort, wire_maybePrune]
  rfl

private theorem silent_finishRound {entry : ℕ × RoundRef} : Silent (finishRound req entry) := fun s => by
  rw [finishRound, Ends.bind_iff, Ends.get_iff, Ends.bind_iff, Ends.set_iff]
  exact (silent_finalizeOutbound.ite (silent_pure _)).after rfl

/-- The end of a request touches no transfer. -/
theorem silent_finish : Silent (finish req) :=
  (silent_modify fun _ => wire_finishInboundLookups).bind fun _ =>
    silent_get.bind fun _ => .forAll (fun _ => silent_finishRound) _

private theorem silent_progressRound : Silent (progressRound x) := fun s => by
  rw [progressRound, Ends.bind_iff, Ends.get_iff]
  split_ifs
  · rfl
  · rw [Ends.bind_iff, Ends.set_iff]
    dsimp only
    refine Silent.after (.ite ?_ (.ite ?_ (.ite ?_ (silent_pure _)))) rfl
    · exact silent_finalizeCancelled.ite (silent_pure _)
    · exact silent_finalizeOutbound
    · exact silent_finalizeOutbound
  · rfl

/-! ### Writes -/

variable {env : Transport} {parent : Parent} {now : Time}

/-- A write that the transport accepts is entered in the table. -/
private theorem tracks_submitTransfer {result : MatchResult} :
    Tracks (submitTransfer env now req result ref roundKey) := by
  refine tracks_get fun s hs => .ite (fun _ => ?_) fun _ => ?_
  · intro tid x hx
    change (s.live.set s.nextTid _).get? tid = some x at hx
    change (s.inflight.set s.nextTid _).get? tid = some x
    rw [get?_set] at hx ⊢
    split_ifs at hx ⊢
    · exact hx
    · exact hs tid x hx
  · rw [Ends.bind_iff, Ends.set_iff]
    exact (silent_finalizeOutbound.ite (silent_pure _)).tracks _ (hs.congr rfl)

/-- Stored blocks that are sent enter the table before they are on the wire. -/
theorem tracks_addStoredBlocks {keys : List OffloadKey} {blockIds : List ℕ} {jobId : JobId}
    {fromLookup : Bool} :
    Tracks (addStoredBlocks env now req keys blockIds jobId roundKey fromLookup) := by
  refine tracks_get fun s hs => ?_
  set s1 : ServerRole := { s with
    accepted := s.accepted ++ [jobId]
    storeJobs := s.storeJobs.set jobId now }
  have hfound : (s1.getOrCreateRound req roundKey).2.Records := hs.congr wire_getOrCreateRound
  refine .ite (fun _ => hfound.congr rfl) fun _ => ?_
  rw [Ends.bind_iff, Ends.set_iff]
  exact (tracks_submitTransfer.ite (silent_pure _).tracks) _ (hfound.congr rfl)

private theorem tracks_pollLookupKeys {again : Bool} {lookup : ActiveLookup} {keys : List OffloadKey} :
    Tracks (pollLookupKeys env parent now again lookup keys) :=
  .ite (silent_pure _).tracks (silent_get.tracks.bind fun _ =>
    tracks_addStoredBlocks.bind fun _ => (silent_pure _).tracks)

private theorem silent_finalizeLookup {lookup : ActiveLookup} : Silent (finalizeLookup lookup) := by
  refine (silent_pure _).ite ?_
  split
  · exact silent_throw _
  · exact silent_modify fun _ => rfl

private theorem tracks_processInboundLookup {pl : PendingLookup} :
    Tracks (processInboundLookup env parent now req pl) := by
  refine tracks_get fun s hs => ?_
  rw [Ends.bind_iff, Ends.set_iff]
  refine (tracks_pollLookupKeys.bind fun lookup => ?_) _ (hs.congr rfl)
  refine (silent_finalizeLookup.ite ?_).tracks
  exact silent_modify fun _ => rfl

private theorem tracks_resolvePendingLookups : Tracks (resolvePendingLookups env parent now req) := by
  have hrepoll : ∀ lookupId, Tracks (repollLookup env parent now req lookupId) := by
    refine fun lookupId => tracks_get fun s hs => ?_
    split
    · exact hs
    · refine (tracks_pollLookupKeys.bind fun lookup => Silent.tracks ?_) s hs
      refine Silent.bind ?_ fun _ => silent_pure _
      exact silent_modify fun _ => rfl
  have hpop : ∀ lookup, Silent (popLookup req lookup) := by
    refine fun lookup => Silent.bind ?_ fun _ => silent_finalizeLookup
    exact silent_modify fun _ => rfl
  exact silent_get.tracks.bind fun _ => (Tracks.collect hrepoll _).bind fun _ =>
    (Silent.forAll hpop _).tracks

private theorem tracks_serveRequest : Tracks (serveRequest env parent now req) := by
  refine tracks_get fun s hs => ?_
  split
  · exact hs.congr rfl
  · rw [Ends.bind_iff, Ends.set_iff]
    refine ((Tracks.forAll (fun _ => tracks_processInboundLookup) _).bind fun _ =>
      tracks_resolvePendingLookups.bind fun _ => tracks_get fun t ht => ?_) _ (hs.congr rfl)
    exact .ite (fun _ => ht.congr wire_maybePrune) fun _ => ht

/-- Serving lookups hands over blocks at most. -/
theorem tracks_serveExternalRequests : Tracks (serveExternalRequests env parent now) :=
  silent_get.tracks.bind fun _ => (Tracks.forAll (fun _ => tracks_serveRequest) _).bind fun _ =>
    (silent_modify fun _ => rfl).tracks

/-- A fetch hands over what is stored. -/
theorem tracks_onFetch {keys : List OffloadKey} {blockIndexes : List ℕ} :
    Tracks (onFetch env now req keys blockIndexes roundKey) := by
  refine tracks_get fun s hs => ?_
  have hfound : (s.getOrCreateRound req roundKey).2.Records := hs.congr wire_getOrCreateRound
  refine .ite (fun _ => hs) fun _ => ?_
  rw [Ends.bind_iff, Ends.set_iff]
  refine .ite (fun _ => ?_) fun _ => ?_
  · rw [Ends.bind_iff, Ends.set_iff]
    refine (Silent.forAll (fun _ => silent_finalizeOutbound) _).tracks _ ?_
    exact hfound.congr wire_finishInboundLookups
  · refine Tracks.ite silent_finalizeOutbound.tracks (.ite tracks_submitTransfer ?_) _
      (hfound.congr rfl)
    exact (silent_finalizeOutbound.ite (silent_pure _)).tracks

/-! ### Transfers the transport has reported -/

/-- For a transfer that is no longer live, a computation keeps every live transfer in the table and
does nothing on the transport. -/
def Pops (m : ServerM α) (tid : TransferId) : Prop :=
  ∀ s, s.Records → s.live.get? tid = none →
    Ends m s (fun _ s' => s'.Records ∧ s'.live = s.live) fun s' => s'.Records

private theorem pops_inflightPop : Pops (inflightPop tid) tid := fun s hs hdead => by
  rw [inflightPop, Ends.bind_iff, Ends.get_iff]
  split
  · exact ⟨hs, rfl⟩
  next x _ =>
    refine .ite (fun _ => hs) fun _ => ?_
    rw [Ends.bind_iff, Ends.set_iff]
    obtain ⟨hinflight, hlive⟩ := Prod.mk.inj (wire_popTransfer (s := s) (x := x))
    refine ⟨fun tid' y hy => ?_, hlive⟩
    rw [hlive] at hy
    rw [hinflight, get?_erase_of_ne]
    · exact hs tid' y hy
    · rintro rfl
      rw [hdead] at hy
      cases hy

/-- A pop, and silent work on what was popped. -/
private theorem pops_bind {g : Option InflightXfer → ServerM β} (hg : ∀ x, Silent (g x)) :
    Pops (inflightPop tid >>= g) tid := fun s hs hdead => by
  rw [Ends.bind_iff]
  refine (pops_inflightPop s hs hdead).mono (fun x t ht => ?_) fun _ ht => ht
  exact (hg x t).mono (fun _ _ hwire => ⟨ht.1.congr hwire, (Prod.mk.inj hwire).2.trans ht.2⟩)
    fun _ hwire => ht.1.congr hwire

/-- Within a loop over transfers that were not live at its start. -/
def InLoop (s : ServerRole) (tids : List TransferId) (t : ServerRole) : Prop :=
  (t.Records ∧ t.live = s.live) ∧ ∀ tid ∈ tids, s.live.get? tid = none

/-- One round of a loop that pops transfers. -/
theorem Pops.next (h : Pops m tid) {tids : List TransferId} (ht : InLoop s (tid :: tids) t) :
    Ends m t (fun _ t' => InLoop s tids t') fun t' => t'.Records := by
  obtain ⟨⟨hrecords, hlive⟩, hdead⟩ := ht
  have htid : t.live.get? tid = none := by
    rw [hlive]
    exact hdead tid (.head _)
  refine (h t hrecords htid).mono (fun _ t' hpost => ?_) fun _ hpost => hpost
  exact ⟨⟨hpost.1, hpost.2.trans hlive⟩, fun tid' hmem => hdead tid' (.tail _ hmem)⟩

section

variable {tids : List TransferId} (hs : s.Records) (hdead : ∀ tid ∈ tids, s.live.get? tid = none)

include hs hdead

private theorem ends_collect {g : TransferId → ServerM (List β)} (hg : ∀ tid, Pops (g tid) tid) :
    Ends (collect g tids) s (fun _ s' => s'.Records ∧ s'.live = s.live) fun s' => s'.Records :=
  (Ends.collect (P := fun l _ t => InLoop s l t) (fun tid _ _ _ ht => (hg tid).next ht)
    ⟨⟨hs, rfl⟩, hdead⟩).mono (fun _ _ hend => hend.1) fun _ hend => hend

private theorem ends_forAll {g : TransferId → ServerM PUnit} (hg : ∀ tid, Pops (g tid) tid) :
    Ends (forAll g tids) s (fun _ s' => s'.Records ∧ s'.live = s.live) fun s' => s'.Records :=
  (Ends.forAll (P := fun l t => InLoop s l t) (fun tid _ _ ht => (hg tid).next ht)
    ⟨⟨hs, rfl⟩, hdead⟩).mono (fun _ _ hend => hend.1) fun _ hend => hend

end

/-- A cancel that waits: what is not stuck is no longer live. -/
private theorem cancel_dead {tids : List TransferId} :
    ∀ tid ∈ tids.filter (fun tid => !env.stuck tid), (s.cancel env tids).live.get? tid = none := by
  intro tid hmem
  obtain ⟨hmem, hstuck⟩ := mem_filter.mp hmem
  rw [Option.eq_none_iff_forall_ne_some]
  intro x hx
  have hkept := (get?_filter_eq_some.mp hx).2
  simp [hmem] at hkept
  simp [hkept] at hstuck

private theorem pops_popStopped (tid : TransferId) : Pops (popStopped tid) tid :=
  pops_bind fun
    | none => silent_throw _
    | some _ => fun _ => rfl

private theorem tracks_cancelRound {entry : (KvRequestId × ℕ) × RoundRef} :
    Tracks (cancelRound env now entry) := by
  refine tracks_get fun s hs => .ite (fun _ => hs.congr rfl) fun _ => ?_
  rw [Ends.bind_iff, Ends.set_iff, Ends.bind_iff]
  refine Ends.mono (ends_collect ?_ cancel_dead pops_popStopped) (fun _ t ht => ?_) fun _ ht => ht
  · exact Records.cancel (hs.congr rfl) _ _
  · exact (silent_finalizeStopped.bind fun _ => silent_pure _).tracks t ht.1

/-- A timeout cancels a transfer before it leaves the table. -/
theorem tracks_timeoutPendingStoreJobs : Tracks (timeoutPendingStoreJobs env now) := by
  refine tracks_get fun s hs => .ite (fun _ => hs) fun _ => ?_
  refine ((Tracks.collect (fun _ => tracks_cancelRound) _).bind fun _ => tracks_get
    fun t ht => ?_) s hs
  exact ht.congr rfl

private theorem pops_onDone (tid : TransferId) : Pops (onDone tid) tid := by
  refine pops_bind fun xfer => ?_
  split
  · exact silent_pure _
  · intro t
    rw [Ends.bind_iff, Ends.get_iff, Ends.bind_iff, Ends.set_iff]
    refine (silent_progressRound.bind fun _ => Silent.bind ?_ fun _ => silent_pure _).after rfl
    exact silent_modify fun _ => wire_maybePrune

private theorem pops_onFailed (tid : TransferId) : Pops (onFailed tid) tid := by
  refine pops_bind fun xfer => ?_
  split
  · exact silent_pure _
  · intro t
    rw [Ends.bind_iff, Ends.get_iff, Ends.bind_iff, Ends.set_iff]
    refine (silent_finalizeStopped.bind fun _ => Silent.bind ?_ fun _ => silent_pure _).after
      wire_cancelFailed
    exact silent_modify fun _ => wire_maybePrune

/-- Transfers that are reported are off the wire when they leave the table. -/
theorem tracks_collectResults {poll : PollResult} : Tracks (collectResults env poll now) := by
  refine tracks_timeoutPendingStoreJobs.bind fun _ s hs => ?_
  rw [Ends.bind_iff, Ends.modify_iff, Ends.bind_iff]
  set s1 : ServerRole := { s with
    peerFault := (poll.peerFault.map PeerFault.reported).or s.peerFault
    live := s.live.filter fun tid _ => tid ∉ poll.done ++ poll.failed }
  have hdead : ∀ tid ∈ poll.done ++ poll.failed, s1.live.get? tid = none := by
    intro tid hmem
    rw [Option.eq_none_iff_forall_ne_some]
    intro x hx
    exact of_decide_eq_true (get?_filter_eq_some.mp hx).2 hmem
  have hpolled : s1.Records := hs.filter (fun tid _ => tid ∉ poll.done ++ poll.failed) rfl
  refine (ends_collect hpolled (fun tid hmem => hdead tid (mem_append_left _ hmem))
    pops_onDone).mono (fun _ s2 h2 => ?_) fun _ h2 => h2
  rw [Ends.bind_iff]
  refine (ends_collect h2.1 (fun tid hmem => ?_) pops_onFailed).mono
    (fun _ s3 h3 => ?_) fun _ h3 => h3
  · rw [h2.2]
    exact hdead tid (mem_append_right _ hmem)
  · rw [Ends.bind_iff, Ends.modify_iff]
    refine h3.1.congr ?_
    change (if s3.peerFault = none then s3.checkStalledTransfers now else s3).wire = s3.wire
    split_ifs
    · exact wire_checkStalledTransfers
    · rfl

private theorem tracks_drainAbort : Tracks (drainAbort env now req roundKey) := by
  refine tracks_get fun s hs => .ite (fun _ => hs) fun _ => ?_
  have hmarked : (s.markAborted (s.roundAt req roundKey)).Records := hs.congr wire_markAborted
  rw [Ends.bind_iff, Ends.set_iff]
  split
  · exact silent_endAbort.tracks _ hmarked
  next tid tids _ =>
    split
    next start xfer _ _ =>
      set s1 := (s.markAborted (s.roundAt req roundKey)).noteSlowAbort now (req, roundKey) start
      have hnoted : s1.Records := hmarked.congr wire_noteSlowAbort
      refine .ite (fun _ => ?_) fun _ => hnoted
      rw [Ends.bind_iff, Ends.set_iff, Ends.bind_iff]
      refine Ends.mono (ends_forAll ?_ cancel_dead fun tid =>
        pops_bind fun _ => silent_pure _) (fun _ t ht => ?_) fun _ ht => ht
      · exact Records.cancel (hnoted.congr rfl) _ _
      · exact (silent_endAbort.ite (silent_pure _)).tracks t ht.1
    · exact hmarked

/-- An abort cancels the transfers of its round. -/
theorem tracks_onAbortFetch : Tracks (onAbortFetch env now req roundKey) :=
  Tracks.bind (Silent.tracks fun _ => rfl) fun _ => tracks_drainAbort

/-- So do the aborts that are tried again. -/
theorem tracks_drainPendingAborts : Tracks (drainPendingAborts env now) :=
  silent_get.tracks.bind fun _ => .forAll (fun _ => tracks_drainAbort) _

end ServerRole

end Sonar.P2P
