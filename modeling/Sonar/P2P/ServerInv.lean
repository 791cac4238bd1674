import Mathlib.Algebra.Order.Group.Multiset
import Mathlib.Logic.Relation
import Mathlib.Tactic.Abel
import Sonar.P2P.Server

/-!
# What a server role keeps

A job is **pinned** while it is in the job table. The role may report it only when no transfer in
flight reads its blocks, so the table has to hold every job that is read (`ServerRole.Inv`). The
argument rests on where jobs can be: a job belongs to one round, a transfer belongs to a registered
round, and a round without transfers has no reader.

Most of what the role does only forgets: rounds are unregistered, jobs leave the table and the
pending sets. `Forgets` says what such a step must not drop, and `Inv.forget` that it then keeps the
invariant.

`IsOpen`, `Aborting` and the messages sent are what the peer can observe. `Answer` is one move of a
server as the peer sees it: close a round, with or without a `TransferDone`, or acknowledge an
abort of a round that is closed.
-/

namespace Sonar.P2P

open Lib List Dict

namespace ServerRole

variable {s s' s'' : ServerRole} {req kv : KvRequestId} {roundKey rk : ℕ} {ref : RoundRef}
  {st : ServerRequestState}

/-! ### Entries -/

@[simp] theorem request_setRequest_self (s : ServerRole) (req : KvRequestId)
    (st : ServerRequestState) : (s.setRequest req st).request req = st := by
  rw [request, setRequest, get?_set_self, Option.getD_some]

/-- Other requests are as before. -/
theorem request_setRequest_of_ne
    (h : kv ≠ req) : (s.setRequest req st).request kv = s.request kv := by
  rw [request, setRequest, get?_set_of_ne h, request]

/-- A request that is there. -/
theorem request_of_get? (h : s.requests.get? req = some st) : s.request req = st := by
  rw [request, h, Option.getD_some]

/-- The rounds after a request is set. -/
theorem roundAt_setRequest (s : ServerRole) (st : ServerRequestState) (req kv : KvRequestId)
    (rk : ℕ) : (s.setRequest req st).roundAt kv rk =
      if kv = req then st.outbound.get? rk else s.roundAt kv rk := by
  split_ifs with hkv
  · rw [hkv, roundAt, request_setRequest_self]
  · rw [roundAt, request_setRequest_of_ne hkv, roundAt]

private theorem idle_eq (h : s.idle req st = true) :
    st = {} ∧ ∀ rk, s.pendingAborts.get? (req, rk) = none := by
  simp only [idle, Bool.and_eq_true, decide_eq_true_eq, List.isEmpty_iff, Bool.not_eq_true',
    any_eq_false] at h
  obtain ⟨⟨⟨⟨hout, htids⟩, hlookups⟩, hpending⟩, haborts⟩ := h
  constructor
  · obtain ⟨outbound, pendingLookups, lookups, inflightTids⟩ := st
    simp only at hout htids hlookups hpending
    rw [hout, htids, hlookups, hpending]
  · intro rk
    rw [get?_eq_none]
    intro hmem
    exact haborts _ hmem rfl

/-- Pruning drops an entry that is as new. -/
@[simp] theorem request_maybePrune (s : ServerRole) (req kv : KvRequestId) :
    (s.maybePrune req).request kv = s.request kv := by
  rw [maybePrune]
  split_ifs with hidle
  · cases hst : s.requests.get? req with
    | none => rw [erase_of_get?_none hst]
    | some st =>
      rw [hst] at hidle
      by_cases hkv : kv = req
      · rw [hkv, request, get?_erase_self, request, hst, (idle_eq hidle).1]
        rfl
      · rw [request, get?_erase_of_ne hkv, request]
  · rfl

@[simp] theorem roundAt_maybePrune : (s.maybePrune req).roundAt kv rk = s.roundAt kv rk := by
  rw [roundAt, request_maybePrune, roundAt]

/-- Pruning changes nothing else. -/
theorem maybePrune_eq (s : ServerRole) (req : KvRequestId) :
    s.maybePrune req = { s with requests := (s.maybePrune req).requests } := by
  rw [maybePrune]
  split_ifs <;> rfl

/-! ### Popping jobs -/

private theorem get?_popJobs (jobIds : List JobId) (storeJobs : Dict JobId Time) (j : JobId) :
    (popJobs jobIds storeJobs).2.get? j = if j ∈ jobIds then none else storeJobs.get? j := by
  induction jobIds generalizing storeJobs with
  | nil => rfl
  | cons jobId jobIds ih =>
    rw [popJobs]
    cases hjob : storeJobs.get? jobId with
    | none =>
      rw [ih]
      by_cases hj : j = jobId
      · simp [hj, hjob]
      · simp [hj]
    | some submittedAt =>
      rw [ih]
      by_cases hj : j = jobId
      · simp [hj]
      · simp [hj, get?_erase_of_ne hj]

private theorem keys_popJobs (jobIds : List JobId) (storeJobs : Dict JobId Time) :
    storeJobs.keys =
      ((popJobs jobIds storeJobs).1 : Multiset JobId) + (popJobs jobIds storeJobs).2.keys := by
  induction jobIds generalizing storeJobs with
  | nil => exact (zero_add _).symm
  | cons jobId jobIds ih =>
    rw [popJobs]
    cases hjob : storeJobs.get? jobId with
    | none => exact ih _
    | some submittedAt =>
      rw [Multiset.coe_eq_coe.mpr (keys_perm hjob), ← Multiset.cons_coe, ih,
        ← Multiset.cons_coe, Multiset.cons_add]

/-! ### The invariant -/

/-- The number of transfers of a round. -/
def countOf (s : ServerRole) (ref : RoundRef) : ℕ :=
  s.inflight.total fun _ x => if x.round = ref then 1 else 0

/-- The blocks in transfers of a round. -/
def blocksOf (s : ServerRole) (ref : RoundRef) : ℕ :=
  s.inflight.total fun _ x => if x.round = ref then x.blockCount else 0

/-- A transfer reads the blocks of a job. -/
def Reads (s : ServerRole) (j : JobId) (tid : TransferId) (ref : RoundRef) : Prop :=
  ∃ x, s.inflight.get? tid = some x ∧ x.round = ref ∧ j ∈ x.jobIds

/-- A job is known to a round: it is pending there, or a transfer of the round reads it. -/
def Touches (s : ServerRole) (j : JobId) (ref : RoundRef) : Prop :=
  j ∈ (s.rounds ref).pendingJobIds ∨ ∃ tid, s.Reads j tid ref

/-- A job is in the job table. -/
def Pinned (s : ServerRole) (j : JobId) : Prop := s.storeJobs.get? j ≠ none

/-- What is said of a transfer. -/
structure XferOk (s : ServerRole) (tid : TransferId) (x : InflightXfer) : Prop where
  roundAt : s.roundAt x.kvRequestId x.roundKey = some x.round
  blocks : 0 < x.blockCount
  nodup : x.jobIds.Nodup
  pinned : ∀ j ∈ x.jobIds, s.Pinned j
  fresh : tid < s.nextTid

/-- A registered round without demand offers blocks of pending jobs only. -/
def Offers (rnd : OutboundRound) : Prop :=
  rnd.demandReceived = false → rnd.cancelled = false ∧
    ∀ key entry, rnd.available.get? key = some entry → entry.1 ∈ rnd.pendingJobIds

/-- What is said of a registered round. -/
structure RoundOk (s : ServerRole) (ref : RoundRef) : Prop where
  alloc : ref < s.nextRound
  budget : s.blocksOf ref + (s.rounds ref).demanded.entries.length ≤ (s.rounds ref).remaining
  closed : (s.rounds ref).demandReceived = false → (s.rounds ref).remaining = 0

/-- Every key of a lookup is resolved or pending. -/
def LookupOk (id : ℕ) (lookup : ActiveLookup) : Prop :=
  lookup.lookupId = id ∧ ∀ h ∈ lookup.keys, lookup.resolved.get? h ≠ none ∨ h ∈ lookup.pending

/-- What holds at any time. -/
structure Base (s : ServerRole) : Prop where
  xfers : ∀ tid x, s.inflight.get? tid = some x → s.XferOk tid x
  rounds : ∀ kv rk ref, s.roundAt kv rk = some ref → s.RoundOk ref
  inj : ∀ kv rk kv' rk' ref, s.roundAt kv rk = some ref → s.roundAt kv' rk' = some ref →
    kv = kv' ∧ rk = rk'
  counts : ∀ ref, (s.rounds ref).inflight = s.countOf ref
  home : ∀ j ref ref', s.Touches j ref → s.Touches j ref' → ref = ref'
  once : ∀ j tid tid' ref ref', s.Reads j tid ref → s.Reads j tid' ref' → tid = tid'
  pending : ∀ j ref, j ∈ (s.rounds ref).pendingJobIds → s.Pinned j
  owner : ∀ j ref, j ∈ (s.rounds ref).pendingJobIds → ∃ kv rk, s.roundAt kv rk = some ref
  known : ∀ j, s.Pinned j → j ∈ s.accepted
  aborts : ∀ kv rk, s.pendingAborts.get? (kv, rk) ≠ none → s.requests.get? kv ≠ none
  lookups : ∀ kv id lookup, (s.request kv).lookups.get? id = some lookup → LookupOk id lookup

/-- What holds between calls. -/
structure Inv (s : ServerRole) : Prop extends Base s where
  offers : ∀ kv rk ref, s.roundAt kv rk = some ref → Offers (s.rounds ref)

/-- A round as far as transfers are concerned. -/
structure SameDemand (rnd rnd' : OutboundRound) : Prop where
  demandReceived : rnd'.demandReceived = rnd.demandReceived
  demanded : rnd'.demanded = rnd.demanded
  remaining : rnd'.remaining = rnd.remaining
  inflight : rnd'.inflight = rnd.inflight
  cancelled : rnd.cancelled = true → rnd'.cancelled = true
  pending : ∀ j ∈ rnd'.pendingJobIds, j ∈ rnd.pendingJobIds

/-- A step that only forgets, and forgets nothing that is in use. -/
structure Forgets (s s' : ServerRole) : Prop where
  roundAt : ∀ kv rk ref, s'.roundAt kv rk = some ref → s.roundAt kv rk = some ref
  kept : ∀ tid x, s.inflight.get? tid = some x →
    s'.roundAt x.kvRequestId x.roundKey = s.roundAt x.kvRequestId x.roundKey
  inflight : s'.inflight = s.inflight
  nextTid : s.nextTid ≤ s'.nextTid
  nextRound : s'.nextRound = s.nextRound
  accepted : s'.accepted = s.accepted
  rounds : ∀ ref, SameDemand (s.rounds ref) (s'.rounds ref)
  unpinned : ∀ j, s'.Pinned j → s.Pinned j
  reads : ∀ j tid ref, s.Reads j tid ref → s.Pinned j → s'.Pinned j
  pending : ∀ j ref, j ∈ (s'.rounds ref).pendingJobIds → s.Pinned j → s'.Pinned j
  owner : ∀ j kv rk ref, j ∈ (s'.rounds ref).pendingJobIds → s.roundAt kv rk = some ref →
    s'.roundAt kv rk = some ref
  aborts : ∀ kv rk, s'.pendingAborts.get? (kv, rk) ≠ none →
    s.pendingAborts.get? (kv, rk) ≠ none ∧ (s.requests.get? kv ≠ none → s'.requests.get? kv ≠ none)
  lookups : ∀ kv id lookup, (s'.request kv).lookups.get? id = some lookup →
    (s.request kv).lookups.get? id = some lookup

variable {rnd : OutboundRound} {p : KvRequestId × ℕ} {rounds : RoundRef → OutboundRound}

/-- A round that does not change. -/
theorem SameDemand.refl : SameDemand rnd rnd :=
  ⟨rfl, rfl, rfl, rfl, id, fun _ => id⟩

private theorem SameDemand.trans {rnd' rnd'' : OutboundRound} (h : SameDemand rnd rnd')
    (h' : SameDemand rnd' rnd'') : SameDemand rnd rnd'' :=
  ⟨h'.demandReceived.trans h.demandReceived, h'.demanded.trans h.demanded,
    h'.remaining.trans h.remaining, h'.inflight.trans h.inflight,
    fun hc => h'.cancelled (h.cancelled hc), fun j hj => h.pending j (h'.pending j hj)⟩

/-- Which jobs a transfer reads is in the table. -/
theorem reads_congr (h : s'.inflight = s.inflight) {j : JobId} {tid : TransferId} :
    s'.Reads j tid ref ↔ s.Reads j tid ref := by
  rw [Reads, h, Reads]

/-- Nothing is forgotten. -/
theorem Forgets.refl : Forgets s s where
  roundAt _ _ _ := id
  kept _ _ _ := rfl
  inflight := rfl
  nextTid := le_rfl
  nextRound := rfl
  accepted := rfl
  rounds _ := .refl
  unpinned _ := id
  reads _ _ _ _ := id
  pending _ _ _ := id
  owner _ _ _ _ _ := id
  aborts _ _ h := ⟨h, id⟩
  lookups _ _ _ := id

/-- What is forgotten in two calls. -/
theorem Forgets.trans (h : Forgets s s') (h' : Forgets s' s'') : Forgets s s'' where
  roundAt kv rk ref hat := h.roundAt kv rk ref (h'.roundAt kv rk ref hat)
  kept tid x hx := (h'.kept tid x (h.inflight ▸ hx)).trans (h.kept tid x hx)
  inflight := h'.inflight.trans h.inflight
  nextTid := h.nextTid.trans h'.nextTid
  nextRound := h'.nextRound.trans h.nextRound
  accepted := h'.accepted.trans h.accepted
  rounds ref := (h.rounds ref).trans (h'.rounds ref)
  unpinned j hj := h.unpinned j (h'.unpinned j hj)
  reads j tid ref hread hj := h'.reads j tid ref ((reads_congr h.inflight).mpr hread)
    (h.reads j tid ref hread hj)
  pending j ref hmem hj := h'.pending j ref hmem
    (h.pending j ref ((h'.rounds ref).pending j hmem) hj)
  owner j kv rk ref hmem hat := h'.owner j kv rk ref hmem
    (h.owner j kv rk ref ((h'.rounds ref).pending j hmem) hat)
  aborts kv rk hne :=
    have hmid := h'.aborts kv rk hne
    have hold := h.aborts kv rk hmid.1
    ⟨hold.1, fun hreq => hmid.2 (hold.2 hreq)⟩
  lookups kv id lookup hget := h.lookups kv id lookup (h'.lookups kv id lookup hget)

/-- The tables stay consistent when only bookkeeping is forgotten. -/
theorem Base.forget (h : s.Base) (hf : Forgets s s') : s'.Base := by
  have hcount : ∀ ref, s'.countOf ref = s.countOf ref := fun ref => by
    rw [countOf, hf.inflight, countOf]
  have hblocks : ∀ ref, s'.blocksOf ref = s.blocksOf ref := fun ref => by
    rw [blocksOf, hf.inflight, blocksOf]
  have htouches : ∀ j ref, s'.Touches j ref → s.Touches j ref := by
    rintro j ref (hmem | ⟨tid, hread⟩)
    · exact .inl ((hf.rounds ref).pending j hmem)
    · exact .inr ⟨tid, (reads_congr hf.inflight).mp hread⟩
  constructor
  · intro tid x hx
    rw [hf.inflight] at hx
    have hok := h.xfers tid x hx
    refine ⟨(hf.kept tid x hx).trans hok.roundAt, hok.blocks, hok.nodup, fun j hj => ?_,
      hok.fresh.trans_le hf.nextTid⟩
    exact hf.reads j tid x.round ⟨x, hx, rfl, hj⟩ (hok.pinned j hj)
  · intro kv rk ref hat
    have hok := h.rounds kv rk ref (hf.roundAt kv rk ref hat)
    have hround := hf.rounds ref
    refine ⟨hf.nextRound ▸ hok.alloc, ?_, ?_⟩
    · rw [hblocks, hround.demanded, hround.remaining]
      exact hok.budget
    · rw [hround.demandReceived, hround.remaining]
      exact hok.closed
  · intro kv rk kv' rk' ref hat hat'
    exact h.inj kv rk kv' rk' ref (hf.roundAt kv rk ref hat) (hf.roundAt kv' rk' ref hat')
  · intro ref
    rw [(hf.rounds ref).inflight, hcount]
    exact h.counts ref
  · intro j ref ref' ht ht'
    exact h.home j ref ref' (htouches j ref ht) (htouches j ref' ht')
  · intro j tid tid' ref ref' hread hread'
    exact h.once j tid tid' ref ref' ((reads_congr hf.inflight).mp hread)
      ((reads_congr hf.inflight).mp hread')
  · intro j ref hmem
    exact hf.pending j ref hmem (h.pending j ref ((hf.rounds ref).pending j hmem))
  · intro j ref hmem
    obtain ⟨kv, rk, hat⟩ := h.owner j ref ((hf.rounds ref).pending j hmem)
    exact ⟨kv, rk, hf.owner j kv rk ref hmem hat⟩
  · intro j hj
    rw [hf.accepted]
    exact h.known j (hf.unpinned j hj)
  · intro kv rk hne
    obtain ⟨hold, hreq⟩ := hf.aborts kv rk hne
    exact hreq (h.aborts kv rk hold)
  · intro kv id lookup hget
    exact h.lookups kv id lookup (hf.lookups kv id lookup hget)

/-! ### What the peer sees -/

/-- A registered round has received its demand. -/
def IsOpen (s : ServerRole) (p : KvRequestId × ℕ) : Prop :=
  ∃ ref, s.roundAt p.1 p.2 = some ref ∧ (s.rounds ref).demandReceived = true

/-- A registered round has received its demand and may still take part in transfers. -/
def Running (s : ServerRole) (p : KvRequestId × ℕ) : Prop :=
  ∃ ref, s.roundAt p.1 p.2 = some ref ∧ (s.rounds ref).demandReceived = true ∧
    (s.rounds ref).cancelled = false

/-- An abort waits for its acknowledgement. -/
def Aborting (s : ServerRole) (p : KvRequestId × ℕ) : Prop := s.pendingAborts.get? p ≠ none

/-- No round is opened or resumed, and no abort begins. -/
structure Settles (s s' : ServerRole) : Prop where
  rounds : ∀ kv rk ref, s'.roundAt kv rk = some ref → (s'.rounds ref).demandReceived = true →
    s.roundAt kv rk = some ref ∧ (s.rounds ref).demandReceived = true ∧
      ((s.rounds ref).cancelled = true → (s'.rounds ref).cancelled = true)
  aborts : ∀ p, s'.Aborting p → s.Aborting p

private theorem Settles.trans (h : Settles s s') (h' : Settles s' s'') : Settles s s'' := by
  refine ⟨fun kv rk ref hat hdemand => ?_, fun p hp => h.aborts p (h'.aborts p hp)⟩
  obtain ⟨hat', hdemand', hkeep'⟩ := h'.rounds kv rk ref hat hdemand
  obtain ⟨hat'', hdemand'', hkeep⟩ := h.rounds kv rk ref hat' hdemand'
  exact ⟨hat'', hdemand'', fun hc => hkeep' (hkeep hc)⟩

/-- A round that is open after a settling call was open before it. -/
theorem Settles.opened (h : Settles s s') (hp : s'.IsOpen p) : s.IsOpen p := by
  obtain ⟨ref, hat, hdemand⟩ := hp
  obtain ⟨hat', hdemand', -⟩ := h.rounds p.1 p.2 ref hat hdemand
  exact ⟨ref, hat', hdemand'⟩

/-- A round that runs after a settling call ran before it. -/
theorem Settles.running (h : Settles s s') (hp : s'.Running p) : s.Running p := by
  obtain ⟨ref, hat, hdemand, hnot⟩ := hp
  obtain ⟨hat', hdemand', hkeep⟩ := h.rounds p.1 p.2 ref hat hdemand
  refine ⟨ref, hat', hdemand', Bool.eq_false_iff.mpr fun hc => ?_⟩
  rw [hkeep hc] at hnot
  cases hnot

/-- One move of a server as the peer sees it. -/
inductive Answer (s s' : ServerRole) : Prop
  | silent (settles : Settles s s') (sent : s'.outbox = s.outbox)
  | response (settles : Settles s s') (kv : KvRequestId) (keys : List OffloadKey)
      (hits : List Bool) (sent : s'.outbox = s.outbox ++ [.lookupResp kv keys hits])
  | done (settles : Settles s s') (p : KvRequestId × ℕ) (success : Bool) (isOpen : s.IsOpen p)
      (closed : ¬ s'.IsOpen p)
      (sent : s'.outbox = s.outbox ++ [.transferDone p.1 success p.2])
  | ack (settles : Settles s s') (p : KvRequestId × ℕ) (aborting : s.Aborting p)
      (answered : ¬ s'.Aborting p) (closed : ¬ s'.IsOpen p)
      (sent : s'.outbox = s.outbox ++ [.abortAck p.1 p.2])

/-- Moves of a server on its own. -/
abbrev Evolves : ServerRole → ServerRole → Prop := Relation.ReflTransGen Answer

private theorem Answer.settles (h : Answer s s') : Settles s s' := by
  cases h with
  | silent settles _ => exact settles
  | response settles _ _ _ _ => exact settles
  | done settles _ _ _ _ _ => exact settles
  | ack settles _ _ _ _ _ => exact settles

/-- Calls that evolve rounds settle them. -/
theorem Evolves.settles (h : Evolves s s') : Settles s s' := by
  induction h with
  | refl => exact ⟨fun _ _ _ hat hdemand => ⟨hat, hdemand, id⟩, fun _ => id⟩
  | tail _ hanswer ih => exact ih.trans hanswer.settles

/-- Calls that forget settle rounds. -/
theorem Forgets.settles (h : Forgets s s') : Settles s s' := by
  refine ⟨fun kv rk ref hat hdemand => ?_, fun p hp => (h.aborts p.1 p.2 hp).1⟩
  exact ⟨h.roundAt kv rk ref hat, (h.rounds ref).demandReceived ▸ hdemand, (h.rounds ref).cancelled⟩

/-- The jobs of a list of results. -/
def jobsIn (results : List StoreResult) : Multiset JobId := ↑(results.map StoreResult.jobId)

@[simp] theorem jobsIn_nil : jobsIn [] = 0 := rfl

/-- Reported jobs add up. -/
theorem jobsIn_append (l l' : List StoreResult) : jobsIn (l ++ l') = jobsIn l + jobsIn l' := by
  rw [jobsIn, map_append]
  rfl

private theorem jobsIn_resultsOf (success : Bool) (jobIds : List JobId) :
    jobsIn (resultsOf success jobIds) = jobIds := by
  rw [jobsIn, resultsOf, map_map]
  exact congrArg _ (map_id jobIds)

/-- The jobs that are still to be reported. -/
def held (s : ServerRole) : Multiset JobId :=
  (s.storeJobs.keys : Multiset JobId) + jobsIn s.pendingStoreResults

/-- What a part of a call does: it keeps the invariant, every job handed in is reported or held, and
the peer sees a server that moves on its own. -/
structure Step (s s' : ServerRole) (added : List JobId) (out : List StoreResult) : Prop where
  inv : s'.Inv
  accepted : s'.accepted = s.accepted ++ added
  ledger : (added : Multiset JobId) + s.held = s'.held + jobsIn out
  demand : ∀ ref < s.nextRound, ref < s'.nextRound ∧
    ((s.rounds ref).demandReceived = true → (s'.rounds ref).demandReceived = true)
  evolves : Evolves s s'

/-- Doing nothing is a step. -/
theorem Step.refl (h : s.Inv) : Step s s [] [] :=
  ⟨h, (append_nil _).symm, add_comm _ _, fun _ href => ⟨href, id⟩, .refl⟩

variable {out out' : List StoreResult} {jobIds : List JobId}

/-- Two steps in a row, with the jobs and results of both. -/
theorem Step.trans {added added' : List JobId}
    (h : Step s s' added out) (h' : Step s' s'' added' out') :
    Step s s'' (added ++ added') (out ++ out') := by
  refine ⟨h'.inv, ?_, ?_, fun ref href => ?_, h.evolves.trans h'.evolves⟩
  · rw [h'.accepted, h.accepted, append_assoc]
  · rw [jobsIn_append]
    exact balance_trans h.ledger h'.ledger
  · obtain ⟨hlt, hdem⟩ := h.demand ref href
    obtain ⟨hlt', hdem'⟩ := h'.demand ref hlt
    exact ⟨hlt', fun hd => hdem' (hdem hd)⟩

/-- Some transfer reads the blocks of a job. -/
def Reading (s : ServerRole) (j : JobId) : Prop := ∃ tid ref, s.Reads j tid ref

/-- No job enters the table, and a job that loses its transfer leaves it. -/
structure Keeps (s s' : ServerRole) : Prop where
  unpinned : ∀ j, s'.Pinned j → s.Pinned j
  reading : ∀ j, s'.Pinned j → s.Reading j → s'.Reading j

/-- What two calls keep. -/
theorem Keeps.trans (h : Keeps s s') (h' : Keeps s' s'') : Keeps s s'' where
  unpinned j hj := h.unpinned j (h'.unpinned j hj)
  reading j hj hread := h'.reading j hj (h.reading j (h'.unpinned j hj) hread)

/-- With the same transfers, jobs that were read still are. -/
theorem keeps_of_inflight (hinflight : s'.inflight = s.inflight)
    (hunpinned : ∀ j, s'.Pinned j → s.Pinned j) : Keeps s s' := by
  refine ⟨hunpinned, fun j _ hread => ?_⟩
  obtain ⟨tid, ref, hread⟩ := hread
  exact ⟨tid, ref, (reads_congr hinflight).mpr hread⟩

/-- A step that takes no job in, and settles the jobs of the transfers it ends. -/
structure Clears (s s' : ServerRole) (out : List StoreResult) : Prop extends Step s s' [] out where
  keeps : Keeps s s'

/-- Doing nothing clears. -/
theorem Clears.refl (h : s.Inv) : Clears s s [] := ⟨.refl h, fun _ => id, fun _ _ => id⟩

/-- Two clearing calls in a row. -/
theorem Clears.trans (h : Clears s s' out) (h' : Clears s' s'' out') : Clears s s'' (out ++ out') :=
  ⟨h.toStep.trans h'.toStep, h.keeps.trans h'.keeps⟩

section

variable (hf : Forgets s s')

include hf

/-- A step that takes no job clears. -/
theorem Step.clears (h : Step s s' [] out) : Clears s s' out :=
  ⟨h, keeps_of_inflight hf.inflight hf.unpinned⟩

/-- A step from consistent tables: offers, accounts and messages. -/
theorem Base.step (h : s.Base) {out : List StoreResult}
    (hoffers : ∀ kv rk ref, s'.roundAt kv rk = some ref → Offers (s'.rounds ref))
    (hheld : s.held = s'.held + jobsIn out) (hanswer : Answer s s') : Step s s' [] out := by
  refine ⟨⟨h.forget hf, hoffers⟩, ?_, ?_, fun ref href => ?_, .single hanswer⟩
  · rw [hf.accepted, append_nil]
  · rw [← hheld]
    exact zero_add _
  · exact ⟨hf.nextRound ▸ href, (hf.rounds ref).demandReceived.trans⟩

/-- A call may forget bookkeeping before its step. -/
theorem Forgets.step (hheld : s'.held = s.held) (hsent : s'.outbox = s.outbox)
    (h : Step s' s'' [] out) : Step s s'' [] out := by
  refine ⟨h.inv, h.accepted.trans (by rw [hf.accepted]), hheld ▸ h.ledger, fun ref href => ?_,
    .head (.silent hf.settles hsent) h.evolves⟩
  obtain ⟨hlt, hdem⟩ := h.demand ref (hf.nextRound.symm ▸ href)
  exact ⟨hlt, fun hd => hdem ((hf.rounds ref).demandReceived.trans hd)⟩

/-- A step that sends no message. -/
theorem Inv.step (h : s.Inv) {out : List StoreResult}
    (hoffers : ∀ kv rk ref, s'.roundAt kv rk = some ref → Offers (s'.rounds ref))
    (hheld : s.held = s'.held + jobsIn out) (hsent : s'.outbox = s.outbox) : Step s s' [] out :=
  h.toBase.step hf hoffers hheld (.silent hf.settles hsent)

end

/-! ### Jobs that leave the table -/

/-- The jobs that are pinned after some are popped. -/
theorem pinned_popJobs {j : JobId} :
    (popJobs jobIds s.storeJobs).2.get? j ≠ none ↔ j ∉ jobIds ∧ s.Pinned j := by
  rw [get?_popJobs, Pinned]
  split_ifs with hj <;> simp [hj]

/-- Jobs that no transfer reads leave the table, and with it the pending sets. -/
theorem forgets_popJobs (hreads : ∀ j ∈ jobIds, ∀ tid ref, ¬ s.Reads j tid ref)
    (hsame : ∀ ref, SameDemand (s.rounds ref) (rounds ref))
    (hpending : ∀ ref, ∀ j ∈ (rounds ref).pendingJobIds, j ∉ jobIds) :
    Forgets s { s with storeJobs := (popJobs jobIds s.storeJobs).2, rounds := rounds } where
  roundAt _ _ _ := id
  kept _ _ _ := rfl
  inflight := rfl
  nextTid := le_rfl
  nextRound := rfl
  accepted := rfl
  rounds := hsame
  unpinned _ hj := (pinned_popJobs.mp hj).2
  reads j tid ref hread hj := pinned_popJobs.mpr ⟨fun hmem => hreads j hmem tid ref hread, hj⟩
  pending j ref hmem hj := pinned_popJobs.mpr ⟨hpending ref j hmem, hj⟩
  owner _ _ _ _ _ := id
  aborts _ _ h := ⟨h, id⟩
  lookups _ _ _ := id

/-- Popped jobs leave the held ones as results. -/
theorem held_popJobs {success : Bool} :
    s.held = { s with storeJobs := (popJobs jobIds s.storeJobs).2, rounds := rounds }.held +
      jobsIn (resultsOf success (popJobs jobIds s.storeJobs).1) := by
  rw [held, held, keys_popJobs jobIds, jobsIn_resultsOf]
  abel

/-- Queueing results forgets nothing more. -/
theorem Forgets.queueResults {out : List StoreResult × ServerRole} (h : Forgets s out.2) :
    Forgets s (queueResults out) :=
  ⟨h.roundAt, h.kept, h.inflight, h.nextTid, h.nextRound, h.accepted, h.rounds, h.unpinned,
    h.reads, h.pending, h.owner, h.aborts, h.lookups⟩

/-- One round is changed, the others are not. -/
theorem rounds_modifyRound {ref' : RoundRef} (f : OutboundRound → OutboundRound) :
    (s.modifyRound ref f).rounds ref' = if ref' = ref then f (s.rounds ref) else s.rounds ref' := by
  exact Function.update_apply _ ref _ ref'

/-- A change of a round that keeps its demand. -/
theorem forgets_modifyRound {f : OutboundRound → OutboundRound}
    (hsame : SameDemand (s.rounds ref) (f (s.rounds ref))) : Forgets s (s.modifyRound ref f) where
  roundAt _ _ _ := id
  kept _ _ _ := rfl
  inflight := rfl
  nextTid := le_rfl
  nextRound := rfl
  accepted := rfl
  rounds ref' := by
    rw [rounds_modifyRound]
    split_ifs with href
    · exact href ▸ hsame
    · exact .refl
  unpinned _ := id
  reads _ _ _ _ := id
  pending _ _ _ := id
  owner _ _ _ _ _ := id
  aborts _ _ h := ⟨h, id⟩
  lookups _ _ _ := id

/-- Forgetting an idle request. -/
theorem forgets_maybePrune (s : ServerRole) (req : KvRequestId) : Forgets s (s.maybePrune req) := by
  have hrequests : ∀ kv rk, s.pendingAborts.get? (kv, rk) ≠ none → s.requests.get? kv ≠ none →
      (s.maybePrune req).requests.get? kv ≠ none := by
    intro kv rk habort hreq
    rw [maybePrune]
    split_ifs with hidle
    · obtain ⟨st, hst⟩ := Option.ne_none_iff_exists'.mp hreq
      by_cases hkv : kv = req
      · rw [← hkv, hst] at hidle
        exact absurd ((idle_eq hidle).2 rk) habort
      · rw [get?_erase_of_ne hkv]
        exact hreq
    · exact hreq
  have hfields := maybePrune_eq s req
  refine ⟨fun kv rk ref => ?_, fun _ x _ => roundAt_maybePrune, by rw [hfields],
    by rw [hfields], by rw [hfields], by rw [hfields], fun ref => by rw [hfields]; exact .refl,
    fun j => ?_, fun j tid ref _ => ?_, fun j ref _ => ?_, fun j kv rk ref _ => ?_,
    fun kv rk => ?_, fun kv i lookup => ?_⟩
  · rw [roundAt_maybePrune]
    exact id
  · rw [hfields]
    exact id
  · rw [hfields]
    exact id
  · rw [hfields]
    exact id
  · rw [roundAt_maybePrune]
    exact id
  · intro hne
    have habort : s.pendingAborts.get? (kv, rk) ≠ none := by
      rwa [hfields] at hne
    exact ⟨habort, hrequests kv rk habort⟩
  · rw [request_maybePrune]
    exact id

/-! ### Finalizing a round -/

/-- What the end of a round leaves alone. -/
theorem finalizeRound_fields (s : ServerRole) (req : KvRequestId) (roundKey : ℕ)
    (ref : RoundRef) (success : Option Bool) (sendDone : Bool) :
    let s' := s.finalizeRound req roundKey ref success sendDone
    let popped := popJobs (s.rounds ref).pendingJobIds s.storeJobs
    let ok := !(s.rounds ref).cancelled &&
      success.getD ((s.rounds ref).demandReceived && (s.rounds ref).remaining = 0)
    s'.inflight = s.inflight ∧ s'.nextTid = s.nextTid ∧ s'.nextRound = s.nextRound ∧
      s'.accepted = s.accepted ∧ s'.pendingAborts = s.pendingAborts ∧ s'.storeJobs = popped.2 ∧
      s'.pendingStoreResults = s.pendingStoreResults ++ resultsOf ok popped.1 ∧
      s'.rounds = Function.update s.rounds ref { s.rounds ref with pendingJobIds := [] } ∧
      s'.outbox = s.outbox ++ (if sendDone && (s.rounds ref).demandReceived then
        [.transferDone req ok roundKey] else []) := by
  rw [finalizeRound, maybePrune_eq]
  split_ifs
  · exact ⟨rfl, rfl, rfl, rfl, rfl, rfl, rfl, rfl, rfl⟩
  · exact ⟨rfl, rfl, rfl, rfl, rfl, rfl, rfl, rfl, (append_nil _).symm⟩

private theorem request_finalizeRound (s : ServerRole) (req kv : KvRequestId) (roundKey : ℕ)
    (ref : RoundRef) (success : Option Bool) (sendDone : Bool) :
    (s.finalizeRound req roundKey ref success sendDone).request kv = if kv = req then
        { s.request req with
          outbound := (s.request req).outbound.erase roundKey }
      else s.request kv := by
  have hset : (s.finalizeRound req roundKey ref success sendDone).request kv =
      (s.setRequest req { s.request req with
        outbound := (s.request req).outbound.erase roundKey }).request kv := by
    rw [finalizeRound]
    rw [request_maybePrune]
    split_ifs <;> rfl
  rw [hset]
  split_ifs with hkv
  · rw [hkv, request_setRequest_self]
  · rw [request_setRequest_of_ne hkv]

/-- A finalized round is no longer registered. -/
theorem roundAt_finalizeRound (s : ServerRole) (req kv : KvRequestId) (roundKey rk : ℕ)
    (ref : RoundRef) (success : Option Bool) (sendDone : Bool) :
    (s.finalizeRound req roundKey ref success sendDone).roundAt kv rk =
      if kv = req ∧ rk = roundKey then none else s.roundAt kv rk := by
  rw [roundAt, request_finalizeRound]
  by_cases hkv : kv = req
  · by_cases hrk : rk = roundKey
    · rw [if_pos hkv, if_pos ⟨hkv, hrk⟩, hrk, get?_erase_self]
    · rw [if_pos hkv, if_neg fun h => hrk h.2, get?_erase_of_ne hrk, hkv, roundAt]
  · rw [if_neg hkv, if_neg fun h => hkv h.1, roundAt]

/-- The entry of a request that is aborted outlives its rounds. -/
private theorem requests_finalizeRound {success : Option Bool} {sendDone : Bool}
    (habort : s.pendingAborts.get? (kv, rk) ≠ none) (hreq : s.requests.get? kv ≠ none) :
    (s.finalizeRound req roundKey ref success sendDone).requests.get? kv ≠ none := by
  refine ((forgets_maybePrune _ req).aborts kv rk ?_).2 ?_
  · rw [maybePrune_eq]
    split_ifs <;> exact habort
  · split_ifs <;> exact get?_set_ne_none hreq

/-- A round without transfers can be finalized. -/
theorem Base.forgets_finalizeRound (h : s.Base) (hat : s.roundAt req roundKey = some ref)
    (hcount : (s.rounds ref).inflight = 0) (success : Option Bool) (sendDone : Bool) :
    Forgets s (s.finalizeRound req roundKey ref success sendDone) := by
  obtain ⟨hinflight, htid, hnext, haccepted, haborts, hjobs, -, hrounds, -⟩ :=
    finalizeRound_fields s req _ ref success _
  have hunread : ∀ tid x, s.inflight.get? tid = some x → x.round ≠ ref := by
    intro tid x hx heq
    have hzero : s.countOf ref = 0 := (h.counts ref).symm.trans hcount
    rw [countOf, total_erase _ _ tid, part_of_get? _ hx, if_pos heq] at hzero
    omega
  have hpinned : ∀ j, (s.finalizeRound req roundKey ref success sendDone).Pinned j ↔
      j ∉ (s.rounds ref).pendingJobIds ∧ s.Pinned j := fun j => by
    rw [Pinned, hjobs, pinned_popJobs]
  have hpending : ∀ ref', ref' ≠ ref →
      (s.finalizeRound req roundKey ref success sendDone).rounds ref' = s.rounds ref' :=
    fun ref' hne => by rw [hrounds, Function.update_of_ne hne]
  refine ⟨fun kv rk ref' => ?_, fun tid x hx => ?_, hinflight, htid.ge, hnext, haccepted,
    fun ref' => ?_, fun j hj => ((hpinned j).mp hj).2, fun j tid ref' hread hj => ?_,
    fun j ref' hmem hj => ?_, fun j kv rk ref' hmem hat' => ?_, fun kv rk hne => ?_,
    fun kv i lookup => ?_⟩
  · rw [roundAt_finalizeRound]
    split_ifs
    · exact nofun
    · exact id
  · rw [roundAt_finalizeRound, if_neg]
    rintro ⟨hkv, hrk⟩
    -- a transfer of this round would be registered under the same key
    have hreg := (h.xfers tid x hx).roundAt
    rw [hkv, hrk, hat] at hreg
    exact hunread tid x hx (Option.some.inj hreg).symm
  · by_cases href : ref' = ref
    · rw [href, hrounds, Function.update_self]
      exact ⟨rfl, rfl, rfl, rfl, id, nofun⟩
    · rw [hpending ref' href]
      exact .refl
  · refine (hpinned j).mpr ⟨fun hmem => ?_, hj⟩
    obtain ⟨x, hx, hround, hjx⟩ := hread
    exact hunread tid x hx (hround.trans
      (h.home j ref' ref (.inr ⟨tid, x, hx, hround, hjx⟩) (.inl hmem)))
  · refine (hpinned j).mpr ⟨fun hmem' => ?_, hj⟩
    by_cases href : ref' = ref
    · rw [href, hrounds, Function.update_self] at hmem
      cases hmem
    · rw [hpending ref' href] at hmem
      exact href (h.home j ref' ref (.inl hmem) (.inl hmem'))
  · rw [roundAt_finalizeRound, if_neg, hat']
    rintro ⟨rfl, rfl⟩
    obtain rfl := Option.some.inj (hat'.symm.trans hat)
    rw [hrounds, Function.update_self] at hmem
    cases hmem
  · rw [haborts] at hne
    exact ⟨hne, requests_finalizeRound hne⟩
  · rw [request_finalizeRound]
    split_ifs with hkv
    · rw [hkv]
      exact id
    · exact id

/-- Finalizing a round, where only this round may still offer jobs that have failed. -/
theorem Base.step_finalizeRound (h : s.Base) (hat : s.roundAt req roundKey = some ref)
    (hoffers : ∀ kv rk ref', s.roundAt kv rk = some ref' → ref' ≠ ref → Offers (s.rounds ref'))
    (hcount : (s.rounds ref).inflight = 0) (success : Option Bool) (sendDone : Bool) :
    Step s (s.finalizeRound req roundKey ref success sendDone) [] [] := by
  obtain ⟨-, -, -, -, -, hjobs, hresults, hrounds, hsent⟩ :=
    finalizeRound_fields s req roundKey ref success sendDone
  have hf := h.forgets_finalizeRound hat hcount success sendDone
  have hclosed : ¬ (s.finalizeRound req roundKey ref success sendDone).IsOpen
      (req, roundKey) := by
    rintro ⟨ref', hat', -⟩
    rw [roundAt_finalizeRound, if_pos ⟨rfl, rfl⟩] at hat'
    cases hat'
  refine h.step hf (fun kv rk ref' hat' => ?_) ?_ ?_
  · -- the rounds still registered are others
    have hne : ref' ≠ ref := by
      rintro rfl
      rw [roundAt_finalizeRound] at hat'
      split_ifs at hat' with hkey
      exact hkey (h.inj kv rk req _ ref' hat' hat)
    rw [hrounds, Function.update_of_ne hne]
    exact hoffers kv rk ref' (hf.roundAt kv rk ref' hat') hne
  · rw [held, held, hjobs, hresults, jobsIn_append, jobsIn_resultsOf,
      keys_popJobs _]
    abel
  · by_cases hsend : (sendDone && (s.rounds ref).demandReceived) = true
    · rw [if_pos hsend] at hsent
      rw [Bool.and_eq_true] at hsend
      exact .done hf.settles (req, roundKey) _ ⟨ref, hat, hsend.2⟩ hclosed hsent
    · rw [if_neg hsend, append_nil] at hsent
      exact .silent hf.settles hsent

end ServerRole

end Sonar.P2P
