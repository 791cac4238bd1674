import Mathlib.Algebra.Order.Group.Multiset
import Mathlib.Tactic.Abel
import Sonar.P2P.Client

/-!
# What a client role owes

Every load handed in is owed one report. The job of a load that is not aborted is **owed** by the
load itself; when the load is aborted the report is made at once, and what the load still owes is to
set its event.

`ClientRole.Inv` adds this up: submitted jobs are those reported, those completed and not yet
collected, and those owed. It also says that the work list of `collect_results` names exactly the
ids with loads, which is what the assertion there relies on. A call changes one entry, and
`Inv.update` says what that entry has to account for; `Visited` says it for the loops over the loads
of an entry.
-/

namespace Sonar.P2P

open Lib Dict List

namespace ClientRole

variable {c c' : ClientRole} {req : KvRequestId} {st : ClientRequestState} {M : Type}
  [AddCommMonoid M]

/-! ### Totals over loads -/

/-- The sum over the loads of an entry. -/
def entryTotal (f : InboundLoadState → M) (st : ClientRequestState) : M :=
  st.loads.total fun _ load => f load

/-- The sum over all loads in flight. -/
def loadTotal (f : InboundLoadState → M) (c : ClientRole) : M :=
  c.requests.total fun _ st => entryTotal f st

private theorem part_entryTotal (f : InboundLoadState → M) (c : ClientRole) (req : KvRequestId) :
    c.requests.part (fun _ st => entryTotal f st) req =
      entryTotal f (c.getOrCreateRequest req) := by
  cases h : c.requests.get? req with
  | none =>
    rw [part_of_none _ h, getOrCreateRequest, h]
    rfl
  | some st =>
    rw [part_of_get? _ h, getOrCreateRequest, h]
    rfl

private theorem loadTotal_setRequest (f : InboundLoadState → M) (c : ClientRole)
    (req : KvRequestId) (st : ClientRequestState) :
    loadTotal f (c.setRequest req st) + entryTotal f (c.getOrCreateRequest req) =
      loadTotal f c + entryTotal f st := by
  rw [loadTotal, loadTotal, setRequest, total_set, total_erase _ c.requests req,
    part_entryTotal, add_comm, add_right_comm, add_assoc]

variable {load : InboundLoadState} {roundSeq : ℕ}

variable {f : InboundLoadState → M}

private theorem entryTotal_set {load' : InboundLoadState} (h : st.loads.get? roundSeq = some load) :
    entryTotal f { st with loads := st.loads.set roundSeq load' } + f load =
      entryTotal f st + f load' := by
  rw [entryTotal, entryTotal, total_set, total_erase _ st.loads _,
    part_of_get? _ h, add_comm, add_comm (f load'), add_assoc]

/-! ### The loads of an id -/

/-- The loads in flight for an id. -/
def loadsOf (c : ClientRole) (kvRequestId : KvRequestId) : Dict ℕ InboundLoadState :=
  (c.getOrCreateRequest kvRequestId).loads

@[simp] theorem getOrCreateRequest_setRequest_self (c : ClientRole) (req : KvRequestId)
    (st : ClientRequestState) : (c.setRequest req st).getOrCreateRequest req = st := by
  rw [getOrCreateRequest, setRequest, get?_set_self, Option.getD_some]

/-- A request that is there is returned as it is. -/
theorem getOrCreateRequest_of_get? (h : c.requests.get? req = some st) :
    c.getOrCreateRequest req = st := by
  rw [getOrCreateRequest, h, Option.getD_some]

/-- The loads of a request that is there. -/
theorem loadsOf_of_get? (h : c.requests.get? req = some st) : c.loadsOf req = st.loads := by
  rw [loadsOf, getOrCreateRequest_of_get? h]

/-- A request with loads is there. -/
theorem get?_requests_of_loads (h : c.loadsOf req ≠ ∅) :
    c.requests.get? req = some (c.getOrCreateRequest req) := by
  cases hst : c.requests.get? req with
  | none =>
    rw [loadsOf, getOrCreateRequest, hst] at h
    exact absurd rfl h
  | some st => rw [getOrCreateRequest_of_get? hst]

/-- Dropping an idle entry drops no load. -/
theorem maybePrune_spec (c : ClientRole) (req : KvRequestId) :
    (∀ other, (c.maybePrune req).loadsOf other = c.loadsOf other) ∧
      (∀ other, c.loadsOf other ≠ ∅ → (c.maybePrune req).getOrCreateRequest other =
        c.getOrCreateRequest other) ∧ ∀ {M : Type} [AddCommMonoid M] (f : InboundLoadState → M),
        loadTotal f (c.maybePrune req) = loadTotal f c := by
  by_cases hidle : (c.requests.get? req).any idle = true
  · have hprune : c.maybePrune req = { c with requests := c.requests.erase req } := if_pos hidle
    have hself : c.loadsOf req = ∅ := by
      rw [loadsOf, getOrCreateRequest]
      cases hst : c.requests.get? req with
      | none => rfl
      | some st =>
        rw [hst, Option.any_some, idle, Bool.and_eq_true, Bool.and_eq_true,
          decide_eq_true_eq] at hidle
        exact hidle.1.1
    have hother : ∀ other ≠ req, (c.maybePrune req).getOrCreateRequest other =
        c.getOrCreateRequest other := by
      intro other hne
      rw [hprune, getOrCreateRequest, get?_erase_of_ne hne, getOrCreateRequest]
    refine ⟨fun other => ?_, fun other hne => hother other fun heq => hne (heq ▸ hself), ?_⟩
    · by_cases heq : other = req
      · rw [heq, hself, hprune, loadsOf, getOrCreateRequest, get?_erase_self]
        rfl
      · rw [loadsOf, hother other heq, loadsOf]
    · intro M _ f
      have hpart : entryTotal f (c.getOrCreateRequest req) = 0 := by
        rw [entryTotal, ← loadsOf, hself, total_empty]
      rw [hprune, loadTotal, loadTotal, total_erase _ c.requests req,
        part_entryTotal, hpart, zero_add]
  · have hprune : c.maybePrune req = c := if_neg hidle
    rw [hprune]
    exact ⟨fun _ => rfl, fun _ _ => rfl, fun _ => rfl⟩

/-! ### What a client owes -/

/-- The job of a load that has not been reported. -/
def owedLoad (load : InboundLoadState) : Multiset JobId :=
  if load.release = none then {load.jobId} else 0

/-- The jobs of loads that have not been reported. -/
def owed (c : ClientRole) : Multiset JobId := loadTotal owedLoad c

/-- Some load of an entry will set an event. -/
def EntryAwaits (st : ClientRequestState) (e : ℕ) : Prop :=
  ∃ r load, st.loads.get? r = some load ∧ load.release = some e

/-- Some load in flight will set an event. -/
def Awaits (c : ClientRole) (e : ℕ) : Prop := ∃ kv, EntryAwaits (c.getOrCreateRequest kv) e

/-- The jobs of a list of results. -/
def jobsOf (results : List LoadResult) : Multiset JobId := ↑(results.map LoadResult.jobId)

/-- Reported jobs add up. -/
theorem jobsOf_append (l l' : List LoadResult) : jobsOf (l ++ l') = jobsOf l + jobsOf l' := by
  rw [jobsOf, map_append]
  rfl

/-- The events a list of results hands out. -/
def eventsOf (results : List LoadResult) : List ℕ := results.filterMap LoadResult.deferredRelease

/-- What is said of the loads of one entry. -/
structure EntryInv (st : ClientRequestState) : Prop where
  rounds : ∀ r, st.loads.get? r ≠ none → r < st.roundSeq
  synced : ∀ r load, st.loads.get? r = some load → (load.abortedAt = none ↔ load.release = none)

/-- What holds between calls, given the jobs handed in and the results collected so far. -/
structure Inv (c : ClientRole) (submitted : List JobId) (results : List LoadResult) : Prop where
  active : ∀ kv, kv ∈ c.activeLoads ↔ c.loadsOf kv ≠ ∅
  entries : ∀ kv, EntryInv (c.getOrCreateRequest kv)
  jobs : ↑submitted = jobsOf results + jobsOf c.completedLoads + c.owed
  events : ∀ e ∈ eventsOf (results ++ c.completedLoads), e ∈ c.released ∨ c.Awaits e

variable {submitted submitted' : List JobId} {results results' : List LoadResult}

/-- A call that writes one entry back keeps the invariant if the entry keeps its part, and what the
entry no longer owes has been reported. -/
theorem Inv.update (h : c.Inv submitted results) {st' : ClientRequestState}
    (hst : c.getOrCreateRequest req = st)
    (hreq : c'.requests = c.requests.set req st')
    (hactive : ∀ kv, kv ∈ c'.activeLoads ↔ if kv = req then st'.loads ≠ ∅ else kv ∈ c.activeLoads)
    (hentry : EntryInv st')
    (hjobs : ↑submitted' + (jobsOf results + jobsOf c.completedLoads + entryTotal owedLoad st) =
      ↑submitted + (jobsOf results' + jobsOf c'.completedLoads + entryTotal owedLoad st'))
    (hreleased : ∀ e ∈ c.released, e ∈ c'.released)
    (hkept : ∀ e, EntryAwaits st e → e ∈ c'.released ∨ EntryAwaits st' e)
    (hevents : ∀ e ∈ eventsOf (results' ++ c'.completedLoads),
      e ∈ eventsOf (results ++ c.completedLoads) ∨ EntryAwaits st' e) :
    c'.Inv submitted' results' := by
  have hget : ∀ kv, c'.getOrCreateRequest kv = (c.setRequest req st').getOrCreateRequest kv :=
    fun kv => by rw [getOrCreateRequest, hreq, getOrCreateRequest, setRequest]
  have hself : c'.getOrCreateRequest req = st' := by
    rw [hget, getOrCreateRequest_setRequest_self]
  have hother : ∀ kv ≠ req, c'.getOrCreateRequest kv = c.getOrCreateRequest kv :=
    fun kv hne => by
      rw [hget, getOrCreateRequest, setRequest, get?_set_of_ne hne, getOrCreateRequest]
  refine ⟨fun kv => ?_, fun kv => ?_, ?_, fun e he => ?_⟩
  · by_cases hkv : kv = req
    · rw [hactive, if_pos hkv, loadsOf, hkv, hself]
    · rw [hactive, if_neg hkv, h.active, loadsOf, loadsOf, hother kv hkv]
  · by_cases hkv : kv = req
    · rw [hkv, hself]
      exact hentry
    · rw [hother kv hkv]
      exact h.entries kv
  · have howed : c'.owed + entryTotal owedLoad st = c.owed + entryTotal owedLoad st' := by
      have hset := loadTotal_setRequest owedLoad c req st'
      rw [hst] at hset
      have hc' : c'.owed = loadTotal owedLoad (c.setRequest req st') := by
        rw [owed, loadTotal, hreq]
        rfl
      rw [hc']
      exact hset
    rw [h.jobs] at hjobs
    refine add_right_cancel (b := jobsOf results + jobsOf c.completedLoads +
      entryTotal owedLoad st) ?_
    rw [hjobs]
    calc _ = jobsOf results + jobsOf c.completedLoads + (jobsOf results' +
          jobsOf c'.completedLoads) + (c.owed + entryTotal owedLoad st') := by abel
      _ = _ := by
        rw [← howed]
        abel
  · have hold : e ∈ eventsOf (results ++ c.completedLoads) → e ∈ c'.released ∨ c'.Awaits e := by
      intro hmem
      rcases h.events e hmem with hrel | ⟨kv, hawait⟩
      · exact .inl (hreleased e hrel)
      · by_cases hkv : kv = req
        · rw [hkv, hst] at hawait
          exact (hkept e hawait).imp_right fun hst' => ⟨req, hself.symm ▸ hst'⟩
        · exact .inr ⟨kv, (hother kv hkv).symm ▸ hawait⟩
    rcases hevents e he with hmem | hst'
    · exact hold hmem
    · exact .inr ⟨req, hself.symm ▸ hst'⟩

/-- Changes elsewhere do not matter. -/
theorem Inv.congr (h : c.Inv submitted results) (hreq : c'.requests = c.requests)
    (hactive : c'.activeLoads = c.activeLoads) (hcompleted : c'.completedLoads = c.completedLoads)
    (hreleased : c'.released = c.released) : c'.Inv submitted results := by
  have hget : ∀ kv, c'.getOrCreateRequest kv = c.getOrCreateRequest kv := fun kv => by
    rw [getOrCreateRequest, hreq, getOrCreateRequest]
  refine ⟨fun kv => ?_, fun kv => ?_, ?_, fun e he => ?_⟩
  · rw [hactive, loadsOf, hget]
    exact h.active kv
  · rw [hget]
    exact h.entries kv
  · rw [hcompleted, owed, loadTotal, hreq]
    exact h.jobs
  · rw [hcompleted] at he
    rw [hreleased]
    exact (h.events e he).imp_right fun ⟨kv, hawait⟩ => ⟨kv, (hget kv).symm ▸ hawait⟩

/-- Forgetting an idle request changes neither its loads nor the reports. -/
theorem maybePrune_fields (c : ClientRole) (req : KvRequestId) :
    (c.maybePrune req).activeLoads = c.activeLoads ∧
      (c.maybePrune req).completedLoads = c.completedLoads ∧
      (c.maybePrune req).released = c.released := by
  rw [maybePrune]
  split_ifs <;> exact ⟨rfl, rfl, rfl⟩

/-- Only a request without loads is forgotten. -/
theorem Inv.maybePrune (h : c.Inv submitted results) :
    (c.maybePrune req).Inv submitted results := by
  obtain ⟨hloads, hget, htotal⟩ := maybePrune_spec c req
  obtain ⟨hactive, hcompleted, hreleased⟩ := maybePrune_fields c req
  refine ⟨fun kv => ?_, fun kv => ?_, ?_, fun e he => ?_⟩
  · rw [hactive, hloads]
    exact h.active kv
  · by_cases hempty : c.loadsOf kv = ∅
    · have hempty' : ((c.maybePrune req).getOrCreateRequest kv).loads = ∅ :=
        (hloads kv).trans hempty
      refine ⟨fun r hr => ?_, fun r load hload => ?_⟩
      · rw [hempty'] at hr
        exact absurd rfl hr
      · rw [hempty'] at hload
        cases hload
    · rw [hget kv hempty]
      exact h.entries kv
  · rw [hcompleted, owed, htotal]
    exact h.jobs
  · rw [hcompleted] at he
    rw [hreleased]
    refine (h.events e he).imp_right ?_
    rintro ⟨kv, r, load, hload, hrel⟩
    exact ⟨kv, r, load, by rw [← loadsOf, hloads]; exact hload, hrel⟩

/-! ### Loops over loads -/

/-- What a loop body does to one load and the role: it may report the load and make it await an
event, and changes nothing else that matters. -/
structure Visit (load : InboundLoadState) (c : ClientRole)
    (out : InboundLoadState × ClientRole) : Prop where
  synced : out.1.abortedAt = none ↔ out.1.release = none
  requests : out.2.requests = c.requests
  activeLoads : out.2.activeLoads = c.activeLoads
  released : out.2.released = c.released
  jobs : owedLoad out.1 + jobsOf out.2.completedLoads = owedLoad load + jobsOf c.completedLoads
  kept : ∀ e, load.release = some e → out.1.release = some e
  events : ∀ e ∈ eventsOf out.2.completedLoads,
    e ∈ eventsOf c.completedLoads ∨ out.1.release = some e

private theorem visit_same (h : load.abortedAt = none ↔ load.release = none) : Visit load c (load, c) :=
  ⟨h, rfl, rfl, rfl, rfl, fun _ => id, fun _ => .inl⟩

private theorem visit_abortLoad {now : Time} (h : load.release = none) :
    Visit load c (abortLoad now req roundSeq load c) := by
  refine ⟨by simp [abortLoad], rfl, rfl, rfl, ?_, fun e he => (nomatch h.symm.trans he), ?_⟩
  · rw [abortLoad, jobsOf_append, owedLoad, if_neg (Option.some_ne_none _), owedLoad, if_pos h,
      zero_add, add_comm]
    rfl
  · intro e he
    rw [abortLoad, eventsOf, filterMap_append, mem_append] at he
    rcases he with he | he
    · exact .inl he
    · exact .inr (by simpa [abortLoad, eq_comm] using he)

/-- An abort visits a load that was not aborted before. -/
theorem visit_abort (now : Time) (req : KvRequestId) (roundSeq : ℕ)
    (h : load.abortedAt = none ↔ load.release = none) : Visit load c
      (if load.abortedAt = none then abortLoad now req roundSeq load c else (load, c)) := by
  split_ifs with habort
  · exact visit_abortLoad (h.mp habort)
  · exact visit_same h

/-- A poll visits a load: it is aborted or given up when it is overdue. -/
theorem visit_checkLoad (now : Time) (req : KvRequestId) (roundSeq : ℕ)
    (h : load.abortedAt = none ↔ load.release = none) :
    Visit load c (checkLoad now req roundSeq load c) := by
  rw [checkLoad]
  cases habort : load.abortedAt with
  | none =>
    dsimp only
    split_ifs
    · exact visit_abortLoad (h.mp habort)
    · exact visit_same h
  | some abortedAt =>
    have h' : some abortedAt = none ↔ load.release = none := habort ▸ h
    dsimp only
    split_ifs
    · exact ⟨h', rfl, rfl, rfl, rfl, fun _ => id, fun _ => .inl⟩
    · exact ⟨h', rfl, rfl, rfl, rfl, fun _ => id, fun _ => .inl⟩
    · exact visit_same h

/-- What a loop over the loads of an entry does. -/
structure Visited (st : ClientRequestState) (c : ClientRole)
    (out : ClientRequestState × ClientRole) : Prop where
  roundSeq : out.1.roundSeq = st.roundSeq
  rest : out.1.probes = st.probes ∧ out.1.unsent = st.unsent ∧ out.1.probed = st.probed ∧
    out.1.peerLookupOpen = st.peerLookupOpen
  loads : ∀ r, out.1.loads.get? r = none ↔ st.loads.get? r = none
  entry : EntryInv out.1
  requests : out.2.requests = c.requests
  activeLoads : out.2.activeLoads = c.activeLoads
  released : out.2.released = c.released
  jobs : entryTotal owedLoad out.1 + jobsOf out.2.completedLoads =
    entryTotal owedLoad st + jobsOf c.completedLoads
  kept : ∀ e, EntryAwaits st e → EntryAwaits out.1 e
  events : ∀ e ∈ eventsOf out.2.completedLoads, e ∈ eventsOf c.completedLoads ∨ EntryAwaits out.1 e

/-- A loop that has visited nothing yet. -/
theorem Visited.refl (h : EntryInv st) : Visited st c (st, c) :=
  ⟨rfl, ⟨rfl, rfl, rfl, rfl⟩, fun _ => Iff.rfl, h, rfl, rfl, rfl, rfl, fun _ => id, fun _ => .inl⟩

private theorem Visited.trans {mid out : ClientRequestState × ClientRole} (h : Visited st c mid)
    (h' : Visited mid.1 mid.2 out) : Visited st c out where
  roundSeq := h'.roundSeq.trans h.roundSeq
  rest := ⟨h'.rest.1.trans h.rest.1, h'.rest.2.1.trans h.rest.2.1,
    h'.rest.2.2.1.trans h.rest.2.2.1, h'.rest.2.2.2.trans h.rest.2.2.2⟩
  loads r := (h'.loads r).trans (h.loads r)
  entry := h'.entry
  requests := h'.requests.trans h.requests
  activeLoads := h'.activeLoads.trans h.activeLoads
  released := h'.released.trans h.released
  jobs := h'.jobs.trans h.jobs
  kept e he := h'.kept e (h.kept e he)
  events e he := (h'.events e he).elim
    (fun hmid => (h.events e hmid).imp_right (h'.kept e)) .inr

/-- One visit of a loop over the loads. -/
theorem visited_set (h : EntryInv st)
    {out : InboundLoadState × ClientRole} (hload : st.loads.get? roundSeq = some load)
    (hvisit : Visit load c out) :
    Visited st c ({ st with loads := st.loads.set roundSeq out.1 }, out.2) := by
  have hget := get?_set st.loads roundSeq out.1
  have hkept : ∀ e, EntryAwaits st e →
      EntryAwaits { st with loads := st.loads.set roundSeq out.1 } e := by
    rintro e ⟨r, other, hother, hrel⟩
    by_cases hr : r = roundSeq
    · rw [hr, hload] at hother
      obtain rfl := Option.some.inj hother
      exact ⟨roundSeq, out.1, by rw [hget, if_pos rfl], hvisit.kept e hrel⟩
    · exact ⟨r, other, by rw [hget, if_neg hr, hother], hrel⟩
  refine ⟨rfl, ⟨rfl, rfl, rfl, rfl⟩, fun r => ?_, ⟨fun r hr => ?_, fun r other hother => ?_⟩,
    hvisit.requests, hvisit.activeLoads, hvisit.released, ?_, hkept, fun e he => ?_⟩
  · rw [hget]
    split_ifs with hr
    · rw [hr, hload]
      simp
    · rfl
  · rw [hget] at hr
    split_ifs at hr with heq
    · exact h.rounds r (by rw [heq, hload]; exact Option.some_ne_none _)
    · exact h.rounds r hr
  · rw [hget] at hother
    split_ifs at hother with heq
    · obtain rfl := Option.some.inj hother
      exact hvisit.synced
    · exact h.synced r other hother
  · refine add_right_cancel (b := owedLoad load) ?_
    rw [add_right_comm, entryTotal_set hload, add_assoc, hvisit.jobs]
    abel
  · refine (hvisit.events e he).imp_right fun hrel => ?_
    exact ⟨roundSeq, out.1, by rw [hget, if_pos rfl], hrel⟩

/-- A loop over the loads, if each round is a visit. -/
theorem visited_forLoads {body : ℕ → InboundLoadState → ClientRole → InboundLoadState × ClientRole}
    (hbody : ∀ r load c, (load.abortedAt = none ↔ load.release = none) →
      Visit load c (body r load c)) (rounds : List ℕ) (h : EntryInv st) :
    Visited st c (forLoads body rounds st c) := by
  induction rounds generalizing st c with
  | nil => exact .refl h
  | cons r rounds ih =>
    rw [forLoads]
    cases hload : st.loads.get? r with
    | none => exact ih h
    | some load =>
      have hone := visited_set h hload (hbody r load c (h.synced r load hload))
      exact hone.trans (ih hone.entry)

end ClientRole

end Sonar.P2P
