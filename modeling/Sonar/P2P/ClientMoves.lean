import Mathlib.Logic.Relation
import Sonar.P2P.ClientRuns

/-!
# What the peer sees of a client role

A client role as its peer may think of it: which loads it holds, which of these it has aborted, and
what it has sent (`View`). A call on its own aborts loads, sends lookups and ends a request
(`Acts`). A fetch is sent for a round with no load; a load goes when `TransferDone` or `AbortAck`
for it is handled. A report without an event, and an event that is set, is always that of a load
that goes (`Reports`).
-/

namespace Sonar.P2P

open Lib List Dict Function Option Relation

/-- A client as its peer may think of it. For a load, whether it was aborted. -/
@[ext] structure View where
  held : KvRequestId × ℕ → Option Bool
  sent : List PeerMsg

/-- One move of a client on its own. -/
inductive Acts (v v' : View) : Prop
  | lookup (kv : KvRequestId) (keys : List OffloadKey) (r : ℕ) (held : v'.held = v.held)
      (sent : v'.sent = v.sent ++ [.lookup kv keys r])
  | abort (p : KvRequestId × ℕ) (active : v.held p = some false)
      (held : v'.held = update v.held p (some true))
      (sent : v'.sent = v.sent ++ [.abortFetch p.1 p.2])
  | sweep (kv : KvRequestId) (r : ℕ) (aborted : ∀ r', v.held (kv, r') ≠ some false)
      (next : v.held (kv, r) = none) (held : v'.held = v.held)
      (sent : v'.sent = v.sent ++ [.fetch kv [] [] r])

namespace ClientRole

variable {c c' : ClientRole} {req kv : KvRequestId} {st : ClientRequestState} {r : ℕ}
  {submitted : List JobId} {results : List LoadResult}

/-- Whether the load of an id and a round was aborted. -/
def heldOf (loads : Dict ℕ InboundLoadState) (r : ℕ) : Option Bool :=
  (loads.get? r).map fun load => load.release.isSome

private theorem EntryInv.heldOf_next (h : EntryInv st) : heldOf st.loads st.roundSeq = none := by
  rw [heldOf, map_eq_none_iff]
  by_contra hne
  exact lt_irrefl _ (h.rounds _ hne)

/-- What the peer sees when one entry is still to be written back. -/
def viewWith (c : ClientRole) (kvRequestId : KvRequestId) (st : ClientRequestState) : View :=
  ⟨fun p => heldOf (if p.1 = kvRequestId then st.loads else c.loadsOf p.1) p.2, c.outbox⟩

/-- What the peer sees. -/
def view (c : ClientRole) : View := ⟨fun p => heldOf (c.loadsOf p.1) p.2, c.outbox⟩

private theorem viewWith_of_get? (h : c.requests.get? req = some st) : c.viewWith req st = c.view := by
  refine View.ext (funext fun p => ?_) rfl
  rw [viewWith, view]
  dsimp only
  split_ifs with hp
  · rw [hp, loadsOf_of_get? h]
  · rfl

variable {st' : ClientRequestState}
  {body : ℕ → InboundLoadState → ClientRole → InboundLoadState × ClientRole}

section

variable (h : c'.requests = c.requests.set req st')

include h

private theorem loadsOf_set (kv : KvRequestId) :
    c'.loadsOf kv = if kv = req then st'.loads else c.loadsOf kv := by
  rw [loadsOf, getOrCreateRequest, h]
  split_ifs with hkv
  · rw [hkv, get?_set_self]
    rfl
  · rw [get?_set_of_ne hkv]
    rfl

private theorem view_set (hloads : st'.loads = st.loads) (hsent : c'.outbox = c.outbox) :
    c'.view = c.viewWith req st := by
  refine View.ext (funext fun p => ?_) hsent
  rw [view, viewWith]
  dsimp only
  rw [loadsOf_set h, hloads]

private theorem held_update {held : Option Bool} (hself : heldOf st'.loads r = held)
    (hothers : ∀ r' ≠ r, heldOf st'.loads r' = heldOf (c.loadsOf req) r') :
    c'.view.held = update c.view.held (req, r) held := by
  funext p
  change heldOf (c'.loadsOf p.1) p.2 = _
  rw [loadsOf_set h]
  by_cases hp : p = (req, r)
  · rw [hp, update_self, if_pos rfl, hself]
  · rw [update_of_ne hp]
    split_ifs with hkv
    · rw [hothers p.2 fun hr => hp (Prod.ext hkv hr), ← hkv]
      rfl
    · rfl

end

@[simp] theorem view_maybePrune : (c.maybePrune req).view = c.view := by
  have hsent : (c.maybePrune req).outbox = c.outbox := by
    rw [maybePrune]
    split_ifs <;> rfl
  rw [view, hsent, view]
  simp [(maybePrune_spec c req).1]

/-! ### Loops over loads -/

/-- What the peer sees of a loop body: the load is aborted, with a message, or stays as it was. -/
def Shows (kvRequestId : KvRequestId)
    (body : ℕ → InboundLoadState → ClientRole → InboundLoadState × ClientRole) : Prop :=
  ∀ r load c, (load.abortedAt = none ↔ load.release = none) →
    (body r load c).2.requests = c.requests ∧
    ((load.release = none ∧ (body r load c).1.release.isSome = true ∧
        (body r load c).2.outbox = c.outbox ++ [.abortFetch kvRequestId r]) ∨
      ((body r load c).1.release.isSome = load.release.isSome ∧
        (body r load c).2.outbox = c.outbox))

private theorem viewWith_set (req : KvRequestId) (st : ClientRequestState) (r : ℕ)
    (hreq : c'.requests = c.requests) (load : InboundLoadState) :
    (c'.viewWith req { st with loads := st.loads.set r load }).held =
      update (c.viewWith req st).held (req, r) (some load.release.isSome) := by
  funext p
  change heldOf (if p.1 = req then st.loads.set r load else c'.loadsOf p.1) p.2 = _
  by_cases hp : p = (req, r)
  · rw [hp, update_self, if_pos rfl, heldOf, get?_set_self, map_some]
  · rw [update_of_ne hp, viewWith]
    dsimp only
    split_ifs with hkv
    · rw [heldOf, get?_set_of_ne fun hr => hp (Prod.ext hkv hr), heldOf]
    · rw [loadsOf, getOrCreateRequest, hreq, loadsOf, getOrCreateRequest]

private theorem acts_forLoads (hvisit : ∀ r load c, (load.abortedAt = none ↔ load.release = none) →
      Visit load c (body r load c)) (hshows : Shows req body) (rounds : List ℕ)
    (h : EntryInv st) : ReflTransGen Acts (c.viewWith req st)
      ((forLoads body rounds st c).2.viewWith req (forLoads body rounds st c).1) := by
  induction rounds generalizing st c with
  | nil => exact .refl
  | cons r rounds ih =>
    rw [forLoads]
    cases hload : st.loads.get? r with
    | none => exact ih h
    | some load =>
      have hone := visited_set h hload (hvisit r load c (h.synced r load hload))
      refine .trans ?_ (ih hone.entry)
      obtain ⟨hreq, hshow⟩ := hshows r load c (h.synced r load hload)
      have hself : (c.viewWith req st).held (req, r) = some load.release.isSome := by
        change heldOf (if req = req then st.loads else _) r = _
        rw [if_pos rfl, heldOf, hload, map_some]
      have hheld := viewWith_set req st r hreq (body r load c).1
      rcases hshow with ⟨hnone, hsome, hsent⟩ | ⟨hsame, hsent⟩
      · -- the load is aborted
        rw [hnone] at hself
        rw [hsome] at hheld
        exact .single (.abort (req, r) hself hheld hsent)
      · rw [hsame, ← hself, update_eq_self] at hheld
        rw [View.ext hheld hsent]

variable {now : Time} {keys : List OffloadKey} {roundSeq : ℕ} {load : InboundLoadState}

private theorem shows_abort : Shows req fun r load c =>
      if load.abortedAt = none then abortLoad now req r load c else (load, c) := by
  intro r load c hsynced
  dsimp only
  split_ifs with habort
  · exact ⟨rfl, .inl ⟨hsynced.mp habort, rfl, rfl⟩⟩
  · exact ⟨rfl, .inr ⟨rfl, rfl⟩⟩

private theorem shows_checkLoad : Shows req (checkLoad now req) := by
  intro r load c hsynced
  rw [checkLoad]
  cases habort : load.abortedAt with
  | none =>
    dsimp only
    split_ifs
    · exact ⟨rfl, .inl ⟨hsynced.mp habort, rfl, rfl⟩⟩
    · exact ⟨rfl, .inr ⟨rfl, rfl⟩⟩
  | some abortedAt =>
    dsimp only
    split_ifs <;> exact ⟨rfl, .inr ⟨rfl, rfl⟩⟩

/-- After the loop of `finish` every load of the entry is aborted. -/
private theorem forLoads_aborted (now : Time) (req : KvRequestId) (h : EntryInv st) (rounds : List ℕ) :
    ∀ r load, (forLoads (fun r load c =>
      if load.abortedAt = none then abortLoad now req r load c else (load, c))
      rounds st c).1.loads.get? r = some load → r ∈ rounds ∨ (∀ old, st.loads.get? r = some old →
        old.release ≠ none) → load.release ≠ none := by
  induction rounds generalizing st c with
  | nil =>
    rintro r load hload (hmem | hold)
    · cases hmem
    · exact hold load hload
  | cons r0 rounds ih =>
    intro r load hload hr
    rw [forLoads] at hload
    cases hload0 : st.loads.get? r0 with
    | none =>
      rw [hload0] at hload
      refine ih h r load hload ?_
      refine hr.elim (fun hmem => ?_) .inr
      refine (mem_cons.mp hmem).elim (fun heq => .inr fun old hold => ?_) .inl
      rw [heq, hload0] at hold
      cases hold
    | some load0 =>
      rw [hload0] at hload
      have hsynced := h.synced r0 load0 hload0
      have hone := visited_set (c := c) h hload0 (visit_abort now req r0 hsynced)
      refine ih hone.entry r load hload ?_
      by_cases heq : r = r0
      · refine .inr fun old hold => ?_
        rw [heq, get?_set_self] at hold
        obtain rfl := some.inj hold
        split_ifs with habort
        · exact some_ne_none _
        · exact fun hnone => habort (hsynced.mpr hnone)
      · rw [get?_set_of_ne heq]
        exact hr.imp_left fun hmem => (mem_cons.mp hmem).resolve_left heq

/-! ### Calls on its own -/

/-- A call that changes only the lookup state of one entry. -/
private theorem held_lookupState (hreq : c'.requests = c.requests.set req st')
    (hloads : st'.loads = c.loadsOf req) : c'.view.held = c.view.held := by
  funext p
  change heldOf (c'.loadsOf p.1) p.2 = heldOf (c.loadsOf p.1) p.2
  rw [loadsOf_set hreq, hloads]
  split_ifs with hkv
  · rw [hkv]
  · rfl

private theorem view_lookupState (hreq : c'.requests = c.requests.set req st')
    (hloads : st'.loads = c.loadsOf req) (hsent : c'.outbox = c.outbox) : c'.view = c.view :=
  View.ext (held_lookupState hreq hloads) hsent

/-- A lookup is nothing the peer can see before it is flushed. -/
theorem view_registerLookup {key : OffloadKey} : (c.registerLookup req key).2.view = c.view := by
  rw [registerLookup]
  split <;> exact view_lookupState rfl rfl rfl

/-- The answer to a lookup moves nothing. -/
theorem view_onLookupResp
    {hits : List Bool} : (c.onLookupResp req keys hits now).view = c.view := by
  rw [onLookupResp]
  cases hst : c.requests.get? req with
  | none => rfl
  | some st =>
    dsimp only
    split_ifs <;> exact view_lookupState rfl (loadsOf_of_get? hst).symm rfl

private theorem acts_flushLoop (now : Time) (reqIds : List KvRequestId) (c : ClientRole) :
    ReflTransGen Acts c.view (flushLoop now reqIds c).view := by
  induction reqIds generalizing c with
  | nil => exact .refl
  | cons reqId reqIds ih =>
    rw [flushLoop]
    cases hst : c.requests.get? reqId with
    | none => exact ih c
    | some st =>
      dsimp only
      split_ifs
      · exact ih c
      all_goals
        refine .head (.lookup reqId _ _ (held_lookupState rfl ?_) rfl) (ih _)
        exact (loadsOf_of_get? hst).symm

/-- Flushed lookups are messages, each a move. -/
theorem acts_flushPendingLookups {sendReady : Bool} :
    ReflTransGen Acts c.view (c.flushPendingLookups sendReady now).view := by
  rw [flushPendingLookups]
  split_ifs
  · exact acts_flushLoop now _ c
  · exact .refl

section

variable (h : c.Inv submitted results)

include h

/-- A finished request is aborted, and its lookup is closed. -/
theorem Inv.acts_finish : ReflTransGen Acts c.view (c.finish req now).view := by
  rw [ClientRole.finish]
  cases hst : c.requests.get? req with
  | none => exact .refl
  | some st =>
    have hentry : EntryInv st := getOrCreateRequest_of_get? hst ▸ h.entries req
    have hacts := acts_forLoads (c := c) (fun r _ _ => visit_abort now req r) shows_abort
      st.loads.keys hentry
    have hvisited := visited_forLoads (c := c) (fun r _ _ => visit_abort now req r) st.loads.keys
      hentry
    have haborted := forLoads_aborted (c := c) now req hentry st.loads.keys
    rw [viewWith_of_get? hst] at hacts
    set out := forLoads (fun r load c =>
      if load.abortedAt = none then abortLoad now req r load c else (load, c))
      st.loads.keys st c
    have hstopped : ∀ r, (out.2.viewWith req out.1).held (req, r) ≠ some false := by
      intro r
      rw [viewWith]
      dsimp only
      rw [if_pos rfl, heldOf]
      cases hload : out.1.loads.get? r with
      | none => exact (some_ne_none _).symm
      | some load =>
        have hrel := haborted r load hload (.inl ?_)
        · obtain ⟨e, he⟩ := ne_none_iff_exists'.mp hrel
          simp [he]
        · have hold : st.loads.get? r ≠ none := fun hnone => by
            rw [(hvisited.loads r).mpr hnone] at hload
            cases hload
          obtain ⟨old, hold⟩ := ne_none_iff_exists'.mp hold
          exact mem_keys.mpr ⟨old, hold⟩
    have hnext : (out.2.viewWith req out.1).held (req, out.1.roundSeq) = none := by
      rw [viewWith]
      dsimp only
      rw [if_pos rfl, hvisited.entry.heldOf_next]
    rw [view_maybePrune]
    split_ifs
    · refine hacts.tail (.sweep req _ hstopped hnext (funext fun p => ?_) rfl)
      change heldOf (loadsOf _ p.1) p.2 = _
      rw [loadsOf_set rfl]
      rfl
    · refine (congrArg _ ?_).mp hacts
      symm
      exact view_set rfl rfl rfl

private theorem Inv.acts_checkLoads (now : Time) {reqIds : List KvRequestId}
    (hids : ∀ kv ∈ reqIds, kv ∈ c.activeLoads) :
    ReflTransGen Acts c.view (ClientRole.checkLoads now reqIds c).2.view := by
  induction reqIds generalizing c with
  | nil => exact .refl
  | cons reqId reqIds ih =>
    obtain ⟨heq, hinv, hactive⟩ := h.checkLoads_cons now (hids reqId (.head _)) reqIds
    have hst := get?_requests_of_loads ((h.active reqId).mp (hids reqId (.head _)))
    have hacts := acts_forLoads (c := c) (fun r load c => visit_checkLoad now reqId r)
      shows_checkLoad (c.loadsOf reqId).keys (h.entries reqId)
    rw [viewWith_of_get? hst] at hacts
    rw [heq]
    refine .trans ?_ (ih hinv fun kv hkv => hactive ▸ hids kv (.tail _ hkv))
    refine (congrArg _ ?_).mpr hacts
    exact view_set rfl rfl rfl

/-- Collecting results: each overdue load is a move. -/
theorem Inv.acts_collectResults : ReflTransGen Acts c.view (c.collectResults now).2.view := by
  have hacts := h.acts_checkLoads now fun _ => id
  rw [ClientRole.collectResults]
  rcases hcheck : ClientRole.checkLoads now c.activeLoads c with ⟨res, c'⟩
  rw [hcheck] at hacts
  cases res <;> exact hacts

/-! ### Loads that come and go -/

/-- The next round of a request is not held by anyone. -/
theorem Inv.heldOf_next : c.view.held (req, (c.getOrCreateRequest req).roundSeq) = none := by
  exact (h.entries req).heldOf_next

end

/-- A new load holds the next round and asks for its blocks. -/
theorem view_requestBlocks (c : ClientRole) (jobId : JobId) (req : KvRequestId)
    (keys : List OffloadKey) (blockIds : List ℕ) (now : Time) :
    let r := (c.getOrCreateRequest req).roundSeq
    (c.requestBlocks jobId req keys blockIds now).2.view =
      ⟨update c.view.held (req, r) (some false), c.view.sent ++ [.fetch req keys blockIds r]⟩ := by
  set st := c.getOrCreateRequest req
  have hregistered : ∀ {c' : ClientRole} {st' : ClientRequestState} {timeout : Time},
      c'.requests = c.requests.set req st' → st'.loads =
        st.loads.set st.roundSeq { jobId, submittedAt := now, timeout } →
      c'.outbox = c.outbox ++ [.fetch req keys blockIds st.roundSeq] →
      c'.view = ⟨update c.view.held (req, st.roundSeq) (some false),
        c.view.sent ++ [.fetch req keys blockIds st.roundSeq]⟩ := by
    intro c' st' timeout hreq hloads hsent
    refine View.ext (held_update hreq ?_ fun r' hr => ?_) hsent
    · rw [hloads, heldOf, get?_set_self]
      rfl
    · rw [hloads, heldOf, get?_set_of_ne hr]
      rfl
  rw [requestBlocks]
  split_ifs
  · exact hregistered rfl rfl rfl
  · exact hregistered rfl rfl rfl
  · exact hregistered set_set rfl rfl
  · exact hregistered set_set rfl rfl

private theorem view_erase (hst : c.requests.get? req = some st)
    (hreq : c'.requests = c.requests.set req { st with loads := st.loads.erase roundSeq })
    (hsent : c'.outbox = c.outbox) :
    c'.view = ⟨update c.view.held (req, roundSeq) none, c.view.sent⟩ := by
  refine View.ext (held_update hreq ?_ fun r' hr => ?_) hsent
  · rw [heldOf, get?_erase_self, map_none]
  · rw [heldOf, get?_erase_of_ne hr, loadsOf_of_get? hst, heldOf]

@[simp] theorem view_onLoadTerminal (c : ClientRole) (req : KvRequestId)
    (st : ClientRequestState) : (c.onLoadTerminal req st).view = c.view := by
  rw [onLoadTerminal]
  split_ifs
  · rfl
  · exact view_maybePrune

private theorem view_of_get?_none (h : (c.getOrCreateRequest req).loads.get? r = none) :
    c.view = ⟨update c.view.held (req, r) none, c.view.sent⟩ := by
  have hnone : c.view.held (req, r) = none := by
    change heldOf (c.loadsOf req) r = none
    rw [heldOf, loadsOf, h, map_none]
  rw [← hnone, update_eq_self]

/-- After `TransferDone` the load of its round is gone. -/
theorem view_onTransferDone {success : Bool} : (c.onTransferDone req success roundSeq).view =
      ⟨update c.view.held (req, roundSeq) none, c.view.sent⟩ := by
  rw [onTransferDone]
  cases hst : c.requests.get? req with
  | none =>
    refine view_of_get?_none ?_
    rw [getOrCreateRequest, hst]
    rfl
  | some st =>
    dsimp only
    cases hload : st.loads.get? roundSeq with
    | none =>
      refine view_of_get?_none ?_
      rw [getOrCreateRequest_of_get? hst, hload]
    | some load =>
      dsimp only
      cases load.release with
      | some event =>
        rw [view_onLoadTerminal]
        exact view_erase hst rfl rfl
      | none =>
        rw [view_onLoadTerminal]
        exact view_erase hst rfl rfl

/-- After `AbortAck` the load of its round is gone, even if the assertion fails. -/
theorem view_onAbortAck : (c.onAbortAck req roundSeq).2.view =
      ⟨update c.view.held (req, roundSeq) none, c.view.sent⟩ := by
  rcases onAbortAck_cases c req roundSeq with heq | ⟨st, load, hst, -, -, heq⟩
  · exact heq ▸ view_onTransferDone
  · exact heq ▸ view_erase hst rfl rfl

/-! ### Reports -/

/-- A load goes. -/
structure Ends (c c' : ClientRole) (kvRequestId : KvRequestId) (r : ℕ) (load : InboundLoadState) :
    Prop where
  before : (c.loadsOf kvRequestId).get? r = some load
  after : (c'.loadsOf kvRequestId).get? r = none

/-- A result is queued for the next collection. -/
def Queues (c c' : ClientRole) (result : LoadResult) : Prop :=
  ∃ new, c'.completedLoads = c.completedLoads ++ new ∧ result ∈ new

/-- What a call reports: a result without an event is that of a load that goes, and so is an event
that is set. -/
structure Reports (c c' : ClientRole) : Prop where
  results : ∀ result, Queues c c' result → result.deferredRelease = none →
    ∃ r load, Ends c c' result.kvRequestId r load ∧ load.jobId = result.jobId
  events : ∀ e ∈ c'.released, e ∉ c.released →
    ∃ kv r load, Ends c c' kv r load ∧ load.release = some e

/-- A call that reports loads with an event only. -/
structure Defers (c c' : ClientRole) : Prop where
  results : ∃ new, c'.completedLoads = c.completedLoads ++ new ∧
    ∀ result ∈ new, result.deferredRelease ≠ none
  released : c'.released = c.released

/-- A call that reports nothing and releases nothing. -/
theorem Defers.of_eq (hcompleted : c'.completedLoads = c.completedLoads)
    (hreleased : c'.released = c.released) : Defers c c' :=
  ⟨⟨[], hcompleted.trans (append_nil _).symm, nofun⟩, hreleased⟩

/-- Two calls in a row that only defer. -/
theorem Defers.trans {c'' : ClientRole} (h : Defers c c') (h' : Defers c' c'') : Defers c c'' := by
  obtain ⟨new, hnew, hdefer⟩ := h.results
  obtain ⟨new', hnew', hdefer'⟩ := h'.results
  refine ⟨⟨new ++ new', ?_, fun result hmem => ?_⟩, h'.released.trans h.released⟩
  · rw [hnew', hnew, append_assoc]
  · exact (mem_append.mp hmem).elim (hdefer result) (hdefer' result)

/-- A deferring call reports no result without an event. -/
theorem Defers.reports (h : Defers c c') : Reports c c' := by
  obtain ⟨new, hnew, hdefer⟩ := h.results
  refine ⟨fun result hqueues hnone => ?_, fun e he hnot => absurd (h.released ▸ he) hnot⟩
  obtain ⟨new', hnew', hmem⟩ := hqueues
  rw [append_cancel_left (hnew'.symm.trans hnew)] at hmem
  exact absurd hnone (hdefer result hmem)

private theorem defers_forLoads
    (hbody : ∀ r load c, Defers c (body r load c).2) (rounds : List ℕ) (st : ClientRequestState)
    (c : ClientRole) : Defers c (forLoads body rounds st c).2 := by
  induction rounds generalizing st c with
  | nil => exact .of_eq rfl rfl
  | cons r rounds ih =>
    rw [forLoads]
    cases st.loads.get? r with
    | none => exact ih st c
    | some load => exact (hbody r load c).trans (ih _ _)

private theorem defers_abortLoad : Defers c (abortLoad now req r load c).2 := by
  refine ⟨⟨_, rfl, fun result hmem => ?_⟩, rfl⟩
  rw [mem_singleton.mp hmem]
  exact some_ne_none _

private theorem defers_checkLoad (now : Time) (req : KvRequestId) (r : ℕ)
    (load : InboundLoadState) (c : ClientRole) : Defers c (checkLoad now req r load c).2 := by
  rw [checkLoad]
  split
  · split_ifs
    · exact defers_abortLoad
    · exact .of_eq rfl rfl
  · split_ifs <;> exact .of_eq rfl rfl

private theorem defers_checkLoads (now : Time) (reqIds : List KvRequestId) (c : ClientRole) :
    Defers c (checkLoads now reqIds c).2 := by
  induction reqIds generalizing c with
  | nil => exact .of_eq rfl rfl
  | cons reqId reqIds ih =>
    rw [checkLoads]
    cases c.requests.get? reqId with
    | none => exact .of_eq rfl rfl
    | some st =>
      dsimp only
      split_ifs
      · exact .of_eq rfl rfl
      · have hloop := defers_forLoads (defers_checkLoad now reqId) st.loads.keys st c
        refine hloop.trans (Defers.trans ?_ (ih _))
        exact .of_eq rfl rfl

/-- Collected loads are reported before they are handed out. -/
theorem reports_collectResults : Reports c (c.collectResults now).2 := by
  have hdefers := defers_checkLoads now c.activeLoads c
  rw [collectResults]
  rcases hcheck : checkLoads now c.activeLoads c with ⟨res, c'⟩
  rw [hcheck] at hdefers
  cases res with
  | error _ => exact hdefers.reports
  | ok _ =>
    refine ⟨fun result hqueues => ?_, fun e he hnot => absurd (hdefers.released ▸ he) hnot⟩
    obtain ⟨new, hnew, hmem⟩ := hqueues
    rw [(append_eq_nil_iff.mp hnew.symm).2] at hmem
    cases hmem

/-- The end of a request only defers. -/
theorem defers_finish : Defers c (c.finish req now) := by
  rw [finish]
  cases c.requests.get? req with
  | none => exact .of_eq rfl rfl
  | some st =>
    have hbody : ∀ r load c, Defers c ((fun r load c =>
        if load.abortedAt = none then abortLoad now req r load c else (load, c)) r load c).2 := by
      intro r load c
      dsimp only
      split_ifs
      · exact defers_abortLoad
      · exact .of_eq rfl rfl
    have hloop := defers_forLoads hbody st.loads.keys st c
    refine hloop.trans ?_
    obtain ⟨-, hcompleted, hreleased⟩ := maybePrune_fields _ req
    refine .of_eq (hcompleted.trans ?_) (hreleased.trans ?_)
    · split_ifs <;> rfl
    · split_ifs <;> rfl

/-- Flushing only defers. -/
theorem defers_flushLoop (now : Time) (reqIds : List KvRequestId) (c : ClientRole) :
    Defers c (flushLoop now reqIds c) := by
  induction reqIds generalizing c with
  | nil => exact .of_eq rfl rfl
  | cons reqId reqIds ih =>
    rw [flushLoop]
    cases c.requests.get? reqId with
    | none => exact ih c
    | some st =>
      dsimp only
      split_ifs
      · exact ih c
      · refine Defers.trans ?_ (ih _)
        exact .of_eq rfl rfl
      · refine Defers.trans ?_ (ih _)
        exact .of_eq rfl rfl

/-- The answer to a lookup only defers. -/
theorem defers_onLookupResp {hits : List Bool} : Defers c (c.onLookupResp req keys hits now) := by
  rw [onLookupResp]
  cases c.requests.get? req with
  | none => exact .of_eq rfl rfl
  | some st =>
    dsimp only
    split_ifs <;> exact .of_eq rfl rfl

/-- A load that goes: its result is queued, or its event is set. -/
private theorem reports_terminal
    (hst : c.requests.get? req = some st) (hload : st.loads.get? roundSeq = some load)
    (hreq : c'.requests = c.requests.set req { st with loads := st.loads.erase roundSeq })
    (hresults : ∀ result, Queues c c' result → result.jobId = load.jobId ∧ result.kvRequestId = req)
    (hevents : ∀ e ∈ c'.released, load.release = some e ∨ e ∈ c.released) :
    Reports c (c'.onLoadTerminal req st') := by
  have hfields : (∀ kv, (c'.onLoadTerminal req st').loadsOf kv = c'.loadsOf kv) ∧
      (c'.onLoadTerminal req st').completedLoads = c'.completedLoads ∧
      (c'.onLoadTerminal req st').released = c'.released := by
    rw [onLoadTerminal]
    split_ifs
    · exact ⟨fun _ => rfl, rfl, rfl⟩
    · exact ⟨(maybePrune_spec _ req).1, (maybePrune_fields _ req).2⟩
  obtain ⟨hloads, hcompleted, hreleased⟩ := hfields
  have hends : Ends c (c'.onLoadTerminal req st') req roundSeq load := by
    constructor
    · rw [loadsOf, getOrCreateRequest_of_get? hst, hload]
    · rw [hloads, loadsOf_set hreq, if_pos rfl, get?_erase_self]
  constructor
  · rintro result ⟨new, hnew, hmem⟩ -
    obtain ⟨hjob, hkv⟩ := hresults result ⟨new, hcompleted ▸ hnew, hmem⟩
    exact ⟨roundSeq, load, hkv ▸ hends, hjob.symm⟩
  · intro e he hnot
    rw [hreleased] at he
    exact ⟨req, roundSeq, load, hends, (hevents e he).resolve_right hnot⟩

/-- A transfer that is done reports its load at most. -/
theorem reports_onTransferDone {success : Bool}
    : Reports c (c.onTransferDone req success roundSeq) := by
  rw [onTransferDone]
  cases hst : c.requests.get? req with
  | none => exact (Defers.of_eq rfl rfl).reports
  | some st =>
    dsimp only
    cases hload : st.loads.get? roundSeq with
    | none => exact (Defers.of_eq rfl rfl).reports
    | some load =>
      dsimp only
      cases hrel : load.release with
      | some event =>
        refine reports_terminal hst hload ?_ (fun _ hq => absurd hq ?_) (fun e he => ?_)
        · rfl
        · rintro ⟨new, hnew, hmem⟩
          rw [append_right_eq_self.mp (hnew.symm.trans rfl)] at hmem
          exact not_mem_nil hmem
        · exact (mem_insertSet.mp he).imp_left fun heq => by rw [hrel, heq]
      | none =>
        refine reports_terminal hst hload ?_ (fun result hq => ?_) (fun e he => ?_)
        · rfl
        · obtain ⟨new, hnew, hmem⟩ := hq
          rw [← append_cancel_left hnew] at hmem
          rw [mem_singleton.mp hmem]
          exact ⟨rfl, rfl⟩
        · exact .inr he

/-- An acknowledged abort reports its load at most. -/
theorem reports_onAbortAck : Reports c (c.onAbortAck req roundSeq).2 := by
  rcases onAbortAck_cases c req roundSeq with heq | ⟨st, load, -, -, -, heq⟩
  · exact heq ▸ reports_onTransferDone
  · rw [heq]
    refine Defers.reports ?_
    exact .of_eq rfl rfl

end ClientRole

end Sonar.P2P
