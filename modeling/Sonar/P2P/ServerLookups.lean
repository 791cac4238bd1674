import Sonar.P2P.ServerPolls

/-!
# Lookups of a server role

A lookup of a peer waits in its request until `serve_external_requests` takes it. Every key of a
lookup in progress is resolved or pending (`LookupOk`), so once nothing is pending the answer has a
value for each key. Keys that hit are pinned under a job of their own, which is handed to the round
of the lookup as a store is. These jobs come from the tiering manager, whose ids do not repeat
(`Fresh`).
-/

namespace Sonar.P2P

open Lib Returns List Dict

namespace ServerRole

variable {s s' : ServerRole} {req : KvRequestId} {parent : Parent}

/-! ### Keys of a lookup -/

/-- A key of a lookup is resolved or pending. -/
def Covers (lookup : ActiveLookup) (h : OffloadKey) : Prop :=
  lookup.resolved.get? h ≠ none ∨ h ∈ lookup.pending

/-- What polling keeps of a lookup. -/
structure Polls (lookup lookup' : ActiveLookup) : Prop where
  lookupId : lookup'.lookupId = lookup.lookupId
  keys : lookup'.keys = lookup.keys
  covers : ∀ h, Covers lookup h → Covers lookup' h

private theorem Polls.refl {lookup : ActiveLookup} : Polls lookup lookup := ⟨rfl, rfl, fun _ => id⟩

variable {lookup lookup' : ActiveLookup} {id : ℕ}

private theorem Polls.trans {lookup'' : ActiveLookup} (h : Polls lookup lookup')
    (h' : Polls lookup' lookup'') : Polls lookup lookup'' :=
  ⟨h'.lookupId.trans h.lookupId, h'.keys.trans h.keys, fun k hk => h'.covers k (h.covers k hk)⟩

private theorem Polls.lookupOk (h : Polls lookup lookup')
    (hok : LookupOk id lookup) : LookupOk id lookup' := by
  refine ⟨h.lookupId.trans hok.1, fun k hk => ?_⟩
  rw [h.keys] at hk
  exact h.covers k (hok.2 k hk)

private theorem polls_resolve (lookup : ActiveLookup) (h : OffloadKey) (hit : Bool) :
    Polls lookup { lookup with
      resolved := lookup.resolved.set h hit, pending := discard h lookup.pending } ∧
    Covers { lookup with
      resolved := lookup.resolved.set h hit, pending := discard h lookup.pending } h := by
  have hself : (lookup.resolved.set h hit).get? h ≠ none := by
    rw [get?_set_self]
    exact Option.some_ne_none hit
  refine ⟨⟨rfl, rfl, fun k hk => ?_⟩, .inl hself⟩
  by_cases hkh : k = h
  · rw [hkh]
    exact .inl hself
  · obtain hres | hpend := hk
    · exact .inl ((get?_set_of_ne hkh).symm ▸ hres)
    · exact .inr (mem_discard.mpr ⟨hpend, hkh⟩)

private theorem polls_wait {h : OffloadKey} :
    Polls lookup { lookup with pending := insertSet h lookup.pending } ∧
    Covers { lookup with pending := insertSet h lookup.pending } h := by
  refine ⟨⟨rfl, rfl, fun k hk => ?_⟩, .inr (mem_insertSet.mpr (.inl rfl))⟩
  obtain hres | hpend := hk
  · exact .inl hres
  · exact .inr (mem_insertSet.mpr (.inr hpend))

/-- After a poll every key asked for is resolved or pending. -/
private theorem pollKeys_spec (answer : OffloadKey → LookupResult) (keys : List OffloadKey)
    (lookup : ActiveLookup) : Polls lookup (pollKeys answer keys lookup).2 ∧
      ∀ h ∈ keys, Covers (pollKeys answer keys lookup).2 h := by
  induction keys generalizing lookup with
  | nil => exact ⟨.refl, nofun⟩
  | cons h keys ih =>
    have hnext : ∀ lookup', Polls lookup lookup' → Covers lookup' h →
        Polls lookup (pollKeys answer keys lookup').2 ∧
          ∀ k ∈ h :: keys, Covers (pollKeys answer keys lookup').2 k := by
      intro lookup' hpolls hcovers
      obtain ⟨hrest, hall⟩ := ih lookup'
      refine ⟨hpolls.trans hrest, fun k hk => ?_⟩
      obtain rfl | hk := mem_cons.mp hk
      · exact hrest.covers k hcovers
      · exact hall k hk
    rw [pollKeys]
    split_ifs with hresolved
    · exact hnext lookup .refl (.inl (Option.isSome_iff_ne_none.mp hresolved))
    · cases answer h with
      | hit => exact hnext _ (polls_resolve lookup h true).1 (polls_resolve lookup h true).2
      | miss => exact hnext _ (polls_resolve lookup h false).1 (polls_resolve lookup h false).2
      | hitPending => exact hnext _ polls_wait.1 polls_wait.2
      | retry => exact hnext _ polls_wait.1 polls_wait.2

private theorem polls_expireLookup {now : Time} : Polls lookup (expireLookup now lookup) := by
  rw [expireLookup]
  split_ifs with hlate
  · have hfold : ∀ (l : List OffloadKey) (d : Dict OffloadKey Bool) k,
        d.get? k ≠ none ∨ k ∈ l →
        (l.foldl (fun resolved h => resolved.set h false) d).get? k ≠ none := by
      intro l
      induction l with
      | nil => exact fun d k hk => hk.resolve_right nofun
      | cons h l ih =>
        refine fun d k hk => ih _ k ?_
        by_cases hkh : k = h
        · rw [hkh, get?_set_self]
          exact .inl (Option.some_ne_none _)
        · rw [get?_set_of_ne hkh]
          exact hk.imp_right fun hmem => (mem_cons.mp hmem).resolve_left hkh
    exact ⟨rfl, rfl, fun k hk => .inl (hfold _ _ k hk)⟩
  · exact .refl

/-- Every key of a lookup has its value. -/
def Resolved (lookup : ActiveLookup) : Prop := ∀ h ∈ lookup.keys, lookup.resolved.get? h ≠ none

/-- A lookup without pending keys has an answer for each of its keys. -/
private theorem resolved_of_isEmpty (hok : LookupOk id lookup)
    (hnone : lookup.pending.isEmpty = true) : Resolved lookup := by
  intro h hmem
  refine (hok.2 h hmem).resolve_right fun hpend => ?_
  rw [isEmpty_iff.mp hnone] at hpend
  exact not_mem_nil hpend

private theorem mapM_get?_of_resolved {d : Dict OffloadKey Bool} {keys : List OffloadKey}
    (h : ∀ k ∈ keys, d.get? k ≠ none) : ∃ hits, keys.mapM d.get? = some hits := by
  induction keys with
  | nil => exact ⟨[], rfl⟩
  | cons k keys ih =>
    obtain ⟨hits, hhits⟩ := ih fun k' hk' => h k' (.tail _ hk')
    obtain ⟨hit, hhit⟩ := Option.ne_none_iff_exists'.mp (h k (.head _))
    refine ⟨hit :: hits, ?_⟩
    rw [mapM_cons, hhit, hhits]
    rfl

/-! ### Jobs of the tiering manager -/

/-- The jobs still to come are new. -/
structure Fresh (parent : Parent) (s : ServerRole) : Prop where
  inj : Function.Injective parent.jobId
  new : ∀ i, s.accepted.length ≤ i → parent.jobId i ∉ s.accepted

/-- What serving does: jobs of the tiering manager are taken in, and nothing is reported. -/
def Serves (parent : Parent) (s s' : ServerRole) : Prop :=
  ∃ added, Step s s' added [] ∧ Fresh parent s' ∧ (s.accepted.Nodup → s'.accepted.Nodup) ∧
    ∀ j ∈ added, ∃ i, s.accepted.length ≤ i ∧ j = parent.jobId i

private theorem Serves.refl (h : s.Inv) (hfresh : Fresh parent s) : Serves parent s s :=
  ⟨[], .refl h, hfresh, id, nofun⟩

private theorem Serves.trans {s'' : ServerRole} (h : Serves parent s s') (h' : Serves parent s' s'') :
    Serves parent s s'' := by
  obtain ⟨added, hstep, -, hnodup, hids⟩ := h
  obtain ⟨added', hstep', hfresh, hnodup', hids'⟩ := h'
  refine ⟨added ++ added', hstep.trans hstep', hfresh, fun hn => hnodup' (hnodup hn), fun j hj => ?_⟩
  rcases mem_append.mp hj with hj | hj
  · exact hids j hj
  · obtain ⟨i, hi, hid⟩ := hids' j hj
    rw [hstep.accepted, length_append] at hi
    exact ⟨i, by omega, hid⟩

private theorem Serves.inv (h : Serves parent s s') : s'.Inv := by
  obtain ⟨added, hstep, -⟩ := h
  exact hstep.inv

private theorem Serves.fresh (h : Serves parent s s') : Fresh parent s' := by
  obtain ⟨added, -, hfresh, -⟩ := h
  exact hfresh

private theorem Fresh.serves (hfresh : Fresh parent s) (h : Step s s' [] []) : Serves parent s s' := by
  have hsame : s'.accepted = s.accepted := h.accepted.trans (append_nil _)
  refine ⟨[], h, ⟨hfresh.inj, ?_⟩, ?_, nofun⟩
  · rw [hsame]
    exact hfresh.new
  · rw [hsame]
    exact id

/-- A step that accepts the parent's next job leaves its later ids fresh. -/
private theorem Fresh.serves_next (hfresh : Fresh parent s)
    (h : Step s s' [parent.jobId s.accepted.length] []) : Serves parent s s' := by
  refine ⟨_, h, ⟨hfresh.inj, fun i hi => ?_⟩, fun hnodup => ?_, fun j hj => ?_⟩
  · rw [h.accepted, length_append, length_singleton] at hi
    rw [h.accepted, mem_append, mem_singleton]
    rintro (hold | heq)
    · exact hfresh.new i (by omega) hold
    · have := hfresh.inj heq
      omega
  · rw [h.accepted]
    exact hnodup.append (nodup_singleton _)
      (disjoint_singleton.mpr (hfresh.new _ le_rfl))
  · exact ⟨_, le_rfl, mem_singleton.mp hj⟩

/-! ### Serving -/

section

variable (h : s.Inv)

include h

/-- An entry keeps its rounds and gets lookups whose keys are resolved or pending. -/
private theorem Inv.step_setLookups {st : ServerRequestState}
    (hout : st.outbound = (s.request req).outbound)
    (hlookups : ∀ id lookup, st.lookups.get? id = some lookup → LookupOk id lookup) :
    Step s (s.setRequest req st) [] [] := by
  have hr : Recounts s (s.setRequest req st) := by
    refine ⟨rfl, fun kv => ⟨?_, get?_set_ne_none⟩, fun kv id lookup hget => ?_, fun ref => ?_⟩
    · by_cases hkv : kv = req
      · rw [hkv, request_setRequest_self, hout]
      · rw [request_setRequest_of_ne hkv]
    · by_cases hkv : kv = req
      · rw [hkv, request_setRequest_self] at hget
        exact hlookups id lookup hget
      · rw [request_setRequest_of_ne hkv] at hget
        exact h.lookups kv id lookup hget
    · exact congrArg (fun n => { s.rounds ref with inflight := n }) (h.counts ref)
  refine h.recount hr (fun tid x hx => ?_) (fun kv rk ref hat => (h.rounds kv rk ref hat).budget)
    (fun j tid ref hread => .inr ⟨tid, hread⟩) h.once
  have hok := h.xfers tid x hx
  exact ⟨hr.roundAt ▸ hok.roundAt, hok.blocks, hok.nodup, hok.pinned, hok.fresh⟩

private theorem Inv.step_setLookup (hok : LookupOk id lookup) :
    Step s (s.setRequest req { s.request req with
      lookups := (s.request req).lookups.set id lookup }) [] [] := by
  refine h.step_setLookups rfl fun id' lookup' hget => ?_
  by_cases hid : id' = id
  · rw [hid, get?_set_self] at hget
    rw [hid, ← Option.some.inj hget]
    exact hok
  · rw [get?_set_of_ne hid] at hget
    exact h.lookups req id' lookup' hget

/-- A lookup that waits is bookkeeping. -/
theorem Inv.onLookup (now : Time) (req : KvRequestId) (keys : List OffloadKey) (roundSeq : ℕ) :
    Step s (s.onLookup now req keys roundSeq) [] [] := by
  have hstep : Step s (s.setRequest req { s.request req with pendingLookups :=
      (s.request req).pendingLookups ++ [PendingLookup.mk keys now roundSeq] }) [] [] :=
    h.step_setLookups rfl (h.lookups req)
  exact hstep.trans
    (hstep.inv.step_same (forgets_of_eq rfl rfl le_rfl rfl rfl rfl rfl rfl) rfl rfl rfl)

variable {env : Transport} {now : Time} {req : KvRequestId}

/-- Polling keys accepts jobs and covers every key, each poll being a step. -/
private theorem Inv.pollLookupKeys (hfresh : Fresh parent s) {again : Bool} {keys : List OffloadKey} :
    Returns (pollLookupKeys env parent now again lookup keys) s fun lookup' s' =>
      Serves parent s s' ∧ Polls lookup lookup' ∧ ∀ k ∈ keys, Covers lookup' k := by
  have hpolled := pollKeys_spec (parent.lookup again lookup.lookupId) keys lookup
  rw [ServerRole.pollLookupKeys]
  split_ifs with hnone
  · rw [pure_iff]
    exact ⟨.refl h hfresh, hpolled⟩
  · rw [bind_iff, get_iff, bind_iff]
    refine (h.addStoredBlocks (hfresh.new _ le_rfl)).mono fun _ s' hstep => ?_
    rw [pure_iff]
    exact ⟨hfresh.serves_next hstep, hpolled⟩

private theorem Inv.finalizeLookup (hresolved : Resolved lookup) :
    Returns (finalizeLookup lookup) s fun _ s' => Step s s' [] [] := by
  rw [ServerRole.finalizeLookup]
  split_ifs with hempty
  · rw [pure_iff]
    exact .refl h
  · obtain ⟨hits, hhits⟩ := mapM_get?_of_resolved hresolved
    rw [hhits]
    rw [modify_iff]
    have hf : Forgets s (s.send (.lookupResp lookup.kvRequestId lookup.keys hits)) :=
      forgets_of_eq rfl rfl le_rfl rfl rfl rfl rfl rfl
    exact h.toBase.step hf (h.offers) (add_zero _).symm
      (.response hf.settles _ _ _ rfl)

private theorem Inv.processInboundLookup (hfresh : Fresh parent s) {pl : PendingLookup} :
    Returns (processInboundLookup env parent now req pl) s fun _ s' =>
      Serves parent s s' := by
  rw [ServerRole.processInboundLookup, bind_iff, get_iff, bind_iff, set_iff, bind_iff]
  set s1 : ServerRole := { s with lookupIdCounter := s.lookupIdCounter + 1 }
  have hstep1 : Step s s1 [] [] :=
    h.step_same (forgets_of_eq rfl rfl le_rfl rfl rfl rfl rfl rfl) rfl rfl rfl
  have hserves1 := hfresh.serves hstep1
  refine (hserves1.inv.pollLookupKeys hserves1.fresh).mono
    fun lookup s2 hpost => ?_
  obtain ⟨hserves2, hpolls, hcovers⟩ := hpost
  have hserves := hserves1.trans hserves2
  have hok : LookupOk (s.lookupIdCounter + 1) lookup := by
    refine ⟨hpolls.lookupId, fun k hk => hcovers k (mem_dedup.mpr ?_)⟩
    rwa [hpolls.keys] at hk
  split_ifs with hnone
  · refine (hserves.inv.finalizeLookup (resolved_of_isEmpty hok hnone)).mono fun _ s' hstep => ?_
    exact hserves.trans (hserves.fresh.serves hstep)
  · rw [modify_iff]
    exact hserves.trans (hserves.fresh.serves (hserves.inv.step_setLookup hok))

/-- A lookup that is handed on to be finalized is resolved. -/
private theorem Inv.repollLookup (hfresh : Fresh parent s) {lookupId : ℕ} :
    Returns (repollLookup env parent now req lookupId) s fun finished s' =>
      Serves parent s s' ∧ ∀ lookup ∈ finished, Resolved lookup := by
  rw [ServerRole.repollLookup, bind_iff, get_iff]
  cases hlookup : (s.request req).lookups.get? lookupId with
  | none =>
    rw [pure_iff]
    exact ⟨.refl h hfresh, nofun⟩
  | some lookup =>
    rw [bind_iff]
    refine (h.pollLookupKeys hfresh).mono fun lookup1 s1 hpost => ?_
    obtain ⟨hserves, hpolls, -⟩ := hpost
    have hok : LookupOk lookupId (expireLookup now lookup1) :=
      (hpolls.trans polls_expireLookup).lookupOk
        (h.lookups req _ lookup hlookup)
    rw [bind_iff, modify_iff, pure_iff]
    refine ⟨hserves.trans (hserves.fresh.serves (hserves.inv.step_setLookup hok)), ?_⟩
    split_ifs with hnone
    · intro lookup2 hmem
      rw [mem_singleton.mp hmem]
      exact resolved_of_isEmpty hok hnone
    · exact nofun

private theorem Inv.popLookup (hresolved : Resolved lookup) :
    Returns (popLookup req lookup) s fun _ s' => Step s s' [] [] := by
  have hstep : Step s (s.setRequest req { s.request req with
      lookups := (s.request req).lookups.erase lookup.lookupId }) [] [] := by
    refine h.step_setLookups rfl fun id lookup' hget => ?_
    exact h.lookups req id lookup' (get?_erase_eq_some.mp hget).2
  exact (hstep.inv.finalizeLookup hresolved).mono fun _ s' hstep' => hstep.trans hstep'

private theorem Inv.resolvePendingLookups (hfresh : Fresh parent s)
    : Returns (resolvePendingLookups env parent now req) s fun _ s' =>
      Serves parent s s' := by
  rw [ServerRole.resolvePendingLookups, bind_iff, get_iff, bind_iff]
  refine (collect (P := fun _ finished t => Serves parent s t ∧
    ∀ lookup ∈ finished, Resolved lookup) (fun lookupId l finished t hloop => ?_)
    ⟨.refl h hfresh, nofun⟩).mono fun finished t hend => ?_
  · obtain ⟨hserves, hdone⟩ := hloop
    refine (hserves.inv.repollLookup hserves.fresh).mono
      fun more t' hpost => ⟨hserves.trans hpost.1, fun lookup hmem => ?_⟩
    obtain hold | hnew := mem_append.mp hmem
    · exact hdone lookup hold
    · exact hpost.2 lookup hnew
  · obtain ⟨hserves, hdone⟩ := hend
    refine (forAll (P := fun l t' => Serves parent s t' ∧ ∀ lookup ∈ l, Resolved lookup)
      (fun lookup l t' hloop => ?_) ⟨hserves, hdone⟩).mono fun _ s' hend => hend.1
    refine (hloop.1.inv.popLookup (hloop.2 lookup (.head _))).mono
      fun _ t'' hstep => ⟨hloop.1.trans (hloop.1.fresh.serves hstep), fun lookup' hmem => ?_⟩
    exact hloop.2 lookup' (.tail _ hmem)

/-- One request's lookups are served by steps of the role. -/
private theorem Inv.serveRequest (hfresh : Fresh parent s)
    : Returns (serveRequest env parent now req) s fun _ s' => Serves parent s s' := by
  rw [ServerRole.serveRequest, bind_iff, get_iff]
  have hdiscard : ∀ t : ServerRole, t.Inv →
      Step t { t with servePending := discard req t.servePending } [] [] := fun t ht =>
    ht.step_same (forgets_of_eq rfl rfl le_rfl rfl rfl rfl rfl rfl) rfl rfl rfl
  cases hst : s.requests.get? req with
  | none =>
    rw [set_iff]
    exact hfresh.serves (hdiscard s h)
  | some st =>
    dsimp only
    rw [bind_iff, set_iff, bind_iff]
    have hreq := request_of_get? hst
    have hserves1 : Serves parent s (s.setRequest req { st with pendingLookups := [] }) := by
      have hout : st.outbound = (s.request req).outbound := by rw [hreq]
      refine hfresh.serves (h.step_setLookups hout fun id lookup hget => ?_)
      exact h.lookups req id lookup (hreq.symm ▸ hget)
    refine (forAll (P := fun _ t => Serves parent s t) (fun pl l t hserves =>
      (hserves.inv.processInboundLookup hserves.fresh).mono
        fun _ t' => hserves.trans) hserves1).mono fun _ s2 hserves2 => ?_
    rw [bind_iff]
    refine (hserves2.inv.resolvePendingLookups hserves2.fresh).mono
      fun _ s3 hserves3 => ?_
    have hserves := hserves2.trans hserves3
    rw [bind_iff, get_iff]
    split_ifs with hdone
    · rw [set_iff]
      have hstep := hdiscard s3 hserves.inv
      exact hserves.trans (hserves.fresh.serves (hstep.trans (hstep.inv.step_maybePrune _)))
    · rw [pure_iff]
      exact hserves

/-- Serving lookups takes the jobs of the blocks it hands out, and answers what is decided. -/
theorem Inv.serveExternalRequests (hfresh : Fresh parent s) :
    Returns (serveExternalRequests env parent now) s fun _ s' => Serves parent s s' := by
  rw [ServerRole.serveExternalRequests, bind_iff, get_iff, bind_iff]
  refine (forAll (P := fun _ t => Serves parent s t) (fun kv l t hserves =>
    (hserves.inv.serveRequest hserves.fresh).mono fun _ t' => hserves.trans)
    (.refl h hfresh)).mono fun _ s1 hserves => ?_
  rw [modify_iff]
  exact hserves.trans (hserves.fresh.serves
    (hserves.inv.step_same (forgets_of_eq rfl rfl le_rfl rfl rfl rfl rfl rfl) rfl rfl rfl))

end

end ServerRole

end Sonar.P2P
