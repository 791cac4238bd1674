import Sonar.Lib.Lease
import Sonar.P2P.ClientMoves
import Sonar.P2P.ServerRuns

/-!
# A client and a server

One client role and one server role of two peers, with the messages on their way. The outbox of a
role is the channel to the other one: a step takes its first message and hands it over.

For a fixed id and round the two roles keep a **lease** (`Lib.Lease`): the client lends the blocks
of the load with its fetch and asks for them with an abort. Each call of the client is a sequence of
`Acts`, each call of the server a sequence of `Answer`s, and both keep the lease, so a transfer that
is live on the transport always writes to a load the client still holds. The rounds of an id start
again at zero when the client forgets the id. A fetch that takes the number of a round whose abort is
not yet answered breaks the lease: the late answer is taken for that of the new round.
-/

namespace Sonar.P2P

open Lib Returns List PeerMsg ClientRole.Defers ServerRole ServerCall ClientRole
open Function (update_of_ne update_self)

/-! ### The lease of a round -/

/-- What a message to the server says about a round. An empty fetch concerns every round of its
id. -/
def PeerMsg.reqOf (p : KvRequestId × ℕ) : PeerMsg → Option Req
  | .fetch kv [] _ r => if kv = p.1 then some (.sweep (decide (r = p.2))) else none
  | .fetch kv (_ :: _) _ r => if (kv, r) = p then some .take else none
  | .abortFetch kv r => if (kv, r) = p then some .stop else none
  | _ => none

/-- What a message to the client says about a round. -/
def PeerMsg.respOf (p : KvRequestId × ℕ) : PeerMsg → Option Resp
  | .transferDone kv _ r => if (kv, r) = p then some .done else none
  | .abortAck kv r => if (kv, r) = p then some .ack else none
  | _ => none

private theorem filterMap_cons_toList {α β : Type*} (f : α → Option β) (a : α) (l : List α) :
    (a :: l).filterMap f = (f a).toList ++ l.filterMap f := by
  cases h : f a with
  | none => exact filterMap_cons_none h
  | some b => exact filterMap_cons_some h

private theorem filterMap_concat_toList {α β : Type*} (f : α → Option β) (a : α) (l : List α) :
    (l ++ [a]).filterMap f = l.filterMap f ++ (f a).toList := by
  rw [filterMap_append, filterMap_cons_toList, filterMap_nil, append_nil]

/-- What is said of the tokens of every round. -/
def Tokened (v : View) (s : ServerRole) : Prop :=
  ∀ p, Tokens (v.held p) (v.sent.filterMap (reqOf p)) (s.IsOpen p) (s.Aborting p)
    (s.outbox.filterMap (respOf p))

/-- What is said of the aborts of every round. -/
def Warns (v : View) (s : ServerRole) : Prop :=
  ∀ p, Warned (v.held p) (v.sent.filterMap (reqOf p)) (s.IsOpen p) (s.Running p)

/-- Every round is leased. -/
def Leased (v : View) (s : ServerRole) : Prop :=
  ∀ p, Lease (v.held p) (v.sent.filterMap (reqOf p)) (s.IsOpen p) (s.Running p)
    (s.Aborting p) (s.outbox.filterMap (respOf p))

variable {v v' : View} {s s' : ServerRole} {held : KvRequestId × ℕ → Option Bool}
  {sent : List PeerMsg} {kv : KvRequestId} {r : ℕ}

private theorem Tokened.leased (h : Tokened v s) (hw : Warns v s) : Leased v s := fun p => ⟨h p, hw p⟩

variable {p : KvRequestId × ℕ} {msg : PeerMsg} {keys : List OffloadKey} {blockIndexes : List ℕ}
  {rest : List PeerMsg}

private theorem ServerRole.Running.isOpen (h : s.Running p) : s.IsOpen p := by
  obtain ⟨ref, hat, hdemand, -⟩ := h
  exact ⟨ref, hat, hdemand⟩

/-! ### The server moves on its own -/

private theorem Tokened.answer (h : Tokened v s) (hanswer : Answer s s') : Tokened v s' := by
  intro p
  cases hanswer with
  | silent settles sent =>
    rw [sent]
    exact (h p).settle settles.opened (settles.aborts p)
  | response settles kv keys hits sent =>
    rw [sent, filterMap_concat_toList]
    exact (append_nil _).symm ▸ (h p).settle settles.opened (settles.aborts p)
  | done settles q success isOpen closed sent =>
    rw [sent, filterMap_concat_toList, respOf]
    by_cases hq : q = p
    · subst hq
      rw [if_pos rfl]
      exact (h q).done isOpen closed (settles.aborts q)
    · rw [if_neg hq]
      exact (append_nil _).symm ▸ (h p).settle settles.opened (settles.aborts p)
  | ack settles q aborting answered closed sent =>
    rw [sent, filterMap_concat_toList, respOf]
    by_cases hq : q = p
    · subst hq
      rw [if_pos rfl]
      exact (h q).ack aborting answered closed
    · rw [if_neg hq]
      exact (append_nil _).symm ▸ (h p).settle settles.opened (settles.aborts p)

private theorem Tokened.evolves (h : Tokened v s) (hevolves : Evolves s s') : Tokened v s' := by
  induction hevolves with
  | refl => exact h
  | tail _ hanswer ih => exact ih.answer hanswer

private theorem Leased.evolves (h : Leased v s) (hevolves : Evolves s s') : Leased v s' := by
  have htokened : Tokened v s := fun p => (h p).toTokens
  have hwarns : Warns v s' := fun p => (h p).toWarned.settle hevolves.settles.opened
    hevolves.settles.running Running.isOpen
  exact (htokened.evolves hevolves).leased hwarns

/-! ### Messages reach the server -/

/-- What is said of a round before a message to the server arrives. -/
private theorem Leased.cons (h : Leased ⟨held, msg :: sent⟩ s) (p : KvRequestId × ℕ) :
    Lease (held p) ((msg.reqOf p).toList ++ sent.filterMap (reqOf p)) (s.IsOpen p)
      (s.Running p) (s.Aborting p) (s.outbox.filterMap (respOf p)) := by
  rw [← filterMap_cons_toList]
  exact h p

private theorem reqOf_fetch (hkeys : keys ≠ []) (blockIndexes : List ℕ)
    (p : KvRequestId × ℕ) : (fetch kv keys blockIndexes r).reqOf p =
      if (kv, r) = p then some .take else none := by
  cases keys with
  | nil => exact absurd rfl hkeys
  | cons _ _ => rfl

section

variable (h : Leased ⟨held, .fetch kv keys blockIndexes r :: sent⟩ s)

include h

/-- The fetch of a leased round is the first one. -/
private theorem Leased.fetchNew (hkeys : keys ≠ []) : s.FetchNew kv r := by
  have hp := h.cons (kv, r)
  rw [reqOf_fetch hkeys, if_pos rfl] at hp
  by_contra hopen
  exact (hp.taken (.head _)).1 (isOpen_iff_not_fetchNew.mpr hopen)

private theorem Leased.fetch (hkeys : keys ≠ [])
    (hfetched : Fetched s s' (kv, r)) : Leased ⟨held, sent⟩ s' := by
  obtain ⟨s1, hopen, hrunning, haborts, hsent, hevolves⟩ := hfetched.moves
  refine evolves (fun p => ?_) hevolves
  have hp := h.cons p
  rw [reqOf_fetch hkeys] at hp
  rw [hsent]
  by_cases hkey : (kv, r) = p
  · rw [if_pos hkey] at hp
    exact ⟨hp.deliver_take (haborts p), hp.toWarned.deliver_take Running.isOpen⟩
  · rw [if_neg hkey] at hp
    have hold : s1.IsOpen p → s.IsOpen p := fun hp' =>
      (hopen p hp').resolve_right fun heq => hkey heq.symm
    have hrun : s1.Running p → s.Running p := fun hp' =>
      (hrunning p hp').resolve_right fun heq => hkey heq.symm
    exact ⟨hp.settle hold (haborts p), hp.toWarned.settle hold hrun Running.isOpen⟩

end

private theorem Leased.abort (h : Leased ⟨held, .abortFetch kv r :: sent⟩ s)
    (haborted : Aborted s s' (kv, r)) : Leased ⟨held, sent⟩ s' := by
  obtain ⟨s1, hopen, hrunning, haborts, hsent, hevolves⟩ := haborted.moves
  have htokened : Tokened ⟨held, sent⟩ s1 := by
    intro p
    have hp := h.cons p
    rw [reqOf] at hp
    rw [hsent]
    by_cases hkey : (kv, r) = p
    · rw [if_pos hkey] at hp
      exact hp.deliver_stop (hopen p)
    · rw [if_neg hkey] at hp
      exact hp.settle (hopen p) fun hp' => (haborts p hp').resolve_right fun heq => hkey heq.symm
  have hold : ∀ p, s'.IsOpen p → s.IsOpen p := fun p hp =>
    hopen p (hevolves.settles.opened hp)
  refine (htokened.evolves hevolves).leased fun p => ?_
  have hp := h.cons p
  rw [reqOf] at hp
  by_cases hkey : (kv, r) = p
  · rw [if_pos hkey] at hp
    exact hp.warned_deliver_stop (hold p) (hkey ▸ haborted.stopped)
  · rw [if_neg hkey] at hp
    exact hp.toWarned.settle (hold p) (fun hp' => hrunning p (hevolves.settles.running hp'))
      Running.isOpen

section

variable (h : Leased ⟨held, .fetch kv [] blockIndexes r :: sent⟩ s)

include h

/-- When an empty fetch of a client arrives, no round of its id still takes part in transfers. -/
private theorem Leased.sweep_safe (hinv : s.Inv) : s.FetchNew kv r ∧ s.FetchSafe kv := by
  have hsweep : ∀ rk, ¬ s.Running (kv, rk) ∧ (decide (r = rk) = true → ¬ s.IsOpen (kv, rk)) := by
    intro rk
    have hp := h.cons (kv, rk)
    rw [reqOf, if_pos rfl] at hp
    obtain ⟨-, hrun, hown⟩ := hp.sweeps [] _ _ rfl
    exact ⟨fun hr => absurd (hrun hr) not_mem_nil, fun ho => (hown ho).2⟩
  constructor
  · by_contra hopen
    exact (hsweep r).2 (decide_eq_true rfl) (isOpen_iff_not_fetchNew.mpr hopen)
  · intro rk ref hat
    by_cases hdemand : (s.rounds ref).demandReceived = true
    · refine .inl (Bool.eq_true_of_not_eq_false fun hnot => ?_)
      exact (hsweep rk).1 ⟨ref, hat, hdemand, hnot⟩
    · exact .inr (hinv.inflight_of_not_demand (Bool.eq_false_iff.mpr hdemand))

/-- The rounds are leased after a sweep, too. -/
theorem Leased.sweep : Leased ⟨held, sent⟩ s := by
  intro p
  have hp := h.cons p
  rw [reqOf] at hp
  by_cases hkv : kv = p.1
  · rw [if_pos hkv] at hp
    exact hp.deliver_sweep
  · rw [if_neg hkv] at hp
    exact hp

end

/-- Whatever the first message is, the server handles it and the rounds stay leased. -/
private theorem Leased.onMessage (hinv : s.Inv) (h : Leased ⟨held, msg :: sent⟩ s)
    (env : Transport) (now : Time) : ((onMessage env now msg).apply s).Inv ∧
      Leased ⟨held, sent⟩ ((onMessage env now msg).apply s) := by
  refine of_returns (P := fun s' _ => s'.Inv ∧ Leased ⟨held, sent⟩ s')
    (returns_unit ?_)
  cases msg with
  | fetch kv keys blockIndexes r =>
    by_cases hkeys : keys = []
    · subst hkeys
      obtain ⟨hnew, hsafe⟩ := h.sweep_safe hinv
      exact (hinv.onFetch_empty hnew hsafe).mono fun _ s' hstep =>
        ⟨hstep.inv, h.sweep.evolves hstep.evolves⟩
    · exact (hinv.onFetch (h.fetchNew hkeys) hkeys).mono
        fun _ s' hfetched => ⟨hfetched.inv, h.fetch hkeys hfetched⟩
  | lookup kv keys r =>
    rw [dispatch, modify_iff]
    have hstep := hinv.onLookup now kv keys r
    exact ⟨hstep.inv, evolves (h.cons) hstep.evolves⟩
  | abortFetch kv r =>
    exact hinv.onAbortFetch.mono fun _ s' haborted =>
      ⟨haborted.inv, h.abort haborted⟩
  | lookupResp _ _ _ =>
    rw [dispatch, pure_iff]
    exact ⟨hinv, h.cons⟩
  | transferDone _ _ _ =>
    rw [dispatch, pure_iff]
    exact ⟨hinv, h.cons⟩
  | abortAck _ _ =>
    rw [dispatch, pure_iff]
    exact ⟨hinv, h.cons⟩

/-! ### The client sends -/

section

variable (h : Leased v s)

include h

private theorem Leased.acts (hacts : Acts v v') : Leased v' s := by
  intro p
  have hp := h p
  cases hacts with
  | lookup kv keys r held sent =>
    rw [held, sent, filterMap_concat_toList]
    exact (append_nil _).symm ▸ hp
  | abort q active held sent =>
    rw [held, sent, filterMap_concat_toList]
    by_cases hq : q = p
    · subst hq
      rw [active] at hp
      rw [update_self, reqOf, if_pos rfl]
      exact hp.send_stop
    · rw [update_of_ne (symm hq), reqOf, if_neg hq]
      exact (append_nil _).symm ▸ hp
  | sweep kv r aborted next held sent =>
    rw [held, sent, filterMap_concat_toList, reqOf]
    split_ifs with hkv
    · refine hp.send_sweep (fun hactive => aborted p.2 ?_) fun hown => ?_
      · rw [hkv, hactive]
      · rw [← next, hkv, of_decide_eq_true hown]
    · exact (append_nil _).symm ▸ hp

private theorem Leased.reflTransGen (hacts : Relation.ReflTransGen Acts v v') : Leased v' s := by
  induction hacts with
  | refl => exact h
  | tail _ hact ih => exact ih.acts hact

/-- An abort of a round is unanswered: on its way, pending, or its answer on its way. -/
def Unanswered (v : View) (s : ServerRole) (p : KvRequestId × ℕ) : Prop :=
  .abortFetch p.1 p.2 ∈ v.sent ∨ s.Aborting p ∨ .abortAck p.1 p.2 ∈ s.outbox

private theorem Leased.requestBlocks (hfree : v.held p = none)
    (hanswered : ¬ Unanswered v s p) (hkeys : keys ≠ [])
    {blockIds : List ℕ} :
    Leased ⟨Function.update v.held p (some false), v.sent ++ [.fetch p.1 keys blockIds p.2]⟩ s := by
  intro q
  have hq := h q
  dsimp only
  rw [filterMap_concat_toList, reqOf_fetch hkeys]
  by_cases hp : q = p
  · subst hp
    rw [hfree] at hq
    rw [update_self, if_pos rfl]
    refine hq.send_take (fun hmem => ?_) (fun habort => hanswered (.inr (.inl habort)))
      fun hmem => ?_
    · obtain ⟨msg, hmsg, hreq⟩ := mem_filterMap.mp hmem
      have heq : msg = .abortFetch q.1 q.2 := by
        cases msg with
        | abortFetch kv r =>
          rw [reqOf] at hreq
          split_ifs at hreq with hkey
          rw [← hkey]
        | fetch kv keys idx r =>
          cases keys <;> (rw [reqOf] at hreq; split_ifs at hreq; cases hreq)
        | lookup _ _ _ => cases hreq
        | lookupResp _ _ _ => cases hreq
        | transferDone _ _ _ => cases hreq
        | abortAck _ _ => cases hreq
      exact hanswered (.inl (heq ▸ hmsg))
    · obtain ⟨msg, hmsg, hresp⟩ := mem_filterMap.mp hmem
      have heq : msg = .abortAck q.1 q.2 := by
        cases msg with
        | abortAck kv r =>
          rw [respOf] at hresp
          split_ifs at hresp with hkey
          rw [← hkey]
        | transferDone kv _ r =>
          rw [respOf] at hresp
          split_ifs at hresp
          cases hresp
        | abortFetch _ _ => cases hresp
        | fetch _ _ _ _ => cases hresp
        | lookup _ _ _ => cases hresp
        | lookupResp _ _ _ => cases hresp
      exact hanswered (.inr (.inr (heq ▸ hmsg)))
  · rw [update_of_ne hp, if_neg fun heq => hp heq.symm]
    exact (append_nil _).symm ▸ hq

/-! ### Messages reach the client -/

/-- What is said of a round before a message to the client arrives. -/
private theorem Leased.cons_resp (hsent : s.outbox = msg :: rest) (p : KvRequestId × ℕ) :
    Lease (v.held p) (v.sent.filterMap (reqOf p)) (s.IsOpen p) (s.Running p) (s.Aborting p)
      ((msg.respOf p).toList ++ rest.filterMap (respOf p)) := by
  rw [← filterMap_cons_toList, ← hsent]
  exact h p

private theorem Leased.receive_done {success : Bool}
    (hsent : s.outbox = .transferDone kv success r :: rest) :
    Leased ⟨Function.update v.held (kv, r) none, v.sent⟩ { s with outbox := rest } := by
  intro p
  have hp := h.cons_resp hsent p
  rw [respOf] at hp
  dsimp only
  by_cases hkey : (kv, r) = p
  · subst hkey
    rw [if_pos rfl] at hp
    rw [update_self]
    exact hp.receive_done
  · rw [if_neg hkey] at hp
    rw [update_of_ne (symm hkey)]
    exact hp

private theorem Leased.receive_ack (hsent : s.outbox = .abortAck kv r :: rest) :
    v.held (kv, r) ≠ some false ∧
      Leased ⟨Function.update v.held (kv, r) none, v.sent⟩ { s with outbox := rest } := by
  constructor
  · have hp := h.cons_resp hsent (kv, r)
    rw [respOf, if_pos rfl] at hp
    exact hp.receive_ack.1
  · intro p
    have hp := h.cons_resp hsent p
    rw [respOf] at hp
    dsimp only
    by_cases hkey : (kv, r) = p
    · subst hkey
      rw [if_pos rfl] at hp
      rw [update_self]
      exact hp.receive_ack.2
    · rw [if_neg hkey] at hp
      rw [update_of_ne (symm hkey)]
      exact hp

end

/-! ### Runs -/

/-- A client role and a server role. The outbox of each is the channel to the other. -/
structure Pair where
  client : ClientRole
  server : ServerRole

/-- A step of one of the two: a call on its own, or the next message of the other. -/
inductive PairCall where
  | client (call : ClientCall)
  | server (call : ServerCall)
  | toServer (env : Transport) (now : Time)
  | toClient (now : Time)

namespace PairCall

/-- The two roles after a step. -/
def apply (y : Pair) : PairCall → Pair
  | client call => { y with client := call.apply y.client }
  | server call => { y with server := call.apply y.server }
  | toServer env now =>
    match y.client.outbox with
    | [] => y
    | msg :: rest =>
      ⟨{ y.client with outbox := rest }, (onMessage env now msg).apply y.server⟩
  | toClient now =>
    match y.server.outbox with
    | [] => y
    | msg :: rest =>
      ⟨(ClientCall.onMessage msg now).apply y.client, { y.server with outbox := rest }⟩

/-- A role calls nothing but its own functions, a load has blocks (`submit_load` completes one
without blocks at once), and job ids are new. -/
def Allowed (y : Pair) : PairCall → Prop
  | client (.onMessage ..) => False
  | client (.requestBlocks _ _ keys _ _) => keys ≠ []
  | server call => call.IsOwn ∧ call.Allowed y.server
  | _ => True

/-- No fetch takes the number of a round whose abort is unanswered. -/
def Answered (y : Pair) : PairCall → Prop
  | client (.requestBlocks _ kvRequestId _ _ _) =>
    ¬ Unanswered y.client.view y.server
      (kvRequestId, (y.client.getOrCreateRequest kvRequestId).roundSeq)
  | _ => True

end PairCall

/-- Runs of two new roles in which every step meets a condition. -/
inductive PairRun (P : Pair → PairCall → Prop) : Pair → Prop
  | new (stallTimeout : Time) : PairRun P ⟨{}, { stallTimeout }⟩
  | call {y : Pair} (run : PairRun P y) (step : PairCall) (hallowed : step.Allowed y)
      (hstep : P y step) : PairRun P (step.apply y)

namespace Pair

/-- What holds along a run. -/
structure Inv (y : Pair) : Prop where
  client : ∃ submitted results, y.client.Inv submitted results
  server : y.server.Inv
  leased : Leased y.client.view y.server

variable {y : Pair}

private theorem inv_new {stallTimeout : Time} : Inv ⟨{}, { stallTimeout }⟩ where
  client := ⟨[], [], ClientRole.inv_new⟩
  server := ServerRole.inv_new
  leased p := by
    have hopen : ¬ IsOpen { stallTimeout } p := fun ⟨_, hat, _⟩ => nomatch hat
    have hrunning : ¬ Running { stallTimeout } p := fun hp => hopen hp.isOpen
    have habort : ¬ Aborting { stallTimeout } p := fun hne => hne rfl
    exact lease_new hopen hrunning habort

/-- The lease says that an `AbortAck` is for a load that was aborted. -/
private theorem ackExpected_of_held {c : ClientRole} {submitted : List JobId} {results : List LoadResult}
    (h : c.Inv submitted results) (hheld : c.view.held (kv, r) ≠ some false) :
    c.AckExpected kv r := by
  intro load hload hnone
  refine hheld ?_
  change heldOf (c.loadsOf kv) r = some false
  rw [heldOf, hload, Option.map_some, ((h.entries kv).synced r load hload).mp hnone]
  rfl

private theorem Inv.client_call (h : y.Inv) {call : ClientCall}
    (hallowed : (PairCall.client call).Allowed y) (hanswered : (PairCall.client call).Answered y) :
    ((PairCall.client call).apply y).Inv ∧
      y.client.Reports ((PairCall.client call).apply y).client := by
  obtain ⟨submitted, results, hclient⟩ := h.client
  have hinv : call.AcksExpected y.client → ∃ submitted results,
      (call.apply y.client).Inv submitted results := fun hack => ⟨_, _, hclient.apply hack⟩
  cases call with
  | requestBlocks jobId req keys blockIds now =>
    refine ⟨⟨hinv trivial, h.server, ?_⟩, ?_⟩
    · have hview := y.client.view_requestBlocks jobId req keys blockIds now
      refine hview ▸ h.leased.requestBlocks hclient.heldOf_next hanswered hallowed
    · refine reports ?_
      change Defers _ (y.client.requestBlocks jobId req keys blockIds now).2
      rw [requestBlocks]
      split_ifs
      all_goals exact .of_eq rfl rfl
  | registerLookup req key =>
    refine ⟨⟨hinv trivial, h.server, ?_⟩, ?_⟩
    · exact y.client.view_registerLookup.symm ▸ h.leased
    · refine reports ?_
      change Defers _ (y.client.registerLookup req key).2
      rw [registerLookup]
      split <;> exact .of_eq rfl rfl
  | flushPendingLookups sendReady now =>
    refine ⟨⟨hinv trivial, h.server, ?_⟩, ?_⟩
    · exact h.leased.reflTransGen y.client.acts_flushPendingLookups
    · refine reports ?_
      change Defers _ (y.client.flushPendingLookups sendReady now)
      rw [flushPendingLookups]
      split_ifs
      · exact (defers_flushLoop now _ _).trans (.of_eq rfl rfl)
      · exact .of_eq rfl rfl
  | finish req now =>
    exact ⟨⟨hinv trivial, h.server, h.leased.reflTransGen hclient.acts_finish⟩,
      y.client.defers_finish.reports⟩
  | onMessage msg now => exact hallowed.elim
  | collectResults now =>
    exact ⟨⟨hinv trivial, h.server, h.leased.reflTransGen hclient.acts_collectResults⟩,
      y.client.reports_collectResults⟩

private theorem Inv.toServer (h : y.Inv) {env : Transport} {now : Time} :
    ((PairCall.toServer env now).apply y).Inv ∧
      y.client.Reports ((PairCall.toServer env now).apply y).client := by
  obtain ⟨submitted, results, hclient⟩ := h.client
  rw [PairCall.apply]
  cases hsent : y.client.outbox with
  | nil => exact ⟨h, (of_eq rfl rfl).reports⟩
  | cons msg rest =>
    have hleased : Leased ⟨y.client.view.held, msg :: rest⟩ y.server := by
      rw [← hsent]
      exact h.leased
    obtain ⟨hinv, hleased'⟩ := hleased.onMessage h.server env now
    refine ⟨⟨⟨submitted, results, hclient.congr rfl rfl rfl rfl⟩, hinv, hleased'⟩, reports ?_⟩
    exact .of_eq rfl rfl

private theorem Inv.toClient (h : y.Inv) {now : Time} : ((PairCall.toClient now).apply y).Inv ∧
      y.client.Reports ((PairCall.toClient now).apply y).client := by
  obtain ⟨submitted, results, hclient⟩ := h.client
  rw [PairCall.apply]
  cases hsent : y.server.outbox with
  | nil => exact ⟨h, (of_eq rfl rfl).reports⟩
  | cons msg rest =>
    have hserver : ({ y.server with outbox := rest }).Inv := by
      have hf : Forgets y.server { y.server with outbox := rest } :=
        forgets_of_eq rfl rfl le_rfl rfl rfl rfl rfl rfl
      exact ⟨h.server.toBase.forget hf, h.server.offers⟩
    have hinv : (ClientCall.onMessage msg now).AcksExpected y.client → ∃ submitted results,
        ((ClientCall.onMessage msg now).apply y.client).Inv submitted results :=
      fun hack => ⟨_, _, hclient.apply hack⟩
    have hquiet : ((ClientCall.onMessage msg now).apply y.client).view = y.client.view →
        (∀ p, msg.respOf p = none) → Leased ((ClientCall.onMessage msg now).apply y.client).view
          { y.server with outbox := rest } := by
      intro hview hnone
      rw [hview]
      intro p
      have hp := h.leased.cons_resp hsent p
      rwa [hnone] at hp
    have hsame : y.client.Reports y.client := (of_eq rfl rfl).reports
    cases msg with
    | transferDone kv success r =>
      refine ⟨⟨hinv trivial, hserver, ?_⟩, y.client.reports_onTransferDone⟩
      exact y.client.view_onTransferDone.symm ▸ h.leased.receive_done hsent
    | abortAck kv r =>
      obtain ⟨hheld, hleased⟩ := h.leased.receive_ack hsent
      refine ⟨⟨hinv (ackExpected_of_held hclient hheld), hserver, ?_⟩, y.client.reports_onAbortAck⟩
      exact y.client.view_onAbortAck.symm ▸ hleased
    | lookupResp kv keys hits =>
      refine ⟨⟨hinv trivial, hserver, hquiet y.client.view_onLookupResp fun _ => rfl⟩, reports ?_⟩
      exact y.client.defers_onLookupResp
    | fetch _ _ _ _ => exact ⟨⟨hinv trivial, hserver, hquiet rfl fun _ => rfl⟩, hsame⟩
    | lookup _ _ _ => exact ⟨⟨hinv trivial, hserver, hquiet rfl fun _ => rfl⟩, hsame⟩
    | abortFetch _ _ => exact ⟨⟨hinv trivial, hserver, hquiet rfl fun _ => rfl⟩, hsame⟩

private theorem Inv.apply (h : y.Inv) {step : PairCall} (hallowed : step.Allowed y)
    (hanswered : step.Answered y) :
    (step.apply y).Inv ∧ y.client.Reports (step.apply y).client := by
  cases step with
  | client call => exact h.client_call hallowed hanswered
  | server call =>
    obtain ⟨added, hstep, -⟩ := h.server.apply_own hallowed.2 hallowed.1
    exact ⟨⟨h.client, hstep.inv, h.leased.evolves hstep.evolves⟩, (of_eq rfl rfl).reports⟩
  | toServer env now => exact h.toServer
  | toClient now => exact h.toClient

private theorem inv_of_run (run : PairRun (fun y step => step.Answered y) y) : y.Inv := by
  induction run with
  | new stallTimeout => exact inv_new
  | call _ step hallowed hanswered ih => exact (ih.apply hallowed hanswered).1

private theorem records_apply (h : y.server.Records) (step : PairCall) :
    (step.apply y).server.Records := by
  cases step with
  | client call => exact h
  | server call => exact h.apply call
  | toServer env now =>
    rw [PairCall.apply]
    split
    · exact h
    · exact h.apply _
  | toClient now =>
    rw [PairCall.apply]
    split
    · exact h
    · exact h.congr rfl

private theorem records_of_run {P : Pair → PairCall → Prop} (run : PairRun P y) : y.server.Records := by
  induction run with
  | new stallTimeout => exact fun _ _ hx => by cases hx
  | call _ step _ _ ih => exact records_apply ih step

/-- The client holds the load of a transfer that is live. -/
private theorem Inv.held_of_live (h : y.Inv) (hrec : y.server.Records) {tid : TransferId}
    {x : InflightXfer} (hlive : y.server.live.get? tid = some x) :
    (y.client.loadsOf x.kvRequestId).get? x.roundKey ≠ none := by
  intro hnone
  have hx := hrec tid x hlive
  have hfree : y.client.view.held (x.kvRequestId, x.roundKey) = none :=
    congrArg (Option.map _) hnone
  refine ((h.leased _).free hfree).2.1 ⟨x.round, (h.server.xfers tid x hx).roundAt, ?_⟩
  exact (h.server.round_of_xfer hx).1

/-- A round whose load is gone has no live transfer. -/
private theorem Inv.stopped (h : y.Inv) (hrec : y.server.Records)
    (hgone : (y.client.loadsOf kv).get? r = none) : y.server.Stopped kv r := by
  rintro tid x hx rfl rfl
  exact h.held_of_live hrec hx hgone

end Pair

/-- **Blocks are handed back drained.** In every run in which no fetch takes the number of a round
whose abort is unanswered: every transfer that is live on the server's transport is for a load the
client holds; and in every step, a result that is queued without an event and an event that is set
are those of a load that goes, and no transfer of its round is live. -/
theorem PairRun.handed_back_drained {y : Pair}
    (run : PairRun (fun y step => step.Answered y) y) :
    (∀ tid x, y.server.live.get? tid = some x →
      (y.client.loadsOf x.kvRequestId).get? x.roundKey ≠ none) ∧
    ∀ step : PairCall, step.Allowed y → step.Answered y →
      (∀ result, y.client.Queues (step.apply y).client result → result.deferredRelease = none →
        ∃ r load, y.client.Ends (step.apply y).client result.kvRequestId r load ∧
          load.jobId = result.jobId ∧ (step.apply y).server.Stopped result.kvRequestId r) ∧
      ∀ e ∈ (step.apply y).client.released, e ∉ y.client.released →
        ∃ kv r load, y.client.Ends (step.apply y).client kv r load ∧ load.release = some e ∧
          (step.apply y).server.Stopped kv r := by
  have hinv := Pair.inv_of_run run
  have hrec := Pair.records_of_run run
  refine ⟨fun tid x hx => hinv.held_of_live hrec hx, fun step hallowed hanswered => ?_⟩
  obtain ⟨hinv', hreports⟩ := hinv.apply hallowed hanswered
  have hrec' := Pair.records_apply hrec step
  constructor
  · intro result hqueues hnone
    obtain ⟨r, load, hends, hjob⟩ := hreports.results result hqueues hnone
    exact ⟨r, load, hends, hjob, hinv'.stopped hrec' hends.after⟩
  · intro e he hnot
    obtain ⟨kv, r, load, hends, hevent⟩ := hreports.events e he hnot
    exact ⟨kv, r, load, hends, hevent, hinv'.stopped hrec' hends.after⟩

/-- Two loads are fetched and written for. When the client reports the first, the transfer of the
other is still live, and none of its own round is. -/
theorem PairRun.handed_back_drained_other :
    ∃ y : Pair, PairRun (fun y step => step.Answered y) y ∧
      y.client.Queues ((PairCall.toClient 4).apply y).client ⟨1, "r", true, none⟩ ∧
      ((PairCall.toClient 4).apply y).server.live.keys = [1] ∧
      ∃ r load, y.client.Ends ((PairCall.toClient 4).apply y).client "r" r load ∧ load.jobId = 1 ∧
        ((PairCall.toClient 4).apply y).server.Stopped "r" r := by
  have hfirst : (PairCall.client (.requestBlocks 1 "r" [[1]] [5] 0)).Answered
      ⟨{}, { stallTimeout := 60000 }⟩ := by
    rintro (hsent | haborting | hack)
    · cases hsent
    · exact haborting rfl
    · cases hack
  have hsecond : (PairCall.client (.requestBlocks 2 "q" [[2]] [6] 0)).Answered
      ((PairCall.client (.requestBlocks 1 "r" [[1]] [5] 0)).apply
        ⟨{}, { stallTimeout := 60000 }⟩) := by
    rintro (hsent | haborting | hack)
    · revert hsent
      decide
    · exact haborting rfl
    · cases hack
  let run : PairRun (fun y step => step.Answered y) _ :=
    (((((((new 60000).call (.client (.requestBlocks 1 "r" [[1]] [5] 0))
      (cons_ne_nil _ _) hfirst).call (.client (.requestBlocks 2 "q" [[2]] [6] 0))
      (cons_ne_nil _ _) hsecond).call (.toServer .smooth 1) trivial trivial).call
      (.toServer .smooth 1) trivial trivial).call
      (.server (.addStoredBlocks .smooth 2 "r" [[1]] [7] 11)) ⟨trivial, not_mem_nil⟩
      trivial).call (.server (.addStoredBlocks .smooth 2 "q" [[2]] [8] 12))
      ⟨trivial, by change 12 ∉ accepted _; decide⟩ trivial).call
      (.server (.collectResults .smooth ⟨[0], [], none⟩ 3)) ⟨trivial, trivial⟩ trivial
  exact ⟨_, run, ⟨[⟨1, "r", true, none⟩], by decide, mem_singleton_self _⟩, by decide,
    ((handed_back_drained run).2 (.toClient 4) trivial trivial).1 ⟨1, "r", true, none⟩
      ⟨[⟨1, "r", true, none⟩], by decide, mem_singleton_self _⟩ rfl⟩

/-- The answer to an old abort reaches the client after it has fetched again under the same round,
and aborted that: the event of the new load is set while the server writes. -/
theorem PairRun.late_ack_hands_back :
    ∃ y : Pair, PairRun (fun _ _ => True) y ∧ 1 ∉ y.client.released ∧
      1 ∈ ((PairCall.toClient 60003).apply y).client.released ∧
      (∃ load, y.client.Ends ((PairCall.toClient 60003).apply y).client "r" 0 load ∧
        load.release = some 1) ∧
      ∃ x, ((PairCall.toClient 60003).apply y).server.live.get? 1 = some x ∧
        x.kvRequestId = "r" ∧ x.roundKey = 0 := by
  let run : PairRun (fun _ _ => True) _ :=
    (((((((((((new 60000).call (.client (.requestBlocks 1 "r" [[1]] [5] 0))
      (cons_ne_nil _ _) trivial).call (.toServer .smooth 1) trivial trivial).call
      (.server (.addStoredBlocks .smooth 2 "r" [[1]] [7] 11)) ⟨trivial, not_mem_nil⟩
      trivial).call (.server (.collectResults .smooth ⟨[0], [], none⟩ 3)) ⟨trivial, trivial⟩
      -- the load times out, and its abort crosses `TransferDone`
      trivial).call (.client (.collectResults 30000)) trivial trivial).call (.toClient 30001)
      trivial trivial).call (.client (.requestBlocks 2 "r" [[2]] [6] 30002)) (cons_ne_nil _ _)
      trivial).call (.toServer .smooth 30003) trivial trivial).call (.toServer .smooth 30004) trivial
      trivial).call (.server (.addStoredBlocks .smooth 30005 "r" [[2]] [8] 12))
      ⟨trivial, by change 12 ∉ accepted _; decide⟩ trivial).call
      (.client (.collectResults 60002)) trivial trivial
  exact ⟨_, run, by decide, by decide,
    ⟨⟨2, 30002, 30000, some 60002, some 1, false⟩, ⟨by decide, by decide⟩, rfl⟩,
    ⟨"r", 1, [12], 1, 0, 30005⟩, by decide, rfl, rfl⟩

end Sonar.P2P
