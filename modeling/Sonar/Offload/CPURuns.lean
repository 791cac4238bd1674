import Sonar.Offload.ARCPolicy
import Sonar.Offload.CPUInvariant
import Sonar.Offload.LRUPolicy

/-!
# Runs of the CPU tier

A run is any sequence of calls, whether they return or raise. After every run the chunk ids are divided
between the free list and the resident chunks, and the counters are right; and the next
`prepare_store` evicts idle chunks only, none of the keys it was offered.
-/

namespace Sonar.Offload

open Lib P2P List CachePolicy

/-- The calls of the manager. -/
inductive CPUCall where
  | onNewRequest (ctx : ReqContext)
  | lookup (key : OffloadKey) (ctx : ReqContext)
  | prepareLoad (keys : List OffloadKey) (ctx : ReqContext)
  | completeLoad (keys : List OffloadKey) (ctx : ReqContext)
  | prepareStore (keys : List OffloadKey) (ctx : ReqContext)
  | completeStore (keys : List OffloadKey) (ctx : ReqContext) (success : Bool)
  | onRequestFinished (ctx : ReqContext)
  | resetCache

/-- The keys that a store offers are distinct. -/
def CPUCall.Distinct : CPUCall → Prop
  | .prepareStore keys _ => keys.Nodup
  | _ => True

/-- The number of reads that the call asks for. -/
def CPUCall.reads : CPUCall → ℕ
  | .prepareLoad keys _ => keys.length
  | _ => 0

namespace CPUOffloadingManager

variable {π : Type} [CachePolicy π] (m : CPUOffloadingManager π)

/-- The state after a call, which may have raised. -/
def next : CPUCall → CPUOffloadingManager π
  | .onNewRequest ctx => ((onNewRequest ctx).run.run m).2
  | .lookup _ _ => m
  | .prepareLoad keys ctx => ((prepareLoad keys ctx).run.run m).2
  | .completeLoad keys _ => ((completeLoad keys).run.run m).2
  | .prepareStore keys ctx => ((prepareStore keys ctx).run.run m).2
  | .completeStore keys ctx success => ((completeStore keys ctx success).run.run m).2
  | .onRequestFinished ctx => ((onRequestFinished ctx).run.run m).2
  | .resetCache => (resetCache.run.run m).2

/-- The state after a run. -/
def after (calls : List CPUCall) : CPUOffloadingManager π :=
  calls.foldl next m

/-- The resident chunks. -/
def residents : List (OffloadKey × ChunkStatus) :=
  CachePolicy.residents m.policy

/-- Every id below the allocated count is free or belongs to one resident chunk, and the counters
count the resident chunks. -/
structure Consistent (m : CPUOffloadingManager π) : Prop where
  keys : (m.residents.map Prod.fst).Nodup
  ids : (m.freeList ++ m.residents.map fun e => e.2.chunkId).Perm (List.range m.numAllocatedChunks)
  residents_le : m.residents.length ≤ m.numChunks
  evictable : m.numEvictable = m.residents.countP fun e => e.2.refCnt = 0
  writePending : m.numWritePending = m.residents.countP fun e => e.2.refCnt = -1

/-- What a store may do to the resident chunks: a chunk stays as it is, unless it was idle, its key was
not offered and the store was admitted. -/
structure SafeStore (m : CPUOffloadingManager π) (keys : List OffloadKey) (ctx : ReqContext) : Prop where
  kept : ∀ k c, get m.policy k = some c →
    get ((prepareStore keys ctx).run.run m).2.policy k = some c ∨ c.refCnt = 0 ∧ k ∉ keys
  evicted : ∀ out, ((prepareStore keys ctx).run.run m).1 = .ok (some out) →
    ∀ k ∈ out.evictedKeys, k ∉ keys ∧ ∃ c, get m.policy k = some c ∧ c.refCnt = 0
  refused : ((prepareStore keys ctx).run.run m).1 = .ok none →
    ∀ k, get ((prepareStore keys ctx).run.run m).2.policy k = get m.policy k

/-- What holds after every run. -/
structure Sound (m : CPUOffloadingManager π) : Prop where
  consistent : m.Consistent
  safeStore : ∀ keys ctx, keys.Nodup → m.SafeStore keys ctx

section

variable [LawfulPolicy π] {m : CPUOffloadingManager π} {d : Pool}

omit [CachePolicy π] [LawfulPolicy π] in
/-- A store adds no reader. -/
private theorem grows_insertAll {evicted : List (OffloadKey × ChunkStatus)} {l : List (OffloadKey × ℕ)} :
    Grows 0 d (insertAll (eraseAll d evicted) l) := by
  have herase : Grows 0 d (eraseAll d evicted) := by
    intro n hn k c hc
    rw [get?_eraseAll] at hc
    split_ifs at hc
    exact hn k c hc
  generalize eraseAll d evicted = d1 at herase
  induction l generalizing d1 with
  | nil => exact herase
  | cons e l ih => exact ih _ (herase.set (fun n _ => by change (-1 : ℤ) ≤ _; omega) le_rfl)

/-- A call keeps the invariant, and adds no more readers than it asks for. -/
theorem Inv.next (h : m.Inv 0 d) {call : CPUCall} (hcall : call.Distinct) :
    ∃ d', (m.next call).Inv 0 d' ∧ Grows call.reads d d' := by
  -- The state after a call is that of either outcome.
  have hends : ∀ {α : Type} {f : ManagerM π α} {Q : α → CPUOffloadingManager π → Prop}
      {E : CPUOffloadingManager π → Prop} {i : ℕ}, Ends f m Q E →
      (∀ a m', Q a m' → ∃ d', m'.Inv 0 d' ∧ Grows i d d') →
      (∀ m', E m' → ∃ d', m'.Inv 0 d' ∧ Grows i d d') →
      ∃ d', ((f.run.run m).2).Inv 0 d' ∧ Grows i d d' := by
    intro α f Q E i hf hQ hE
    rw [Ends] at hf
    generalize f.run.run m = out at hf ⊢
    obtain ⟨_ | a, m'⟩ := out
    · exact hE m' hf
    · exact hQ a m' hf
  have hreturns : ∀ {α : Type} {f : ManagerM π α} {d' : Pool},
      Returns f m (fun _ m' => m'.Inv 0 d') → Grows 0 d d' →
      ∃ d', ((f.run.run m).2).Inv 0 d' ∧ Grows 0 d d' := by
    rintro α f d' ⟨a, m', hrun, h'⟩ hgrows
    rw [hrun]
    exact ⟨d', h', hgrows⟩
  cases call with
  | onNewRequest ctx =>
    exact hreturns (Returns.bind_iff.mpr
      ((h.getRequestCacheAccess ctx).mono fun _ _ h' => Returns.pure_iff.mpr h')) .refl
  | lookup key ctx => exact ⟨d, h, .refl⟩
  | prepareLoad keys ctx =>
    exact hends h.prepareLoadWith (fun _ _ h' => h') fun _ h' => h'
  | completeLoad keys ctx => exact hends h.completeLoad (fun _ _ h' => h') fun _ h' => h'
  | prepareStore keys ctx =>
    refine hends (h.prepareStore hcall ctx) ?_ fun m' h' => ⟨d, h', .refl⟩
    intro r m' hr
    cases r with
    | none => exact ⟨d, hr, .refl⟩
    | some out =>
      obtain ⟨evicted, l, -, h'⟩ := hr
      exact ⟨_, h', grows_insertAll⟩
  | completeStore keys ctx success => exact hreturns h.completeStore grows_completeAt
  | onRequestFinished ctx => exact hreturns h.onRequestFinished .refl
  | resetCache =>
    exact hreturns (Returns.modify_iff.mpr
      ⟨LawfulPolicy.clear_represents _, rfl, Nat.zero_le _, rfl, rfl, fun _ _ hk => by cases hk⟩)
      fun _ _ _ _ hk => by cases hk

variable {calls : List CPUCall} {keys : List OffloadKey}

private theorem Inv.after (h : m.Inv 0 d) (hcalls : ∀ call ∈ calls, call.Distinct) :
    ∃ d', (m.after calls).Inv 0 d' ∧ Grows (calls.map CPUCall.reads).sum d d' := by
  induction calls generalizing m d with
  | nil => exact ⟨d, h, .refl⟩
  | cons call calls ih =>
    obtain ⟨d', h', hgrows⟩ := h.next (hcalls call (.head _))
    obtain ⟨d'', h'', hgrows'⟩ := ih h' fun call' hcall' => hcalls call' (.tail _ hcall')
    refine ⟨d'', h'', ?_⟩
    rw [map_cons, sum_cons]
    exact hgrows.trans hgrows'

private theorem Inv.isConsistent (h : m.Inv 0 d) : m.Consistent := by
  have hperm := LawfulPolicy.residents_perm h.represents
  have hcount : ∀ r : ℤ, numWithRef r d = (m.residents.countP fun e => e.2.refCnt = r) := by
    intro r
    rw [residents, hperm.countP_eq, numWithRef, Dict.total]
    induction d.entries with
    | nil => rfl
    | cons e l ih =>
      rw [map_cons, sum_cons, ih, countP_cons]
      rw [add_comm]
      simp
  refine ⟨(hperm.map _).nodup_iff.mpr d.nodup, ?_, ?_, ?_, ?_⟩
  · rw [← Multiset.coe_eq_coe, ← Multiset.coe_add, residents,
      Multiset.coe_eq_coe.mpr (hperm.map fun e => e.2.chunkId)]
    have hids := h.ids
    rwa [add_zero, chunkIds, Dict.total, sum_ids] at hids
  · rw [residents, hperm.length_eq]
    exact h.residents_le
  · rw [h.evictable, hcount]
  · rw [h.writePending, hcount, Multiset.card_zero, Nat.cast_zero, add_zero]

/-- A resident chunk stays, or it was idle and not offered. -/
theorem Admitted.kept {out : PrepareStoreOutput}
    {evicted : List (OffloadKey × ChunkStatus)} {l : List (OffloadKey × ℕ)}
    (h : Admitted d keys out evicted l) {k : OffloadKey} {c : ChunkStatus} (hc : d.get? k = some c) :
    (insertAll (eraseAll d evicted) l).get? k = some c ∨ c.refCnt = 0 ∧ k ∉ keys := by
  by_cases hk : k ∈ evicted.map Prod.fst
  · obtain ⟨e, he, rfl⟩ := mem_map.mp hk
    obtain ⟨hget, hzero, hkeys⟩ := h.evicts.2.2 e he
    obtain rfl := Option.some.inj (hc.symm.trans hget)
    exact .inr ⟨hzero, hkeys⟩
  · left
    have hnew : k ∉ l.map Prod.fst := fun hmem =>
      Option.some_ne_none c (hc.symm.trans (h.notResident k hmem))
    rw [get?_insertAll_of_notMem hnew, get?_eraseAll, if_neg hk, hc]

private theorem Inv.safeStore (h : m.Inv 0 d) (hnodup : keys.Nodup)
    {ctx : ReqContext} : m.SafeStore keys ctx := by
  have hstore := h.prepareStore hnodup ctx
  rw [Ends] at hstore
  -- The pool is left as it is, unless the store is admitted.
  have hsafe : ∀ out : Except OffloadError (Option PrepareStoreOutput) × CPUOffloadingManager π,
      (∀ k, get out.2.policy k = d.get? k) → (∀ o, out.1 ≠ .ok (some o)) →
      (prepareStore keys ctx).run.run m = out → m.SafeStore keys ctx := by
    intro out hget hnone hrun
    refine ⟨fun k c hc => .inl ?_, fun o ho => ?_, fun _ k => ?_⟩
    · rw [hrun, hget, ← h.get_eq, hc]
    · exact absurd (hrun ▸ ho) (hnone o)
    · rw [hrun, hget, h.get_eq]
  generalize hrun : (prepareStore keys ctx).run.run m = out at hstore
  obtain ⟨_ | _ | o, m'⟩ := out
  · exact hsafe _ hstore.get_eq (fun o ho => by cases ho) hrun
  · exact hsafe _ hstore.get_eq (fun o ho => by cases ho) hrun
  · obtain ⟨evicted, l, hadmitted, h'⟩ := hstore
    refine ⟨fun k c hc => ?_, fun out hout k hk => ?_, fun hnone => ?_⟩
    · rw [hrun, h'.get_eq]
      exact hadmitted.kept ((h.get_eq k).symm.trans hc)
    · rw [hrun] at hout
      obtain rfl := Option.some.inj (Except.ok.inj hout)
      rw [hadmitted.evictedKeys] at hk
      obtain ⟨e, he, rfl⟩ := mem_map.mp hk
      obtain ⟨hget, hzero, hkeys⟩ := hadmitted.evicts.2.2 e he
      exact ⟨hkeys, e.2, (h.get_eq e.1).trans hget, hzero⟩
    · rw [hrun] at hnone
      cases hnone

private theorem sound_after {numChunks : ℕ} {enableEvents : Bool} {storeThreshold maxTrackerSize : ℕ}
    (hcalls : ∀ call ∈ calls, call.Distinct) :
    Sound ((new numChunks enableEvents storeThreshold maxTrackerSize :
      CPUOffloadingManager π).after calls) := by
  have hnew := inv_new (π := π) numChunks enableEvents storeThreshold maxTrackerSize
  obtain ⟨d, h, -⟩ := hnew.after hcalls
  exact ⟨h.isConsistent, fun keys ctx hnodup => h.safeStore hnodup⟩

/-- **Reference counts do not wrap.** They are integers here and a `c_int32` in the code. After a run that
asks for fewer than `2 ^ 31` reads, every count fits. -/
theorem refCnt_fits {numChunks : ℕ} {enableEvents : Bool} {storeThreshold maxTrackerSize : ℕ}
    (hcalls : ∀ call ∈ calls, call.Distinct) (hreads : (calls.map CPUCall.reads).sum < 2 ^ 31)
    {k : OffloadKey} {c : ChunkStatus}
    (hc : get ((new numChunks enableEvents storeThreshold maxTrackerSize :
      CPUOffloadingManager π).after calls).policy k = some c) : c.FitsInt32 := by
  have hnew := inv_new (π := π) numChunks enableEvents storeThreshold maxTrackerSize
  obtain ⟨d, h, hgrows⟩ := hnew.after hcalls
  rw [h.get_eq] at hc
  have hle := hgrows 0 (fun _ _ hk => by cases hk) k c hc
  rw [Nat.zero_add] at hle
  exact ChunkStatus.fitsInt32 (h.refs k c hc) (hle.trans_lt (by exact_mod_cast hreads))

end

/-- After every run, with the LRU policy and with the ARC policy, the chunk ids are partitioned, the
counters are right and the next store evicts idle chunks only. -/
theorem runs_sound (numChunks : ℕ) (enableEvents : Bool) (storeThreshold maxTrackerSize : ℕ)
    (calls : List CPUCall) (hcalls : ∀ call ∈ calls, call.Distinct) :
    Sound ((new numChunks enableEvents storeThreshold maxTrackerSize :
      CPUOffloadingManager LRUCachePolicy).after calls) ∧ ∀ (F : Type) [FloatOps F],
      Sound ((new numChunks enableEvents storeThreshold maxTrackerSize :
        CPUOffloadingManager (ARCCachePolicy F)).after calls) :=
  ⟨sound_after hcalls, fun _ _ => sound_after hcalls⟩

/-- One chunk: a key is stored, and evicted by the store of another key. -/
theorem runs_sound_eviction : let ctx : ReqContext := { ident := 0, reqId := "r" }
    let calls : List CPUCall := [.prepareStore [[1]] ctx, .completeStore [[1]] ctx true,
      .prepareStore [[2]] ctx]
    (∀ call ∈ calls, call.Distinct) ∧
      ((new 1 false 1 64000 : CPUOffloadingManager LRUCachePolicy).after calls).residents =
        [([2], { refCnt := -1, chunkId := 0 })] ∧
      Sound ((new 1 false 1 64000 : CPUOffloadingManager LRUCachePolicy).after calls) := by
  intro ctx calls
  have hcalls : ∀ call ∈ calls, call.Distinct := by
    intro call hcall
    simp only [calls, mem_cons, not_mem_nil, or_false] at hcall
    rcases hcall with rfl | rfl | rfl
    · exact nodup_singleton _
    · trivial
    · exact nodup_singleton _
  exact ⟨hcalls, by decide +kernel, (runs_sound 1 false 1 64000 calls hcalls).1⟩

end CPUOffloadingManager

end Sonar.Offload
