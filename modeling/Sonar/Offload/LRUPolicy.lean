import Sonar.Offload.CachePolicy

/-!
# The LRU policy

Evictable chunks live in a heap of ranks and keys. An entry is **current** if its key is evictable and
has the entry's rank; other entries are stale and skipped. The heap is a list here, and `heappop`
removes its least entry.

The policy represents its dictionary of chunks as long as the set of evictable keys is the set of idle
chunks and every chunk has a rank (`LRUCachePolicy.Ok`).
-/

namespace Sonar.Offload

open Lib P2P Returns List Dict

/-- An entry of the heap: the rank of a key, and the key. -/
abbrev HeapEntry := (ℤ × ℤ) × OffloadKey

/-- The order of tuples. -/
def HeapEntry.lt (a b : HeapEntry) : Bool :=
  decide (a.1.1 < b.1.1 ∨ a.1.1 = b.1.1 ∧ (a.1.2 < b.1.2 ∨ a.1.2 = b.1.2 ∧ a.2 < b.2))

/-- The least entry of a heap, and the others. -/
def heappop : List HeapEntry → Option (HeapEntry × List HeapEntry)
  | [] => none
  | e :: heap =>
    let least := heap.foldl (fun m x => if x.lt m then x else m) e
    some (least, (e :: heap).erase least)

/-- `LRUCachePolicy`. `requestRanks` holds the `_RequestRank` of each request context. -/
structure LRUCachePolicy where
  cacheCapacity : ℕ
  chunks : Dict OffloadKey ChunkStatus := ∅
  ranks : Dict OffloadKey (ℤ × ℤ) := ∅
  evictable : List OffloadKey := []
  heap : List HeapEntry := []
  nextRank : ℤ := 0
  cacheGeneration : ℕ := 0
  requestRanks : Dict ℕ (ℕ × ℤ) := ∅

namespace LRUCachePolicy

/-- The rank of a request; the first access gives it a new one. -/
def getRequestRank (ctx : ReqContext) : PolicyM LRUCachePolicy ℤ := do
  let p ← get
  match (p.requestRanks.get? ctx.ident).filter fun state => state.1 = p.cacheGeneration with
  | some state => pure state.2
  | none =>
    set { p with
      nextRank := p.nextRank + 1
      requestRanks := p.requestRanks.set ctx.ident (p.cacheGeneration, p.nextRank + 1) }
    pure (p.nextRank + 1)

variable (p : LRUCachePolicy)

/-- A resident key gets the highest rank. The flag says whether it has to enter the heap again. -/
def assignNewRank (key : OffloadKey) : Bool × LRUCachePolicy :=
  if (p.chunks.get? key).isNone then (false, p)
  else
    (decide (key ∈ p.evictable), { p with
      nextRank := p.nextRank + 1
      ranks := p.ranks.set key (p.nextRank + 1, 0) })

variable (key : OffloadKey)

/-- A key enters the heap with its rank. -/
def pushEvictable : PolicyM LRUCachePolicy PUnit := do
  let p ← get
  match p.ranks.get? key with
  | none => throw .keyError
  | some rank => set { p with heap := (rank, key) :: p.heap }

/-- Whether an entry of the heap is the key's last one. -/
def isCurrent (entry : HeapEntry) : Bool :=
  decide (entry.2 ∈ p.evictable) && decide (p.ranks.get? entry.2 = some entry.1)

/-- The heap is built again from the evictable keys. -/
def rebuildHeap : PolicyM LRUCachePolicy PUnit := do
  let p ← get
  if p.evictable.all fun key => (p.ranks.get? key).isSome then
    set { p with
      heap := p.evictable.filterMap fun key => (p.ranks.get? key).map fun rank => (rank, key) }
  else throw .keyError

/-- A heap with many outdated entries is rebuilt. -/
def maybeCompactHeap : PolicyM LRUCachePolicy PUnit := do
  let p ← get
  if p.heap.length < max 64 (2 * p.evictable.length) then pure ⟨⟩ else rebuildHeap

/-- Keys with new ranks enter the heap, one by one or by rebuilding it. -/
def updateHeap (updatedEvictable : List OffloadKey) : PolicyM LRUCachePolicy PUnit := do
  let p ← get
  if updatedEvictable.isEmpty then pure ⟨⟩
  else if max 64 (p.evictable.length / 4) ≤ updatedEvictable.length then rebuildHeap
  else
    forAll pushEvictable updatedEvictable
    maybeCompactHeap

/-- Keys become the most recently used ones. -/
def updateRecency (keys : List OffloadKey) : PolicyM LRUCachePolicy PUnit := do
  let p ← get
  let s := keys.foldl (fun s key =>
    let out := assignNewRank s.2 key
    (if out.1 then s.1 ++ [key] else s.1, out.2)) (([] : List OffloadKey), p)
  set s.2
  updateHeap s.1

/-- A chunk becomes resident, ranked by its position in the request if that is known. -/
def insert (chunk : ChunkStatus) (ctx : ReqContext) : PolicyM LRUCachePolicy PUnit := do
  modify fun p => { p with chunks := p.chunks.set key chunk }
  match ctx.position key with
  | none => modify fun p => { p with
      nextRank := p.nextRank + 1
      ranks := p.ranks.set key (p.nextRank + 1, 0) }
  | some position =>
    let rank ← getRequestRank ctx
    modify fun p => { p with ranks := p.ranks.set key (rank, -(position : ℤ)) }
  if chunk.refCnt = 0 then
    modify fun p => { p with evictable := insertSet key p.evictable }
    pushEvictable key
  else pure ⟨⟩

/-- A chunk is no longer resident. -/
def remove : PolicyM LRUCachePolicy PUnit := do
  let p ← get
  if (p.chunks.get? key).isNone then throw .keyError
  else set { p with
    chunks := p.chunks.erase key
    ranks := p.ranks.erase key
    evictable := discard key p.evictable }

/-- What `on_request_access` does for one key, with the evictable keys whose rank changed. -/
def accessKey (ctx : ReqContext) (requestRank : ℤ) (key : OffloadKey) :
    PolicyM LRUCachePolicy (List OffloadKey) := do
  let p ← get
  match ctx.position key with
  | none => pure []
  | some position =>
    if (p.chunks.get? key).isNone then pure []
    else
      match p.ranks.get? key with
      | none => throw .keyError
      | some rank =>
        if rank.1 > requestRank ∨ rank.1 = requestRank ∧ -(position : ℤ) ≤ rank.2 then pure []
        else
          set { p with ranks := p.ranks.set key (requestRank, -(position : ℤ)) }
          pure (if key ∈ p.evictable then [key] else [])

/-- Resident keys get the rank of the request and their position in it, unless theirs is higher. -/
def onRequestAccess (keys : List OffloadKey) (ctx : ReqContext) : PolicyM LRUCachePolicy PUnit := do
  let requestRank ← getRequestRank ctx
  let updatedEvictable ← collect (accessKey ctx requestRank) keys
  updateHeap updatedEvictable

/-- An empty policy of a new generation. -/
def clear : LRUCachePolicy :=
  { p with
    chunks := ∅
    ranks := ∅
    evictable := []
    heap := []
    nextRank := 0
    cacheGeneration := p.cacheGeneration + 1 }

/-- The selection loop of `evict`. Every round pops an entry, so the heap bounds it. -/
def selectLoop (p : LRUCachePolicy) (n : ℕ) (protectedKeys : List OffloadKey) :
    ℕ → List HeapEntry → List (HeapEntry × ChunkStatus) → List HeapEntry →
      Except OffloadError (List HeapEntry × List (HeapEntry × ChunkStatus) × List HeapEntry)
  | 0, heap, selected, deferred => .ok (heap, selected, deferred)
  | fuel + 1, heap, selected, deferred =>
    if n ≤ selected.length then .ok (heap, selected, deferred)
    else
      match heappop heap with
      | none => .ok (heap, selected, deferred)
      | some (entry, heap) =>
        if !p.isCurrent entry then selectLoop p n protectedKeys fuel heap selected deferred
        else if entry.2 ∈ selected.map fun s => s.1.2 then
          selectLoop p n protectedKeys fuel heap selected deferred
        else if entry.2 ∈ protectedKeys then
          selectLoop p n protectedKeys fuel heap selected (deferred ++ [entry])
        else
          match p.chunks.get? entry.2 with
          | none => .error .keyError
          | some chunk =>
            if chunk.refCnt = 0 then
              selectLoop p n protectedKeys fuel heap (selected ++ [(entry, chunk)]) deferred
            else .error (.assertionError "")

/-- A selected key leaves the policy. -/
def removeSelected (key : OffloadKey) : LRUCachePolicy :=
  { p with
    evictable := discard key p.evictable
    chunks := p.chunks.erase key
    ranks := p.ranks.erase key }

/-- The `n` evictable chunks of lowest rank that are not protected; `none` if there are too few. -/
def evict (n : ℕ) (protectedKeys : List OffloadKey) :
    PolicyM LRUCachePolicy (Option (List (OffloadKey × ChunkStatus))) := do
  if n = 0 then pure (some [])
  else
    let p ← get
    match p.selectLoop n protectedKeys p.heap.length p.heap [] [] with
    | .error e => throw e
    | .ok (heap, selected, deferred) =>
      if selected.length < n then
        set { p with heap := deferred ++ (selected.map Prod.fst ++ heap) }
        pure none
      else
        set (selected.foldl (fun p s => p.removeSelected s.1.2) { p with heap := deferred ++ heap })
        maybeCompactHeap
        pure (some (selected.map fun s => (s.1.2, s.2)))

/-- A chunk without readers may be evicted. -/
def markEvictable : PolicyM LRUCachePolicy PUnit := do
  modify fun p => { p with evictable := insertSet key p.evictable }
  pushEvictable key
  maybeCompactHeap

/-- A chunk that gets a reader may not be evicted. -/
def markNonEvictable : PolicyM LRUCachePolicy PUnit := do
  let p ← get
  if key ∈ p.evictable then set { p with evictable := discard key p.evictable } else throw .keyError

end LRUCachePolicy

open LRUCachePolicy

instance : CachePolicy LRUCachePolicy where
  new cacheCapacity := { cacheCapacity }
  residents p := p.chunks.entries
  get p key := p.chunks.get? key
  put p key chunk := { p with chunks := p.chunks.set key chunk }
  insert := insert
  remove := remove
  onStoreMiss _ := pure ⟨⟩
  onRequestAccess := onRequestAccess
  onRequestFinished keyGroups _ _ ctx :=
    updateRecency (orderRequestKeys keyGroups ctx).reverse
  evict := evict
  clear := clear
  markEvictable := markEvictable
  markNonEvictable := markNonEvictable

namespace LRUCachePolicy

variable {p : LRUCachePolicy} {key : OffloadKey} {c : ChunkStatus}

/-! ### The policy is lawful -/

/-- The evictable keys are those of idle chunks, and every chunk has a rank. -/
structure Ok (p : LRUCachePolicy) : Prop where
  mem_evictable : ∀ k, k ∈ p.evictable ↔ ∃ c, p.chunks.get? k = some c ∧ c.refCnt = 0
  ranked : ∀ k c, p.chunks.get? k = some c → ∃ rank, p.ranks.get? k = some rank

private theorem Ok.evictable_ranked (h : p.Ok) (hk : key ∈ p.evictable) :
    ∃ rank, p.ranks.get? key = some rank := by
  obtain ⟨c, hc, -⟩ := (h.mem_evictable key).mp hk
  exact h.ranked key c hc

/-- The policies that differ in the heap and the request ranks, and in the ranks of keys as long as
every key keeps one. -/
structure Reranked (p p' : LRUCachePolicy) : Prop where
  chunks : p'.chunks = p.chunks
  evictable : p'.evictable = p.evictable
  ranked : ∀ k, (∃ rank, p.ranks.get? k = some rank) → ∃ rank, p'.ranks.get? k = some rank

private theorem Reranked.refl (p : LRUCachePolicy) : Reranked p p := ⟨rfl, rfl, fun _ h => h⟩

variable {p' : LRUCachePolicy} {ctx : ReqContext}

private theorem Reranked.trans {p'' : LRUCachePolicy} (h : Reranked p p') (h' : Reranked p' p'') :
    Reranked p p'' :=
  ⟨h'.chunks.trans h.chunks, h'.evictable.trans h.evictable, fun k hk => h'.ranked k (h.ranked k hk)⟩

/-- A change of ranks alone keeps the invariant. -/
private theorem Ok.reranked (h : p.Ok) (hr : Reranked p p') : p'.Ok := by
  refine ⟨fun k => ?_, fun k c hk => ?_⟩
  · rw [hr.evictable, hr.chunks]
    exact h.mem_evictable k
  · rw [hr.chunks] at hk
    exact hr.ranked k (h.ranked k c hk)

private theorem reranked_setRank {rank : ℤ × ℤ} {nextRank : ℤ} :
    Reranked p { p with ranks := p.ranks.set key rank, nextRank } := by
  refine ⟨rfl, rfl, fun k hk => ?_⟩
  by_cases heq : k = key
  · exact ⟨rank, heq ▸ get?_set_self _ _ _⟩
  · obtain ⟨old, hold⟩ := hk
    exact ⟨old, (get?_set_of_ne heq).trans hold⟩

private theorem getRequestRank_returns :
    Returns (getRequestRank ctx) p fun _ p' => Reranked p p' ∧ p'.ranks = p.ranks := by
  rw [getRequestRank, bind_iff, get_iff]
  split
  · rw [pure_iff]
    exact ⟨.refl p, rfl⟩
  · rw [bind_iff, set_iff, pure_iff]
    exact ⟨⟨rfl, rfl, fun _ h => h⟩, rfl⟩

private theorem pushEvictable_returns (h : ∃ rank, p.ranks.get? key = some rank) :
    Returns (pushEvictable key) p fun _ p' => Reranked p p' ∧ p'.ranks = p.ranks := by
  obtain ⟨rank, hrank⟩ := h
  rw [pushEvictable, bind_iff, get_iff, hrank, set_iff]
  exact ⟨⟨rfl, rfl, fun _ h => h⟩, rfl⟩

section

variable (h : ∀ k ∈ p.evictable, ∃ rank, p.ranks.get? k = some rank)

include h

private theorem rebuildHeap_returns : Returns rebuildHeap p fun _ p' => Reranked p p' := by
  have hall : p.evictable.all (fun key => (p.ranks.get? key).isSome) = true :=
    all_eq_true.mpr fun k hk => Option.isSome_iff_exists.mpr (h k hk)
  rw [rebuildHeap, bind_iff, get_iff, if_pos hall, set_iff]
  exact ⟨rfl, rfl, fun _ h => h⟩

private theorem maybeCompactHeap_returns : Returns maybeCompactHeap p fun _ p' => Reranked p p' := by
  rw [maybeCompactHeap, bind_iff, get_iff]
  split_ifs
  · rw [pure_iff]
    exact .refl p
  · exact rebuildHeap_returns h

/-- Entries are pushed for ranked keys only, so no push fails. -/
private theorem updateHeap_returns
    {updated : List OffloadKey} (hupdated : ∀ k ∈ updated, ∃ rank, p.ranks.get? k = some rank) :
    Returns (updateHeap updated) p fun _ p' => Reranked p p' := by
  rw [updateHeap, bind_iff, get_iff]
  split_ifs
  · rw [pure_iff]
    exact .refl p
  · exact rebuildHeap_returns h
  · rw [bind_iff]
    -- The pushes change the heap alone.
    have hpush : Returns (forAll pushEvictable updated) p fun _ p' =>
        Reranked p p' ∧ p'.ranks = p.ranks := by
      refine mono (forAll (P := fun l p' => (∀ k ∈ l, k ∈ updated) ∧
        Reranked p p' ∧ p'.ranks = p.ranks) ?_ ⟨fun _ hk => hk, .refl p, rfl⟩) fun _ _ hP => hP.2
      rintro k l p' ⟨hl, hr, hranks⟩
      have hk := hupdated k (hl k (.head _))
      refine (pushEvictable_returns (hranks ▸ hk)).mono fun _ p'' hp'' => ?_
      exact ⟨fun j hj => hl j (mem_cons_of_mem k hj), hr.trans hp''.1, hp''.2.trans hranks⟩
    refine hpush.mono fun _ p' hp' => ?_
    refine (maybeCompactHeap_returns ?_).mono fun _ p'' hr => hp'.1.trans hr
    rw [hp'.1.evictable, hp'.2]
    exact h

end

private theorem assignNewRank_spec (p : LRUCachePolicy) (key : OffloadKey) :
    Reranked p (p.assignNewRank key).2 ∧
      ((p.assignNewRank key).1 = true → ∃ rank, (p.assignNewRank key).2.ranks.get? key = some rank) := by
  rw [assignNewRank]
  split_ifs with hnone
  · exact ⟨.refl p, fun h => absurd h (by decide)⟩
  · exact ⟨reranked_setRank, fun _ => ⟨_, get?_set_self _ _ _⟩⟩

section

variable (h : p.Ok)

include h

/-- Touching keys changes ranks and the heap only. -/
private theorem updateRecency_returns (keys : List OffloadKey) :
    Returns (updateRecency keys) p fun _ p' => Reranked p p' := by
  rw [updateRecency, bind_iff, get_iff, bind_iff, set_iff]
  -- The loop gives new ranks, and collects keys that have one.
  have hloop : ∀ (keys l : List OffloadKey) q,
      Reranked p q → (∀ k ∈ l, ∃ rank, q.ranks.get? k = some rank) →
      let t := keys.foldl (fun s key =>
        let out := assignNewRank s.2 key
        (if out.1 then s.1 ++ [key] else s.1, out.2)) (l, q)
      Reranked p t.2 ∧ ∀ k ∈ t.1, ∃ rank, t.2.ranks.get? k = some rank := by
    intro keys
    induction keys with
    | nil => exact fun _ _ hr hl => ⟨hr, hl⟩
    | cons key keys ih =>
      intro l q hr hl
      obtain ⟨hr', hkey⟩ := assignNewRank_spec q key
      refine ih _ _ (hr.trans hr') fun k hk => ?_
      split_ifs at hk with hreported
      · rcases mem_append.mp hk with hk | hk
        · exact hr'.ranked k (hl k hk)
        · rw [mem_singleton.mp hk]
          exact hkey hreported
      · exact hr'.ranked k (hl k hk)
  obtain ⟨hr, hl⟩ := hloop keys [] p (.refl p) nofun
  exact (updateHeap_returns (fun k hk => (h.reranked hr).evictable_ranked hk) hl).mono
    fun _ p' hp' => hr.trans hp'

private theorem accessKey_returns {requestRank : ℤ} :
    Returns (accessKey ctx requestRank key) p fun out p' => Reranked p p' ∧
      ∀ k ∈ out, ∃ rank, p'.ranks.get? k = some rank := by
  have hnil : ∀ k ∈ ([]), ∃ rank, p.ranks.get? k = some rank := nofun
  rw [accessKey, bind_iff, get_iff]
  cases ctx.position key with
  | none => exact pure_iff.mpr ⟨.refl p, hnil⟩
  | some position =>
    dsimp only
    cases hc : p.chunks.get? key with
    | none =>
      exact pure_iff.mpr ⟨.refl p, hnil⟩
    | some c =>
      obtain ⟨rank, hrank⟩ := h.ranked key c hc
      rw [if_neg (Option.isNone_some ▸ Bool.false_ne_true), hrank]
      dsimp only
      by_cases hold : rank.1 > requestRank ∨ rank.1 = requestRank ∧ -position ≤ rank.2
      · rw [if_pos hold]
        exact pure_iff.mpr ⟨.refl p, hnil⟩
      · rw [if_neg hold, bind_iff, set_iff, pure_iff]
        refine ⟨reranked_setRank, fun k hk => ?_⟩
        split_ifs at hk
        · rw [mem_singleton.mp hk]
          exact ⟨_, get?_set_self _ _ _⟩
        · cases hk

private theorem onRequestAccess_returns {keys : List OffloadKey} :
    Returns (onRequestAccess keys ctx) p fun _ p' => Reranked p p' := by
  rw [onRequestAccess, bind_iff]
  refine getRequestRank_returns.mono fun rank q hq => ?_
  rw [bind_iff]
  have hcollect : Returns (collect (accessKey ctx rank) keys) q fun out q' =>
      Reranked p q' ∧ ∀ k ∈ out, ∃ rank, q'.ranks.get? k = some rank := by
    refine collect (P := fun _ out q' => Reranked p q' ∧
      ∀ k ∈ out, ∃ rank, q'.ranks.get? k = some rank) ?_
      ⟨hq.1, nofun⟩
    rintro key l out q' ⟨hr, hout⟩
    refine (accessKey_returns (h.reranked hr)).mono fun more q'' hq'' => ?_
    refine ⟨hr.trans hq''.1, fun k hk => ?_⟩
    rcases mem_append.mp hk with hk | hk
    · exact hq''.1.ranked k (hout k hk)
    · exact hq''.2 k hk
  refine hcollect.mono fun out q' hq' => ?_
  exact (updateHeap_returns (fun k hk => (h.reranked hq'.1).evictable_ranked hk) hq'.2).mono
    fun _ q'' hr => hq'.1.trans hr

/-- What has to be known about one key when its chunk is replaced. -/
private theorem Ok.setChunk (hchunks : p'.chunks = p.chunks.set key c)
    (hkey : key ∈ p'.evictable ↔ c.refCnt = 0)
    (hothers : ∀ k, k ≠ key → (k ∈ p'.evictable ↔ k ∈ p.evictable))
    (hranked : ∃ rank, p'.ranks.get? key = some rank)
    (hranks : ∀ k, k ≠ key → p'.ranks.get? k = p.ranks.get? k) : p'.Ok := by
  refine ⟨fun k => ?_, fun k c' hk => ?_⟩
  · rw [hchunks]
    by_cases heq : k = key
    · rw [heq, get?_set_self, hkey]
      constructor
      · exact fun hzero => ⟨c, rfl, hzero⟩
      · rintro ⟨c', hc', hzero⟩
        exact Option.some.inj hc' ▸ hzero
    · rw [get?_set_of_ne heq, hothers k heq]
      exact h.mem_evictable k
  · by_cases heq : k = key
    · exact heq ▸ hranked
    · rw [hchunks, get?_set_of_ne heq] at hk
      rw [hranks k heq]
      exact h.ranked k c' hk

private theorem Ok.not_mem_evictable (hc : ∀ c, p.chunks.get? key = some c → c.refCnt ≠ 0) :
    key ∉ p.evictable := by
  intro hmem
  obtain ⟨c, hget, hzero⟩ := (h.mem_evictable key).mp hmem
  exact hc c hget hzero

private theorem insert_returns (hnone : p.chunks.get? key = none) (hc : c.refCnt ≠ 0)
    : Returns (insert key c ctx) p fun _ p' =>
      p'.chunks = p.chunks.set key c ∧ p'.Ok := by
  have hkey : key ∈ p.evictable ↔ c.refCnt = 0 := by
    refine iff_of_false (h.not_mem_evictable fun c' hc' => ?_) hc
    rw [hnone] at hc'
    cases hc'
  rw [insert, bind_iff, modify_iff, if_neg hc]
  cases ctx.position key with
  | none =>
    rw [bind_iff, modify_iff, pure_iff]
    exact ⟨rfl, h.setChunk rfl hkey (fun _ _ => Iff.rfl) ⟨_, get?_set_self _ _ _⟩
      fun k hk => get?_set_of_ne hk⟩
  | some position =>
    rw [bind_iff]
    refine getRequestRank_returns.mono fun rank q hq => ?_
    rw [bind_iff, modify_iff, pure_iff]
    refine ⟨hq.1.chunks, h.setChunk hq.1.chunks ?_ (fun k _ => ?_)
      ⟨_, get?_set_self _ _ _⟩ fun k hk => ?_⟩
    · rw [← hkey, hq.1.evictable]
    · rw [hq.1.evictable]
    · rw [get?_set_of_ne hk, hq.2]

private theorem Ok.removeSelected : (p.removeSelected key).Ok := by
  refine ⟨fun k => ?_, fun k c hk => ?_⟩
  · change k ∈ discard key p.evictable ↔ ∃ c, (p.chunks.erase key).get? k = some c ∧ c.refCnt = 0
    rw [mem_discard, h.mem_evictable]
    by_cases heq : k = key
    · subst heq
      rw [get?_erase_self]
      constructor
      · exact fun hk => absurd rfl hk.2
      · rintro ⟨_, hnone, -⟩
        cases hnone
    · rw [get?_erase_of_ne heq]
      exact and_iff_left heq
  · obtain ⟨hne, hk⟩ := get?_erase_eq_some.mp hk
    obtain ⟨rank, hrank⟩ := h.ranked k c hk
    exact ⟨rank, (get?_erase_of_ne hne).trans hrank⟩

private theorem remove_returns (hc : p.chunks.get? key = some c) :
    Returns (remove key) p fun _ p' => p'.chunks = p.chunks.erase key ∧ p'.Ok := by
  rw [remove, bind_iff, get_iff, hc, if_neg (Option.isNone_some ▸ Bool.false_ne_true), set_iff]
  exact ⟨rfl, h.removeSelected⟩

/-! ### Eviction -/

/-- The entries selected so far: distinct keys of idle chunks that are not protected. -/
def Selected (p : LRUCachePolicy) (protectedKeys : List OffloadKey)
    (selected : List (HeapEntry × ChunkStatus)) : Prop :=
  (selected.map fun s => s.1.2).Nodup ∧
    ∀ s ∈ selected, p.chunks.get? s.1.2 = some s.2 ∧ s.2.refCnt = 0 ∧ s.1.2 ∉ protectedKeys

/-- The loop does not raise, and selects at most `n` entries. -/
private theorem selectLoop_spec (n : ℕ) (protectedKeys : List OffloadKey) :
    ∀ fuel heap selected deferred, Selected p protectedKeys selected → selected.length ≤ n →
      ∃ out, p.selectLoop n protectedKeys fuel heap selected deferred = .ok out ∧
        Selected p protectedKeys out.2.1 ∧ out.2.1.length ≤ n := by
  intro fuel
  induction fuel with
  | zero => exact fun heap selected deferred hsel hlen => ⟨_, rfl, hsel, hlen⟩
  | succ fuel ih =>
    intro heap selected deferred hsel hlen
    rw [selectLoop]
    by_cases hfull : n ≤ selected.length
    · exact ⟨_, if_pos hfull, hsel, hlen⟩
    · rw [if_neg hfull]
      cases heappop heap with
      | none => exact ⟨_, rfl, hsel, hlen⟩
      | some popped =>
        obtain ⟨entry, heap'⟩ := popped
        dsimp only
        by_cases hcurrent : p.isCurrent entry = true
        · rw [hcurrent, if_neg (by decide)]
          split_ifs with hmem hprotected
          · exact ih _ _ _ hsel hlen
          · exact ih _ _ _ hsel hlen
          · rw [isCurrent, Bool.and_eq_true, decide_eq_true_eq] at hcurrent
            obtain ⟨c, hc, hzero⟩ := (h.mem_evictable _).mp hcurrent.1
            rw [hc]
            dsimp only
            rw [if_pos hzero]
            refine ih _ _ _ ⟨?_, fun s hs => ?_⟩ ?_
            · rw [map_append, nodup_append]
              refine ⟨hsel.1, nodup_singleton _, ?_⟩
              rintro k hk k' hk' rfl
              rw [map_singleton, mem_singleton] at hk'
              exact hmem (hk' ▸ hk)
            · rcases mem_append.mp hs with hs | hs
              · exact hsel.2 s hs
              · rw [mem_singleton.mp hs]
                exact ⟨hc, hzero, hprotected⟩
            · rw [length_append, length_singleton]
              omega
        · rw [Bool.eq_false_iff.mpr hcurrent]
          exact ih _ _ _ hsel hlen

private theorem foldl_removeSelected (selected : List (HeapEntry × ChunkStatus)) :
    let p' := selected.foldl (fun p s => p.removeSelected s.1.2) p
    p'.chunks = eraseAll p.chunks (selected.map fun s => (s.1.2, s.2)) ∧ p'.Ok := by
  induction selected generalizing p with
  | nil => exact ⟨rfl, h⟩
  | cons s selected ih => exact ih h.removeSelected

/-- A failed eviction keeps the chunks; a successful one removes what it reports. -/
private theorem evict_returns {n : ℕ} {protectedKeys : List OffloadKey} :
    Returns (evict n protectedKeys) p fun r p' => match r with
      | none => p'.chunks = p.chunks ∧ p'.Ok
      | some l => Evicts n protectedKeys p.chunks l ∧ p'.chunks = eraseAll p.chunks l ∧ p'.Ok := by
  rw [evict]
  by_cases hn : n = 0
  · rw [if_pos hn, pure_iff]
    exact ⟨⟨hn.symm, nodup_nil, nofun⟩, rfl, h⟩
  · rw [if_neg hn, bind_iff, get_iff]
    obtain ⟨⟨heap, selected, deferred⟩, hloop, ⟨hnodup, hsel⟩, hlen⟩ := selectLoop_spec h n
      _ _ p.heap [] []
      ⟨nodup_nil, nofun⟩ (Nat.zero_le n)
    rw [hloop]
    dsimp only at hnodup hsel hlen ⊢
    by_cases hshort : selected.length < n
    · rw [if_pos hshort, bind_iff, set_iff, pure_iff]
      exact ⟨rfl, h.reranked ⟨rfl, rfl, fun _ h => h⟩⟩
    · rw [if_neg hshort, bind_iff, set_iff, bind_iff]
      have hok : ({ p with heap := deferred ++ heap }).Ok :=
        h.reranked ⟨rfl, rfl, fun _ h => h⟩
      obtain ⟨hchunks, hok'⟩ := foldl_removeSelected hok _
      refine (maybeCompactHeap_returns fun k hk => hok'.evictable_ranked hk).mono fun _ p' hr => ?_
      rw [pure_iff]
      refine ⟨⟨?_, ?_, fun e he => ?_⟩, hr.chunks.trans hchunks, hok'.reranked hr⟩
      · rw [length_map]
        omega
      · rw [map_map]
        exact hnodup
      · obtain ⟨s, hs, rfl⟩ := mem_map.mp he
        exact hsel s hs

/-! ### Marks -/

private theorem markNonEvictable_returns {c' : ChunkStatus} (hc : p.chunks.get? key = some c)
    (hzero : c.refCnt = 0) (hc' : c'.refCnt ≠ 0) : Returns (markNonEvictable key) p fun _ p' =>
      p'.chunks = p.chunks ∧ ({ p' with chunks := p'.chunks.set key c' }).Ok := by
  have hmem : key ∈ p.evictable := (h.mem_evictable key).mpr ⟨c, hc, hzero⟩
  rw [markNonEvictable, bind_iff, get_iff, if_pos hmem, set_iff]
  refine ⟨rfl, h.setChunk rfl ?_ (fun k hk => ?_) (h.ranked key c hc) fun _ _ => rfl⟩
  · exact iff_of_false (fun hin => (mem_discard.mp hin).2 rfl) hc'
  · exact mem_discard.trans (and_iff_left hk)

private theorem markEvictable_returns {c' : ChunkStatus} (hc : p.chunks.get? key = some c)
    (hc' : c'.refCnt = 0) :
    Returns (markEvictable key) { p with chunks := p.chunks.set key c' } fun _ p' =>
      p'.chunks = p.chunks.set key c' ∧ p'.Ok := by
  have hranked := h.ranked key c hc
  have hok : ({ p with
      chunks := p.chunks.set key c'
      evictable := insertSet key p.evictable }).Ok := by
    refine h.setChunk rfl ?_ (fun k hk => ?_) hranked fun _ _ => rfl
    · exact iff_of_true (mem_insertSet.mpr (.inl rfl)) hc'
    · exact mem_insertSet.trans (or_iff_right hk)
  rw [markEvictable, bind_iff, modify_iff, bind_iff]
  refine mono (pushEvictable_returns hranked) fun _ q hq => ?_
  have hok' := hok.reranked hq.1
  refine (maybeCompactHeap_returns fun k hk => hok'.evictable_ranked hk).mono fun _ p' hr => ?_
  exact ⟨hr.chunks.trans hq.1.chunks, hok'.reranked hr⟩

end

end LRUCachePolicy

instance : LawfulPolicy LRUCachePolicy where
  Represents p d := p.chunks = d ∧ p.Ok
  new_represents _ := ⟨rfl, fun _ => iff_of_false not_mem_nil (by rintro ⟨_, h, -⟩; cases h),
    fun _ _ h => by cases h⟩
  residents_perm := by
    rintro p d ⟨rfl, -⟩
    exact .refl _
  get_eq := by
    rintro p d ⟨rfl, -⟩ k
    rfl
  put_represents := by
    rintro p d k c r ⟨rfl, h⟩ hc hzero hr
    refine ⟨rfl, h.setChunk rfl ?_ (fun _ _ => Iff.rfl) (h.ranked k c hc) fun _ _ => rfl⟩
    refine iff_of_false (h.not_mem_evictable fun c' hc' => ?_) hr
    exact Option.some.inj (hc.symm.trans hc') ▸ hzero
  pin_represents := by
    rintro p d k c r ⟨rfl, h⟩ hc hzero hr
    have hc' : (c.withRef r).refCnt ≠ 0 := hr
    refine (markNonEvictable_returns h hc hzero hc').mono fun _ p' hp' => ?_
    exact ⟨congrArg (fun d => Dict.set d k (c.withRef r)) hp'.1, hp'.2⟩
  unpin_represents := by
    rintro p d k c ⟨rfl, h⟩ hc -
    exact markEvictable_returns h hc rfl
  insert_represents := by
    rintro p d k c ctx ⟨rfl, h⟩ hnone hc
    exact insert_returns h hnone hc
  remove_represents := by
    rintro p d k c ⟨rfl, h⟩ hc
    exact remove_returns h hc
  onStoreMiss_represents keys h := pure_iff.mpr h
  onRequestAccess_represents := by
    rintro p d keys ctx ⟨rfl, h⟩
    exact (onRequestAccess_returns h).mono
      fun _ p' hr => ⟨hr.chunks, h.reranked hr⟩
  onRequestFinished_represents := by
    rintro p d keyGroups inserted reused ctx ⟨rfl, h⟩
    exact (updateRecency_returns h _).mono fun _ p' hr => ⟨hr.chunks, h.reranked hr⟩
  evict_represents := by
    rintro p d n protectedKeys ⟨rfl, h⟩
    exact evict_returns h
  clear_represents p := ⟨rfl, fun _ => iff_of_false not_mem_nil (by rintro ⟨_, h, -⟩; cases h),
    fun _ _ h => by cases h⟩

end Sonar.Offload
