import Mathlib.Algebra.Order.BigOperators.Group.List
import Mathlib.Data.Multiset.Range
import Mathlib.Tactic.Abel
import Sonar.Offload.CPUManager

/-!
# The invariant of the CPU tier

The **pool** of a manager is the dictionary of resident chunks that its policy stands for. The invariant
says that the ids below the allocated count are those in the free list, those of the pool and those
**held** back by a subclass, each once, and that the two counters count the pool.

There is one specification per call. It says what the call does to the pool and that the invariant is
kept, also when the call raises.
-/

namespace Sonar.Offload

open Lib P2P Returns List Dict LawfulPolicy
open Prod (fst snd)
open Multiset (card_add coe_add cons_coe singleton_add)

/-- The resident chunks. -/
abbrev Pool := Dict OffloadKey ChunkStatus

/-- The ids of the resident chunks. -/
def chunkIds (d : Pool) : Multiset ℕ := d.total fun _ c => {c.chunkId}

/-- The number of resident chunks with a reference count. -/
def numWithRef (r : ℤ) (d : Pool) : ℤ := d.total fun _ c => if c.refCnt = r then 1 else 0

variable {d : Pool} {key : OffloadKey} {c : ChunkStatus}

section

variable (h : d.get? key = some c)

include h

private theorem numWithRef_set {c' : ChunkStatus} {r : ℤ} : numWithRef r (d.set key c') =
      numWithRef r d - (if c.refCnt = r then 1 else 0) + if c'.refCnt = r then 1 else 0 := by
  rw [numWithRef, numWithRef, total_set, total_erase _ d key, part_of_get? _ h]
  omega

/-- The count of a reference count, without one chunk. -/
theorem numWithRef_erase (r : ℤ) :
    numWithRef r (d.erase key) = numWithRef r d - if c.refCnt = r then 1 else 0 := by
  rw [numWithRef, numWithRef, total_erase _ d key, part_of_get? _ h]
  omega

private theorem chunkIds_withRef (r : ℤ) : chunkIds (d.set key (c.withRef r)) = chunkIds d := by
  rw [chunkIds, chunkIds, total_set, total_erase _ d key, part_of_get? _ h]
  rfl

/-- The ids, without those of one chunk. -/
theorem chunkIds_erase : chunkIds d = {c.chunkId} + chunkIds (d.erase key) := by
  rw [chunkIds, chunkIds, total_erase _ d key, part_of_get? _ h]

end

private theorem numWithRef_nonneg (r : ℤ) (d : Pool) : 0 ≤ numWithRef r d := by
  refine sum_nonneg fun x hx => ?_
  obtain ⟨e, -, rfl⟩ := mem_map.mp hx
  dsimp only
  split_ifs
  · exact Int.one_nonneg
  · exact le_rfl

/-- No chunk of the pool has more readers than the bound. -/
def AtMost (n : ℕ) (d : Pool) : Prop := ∀ k c, d.get? k = some c → c.refCnt ≤ n

/-- The number of readers of a chunk grows by the given number at most. -/
def Grows (i : ℕ) (d d' : Pool) : Prop := ∀ n, AtMost n d → AtMost (n + i) d'

/-- Nothing is read. -/
theorem Grows.refl : Grows 0 d d := fun _ => id

private theorem Grows.mono {i j : ℕ} {d' : Pool} (h : Grows i d d') (hij : i ≤ j) : Grows j d d' := by
  intro n hn k c hc
  have := h n hn k c hc
  push_cast at this ⊢
  omega

/-- The reads of two calls add up. -/
theorem Grows.trans {i j : ℕ} {d' d'' : Pool} (h : Grows i d d') (h' : Grows j d' d'') :
    Grows (i + j) d d'' := by
  intro n hn
  rw [← add_assoc]
  exact h' _ (h n hn)

/-- One chunk gets as many readers as are allowed. -/
theorem Grows.set {i j : ℕ} {d' : Pool} (h : Grows i d d')
    (hc : ∀ n, AtMost (n + i) d' → c.refCnt ≤ (n + j : ℕ)) (hij : i ≤ j) :
    Grows j d (d'.set key c) := by
  intro n hn k c' hc'
  rw [get?_set] at hc'
  split_ifs at hc'
  · obtain rfl := Option.some.inj hc'
    exact hc n (h n hn)
  · exact h.mono hij n hn k c' hc'

namespace CPUOffloadingManager

variable {π : Type} [CachePolicy π] [LawfulPolicy π]

/-- What holds between calls, for a pool and for the ids that are held back. -/
structure Inv (m : CPUOffloadingManager π) (held : Multiset ℕ) (d : Pool) : Prop where
  represents : Represents m.policy d
  ids : (m.freeList : Multiset ℕ) + held + chunkIds d = Multiset.range m.numAllocatedChunks
  allocated : m.numAllocatedChunks ≤ m.numChunks
  evictable : m.numEvictable = numWithRef 0 d
  writePending : m.numWritePending = numWithRef (-1) d + held.card
  refs : ∀ k c, d.get? k = some c → -1 ≤ c.refCnt

variable {m m' : CPUOffloadingManager π} {held : Multiset ℕ} {d : Pool} {key : OffloadKey}
  {c : ChunkStatus}

/-- A new manager has no chunks. -/
theorem inv_new (numChunks : ℕ) (enableEvents : Bool) (storeThreshold maxTrackerSize : ℕ) :
    (new numChunks enableEvents storeThreshold maxTrackerSize : CPUOffloadingManager π).Inv 0 ∅ where
  represents := new_represents _
  ids := rfl
  allocated := Nat.zero_le _
  evictable := rfl
  writePending := rfl
  refs _ _ h := by cases h

/-- The fields the invariant speaks about, without the policy. -/
def SamePool (m m' : CPUOffloadingManager π) : Prop :=
  m'.numChunks = m.numChunks ∧ m'.numAllocatedChunks = m.numAllocatedChunks ∧
    m'.freeList = m.freeList ∧ m'.numEvictable = m.numEvictable ∧
    m'.numWritePending = m.numWritePending

section

variable (h : m.Inv held d)

include h

/-- Only the pool counts. -/
theorem Inv.same (hsame : SamePool m m')
    (hrep : Represents m'.policy d) : m'.Inv held d := by
  obtain ⟨hchunks, hallocated, hfree, hevictable, hpending⟩ := hsame
  refine ⟨hrep, ?_, ?_, ?_, ?_, h.refs⟩
  · rw [hfree, hallocated]
    exact h.ids
  · rw [hchunks, hallocated]
    exact h.allocated
  · rw [hevictable]
    exact h.evictable
  · rw [hpending]
    exact h.writePending

/-- The policy and the pool agree on every key. -/
theorem Inv.get_eq (key : OffloadKey) :
    CachePolicy.get m.policy key = d.get? key := LawfulPolicy.get_eq h.represents key

/-! ### Requests -/

/-- A record is no part of the pool. -/
protected theorem Inv.getRequestCacheAccess (ctx : ReqContext) :
    Returns (getRequestCacheAccess ctx) m fun _ m' => m'.Inv held d := by
  rw [getRequestCacheAccess, bind_iff, get_iff]
  split
  · exact pure_iff.mpr h
  · rw [bind_iff, set_iff, pure_iff]
    exact h.same ⟨rfl, rfl, rfl, rfl, rfl⟩ h.represents

variable {ctx : ReqContext} {state : RequestCacheAccess} {insertedKeys reusedKeys : List OffloadKey}

private theorem Inv.setAccess : Returns (setAccess ctx state) m fun _ m' => m'.Inv held d :=
  modify_iff.mpr (h.same ⟨rfl, rfl, rfl, rfl, rfl⟩ h.represents)

private theorem Inv.policyCall {call : PolicyM π PUnit}
    (hcall : Returns call m.policy fun _ p => Represents p d) :
    Returns (policyCall call) m fun _ m' => m'.Inv held d :=
  zoom_iff.mpr (hcall.mono fun _ _ hp => h.same ⟨rfl, rfl, rfl, rfl, rfl⟩ hp)

/-- Recording an access changes the policy's order at most, even if it fails. -/
protected theorem Inv.recordRequestCacheAccess {keys : List OffloadKey}
    : Ends (recordRequestCacheAccess keys ctx insertedKeys reusedKeys) m
      (fun _ m' => m'.Inv held d) fun m' => m'.Inv held d := by
  rw [recordRequestCacheAccess, Ends.bind_iff]
  refine .of_returns ((h.getRequestCacheAccess ctx).mono fun state m1 h1 => ?_)
  cases observeKeys state [] keys with
  | error e => exact h1
  | ok out =>
    dsimp only
    split_ifs
    · exact .of_returns h1.setAccess
    · refine .of_returns (bind_iff.mpr ?_)
      refine (h1.policyCall (onRequestAccess_represents _ ctx h1.represents)).mono ?_
      exact fun _ m2 h2 => h2.setAccess

end

/-- The access state of a request is not finished. -/
def Live (m : CPUOffloadingManager π) (ctx : ReqContext) : Prop :=
  ∀ state, m.accesses.get? ctx.ident = some state → state.cacheGeneration = m.cacheGeneration →
    state.finished = false

omit [CachePolicy π] [LawfulPolicy π] in
/-- A request that has not ended gets a record that is open. -/
protected theorem Live.getRequestCacheAccess (h : m.Live ctx) :
    Returns (getRequestCacheAccess ctx) m fun state _ => state.finished = false := by
  rw [getRequestCacheAccess, bind_iff, get_iff]
  split
  next state hstate =>
    obtain ⟨hget, hgeneration⟩ := Option.filter_eq_some_iff.mp hstate
    exact pure_iff.mpr (h state hget (of_decide_eq_true hgeneration))
  next => exact bind_iff.mpr (set_iff.mpr (pure_iff.mpr rfl))

/-- New keys may be observed until the request is finished. -/
private theorem observeKeys_ok (h : state.finished = false)
    (newKeys keys : List OffloadKey) : ∃ out, observeKeys state newKeys keys = .ok out := by
  induction keys generalizing state newKeys with
  | nil => exact ⟨_, rfl⟩
  | cons key keys ih =>
    rw [observeKeys]
    by_cases hseen : key ∈ state.seenKeys
    · rw [if_pos hseen]
      exact ih h newKeys
    · rw [if_neg hseen, if_neg (h ▸ Bool.false_ne_true)]
      refine ih ?_ _
      exact h

section

variable (h : m.Inv held d)

include h

/-- An access is recorded for a request that is not finished. -/
theorem recordRequestCacheAccess_returns (hlive : m.Live ctx) {keys : List OffloadKey} :
    Returns (recordRequestCacheAccess keys ctx insertedKeys reusedKeys) m
      fun _ m' => m'.Inv held d := by
  rw [recordRequestCacheAccess, bind_iff]
  obtain ⟨state, m1, hrun, hstate⟩ := hlive.getRequestCacheAccess
  obtain ⟨_, _, hrun', h1⟩ := h.getRequestCacheAccess ctx
  obtain ⟨-, rfl⟩ := Prod.mk.inj (hrun.symm.trans hrun')
  refine ⟨state, m1, hrun, ?_⟩
  obtain ⟨out, hout⟩ := observeKeys_ok hstate [] keys
  rw [hout]
  dsimp only
  split_ifs
  · exact h1.setAccess
  · rw [bind_iff]
    refine (h1.policyCall (onRequestAccess_represents _ ctx h1.represents)).mono ?_
    exact fun _ m2 h2 => h2.setAccess

/-- The end of a request changes the policy's order only. -/
protected theorem Inv.onRequestFinished : Returns (onRequestFinished ctx) m fun _ m' => m'.Inv held d := by
  rw [onRequestFinished, bind_iff, get_iff]
  split
  · exact pure_iff.mpr h
  · rw [bind_iff]
    refine h.setAccess.mono fun _ m' h' => ?_
    exact h'.policyCall (onRequestFinished_represents _ _ _ ctx h'.represents)

/-! ### Readers -/

/-- The reference count of one chunk changes; the counters follow. -/
private theorem Inv.withRef (hc : d.get? key = some c) {r : ℤ} (hr : -1 ≤ r)
    (hsame : m'.numChunks = m.numChunks ∧ m'.numAllocatedChunks = m.numAllocatedChunks ∧
      m'.freeList = m.freeList)
    (hrep : Represents m'.policy (d.set key (c.withRef r)))
    (hevictable : m'.numEvictable =
      m.numEvictable - (if c.refCnt = 0 then 1 else 0) + if r = 0 then 1 else 0)
    (hpending : m'.numWritePending =
      m.numWritePending - (if c.refCnt = -1 then 1 else 0) + if r = -1 then 1 else 0) :
    m'.Inv held (d.set key (c.withRef r)) := by
  obtain ⟨hchunks, hallocated, hfree⟩ := hsame
  refine ⟨hrep, ?_, ?_, ?_, ?_, fun k c' hk => ?_⟩
  · rw [hfree, hallocated, chunkIds_withRef hc r]
    exact h.ids
  · rw [hchunks, hallocated]
    exact h.allocated
  · rw [hevictable, numWithRef_set hc, h.evictable]
    rfl
  · rw [hpending, numWithRef_set hc, h.writePending]
    change _ = _ - _ + (if r = -1 then 1 else 0) + _
    omega
  · rw [get?_set] at hk
    split_ifs at hk with heq
    · exact Option.some.inj hk ▸ hr
    · exact h.refs k c' hk

/-- The fields that the record of accesses needs. -/
def SameAccesses (m m' : CPUOffloadingManager π) : Prop :=
  m'.accesses = m.accesses ∧ m'.cacheGeneration = m.cacheGeneration

/-- One more reader of a chunk that is written, or an error that changes nothing. -/
protected theorem Inv.prepareLoadKey : Ends (prepareLoadKey key) m
      (fun ids m' => ∃ c, d.get? key = some c ∧ 0 ≤ c.refCnt ∧ ids = [c.chunkId] ∧
        m'.Inv held (d.set key (c.withRef (c.refCnt + 1))) ∧ SameAccesses m m')
      fun m' => (∀ c, d.get? key = some c → c.refCnt < 0) ∧ m'.Inv held d := by
  rw [prepareLoadKey, Ends.bind_iff, Ends.get_iff, h.get_eq]
  cases hc : d.get? key with
  | none => exact ⟨fun c hnone => (nomatch hnone), h⟩
  | some c =>
    dsimp only
    rw [ChunkStatus.isReady]
    by_cases hready : 0 ≤ c.refCnt
    · rw [decide_eq_true hready, if_neg (by decide)]
      by_cases hzero : c.refCnt = 0
      · -- The chunk was idle, so the counter is positive.
        rw [if_pos hzero, Ends.bind_iff]
        refine .of_returns (zoom_iff.mpr ?_)
        have hpos : 0 < numWithRef 0 d := by
          have herase := numWithRef_erase hc 0
          have hnonneg := numWithRef_nonneg 0 (d.erase key)
          omega
        have hone : c.refCnt + 1 ≠ 0 := by omega
        refine (pin_represents h.represents hc hzero hone).mono fun _ p hp => ?_
        rw [Ends.bind_iff, Ends.modify_iff, Ends.bind_iff, Ends.get_iff, if_neg ?_]
        · refine ⟨c, rfl, hready, rfl, h.withRef hc (by omega) ⟨rfl, rfl, rfl⟩ hp ?_ ?_, rfl, rfl⟩
          · change m.numEvictable - 1 = _
            omega
          · change m.numWritePending = _
            omega
        · rw [← h.evictable] at hpos
          change ¬m.numEvictable - 1 < 0
          omega
      · rw [if_neg hzero]
        have hone : c.refCnt + 1 ≠ 0 := by omega
        have hp := put_represents h.represents hc hzero hone
        refine ⟨c, rfl, hready, rfl, h.withRef hc (by omega) ⟨rfl, rfl, rfl⟩ hp ?_ ?_, rfl, rfl⟩
        · change m.numEvictable = _
          omega
        · change m.numWritePending = _
          omega
    · rw [decide_eq_false hready]
      refine ⟨fun c' hc' => ?_, h⟩
      obtain rfl := Option.some.inj hc'
      exact not_le.mp hready

/-- One reader less, or an error that changes nothing. -/
protected theorem Inv.completeLoadKey : Ends (completeLoadKey key) m
      (fun _ m' => ∃ c, d.get? key = some c ∧ 0 < c.refCnt ∧
        m'.Inv held (d.set key (c.withRef (c.refCnt - 1))))
      fun m' => (∀ c, d.get? key = some c → c.refCnt ≤ 0) ∧ m'.Inv held d := by
  rw [completeLoadKey, Ends.bind_iff, Ends.get_iff, h.get_eq]
  cases hc : d.get? key with
  | none => exact ⟨fun c hnone => (nomatch hnone), h⟩
  | some c =>
    dsimp only
    by_cases hpos : c.refCnt ≤ 0
    · rw [if_pos hpos]
      refine ⟨fun c' hc' => ?_, h⟩
      obtain rfl := Option.some.inj hc'
      exact hpos
    · rw [if_neg hpos, Ends.bind_iff, putChunk, Ends.modify_iff]
      have hzero : c.refCnt ≠ 0 := by omega
      by_cases hlast : c.refCnt - 1 = 0
      · -- The last reader is done.
        rw [if_pos hlast, Ends.bind_iff, Ends.modify_iff]
        refine .of_returns (zoom_iff.mpr ?_)
        rw [hlast]
        refine (unpin_represents h.represents hc hzero).mono fun _ p hp => ?_
        rw [← hlast] at hp
        refine ⟨c, rfl, by omega, h.withRef hc (by omega) ⟨rfl, rfl, rfl⟩ hp ?_ ?_⟩
        · change m.numEvictable + 1 = _
          omega
        · change m.numWritePending = _
          omega
      · rw [if_neg hlast]
        have hp := put_represents h.represents hc hzero hlast
        refine ⟨c, rfl, by omega, h.withRef hc (by omega) ⟨rfl, rfl, rfl⟩ hp ?_ ?_⟩
        · change m.numEvictable = _
          omega
        · change m.numWritePending = _
          omega

/-- A load adds one reader at most for each of its keys. -/
protected theorem Inv.prepareLoadWith {recordAccess : Bool} {keys : List OffloadKey} :
    Ends (prepareLoadWith recordAccess keys ctx) m
      (fun _ m' => ∃ d', m'.Inv held d' ∧ Grows keys.length d d')
      fun m' => ∃ d', m'.Inv held d' ∧ Grows keys.length d d' := by
  rw [prepareLoadWith, Ends.bind_iff]
  refine (Ends.collect (P := fun l _ m' => ∃ d' i, m'.Inv held d' ∧ Grows i d d' ∧
    i + l.length = keys.length) ?_ ⟨d, 0, h, .refl, zero_add _⟩).mono ?_ fun _ hE => hE
  · rintro key l ids m1 ⟨d1, i, h1, hgrows, hi⟩
    rw [length_cons] at hi
    refine h1.prepareLoadKey.mono ?_ fun m2 h2 => ⟨d1, h2.2, hgrows.mono (by omega)⟩
    rintro ids' m2 ⟨c, hc, -, -, h2, -⟩
    refine ⟨_, i + 1, h2, hgrows.set (fun n hn => ?_) (Nat.le_succ i), by omega⟩
    have := hn key c hc
    rw [ChunkStatus.withRef_refCnt]
    push_cast
    omega
  · rintro ids m1 ⟨d1, i, h1, hgrows, hi⟩
    have hgrows := hgrows.mono (j := keys.length) (by omega)
    split_ifs
    · rw [Ends.bind_iff]
      exact h1.recordRequestCacheAccess.mono (fun _ m2 h2 => ⟨d1, h2, hgrows⟩)
        fun m2 h2 => ⟨d1, h2, hgrows⟩
    · exact ⟨d1, h1, hgrows⟩

/-- Loads that end add no readers, also up to an error. -/
theorem Inv.completeLoad {keys : List OffloadKey} :
    Ends (completeLoad keys) m (fun _ m' => ∃ d', m'.Inv held d' ∧ Grows 0 d d')
      fun m' => ∃ d', m'.Inv held d' ∧ Grows 0 d d' := by
  refine Ends.forAll (P := fun _ (m' : CPUOffloadingManager π) => ∃ d', m'.Inv held d' ∧ Grows 0 d d')
    ?_ ⟨d, h, .refl⟩
  rintro key l m1 ⟨d1, h1, hgrows⟩
  refine h1.completeLoadKey.mono ?_ fun m2 h2 => ⟨d1, h2.2, hgrows⟩
  rintro _ m2 ⟨c, hc, -, h2⟩
  refine ⟨_, h2, hgrows.set (fun n hn => ?_) le_rfl⟩
  have := hn key c hc
  rw [ChunkStatus.withRef_refCnt]
  omega

/-! ### The end of a store -/

/-- The pending chunk of a key becomes readable. -/
def storeAt (d : Pool) (key : OffloadKey) : Pool :=
  match (d.get? key).filter fun chunk => !chunk.isReady with
  | some chunk => d.set key (chunk.withRef 0)
  | none => d

/-- The pending chunk of a key is dropped. -/
def dropAt (d : Pool) (key : OffloadKey) : Pool :=
  match (d.get? key).filter fun chunk => !chunk.isReady with
  | some _ => d.erase key
  | none => d

/-- A chunk that is not ready is being written. -/
theorem Inv.pending (hc : (d.get? key).filter (fun chunk => !chunk.isReady) = some c) :
    d.get? key = some c ∧ c.refCnt = -1 := by
  obtain ⟨hget, hready⟩ := Option.filter_eq_some_iff.mp hc
  rw [ChunkStatus.isReady, Bool.not_eq_true', decide_eq_false_iff_not] at hready
  have := h.refs key c hget
  exact ⟨hget, by omega⟩

/-- A chunk whose write ends can be read. -/
protected theorem Inv.storeKey :
    Returns (storeKey key) m fun _ m' => m'.Inv held (storeAt d key) := by
  rw [storeKey, bind_iff, get_iff, h.get_eq, storeAt]
  cases hc : (d.get? key).filter fun chunk => !chunk.isReady with
  | none => exact pure_iff.mpr h
  | some c =>
    obtain ⟨hget, hpending⟩ := h.pending hc
    have hzero : c.refCnt ≠ 0 := by omega
    rw [bind_iff, putChunk, modify_iff, bind_iff, modify_iff, bind_iff]
    refine zoom_iff.mpr ?_
    refine (unpin_represents h.represents hget hzero).mono fun _ p hp => ?_
    refine pure_iff.mpr (h.withRef hget (by decide) ⟨rfl, rfl, rfl⟩ hp ?_ ?_)
    · rw [if_neg hzero, if_pos rfl, sub_zero]
    · rw [if_pos hpending, if_neg (by decide), add_zero]

/-- A chunk whose write fails is dropped. -/
protected theorem Inv.dropKey : Returns (dropKey key) m fun _ m' => m'.Inv held (dropAt d key) := by
  rw [dropKey, bind_iff, get_iff, h.get_eq, dropAt]
  cases hc : (d.get? key).filter fun chunk => !chunk.isReady with
  | none => exact pure_iff.mpr h
  | some c =>
    obtain ⟨hget, hpending⟩ := h.pending hc
    rw [bind_iff, modify_iff, bind_iff]
    refine zoom_iff.mpr ?_
    refine (remove_represents h.represents hget).mono fun _ p hp => ?_
    rw [bind_iff, modify_iff, pure_iff]
    refine ⟨hp, ?_, h.allocated, ?_, ?_, fun k c' hk => ?_⟩
    · -- The id goes from the pool to the free list.
      rw [← h.ids, chunkIds_erase hget, ← coe_add, Multiset.coe_singleton]
      abel
    · rw [numWithRef_erase hget 0, if_neg (by omega), h.evictable, sub_zero]
    · change m.numWritePending - 1 = _
      rw [numWithRef_erase hget (-1), h.writePending]
      omega
    · rw [get?_erase] at hk
      split_ifs at hk
      exact h.refs k c' hk

/-- What a completed store does to the pool. -/
def completeAt (d : Pool) (keys : List OffloadKey) (success : Bool) : Pool :=
  if success then keys.foldl storeAt d else keys.foldl dropAt d

omit h [CachePolicy π] [LawfulPolicy π] in
/-- A completed store adds no reader. -/
theorem grows_completeAt {keys : List OffloadKey} {success : Bool} :
    Grows 0 d (completeAt d keys success) := by
  have hfold : ∀ g : Pool → OffloadKey → Pool, (∀ d k, Grows 0 d (g d k)) →
      Grows 0 d (keys.foldl g d) := by
    intro g hg
    induction keys generalizing d with
    | nil => exact .refl
    | cons k keys ih => exact (hg d k).trans ih
  rw [completeAt]
  split_ifs
  · refine hfold _ fun d k => ?_
    rw [storeAt]
    split
    · exact Grows.refl.set (fun n _ => Int.natCast_nonneg n) le_rfl
    · exact .refl
  · refine hfold _ fun d k => ?_
    rw [dropAt]
    split
    · intro n hn k' c' hc'
      rw [get?_erase] at hc'
      split_ifs at hc'
      exact hn k' c' hc'
    · exact .refl

/-- All writes of a call end, or all fail. -/
protected theorem Inv.completeStore {keys : List OffloadKey} {success : Bool} :
    Returns (completeStore keys ctx success) m fun _ m' => m'.Inv held (completeAt d keys success) := by
  -- An event is the only thing left after the loop.
  have hevent : ∀ {m1 : CPUOffloadingManager π} {d1 : Pool} (removed : List OffloadKey)
      event, m1.Inv held d1 →
      (if removed.isEmpty then m1 else m1.addEvent event).Inv held d1 := by
    intro m1 d1 removed event h1
    split_ifs
    · exact h1
    · exact h1.same ⟨rfl, rfl, rfl, rfl, rfl⟩ h1.represents
  have hloop : ∀ (f : OffloadKey → ManagerM π (List OffloadKey)) g,
      (∀ m1 d1 key, Inv m1 held d1 → Returns (f key) m1 fun _ m2 => m2.Inv held (g d1 key)) →
      Returns (collect f keys) m fun _ m' => m'.Inv held (keys.foldl g d) := by
    intro f g hf
    refine collect (P := fun l _ m1 => ∃ d1, l.foldl g d1 = keys.foldl g d ∧ m1.Inv held d1)
      ?_ ⟨d, rfl, h⟩ |>.mono ?_
    · rintro key l out m1 ⟨d1, hfold, h1⟩
      exact (hf m1 d1 key h1).mono fun _ m2 h2 => ⟨_, hfold, h2⟩
    · rintro _ m1 ⟨d1, hfold, h1⟩
      exact hfold ▸ h1
  rw [completeStore]
  cases success with
  | true =>
    rw [if_pos rfl, bind_iff]
    refine (hloop _ _ fun m1 d1 key h1 => h1.storeKey).mono fun stored m1 h1 => ?_
    exact modify_iff.mpr (hevent stored _ h1)
  | false =>
    rw [if_neg (by decide), bind_iff]
    refine (hloop _ _ fun m1 d1 key h1 => h1.dropKey).mono fun removed m1 h1 => ?_
    exact modify_iff.mpr (hevent removed _ h1)

/-! ### The start of a store -/

/-- What is stored is a part of the offer that is not resident. -/
protected theorem Inv.keysToStore (keys : List OffloadKey) :
    (m.keysToStore keys).Sublist keys ∧ ∀ k ∈ m.keysToStore keys, d.get? k = none := by
  have hsub : (m.keysToStore keys).Sublist (m.storeCandidates keys) := by
    rw [keysToStore]
    split
    · exact filter_sublist
    · exact .refl _
  refine ⟨hsub.trans filter_sublist, fun k hk => ?_⟩
  have hmem := (mem_filter.mp (hsub.subset hk)).2
  rw [h.get_eq] at hmem
  exact Option.isNone_iff_eq_none.mp hmem

/-- The keys to store are new. -/
protected theorem Inv.admitKeys {keys : List OffloadKey} : Ends (admitKeys keys ctx) m
      (fun toStore m' => (toStore.Sublist keys ∧ ∀ k ∈ toStore, d.get? k = none) ∧ m'.Inv held d)
      fun m' => m'.Inv held d := by
  have h1 : Inv { m with counts := m.counts.map (recordAccesses m.maxTrackerSize · keys) } held d :=
    h.same ⟨rfl, rfl, rfl, rfl, rfl⟩ h.represents
  rw [admitKeys, Ends.bind_iff, Ends.modify_iff, Ends.bind_iff, Ends.get_iff]
  generalize ({ m with counts := m.counts.map (recordAccesses m.maxTrackerSize · keys) }) = m1 at h1 ⊢
  have hstore := h1.keysToStore keys
  dsimp only
  generalize m1.keysToStore keys = toStore at hstore ⊢
  rw [Ends.bind_iff, Ends.set_iff, Ends.bind_iff]
  have h2 : Inv { m1 with storesSkippedInCurrentBatch :=
      m1.storesSkippedInCurrentBatch + ((m1.storeCandidates keys).length - toStore.length) } held d :=
    h1.same ⟨rfl, rfl, rfl, rfl, rfl⟩ h1.represents
  refine .of_returns ((h2.getRequestCacheAccess ctx).mono fun state m3 h3 => ?_)
  have hrecord : ∀ {m4 : CPUOffloadingManager π} (recorded reused : List OffloadKey), m4.Inv held d →
      Ends (do recordRequestCacheAccess recorded ctx [] reused; pure toStore) m4
        (fun toStore m' => (toStore.Sublist keys ∧ ∀ k ∈ toStore, d.get? k = none) ∧ m'.Inv held d)
        fun m' => m'.Inv held d := by
    intro m4 recorded reused h4
    rw [Ends.bind_iff]
    exact h4.recordRequestCacheAccess.mono (fun _ m' h' => ⟨hstore, h'⟩)
      fun _ h' => h'
  split_ifs
  · exact hrecord _ _ h3
  · rw [Ends.bind_iff]
    refine .of_returns ((h3.policyCall
      (onStoreMiss_represents _ h3.represents)).mono fun _ m4 h4 => ?_)
    rw [Ends.bind_iff]
    exact .of_returns (h4.setAccess.mono fun _ m5 h5 => hrecord _ _ h5)

end

/-! ### Room for a store -/

/-- What the evicted chunks contribute is taken from a total. -/
theorem total_eraseAll {M : Type*} [AddCommMonoid M] (f : OffloadKey → ChunkStatus → M)
    {l : List (OffloadKey × ChunkStatus)} (hnodup : (l.map fst).Nodup)
    (hget : ∀ e ∈ l, d.get? e.1 = some e.2) :
    d.total f = (l.map fun e => f e.1 e.2).sum + (eraseAll d l).total f := by
  induction l generalizing d with
  | nil => exact (zero_add _).symm
  | cons e l ih =>
    rw [map_cons, nodup_cons] at hnodup
    have hrest : ∀ e' ∈ l, (d.erase e.1).get? e'.1 = some e'.2 := by
      intro e' he'
      rw [get?_erase_of_ne]
      · exact hget e' (.tail _ he')
      · exact fun heq => hnodup.1 (heq ▸ mem_map_of_mem he')
    rw [total_erase f d e.1, part_of_get? f (hget e (.head _)),
      ih hnodup.2 hrest, map_cons, sum_cons, add_assoc]
    rfl

/-- The ids of a list of chunks. -/
theorem sum_ids (l : List (OffloadKey × ChunkStatus)) :
    (l.map fun e => ({e.2.chunkId} : Multiset ℕ)).sum = (l.map fun e => e.2.chunkId) := by
  induction l with
  | nil => rfl
  | cons e l ih =>
    rw [map_cons, sum_cons, ih, map_cons, ← cons_coe, singleton_add]

variable {l : List (OffloadKey × ℕ)} {keys toStore : List OffloadKey}

private theorem Inv.evicted {n : ℕ} {l : List (OffloadKey × ChunkStatus)} {p : π}
    (h : m.Inv held d) (hl : Evicts n keys d l)
    (hp : Represents p (eraseAll d l)) : ({ m with
      policy := p
      numEvictable := m.numEvictable - l.length
      freeList := m.freeList ++ l.map fun e => e.2.chunkId } : CPUOffloadingManager π).Inv held
      (eraseAll d l) ∧ 0 ≤ m.numEvictable - l.length := by
  obtain ⟨-, hnodup, hidle⟩ := hl
  have hget : ∀ e ∈ l, d.get? e.1 = some e.2 := fun e he => (hidle e he).1
  -- Each evicted chunk counts once among the idle ones, and not among those being written.
  have hcount : ∀ r : ℤ, (l.map fun e => if e.2.refCnt = r then (1) else 0).sum =
      if r = 0 then (l.length : ℤ) else 0 := by
    intro r
    rw [map_congr_left fun e he => by rw [(hidle e he).2.1]]
    by_cases hr : r = 0
    · rw [if_pos hr, if_pos hr.symm, map_const', sum_replicate, nsmul_one]
    · rw [if_neg hr, if_neg (Ne.symm hr), map_const', sum_replicate, nsmul_zero]
  have htotal := fun r => (total_eraseAll (fun _ c => if c.refCnt = r then (1) else 0) hnodup
    hget).trans (congrArg (· + _) (hcount r))
  have hzero : numWithRef 0 d = l.length + numWithRef 0 (eraseAll d l) := htotal 0
  have hwrite : numWithRef (-1) d = 0 + numWithRef (-1) (eraseAll d l) := htotal (-1)
  refine ⟨⟨hp, ?_, h.allocated, ?_, ?_, fun k c hk => ?_⟩, ?_⟩
  · have hids : chunkIds d = (l.map fun e => e.2.chunkId) + chunkIds (eraseAll d l) := by
      rw [chunkIds, total_eraseAll (fun _ c => ({c.chunkId} : Multiset ℕ)) hnodup hget, sum_ids]
      rfl
    rw [← h.ids, hids, ← coe_add]
    abel
  · change m.numEvictable - l.length = _
    rw [h.evictable]
    omega
  · rw [h.writePending, hwrite, zero_add]
  · rw [get?_eraseAll] at hk
    split_ifs at hk
    exact h.refs k c hk
  · have hnonneg := numWithRef_nonneg 0 (eraseAll d l)
    rw [h.evictable]
    omega

/-- `none` leaves the pool, and evicted chunks leave room for the keys to store. -/
protected theorem Inv.makeRoom (h : m.Inv held d) :
    Returns (makeRoom keys toStore) m fun r m' => match r with
      | none => m'.Inv held d
      | some toEvict => ∃ l, Evicts l.length keys d l ∧ toEvict = l.map fst ∧
          m'.Inv held (eraseAll d l) ∧ toStore.length ≤ m'.getNumFreeChunks := by
  rw [makeRoom, bind_iff, modify_iff, bind_iff, get_iff]
  have h1 : Inv { m with allocationSizesInCurrentBatch :=
      m.allocationSizesInCurrentBatch ++ [toStore.length] } held d :=
    h.same ⟨rfl, rfl, rfl, rfl, rfl⟩ h.represents
  generalize ({ m with allocationSizesInCurrentBatch :=
      m.allocationSizesInCurrentBatch ++ [toStore.length] }) = m1 at h1 ⊢
  dsimp only
  split_ifs with hroom hfew
  · refine pure_iff.mpr ⟨[], ⟨rfl, nodup_nil, ?_⟩, rfl, h1, by omega⟩
    exact nofun
  · exact pure_iff.mpr h1
  · rw [bind_iff]
    refine zoom_iff.mpr ((evict_represents _ keys h1.represents).mono ?_)
    intro r p hp
    cases r with
    | none => exact pure_iff.mpr (h1.same ⟨rfl, rfl, rfl, rfl, rfl⟩ hp)
    | some l =>
      obtain ⟨hevicts, hp⟩ := hp
      obtain ⟨h2, hnonneg⟩ := h1.evicted hevicts hp
      have hlen := hevicts.1
      rw [bind_iff, modify_iff, bind_iff, get_iff,
        if_neg (not_lt.mpr hnonneg), bind_iff, set_iff, pure_iff]
      refine ⟨l, hlen ▸ hevicts, rfl, h2, ?_⟩
      have hallocated := h1.allocated
      change toStore.length ≤ (m1.freeList ++ l.map fun e => e.2.chunkId).length + m1.numChunks -
        m1.numAllocatedChunks
      rw [length_append, length_map, hlen, getNumFreeChunks]
      omega

/-- Ids that are allocated leave the free list, or are fresh. -/
protected theorem Inv.allocateChunks (h : m.Inv held d) (hroom : toStore.length ≤ m.getNumFreeChunks) :
    Returns (allocateChunks toStore) m fun chunks m' => ∃ ids : List ℕ,
      chunks = ids.map (fun chunkId => { chunkId }) ∧ ids.length = toStore.length ∧
      m'.freeList + held + ids + chunkIds d = Multiset.range m'.numAllocatedChunks ∧
      m'.numAllocatedChunks ≤ m'.numChunks ∧ m'.policy = m.policy ∧
      m'.numEvictable = m.numEvictable ∧ m'.numWritePending = m.numWritePending := by
  have hallocated := h.allocated
  rw [getNumFreeChunks] at hroom
  rw [allocateChunks, bind_iff, get_iff]
  generalize hfresh : min toStore.length (m.numChunks - m.numAllocatedChunks) = numFresh
  rw [if_neg (by omega), bind_iff, set_iff, pure_iff]
  refine ⟨_, rfl, ?_, ?_, ?_, rfl, rfl, rfl⟩
  · rw [length_append, length_range', length_reverse, length_drop]
    omega
  · generalize m.freeList.length - (toStore.length - numFresh) = numKept
    have hsplit : (m.freeList : Multiset ℕ) =
        (m.freeList.take numKept) + (m.freeList.drop numKept) := by
      rw [coe_add, take_append_drop]
    have hrange : Multiset.range (m.numAllocatedChunks + numFresh) =
        Multiset.range m.numAllocatedChunks + (range' m.numAllocatedChunks numFresh) := by
      rw [Multiset.range, Multiset.range, coe_add, range_add, range'_eq_map_range]
    rw [hrange, ← h.ids, hsplit, ← coe_add, Multiset.coe_reverse]
    abel
  · change m.numAllocatedChunks + numFresh ≤ m.numChunks
    omega

/-- Keys get new chunks, which are being written. -/
def insertAll (d : Pool) (l : List (OffloadKey × ℕ)) : Pool :=
  l.foldl (fun d e => d.set e.1 { chunkId := e.2 }) d

/-- Other keys are as before. -/
theorem get?_insertAll_of_notMem {k : OffloadKey}
    (hk : k ∉ l.map fst) (d : Pool) : (insertAll d l).get? k = d.get? k := by
  induction l generalizing d with
  | nil => rfl
  | cons e l ih =>
    rw [map_cons, mem_cons, not_or] at hk
    exact (ih hk.2 _).trans (get?_set_of_ne hk.1)

section

variable (hnodup : (l.map fst).Nodup)

include hnodup

private theorem get?_insertAll_of_mem {e : OffloadKey × ℕ} (he : e ∈ l) (d : Pool) :
    (insertAll d l).get? e.1 = some { chunkId := e.2 } := by
  induction l generalizing d with
  | nil => cases he
  | cons e' l ih =>
    rw [map_cons, nodup_cons] at hnodup
    rcases mem_cons.mp he with rfl | he
    · exact (get?_insertAll_of_notMem hnodup.1 _).trans (get?_set_self _ _ _)
    · exact ih hnodup.2 he _

/-- A sum over the pool after insertions. -/
theorem total_insertAll {M : Type*} [AddCommMonoid M] {f : OffloadKey → ChunkStatus → M}
    (hnone : ∀ e ∈ l, d.get? e.1 = none) :
    (insertAll d l).total f = (l.map fun e => f e.1 { chunkId := e.2 }).sum + d.total f := by
  induction l generalizing d with
  | nil => exact (zero_add _).symm
  | cons e l ih =>
    rw [map_cons, nodup_cons] at hnodup
    have hrest : ∀ e' ∈ l, (d.set e.1 { chunkId := e.2 }).get? e'.1 = none := by
      intro e' he'
      rw [get?_set_of_ne]
      · exact hnone e' (.tail _ he')
      · exact fun heq => hnodup.1 (heq ▸ mem_map_of_mem he')
    refine (ih hnodup.2 hrest).trans ?_
    rw [total_set, erase_of_get?_none (hnone e (.head _)), map_cons, sum_cons]
    abel

private theorem insert_represents_all (hnone : ∀ e ∈ l, d.get? e.1 = none)
    (hrep : Represents m.policy d) : Returns (forAll (fun e : OffloadKey × ChunkStatus =>
        policyCall (CachePolicy.insert e.1 e.2 ctx)) (l.map fun e => (e.1, { chunkId := e.2 })))
      m fun _ m' => ∃ p, m' = { m with policy := p } ∧ Represents p (insertAll d l) := by
  induction l generalizing d m with
  | nil => exact pure_iff.mpr ⟨m.policy, rfl, hrep⟩
  | cons e l ih =>
    rw [map_cons, nodup_cons] at hnodup
    rw [map_cons, Lib.forAll, bind_iff]
    have hwriting : ({ chunkId := e.2 } : ChunkStatus).refCnt ≠ 0 := (by decide : (-1) ≠ 0)
    refine zoom_iff.mpr ((insert_represents ctx hrep
      (hnone e (.head _)) hwriting).mono fun _ p hp => ?_)
    refine (ih hnodup.2 (fun e' he' => ?_) hp).mono ?_
    · rw [get?_set_of_ne]
      · exact hnone e' (.tail _ he')
      · exact fun heq => hnodup.1 (heq ▸ mem_map_of_mem he')
    · rintro _ m' ⟨p', rfl, hp'⟩
      exact ⟨p', rfl, hp'⟩

end

/-- Each key gets an id of its own, and the chunk is being written. -/
protected theorem Inv.insertChunks (h : m.Inv held d)
    (hnodup : toStore.Nodup) (hnone : ∀ k ∈ toStore, d.get? k = none)
    (hroom : toStore.length ≤ m.getNumFreeChunks) :
    Returns (insertChunks toStore ctx) m fun ids m' => ∃ l : List (OffloadKey × ℕ),
      l.map fst = toStore ∧ l.map snd = ids ∧ m'.Inv held (insertAll d l) := by
  rw [insertChunks, bind_iff]
  refine (h.allocateChunks hroom).mono ?_
  rintro _ m1 ⟨ids, rfl, hlen, hids, hallocated, hpolicy, hevictable, hpending⟩
  rw [length_map, if_neg (not_not.mpr hlen), bind_iff]
  have hzip : (toStore.zip (ids.map fun chunkId => ({ chunkId } : ChunkStatus))) =
      (toStore.zip ids).map fun e => (e.1, { chunkId := e.2 }) := by
    rw [zip_map_right]
    rfl
  have hfst : (toStore.zip ids).map fst = toStore := map_fst_zip hlen.ge
  have hsnd : (toStore.zip ids).map snd = ids := map_snd_zip hlen.le
  have hnodup' : ((toStore.zip ids).map fst).Nodup := hfst.symm ▸ hnodup
  have hnone' : ∀ e ∈ toStore.zip ids, d.get? e.1 = none := fun e he =>
    hnone e.1 (hfst ▸ mem_map_of_mem he)
  rw [hzip]
  refine (insert_represents_all hnodup' hnone' (hpolicy ▸ h.represents)).mono ?_
  rintro _ _ ⟨p, rfl, hp⟩
  have hinv : Inv { m1 with policy := p, numWritePending := m1.numWritePending + toStore.length } held
      (insertAll d (toStore.zip ids)) := by
    refine ⟨hp, ?_, hallocated, ?_, ?_, fun k c hk => ?_⟩
    · rw [← hids, chunkIds, total_insertAll hnodup' hnone']
      have hsum : ∀ l : List (OffloadKey × ℕ),
          (l.map fun e => ({e.2} : Multiset ℕ)).sum = (l.map snd) := by
        intro l
        induction l with
        | nil => rfl
        | cons e l ih =>
          rw [map_cons, sum_cons, ih, map_cons, ← cons_coe, singleton_add]
      rw [hsum, hsnd]
      abel
    · rw [hevictable, h.evictable, numWithRef, numWithRef, total_insertAll hnodup' hnone']
      simp
    · rw [hpending, h.writePending, numWithRef, numWithRef, total_insertAll hnodup' hnone']
      have hcount : ((toStore.zip ids).map fun _ => (1 : ℤ)).sum = toStore.length := by
        rw [map_const', sum_replicate, nsmul_one, ← length_map, hfst]
      simp only [if_true]
      omega
    · by_cases hmem : k ∈ (toStore.zip ids).map fst
      · obtain ⟨e, he, rfl⟩ := mem_map.mp hmem
        rw [get?_insertAll_of_mem hnodup' he] at hk
        exact Option.some.inj hk ▸ le_rfl
      · rw [get?_insertAll_of_notMem hmem] at hk
        exact h.refs k c hk
  rw [bind_iff, modify_iff, bind_iff]
  refine (hinv.getRequestCacheAccess ctx).mono fun state m2 h2 => ?_
  rw [bind_iff]
  refine h2.setAccess.mono fun _ m3 h3 => ?_
  rw [pure_iff, map_map]
  exact ⟨toStore.zip ids, hfst, hsnd.trans (map_id _).symm, h3⟩

/-- A store that is admitted: idle chunks that were not offered leave, and keys of the offer that were
not resident get chunks. -/
structure Admitted (d : Pool) (keys : List OffloadKey) (out : PrepareStoreOutput)
    (evicted : List (OffloadKey × ChunkStatus)) (l : List (OffloadKey × ℕ)) : Prop where
  evicts : Evicts evicted.length keys d evicted
  evictedKeys : out.evictedKeys = evicted.map fst
  keysToStore : out.keysToStore = l.map fst
  storeSpec : out.storeSpec = l.map snd
  offered : (l.map fst).Sublist keys
  notResident : ∀ k ∈ l.map fst, d.get? k = none

/-- A store returns `none` and changes no resident chunk, or is admitted. -/
protected theorem Inv.prepareStore (h : m.Inv held d) (hnodup : keys.Nodup) (ctx : ReqContext) :
    Ends (prepareStore keys ctx) m
      (fun r m' => match r with
        | none => m'.Inv held d
        | some out => ∃ evicted l, Admitted d keys out evicted l ∧
            m'.Inv held (insertAll (eraseAll d evicted) l))
      fun m' => m'.Inv held d := by
  rw [prepareStore, Ends.bind_iff]
  refine h.admitKeys.mono ?_ fun _ h' => h'
  rintro toStore m1 ⟨⟨hsub, hnone⟩, h1⟩
  split_ifs
  · refine ⟨[], [], ⟨⟨rfl, nodup_nil, ?_⟩, rfl, rfl, rfl, nil_sublist _, ?_⟩, h1⟩
    · exact nofun
    · exact nofun
  · rw [Ends.bind_iff]
    refine .of_returns (h1.makeRoom.mono fun r m2 hr => ?_)
    cases r with
    | none => exact hr
    | some toEvict =>
      obtain ⟨evicted, hevicts, rfl, h2, hroom⟩ := hr
      rw [Ends.bind_iff, Ends.modify_iff]
      -- The event does not touch the pool.
      generalize hm3 : (if (evicted.map fst).isEmpty then m2
        else m2.addEvent { keys := evicted.map fst, removed := true }) = m3
      have hsame : SamePool m2 m3 ∧ m3.policy = m2.policy := by
        rw [← hm3]
        split_ifs <;> exact ⟨⟨rfl, rfl, rfl, rfl, rfl⟩, rfl⟩
      have h3 : m3.Inv held (eraseAll d evicted) := h2.same hsame.1 (hsame.2 ▸ h2.represents)
      have hfree : m3.getNumFreeChunks = m2.getNumFreeChunks := by
        rw [getNumFreeChunks, getNumFreeChunks, hsame.1.1, hsame.1.2.1, hsame.1.2.2.1]
      have hnone' : ∀ k ∈ toStore, (eraseAll d evicted).get? k = none := by
        intro k hk
        rw [get?_eraseAll, hnone k hk, ite_self]
      rw [Ends.bind_iff]
      refine .of_returns ((h3.insertChunks (hnodup.sublist hsub) hnone' (hfree ▸ hroom)).mono ?_)
      rintro ids m4 ⟨l, hkeys, hids, h4⟩
      exact ⟨evicted, l, ⟨hevicts, rfl, hkeys.symm, hids.symm, hkeys.symm ▸ hsub, hkeys.symm ▸ hnone⟩, h4⟩

/-- The pool has at most as many chunks as the manager. -/
theorem Inv.residents_le (h : m.Inv held d) : d.entries.length ≤ m.numChunks := by
  have hcard := congrArg Multiset.card h.ids
  have hids : (chunkIds d).card = d.entries.length := by
    rw [chunkIds, total]
    induction d.entries with
    | nil => rfl
    | cons e l ih =>
      rw [map_cons, sum_cons, card_add, ih, Multiset.card_singleton, length_cons, add_comm]
  rw [card_add, Multiset.card_range] at hcard
  have hallocated := h.allocated
  omega

end CPUOffloadingManager

end Sonar.Offload
