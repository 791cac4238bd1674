import Sonar.Offload.CPUInvariant

/-!
# The primary tier and its ledger

`CPUPrimaryTierOffloadingManager` is the manager of the CPU tier as the tiering manager uses it. A failed
write may be released later: its key leaves the cache at once, and its chunk is held back until the
writer can no longer touch it.

A **ledger** lists who uses the chunks: `readers` has an entry for every unfinished reader, `writers` one
for every unfinished write, each with the key and the chunk id. It is right if the reference counts
say the same (`Ledger`). Calls that the ledger allows do not raise, and change it by their keys.
-/

namespace Sonar.Offload

open Lib Returns List Dict Prod ChunkStatus CPUOffloadingManager
open P2P (OffloadKey insertSet discard mem_insertSet mem_discard)
open Multiset (card_add card_singleton coe_add coe_nil coe_singleton cons_coe disjoint_left
  filter_congr map_coe mem_coe mem_map nodup_add notMem_zero sum_coe)

/-- `CPUPrimaryTierOffloadingManager`. -/
structure CPUPrimaryTier (π : Type) where
  cpu : CPUOffloadingManager π
  /-- `_deferred_release_chunk_ids`. -/
  deferredReleaseChunkIds : List ℕ := []

/-- Calls of the primary tier. -/
abbrev PrimaryM (π α : Type) := ExceptT OffloadError (StateM (CPUPrimaryTier π)) α

namespace CPUPrimaryTier

variable {π : Type} [CachePolicy π]

/-- A call that is inherited. -/
def inherited {α : Type} (call : ManagerM π α) : PrimaryM π α :=
  zoom cpu (fun p cpu => { p with cpu }) call

/-- The chunks are read by a secondary tier, which is no access of a request. -/
def prepareRead (keys : List OffloadKey) (ctx : ReqContext) : PrimaryM π (List ℕ) :=
  inherited (prepareLoadWith false keys ctx)

/-- What `defer_write_release` does for one key. -/
def deferKey (key : OffloadKey) : PrimaryM π (List ℕ) := do
  let p ← get
  match (CachePolicy.get p.cpu.policy key).filter fun chunk => !chunk.isReady with
  | none => throw (.assertionError "defer_write_release: key %r is not a pending write" (some key))
  | some chunk =>
    inherited (policyCall (CachePolicy.remove key))
    modify fun p => { p with
      deferredReleaseChunkIds := insertSet chunk.chunkId p.deferredReleaseChunkIds }
    pure [chunk.chunkId]

/-- Chunks whose write is abandoned keep their ids until they are released. -/
def deferWriteRelease (keys : List OffloadKey) : PrimaryM π (List ℕ) := do
  let chunkIds ← collect deferKey keys
  modify fun p => if chunkIds.isEmpty then p
    else { p with cpu := p.cpu.addEvent { keys, removed := true, metadataOnly := true } }
  pure chunkIds

/-- What `release_deferred_write` does for one id. -/
def releaseId (chunkId : ℕ) : PrimaryM π PUnit := do
  let p ← get
  if chunkId ∈ p.deferredReleaseChunkIds then
    set { p with
      deferredReleaseChunkIds := discard chunkId p.deferredReleaseChunkIds
      cpu := { p.cpu with
        numWritePending := p.cpu.numWritePending - 1
        freeList := p.cpu.freeList ++ [chunkId] } }
  else throw .keyError

/-- The ids of abandoned writes become free. -/
def releaseDeferredWrite (chunkIds : List ℕ) : PrimaryM π PUnit := forAll releaseId chunkIds

end CPUPrimaryTier

/-! ### Ledgers -/

/-- A user of a chunk: the key and the chunk id. -/
abbrev User := OffloadKey × ℕ

/-- The readers that a reference count stands for. -/
def readersAt (key : OffloadKey) (c : ChunkStatus) : Multiset User :=
  Multiset.replicate c.refCnt.toNat (key, c.chunkId)

/-- The write that a reference count stands for. -/
def writersAt (key : OffloadKey) (c : ChunkStatus) : Multiset User :=
  if c.refCnt = -1 then {(key, c.chunkId)} else 0

/-- The reference counts are those of the listed readers and writers. -/
structure Ledger (d : Pool) (readers writers : Multiset User) : Prop where
  readers_eq : d.total readersAt = readers
  writers_eq : d.total writersAt = writers

namespace Ledger

variable {d : Pool} {readers writers : Multiset User} {key : OffloadKey} {chunkId : ℕ} {c : ChunkStatus}

private theorem mem_total {α : Type*} {f : OffloadKey → ChunkStatus → Multiset α} {a : α}
    (h : a ∈ d.total f) : ∃ k c, d.get? k = some c ∧ a ∈ f k c := by
  rw [total, ← sum_coe, ← Multiset.join, Multiset.mem_join] at h
  obtain ⟨s, hs, ha⟩ := h
  obtain ⟨e, he, rfl⟩ := mem_map.mp (mem_coe.mp hs)
  exact ⟨e.1, e.2, mem_entries.mp he, ha⟩

section

variable (h : Ledger d readers writers)

include h

/-- A chunk with a reader is there. -/
theorem of_reader (hmem : (key, chunkId) ∈ readers) :
    ∃ c, d.get? key = some c ∧ c.chunkId = chunkId ∧ 0 < c.refCnt := by
  rw [← h.readers_eq] at hmem
  obtain ⟨k, c, hc, hin⟩ := mem_total hmem
  obtain ⟨hne, heq⟩ := mem_replicate.mp hin
  obtain ⟨rfl, rfl⟩ := mk.inj heq
  exact ⟨c, hc, rfl, by omega⟩

/-- A chunk with a writer is not ready. -/
theorem of_writer (hmem : (key, chunkId) ∈ writers) :
    d.get? key = some { refCnt := -1, chunkId } := by
  rw [← h.writers_eq] at hmem
  obtain ⟨k, c, hc, hin⟩ := mem_total hmem
  rw [writersAt] at hin
  split_ifs at hin with hpending
  · obtain ⟨rfl, rfl⟩ := mk.inj (mem_singleton.mp hin)
    rw [hc, ← hpending]
  · exact absurd hin (notMem_zero _)

/-- A new reader of a ready chunk raises its count by one. -/
private theorem pin (hc : d.get? key = some c) (hready : 0 ≤ c.refCnt) :
    Ledger (d.set key (c.withRef (c.refCnt + 1))) (readers + {(key, c.chunkId)}) writers := by
  constructor
  · rw [total_set, ← h.readers_eq, total_erase _ d key, part_of_get? _ hc, readersAt,
      readersAt, withRef, Int.toNat_add hready Int.one_nonneg, Int.toNat_one,
      Multiset.replicate_add, Multiset.replicate_one]
    abel
  · rw [total_set, ← h.writers_eq, total_erase _ d key, part_of_get? _ hc, writersAt,
      writersAt, if_neg (by rw [withRef_refCnt]; omega), if_neg (by omega)]

end

/-- A reader that is done lowers the count by one. -/
private theorem unpin (h : Ledger d (readers + {(key, c.chunkId)}) writers) (hc : d.get? key = some c)
    (hread : 0 < c.refCnt) : Ledger (d.set key (c.withRef (c.refCnt - 1))) readers writers := by
  have hone : c.refCnt.toNat = (c.refCnt - 1).toNat + 1 := by omega
  constructor
  · have htotal := h.readers_eq
    rw [total_erase _ d key, part_of_get? _ hc, readersAt, hone, Multiset.replicate_add,
      add_right_comm] at htotal
    rw [total_set]
    exact add_right_cancel htotal
  · rw [total_set, ← h.writers_eq, total_erase _ d key, part_of_get? _ hc, writersAt,
      writersAt, if_neg (by rw [withRef_refCnt]; omega), if_neg (by omega)]

/-- A finished write turns the writer's chunk into a ready one. -/
private theorem fill (h : Ledger d readers (writers + {(key, chunkId)}))
    (hc : d.get? key = some { refCnt := -1, chunkId }) :
    Ledger (d.set key { refCnt := 0, chunkId }) readers writers := by
  constructor
  · rw [total_set, ← h.readers_eq, total_erase _ d key, part_of_get? _ hc]
    rfl
  · have htotal := h.writers_eq
    rw [total_erase _ d key, part_of_get? _ hc, add_comm] at htotal
    rw [total_set]
    exact (zero_add _).trans (add_right_cancel htotal)

/-- A failed write takes the chunk away with its writer. -/
private theorem drop (h : Ledger d readers (writers + {(key, chunkId)}))
    (hc : d.get? key = some { refCnt := -1, chunkId }) : Ledger (d.erase key) readers writers := by
  constructor
  · rw [← h.readers_eq, total_erase _ d key, part_of_get? _ hc]
    exact (zero_add _).symm
  · have htotal := h.writers_eq
    rw [total_erase _ d key, part_of_get? _ hc, add_comm] at htotal
    exact add_right_cancel htotal

private theorem store (h : Ledger d readers writers) {keys : List OffloadKey} {out : PrepareStoreOutput}
    {evicted : List (OffloadKey × ChunkStatus)} {l : List User} (hnodup : keys.Nodup)
    (hout : Admitted d keys out evicted l) :
    Ledger (insertAll (eraseAll d evicted) l) readers (writers + l) := by
  obtain ⟨-, hdistinct, hidle⟩ := hout.evicts
  have hget : ∀ e ∈ evicted, d.get? e.1 = some e.2 := fun e he => (hidle e he).1
  have hnew : (l.map fst).Nodup := hnodup.sublist hout.offered
  have hnone : ∀ e ∈ l, (eraseAll d evicted).get? e.1 = none := by
    intro e he
    rw [get?_eraseAll, hout.notResident e.1 (mem_map_of_mem he), ite_self]
  -- Idle chunks have no users.
  have hevicted : ∀ f : OffloadKey → ChunkStatus → Multiset User,
      (∀ k c, c.refCnt = 0 → f k c = 0) → (eraseAll d evicted).total f = d.total f := by
    intro f hf
    rw [total_eraseAll f hdistinct hget,
      map_congr_left fun e he => hf e.1 e.2 (hidle e he).2.1, map_const',
      sum_replicate, nsmul_zero, zero_add]
  constructor
  · rw [total_insertAll hnew hnone, hevicted _, h.readers_eq]
    · change (l.map fun _ => (0)).sum + readers = readers
      rw [map_const', sum_replicate, nsmul_zero, zero_add]
    · intro k c hzero
      rw [readersAt, hzero, Int.toNat_zero, Multiset.replicate_zero]
  · rw [total_insertAll hnew hnone, hevicted _, h.writers_eq, add_comm]
    · change writers + (l.map fun e => ({e})).sum = writers + l
      rw [← sum_coe, ← map_coe, Multiset.sum_map_singleton]
    · intro k c hzero
      rw [writersAt, if_neg (by omega)]

/-- Only a key itself contributes users of it. -/
private theorem count_total {f : OffloadKey → ChunkStatus → Multiset User}
    (hf : ∀ k c, ∀ e ∈ f k c, e.1 = k) (hc : d.get? key = some c) (chunkId : ℕ) :
    (d.total f).count (key, chunkId) = (f key c).count (key, chunkId) := by
  have hrest : (key, chunkId) ∉ (d.erase key).total f := by
    intro hmem
    obtain ⟨k, c', hget, hin⟩ := mem_total hmem
    obtain rfl : key = k := hf k c' _ hin
    rw [get?_erase_self] at hget
    cases hget
  rw [total_erase f d key, part_of_get? f hc, Multiset.count_add,
    Multiset.count_eq_zero_of_notMem hrest, add_zero]

section

variable (h : Ledger d readers writers)

include h

/-- The reference count of a chunk is the number of its readers. -/
theorem count_readers (hc : d.get? key = some c) :
    readers.count (key, c.chunkId) = c.refCnt.toNat := by
  rw [← h.readers_eq, count_total (fun k c e he => by rw [eq_of_mem_replicate he]) hc,
    readersAt, Multiset.count_replicate_self]

/-- A chunk has a writer exactly if its count is -1. -/
theorem count_writers (hc : d.get? key = some c) :
    writers.count (key, c.chunkId) = if c.refCnt = -1 then 1 else 0 := by
  rw [← h.writers_eq, count_total _ hc, writersAt]
  · split_ifs
    · exact Multiset.count_singleton_self _
    · exact Multiset.count_zero _
  · intro k c e he
    rw [writersAt] at he
    split_ifs at he
    · rw [mem_singleton.mp he]
    · exact absurd he (notMem_zero _)

/-- A key has one write at most. -/
private theorem nodup_writers : (writers.map fst).Nodup := by
  refine Multiset.Nodup.map_on (fun e he e' he' hkey => ?_) (Multiset.nodup_iff_count_le_one.mpr fun e => ?_)
  · have hc := h.of_writer he'
    rw [← hkey, h.of_writer he] at hc
    exact Prod.ext hkey (congrArg chunkId (Option.some.inj hc))
  · by_cases he : e ∈ writers
    · exact (h.count_writers (h.of_writer he)).le
    · exact (Multiset.count_eq_zero_of_notMem he).trans_le zero_le_one

end

end Ledger

/-! ### Calls that the ledger allows -/

namespace CPUOffloadingManager

variable {π : Type} [CachePolicy π] [LawfulPolicy π] {m : CPUOffloadingManager π} {held : Multiset ℕ}
  {d : Pool} {readers writers : Multiset User}

/-- The invariant, with a ledger. -/
def Uses (m : CPUOffloadingManager π) (held : Multiset ℕ) (readers writers : Multiset User) : Prop :=
  ∃ d, m.Inv held d ∧ Ledger d readers writers

variable {key : OffloadKey} {keys : List OffloadKey} {users : Multiset User}

/-- A hit is a chunk that is there and ready. -/
private theorem lookup_eq_hit (h : m.Inv held d) :
    m.lookup key = .hit ↔ ∃ c, d.get? key = some c ∧ 0 ≤ c.refCnt := by
  rw [lookup, h.get_eq]
  cases d.get? key with
  | none => exact iff_of_false (by decide) fun ⟨_, hnone, _⟩ => nomatch hnone
  | some c =>
    dsimp only
    split_ifs with hready
    · exact iff_of_true rfl ⟨c, rfl, of_decide_eq_true hready⟩
    · refine iff_of_false (by decide) ?_
      rintro ⟨c', hc', hready'⟩
      obtain rfl := Option.some.inj hc'
      exact hready (decide_eq_true hready')

section

variable (h : m.Uses held readers writers)

include h

/-- A reader is added for a key that is ready, and what was ready stays so. -/
private theorem Uses.prepareLoadKey (hready : m.lookup key = .hit) :
    Returns (prepareLoadKey key) m fun ids m' => ∃ chunkId, ids = [chunkId] ∧
      m'.Uses held (readers + {(key, chunkId)}) writers ∧ SameAccesses m m' ∧
      ∀ k, m.lookup k = .hit → m'.lookup k = .hit := by
  obtain ⟨d, hinv, hledger⟩ := h
  obtain ⟨c0, hc0, hpos⟩ := (lookup_eq_hit hinv).mp hready
  refine (hinv.prepareLoadKey.mono ?_ fun m' hE => ?_).returns
  · rintro ids m' ⟨c, hc, hready, rfl, h', hsame⟩
    refine ⟨c.chunkId, rfl, ⟨_, h', hledger.pin hc hready⟩, hsame, fun k hk => ?_⟩
    obtain ⟨c', hc', hready'⟩ := (lookup_eq_hit hinv).mp hk
    refine (lookup_eq_hit h').mpr ?_
    rw [get?_set]
    split_ifs
    · exact ⟨_, rfl, by rw [withRef_refCnt]; omega⟩
    · exact ⟨c', hc', hready'⟩
  · have := hE.1 c0 hc0
    omega

private theorem Uses.collect_prepareLoadKey (hready : ∀ k ∈ keys, m.lookup k = .hit) :
    Returns (collect CPUOffloadingManager.prepareLoadKey keys) m fun ids m' =>
      ids.length = keys.length ∧ m'.Uses held (readers + (keys.zip ids)) writers ∧
        (∀ k, m.lookup k = .hit → m'.lookup k = .hit) ∧ SameAccesses m m' := by
  induction keys generalizing m readers with
  | nil =>
    refine pure_iff.mpr ⟨rfl, ?_, fun _ hk => hk, rfl, rfl⟩
    rw [zip_nil_left, coe_nil, add_zero]
    exact h
  | cons key keys ih =>
    rw [Lib.collect, bind_iff]
    refine (h.prepareLoadKey (hready key (.head _))).mono ?_
    rintro _ m1 ⟨chunkId, rfl, h1, hsame1, hhit⟩
    rw [bind_iff]
    refine (ih h1 fun k hk => hhit k (hready k (.tail _ hk))).mono ?_
    rintro ids m2 ⟨hlen, h2, hhit2, hsame2⟩
    refine pure_iff.mpr ⟨by rw [singleton_append, length_cons, hlen]; rfl, ?_,
      fun k hk => hhit2 k (hhit k hk), hsame2.1.trans hsame1.1, hsame2.2.trans hsame1.2⟩
    rw [singleton_append, zip_cons_cons, ← cons_coe, ← Multiset.singleton_add, ← add_assoc]
    exact h2

variable {ctx : ReqContext}

/-- A load is prepared, of keys that are ready and for a request that is not finished. -/
protected theorem Uses.prepareLoadWith {recordAccess : Bool} (hready : ∀ k ∈ keys, m.lookup k = .hit)
    (hlive : recordAccess = true → m.Live ctx) :
    Returns (prepareLoadWith recordAccess keys ctx) m fun ids m' => ids.length = keys.length ∧
      m'.Uses held (readers + (keys.zip ids)) writers ∧
      ∀ k, m.lookup k = .hit → m'.lookup k = .hit := by
  rw [prepareLoadWith, bind_iff]
  refine (h.collect_prepareLoadKey hready).mono ?_
  rintro ids m1 ⟨hlen, h1, hhit, haccesses, hgeneration⟩
  split_ifs with hrecord
  · rw [bind_iff]
    obtain ⟨d1, hinv1, hledger1⟩ := h1
    have hlive1 : m1.Live ctx := by
      intro state hget
      rw [hgeneration]
      exact hlive hrecord state (haccesses ▸ hget)
    refine (recordRequestCacheAccess_returns hinv1 hlive1).mono fun _ m2 h2 => ?_
    refine pure_iff.mpr ⟨hlen, ⟨d1, h2, hledger1⟩, fun k hk => ?_⟩
    exact (lookup_eq_hit h2).mpr ((lookup_eq_hit hinv1).mp (hhit k hk))
  · exact pure_iff.mpr ⟨hlen, h1, hhit⟩

end

/-- Readers leave. -/
protected theorem Uses.completeLoad {l : List User} (h : m.Uses held (readers + l) writers) :
    Returns (completeLoad (l.map fst)) m fun _ m' => m'.Uses held readers writers := by
  induction l generalizing m with
  | nil =>
    rw [coe_nil, add_zero] at h
    exact pure_iff.mpr h
  | cons e l ih =>
    obtain ⟨d, hinv, hledger⟩ := h
    rw [← cons_coe, ← Multiset.singleton_add, add_left_comm, add_comm] at hledger
    obtain ⟨c0, hc0, hid, hpos⟩ := hledger.of_reader
      (Multiset.mem_add.mpr (.inr (mem_singleton_self e)))
    rw [completeLoad, map_cons, Lib.forAll, bind_iff]
    refine (hinv.completeLoadKey.mono ?_ fun m' hE => ?_).returns
    · rintro _ m1 ⟨c, hc, hread, h1⟩
      obtain rfl := Option.some.inj (hc.symm.trans hc0)
      have he : e = (e.1, c.chunkId) := Prod.ext rfl hid.symm
      rw [he] at hledger
      exact ih ⟨_, h1, hledger.unpin hc hread⟩
    · have := hE.1 c0 hc0
      omega

private theorem filter_pending {chunkId : ℕ} (hc : d.get? key = some { refCnt := -1, chunkId }) :
    ((d.get? key).filter fun chunk => !chunk.isReady) = some { refCnt := -1, chunkId } := by
  rw [hc]
  rfl

/-- No write of the key is unfinished. -/
def Settled (d : Pool) (key : OffloadKey) : Prop :=
  (d.get? key).filter (fun chunk => !chunk.isReady) = none

/-- Writes of some of the users end, one after the other. A key may be given twice. -/
private theorem ledger_foldl {step : Pool → OffloadKey → Pool}
    (hstep : ∀ d writers e, Ledger d readers (writers + {e}) →
      d.get? e.1 = some { refCnt := -1, chunkId := e.2 } → Ledger (step d e.1) readers writers ∧
        Settled (step d e.1) e.1 ∧ ∀ k, k ≠ e.1 → (step d e.1).get? k = d.get? k)
    (hskip : ∀ d k, Settled d k → step d k = d) (h : Ledger d readers (writers + users))
    (hkeys : ∀ k ∈ keys, k ∈ users.map fst ∨ Settled d k) :
    Ledger (keys.foldl step d) readers (writers + users.filter fun e => e.1 ∉ keys) := by
  induction keys generalizing d users with
  | nil =>
    rw [Multiset.filter_eq_self.mpr fun _ _ => not_mem_nil]
    exact h
  | cons key keys ih =>
    rw [foldl_cons]
    by_cases hkey : key ∈ users.map fst
    · obtain ⟨e, he, rfl⟩ := mem_map.mp hkey
      obtain ⟨rest, rfl⟩ := Multiset.exists_cons_of_mem he
      -- No other user has the key.
      have hrest : ∀ e' ∈ rest, e'.1 ≠ e.1 := by
        intro e' he' heq
        have hnodup := h.nodup_writers
        rw [Multiset.map_add, Multiset.map_cons] at hnodup
        exact (Multiset.nodup_cons.mp (nodup_add.mp hnodup).2.1).1
          (mem_map.mpr ⟨e', he', heq⟩)
      rw [← Multiset.singleton_add, add_left_comm, add_comm] at h
      obtain ⟨hnext, hsettled, hget⟩ := hstep d _ e h
        (h.of_writer (Multiset.mem_add.mpr (.inr (mem_singleton_self e))))
      have hfilter : (e ::ₘ rest).filter (fun e' => e'.1 ∉ e.1 :: keys) =
          rest.filter fun e' => e'.1 ∉ keys := by
        rw [Multiset.filter_cons_of_neg _ (fun hnot => hnot (.head _))]
        refine filter_congr fun e' he' => ?_
        rw [mem_cons, not_or, and_iff_right (hrest e' he')]
      rw [hfilter]
      refine ih hnext fun k hk => ?_
      by_cases hk' : k = e.1
      · exact .inr (hk' ▸ hsettled)
      · rw [Settled, hget k hk']
        have hor := hkeys k (.tail _ hk)
        rwa [Multiset.map_cons, Multiset.mem_cons, or_iff_right hk'] at hor
    · have hfilter : users.filter (fun e => e.1 ∉ key :: keys) = users.filter fun e => e.1 ∉ keys := by
        refine filter_congr fun e he => ?_
        have hne : e.1 ≠ key := fun heq => hkey (heq ▸ Multiset.mem_map_of_mem _ he)
        rw [mem_cons, not_or, and_iff_right hne]
      rw [hskip d key ((hkeys key (.head _)).resolve_left hkey), hfilter]
      exact ih h fun k hk => hkeys k (.tail _ hk)

/-- A chunk that is resident stays so, and is ready if it was or if it is the one that was stored. -/
private theorem get?_storeAt {k : OffloadKey} {c : ChunkStatus} (hc : d.get? k = some c) (key : OffloadKey) :
    ∃ c', (storeAt d key).get? k = some c' ∧ (k = key ∨ 0 ≤ c.refCnt → 0 ≤ c'.refCnt) := by
  rw [storeAt]
  cases hpending : (d.get? key).filter fun chunk => !chunk.isReady with
  | none =>
    refine ⟨c, hc, fun hor => hor.elim (fun hkey => ?_) id⟩
    rw [← hkey, hc, Option.filter_some, isReady] at hpending
    split_ifs at hpending with hready
    rwa [Bool.not_eq_true', Bool.not_eq_false, decide_eq_true_eq] at hready
  | some chunk =>
    rw [get?_set]
    split_ifs with hkey
    · exact ⟨_, rfl, fun _ => le_rfl⟩
    · exact ⟨c, hc, fun hor => hor.resolve_left hkey⟩

private theorem get?_foldl_storeAt {k : OffloadKey} {c : ChunkStatus} (keys : List OffloadKey)
    (hc : d.get? k = some c) :
    ∃ c', (keys.foldl storeAt d).get? k = some c' ∧ (k ∈ keys ∨ 0 ≤ c.refCnt → 0 ≤ c'.refCnt) := by
  induction keys generalizing d c with
  | nil => exact ⟨c, hc, fun hor => hor.resolve_left not_mem_nil⟩
  | cons key keys ih =>
    obtain ⟨c1, hc1, hready1⟩ := get?_storeAt hc key
    obtain ⟨c2, hc2, hready2⟩ := ih hc1
    refine ⟨c2, hc2, ?_⟩
    rintro (hmem | hready)
    · rcases mem_cons.mp hmem with hkey | hmem
      · exact hready2 (.inr (hready1 (.inl hkey)))
      · exact hready2 (.inl hmem)
    · exact hready2 (.inr (hready1 (.inr hready)))

/-- Writes of some of the users complete; if they succeed the keys are ready. -/
theorem Uses.completeSome
    (h : m.Uses held readers (writers + users)) (hkeys : ∀ k ∈ keys, k ∈ users.map fst)
    {success : Bool} : Returns (completeStore keys ctx success) m
      fun _ m' => m'.Uses held readers (writers + users.filter fun e => e.1 ∉ keys) ∧
        (success = true → ∀ k ∈ keys, m'.lookup k = .hit) := by
  obtain ⟨d, hinv, hledger⟩ := h
  refine hinv.completeStore.mono fun _ m' h' => ⟨⟨_, h', ?_⟩, ?_⟩
  swap
  · rintro rfl k hk
    obtain ⟨e, he, rfl⟩ := mem_map.mp (hkeys k hk)
    have hc := hledger.of_writer (Multiset.mem_add.mpr (.inr he))
    obtain ⟨c', hc', hready⟩ := get?_foldl_storeAt keys hc
    exact (lookup_eq_hit h').mpr ⟨c', hc', hready (.inl hk)⟩
  rw [completeAt]
  split_ifs
  · refine ledger_foldl (fun d W e hd hc => ?_) (fun d k hk => ?_) hledger fun k hk => .inl (hkeys k hk)
    · rw [storeAt, filter_pending hc]
      refine ⟨hd.fill hc, ?_, fun k hk => get?_set_of_ne hk⟩
      rw [Settled, get?_set_self]
      rfl
    · rw [storeAt, hk]
  · refine ledger_foldl (fun d W e hd hc => ?_) (fun d k hk => ?_) hledger fun k hk => .inl (hkeys k hk)
    · rw [dropAt, filter_pending hc]
      refine ⟨hd.drop hc, ?_, fun k hk => get?_erase_of_ne hk⟩
      rw [Settled, get?_erase_self]
      rfl
    · rw [dropAt, hk]

/-- Writers leave, and a write that succeeded can be read. -/
theorem Uses.completeStore {l : List User} (h : m.Uses held readers (writers + l))
    {success : Bool} : Returns (completeStore (l.map fst) ctx success) m
      fun _ m' => m'.Uses held readers writers ∧
        (success = true → ∀ k ∈ l.map fst, m'.lookup k = .hit) := by
  refine (h.completeSome (fun k hk => hk)).mono fun _ m' h' => ⟨?_, h'.2⟩
  have huses := h'.1
  rwa [Multiset.filter_eq_nil.mpr fun e he => not_not.mpr (mem_map_of_mem he), add_zero] at huses

/-- A store is refused, or writes to new chunks; if it raises nothing has changed. -/
theorem Uses.prepareStore (h : m.Uses held readers writers) (hnodup : keys.Nodup) :
    Ends (prepareStore keys ctx) m
      (fun r m' => match r with
        | none => m'.Uses held readers writers
        | some out => out.storeSpec.length = out.keysToStore.length ∧
            m'.Uses held readers (writers + (out.keysToStore.zip out.storeSpec)))
      fun m' => m'.Uses held readers writers := by
  obtain ⟨d, hinv, hledger⟩ := h
  refine (hinv.prepareStore hnodup ctx).mono (fun r m' hr => ?_) fun m' h' => ⟨d, h', hledger⟩
  cases r with
  | none => exact ⟨d, hr, hledger⟩
  | some out =>
    obtain ⟨evicted, l, hout, h'⟩ := hr
    have hzip : (l.map fst).zip (l.map snd) = l := (zip_of_prod rfl rfl).symm
    dsimp only
    rw [hout.keysToStore, hout.storeSpec, hzip, length_map, length_map]
    exact ⟨rfl, _, h', hledger.store hnodup hout⟩

end CPUOffloadingManager

/-! ### Who holds an id -/

namespace CPUOffloadingManager

variable {π : Type} [CachePolicy π] [LawfulPolicy π] {m : CPUOffloadingManager π} {held : Multiset ℕ}
  {d : Pool} {key : OffloadKey} {c : ChunkStatus}

/-- The free ids, those held back and those of resident chunks are all different. -/
theorem Inv.nodup_ids (h : m.Inv held d) :
    (m.freeList + held + chunkIds d).Nodup := by
  rw [h.ids]
  exact Multiset.nodup_range _

private theorem mem_chunkIds (hc : d.get? key = some c) : c.chunkId ∈ chunkIds d := by
  rw [chunkIds_erase hc]
  exact Multiset.mem_add.mpr (.inl (mem_singleton_self _))

/-- The id of a resident chunk is neither free nor held. -/
theorem Inv.id_notMem (h : m.Inv held d) (hc : d.get? key = some c) :
    c.chunkId ∉ m.freeList ∧ c.chunkId ∉ held := by
  obtain ⟨-, -, hdisjoint⟩ := nodup_add.mp h.nodup_ids
  have hnot := fun hmem => disjoint_left.mp hdisjoint hmem (mem_chunkIds hc)
  exact ⟨fun hmem => hnot (Multiset.mem_add.mpr (.inl hmem)),
    fun hmem => hnot (Multiset.mem_add.mpr (.inr hmem))⟩

/-- No two resident chunks have one id. -/
theorem Inv.id_unique (h : m.Inv held d) (hc : d.get? key = some c) {key' : OffloadKey}
    {c' : ChunkStatus} (hc' : d.get? key' = some c') (hid : c'.chunkId = c.chunkId) : key' = key := by
  by_contra hne
  obtain ⟨-, hnodup, -⟩ := nodup_add.mp h.nodup_ids
  rw [chunkIds_erase hc, Multiset.singleton_add, Multiset.nodup_cons] at hnodup
  have herase : (d.erase key).get? key' = some c' := (get?_erase_of_ne hne).trans hc'
  exact hnodup.1 (hid ▸ mem_chunkIds herase)

end CPUOffloadingManager

/-! ### Deferred releases -/

namespace CPUPrimaryTier

variable {π : Type} [CachePolicy π] [LawfulPolicy π] {p : CPUPrimaryTier π} {held : Multiset ℕ}
  {readers writers : Multiset User}

/-- The ids that are held back are those with a deferred release. -/
def Uses (p : CPUPrimaryTier π) (held : Multiset ℕ) (readers writers : Multiset User) : Prop :=
  (p.deferredReleaseChunkIds : Multiset ℕ) = held ∧ p.cpu.Uses held readers writers

/-- Ledgers may be replaced by equal ones. -/
theorem Uses.congr {held' : Multiset ℕ} {readers' writers' : Multiset User}
    (h : p.Uses held readers writers) (hheld : held = held') (hreaders : readers = readers')
    (hwriters : writers = writers') : p.Uses held' readers' writers' := by
  rw [← hheld, ← hreaders, ← hwriters]
  exact h

/-- A write that is listed fails, and its chunk is held back. -/
protected theorem Uses.deferKey {e : User} (h : p.Uses held readers (writers + {e})) :
    Returns (deferKey e.1) p fun ids p' => ids = [e.2] ∧ p'.Uses (held + {e.2}) readers writers := by
  obtain ⟨hheld, d, hinv, hledger⟩ := h
  have hc := hledger.of_writer (Multiset.mem_add.mpr (.inr (mem_singleton_self e)))
  rw [deferKey, bind_iff, get_iff, hinv.get_eq, filter_pending hc]
  rw [bind_iff]
  refine zoom_iff.mpr (zoom_iff.mpr ?_)
  refine (LawfulPolicy.remove_represents hinv.represents hc).mono fun _ policy hp => ?_
  rw [bind_iff, modify_iff, pure_iff]
  have hnew : e.2 ∉ p.deferredReleaseChunkIds := by
    rw [← mem_coe, hheld]
    exact (hinv.id_notMem hc).2
  refine ⟨rfl, ?_, _, ⟨hp, ?_, hinv.allocated, ?_, ?_, fun k c hk => ?_⟩, hledger.drop hc⟩
  · rw [insertSet, if_neg hnew, ← coe_add, hheld, coe_singleton]
  · rw [← hinv.ids, chunkIds_erase hc]
    abel
  · rw [numWithRef_erase hc 0, if_neg (by decide : ¬(-1) = 0), hinv.evictable, sub_zero]
  · rw [numWithRef_erase hc (-1), if_pos rfl, hinv.writePending, card_add, card_singleton]
    omega
  · rw [get?_erase] at hk
    split_ifs at hk
    exact hinv.refs k c hk

/-- Writers leave and their ids stay held. -/
protected theorem Uses.deferWriteRelease {l : List User} (h : p.Uses held readers (writers + l)) :
    Returns (deferWriteRelease (l.map fst)) p fun ids p' => ids = l.map snd ∧
      p'.Uses (held + ids) readers writers := by
  rw [deferWriteRelease, bind_iff]
  have hloop : Returns (collect deferKey (l.map fst)) p fun ids p' =>
      ids = l.map snd ∧ p'.Uses (held + ids) readers writers := by
    induction l generalizing p held with
    | nil =>
      refine pure_iff.mpr ⟨rfl, ?_⟩
      rw [coe_nil, add_zero] at h ⊢
      exact h
    | cons e l ih =>
      rw [← cons_coe, ← Multiset.singleton_add, add_left_comm, add_comm] at h
      rw [map_cons, Lib.collect, bind_iff]
      refine h.deferKey.mono ?_
      rintro _ p1 ⟨rfl, h1⟩
      rw [bind_iff]
      refine (ih h1).mono ?_
      rintro _ p2 ⟨rfl, h2⟩
      refine pure_iff.mpr ⟨rfl, ?_⟩
      rw [singleton_append, ← cons_coe, ← Multiset.singleton_add, ← add_assoc]
      exact h2
  refine hloop.mono ?_
  rintro ids p1 ⟨hids, h1⟩
  rw [bind_iff, modify_iff, pure_iff]
  refine ⟨hids, ?_⟩
  split_ifs
  · exact h1
  · obtain ⟨hheld, d, hinv, hledger⟩ := h1
    exact ⟨hheld, d, hinv.same ⟨rfl, rfl, rfl, rfl, rfl⟩ hinv.represents, hledger⟩

/-- Held ids become free. -/
protected theorem Uses.releaseDeferredWrite {ids : List ℕ} (h : p.Uses (held + ids) readers writers) :
    Returns (releaseDeferredWrite ids) p fun _ p' => p'.Uses held readers writers := by
  rw [releaseDeferredWrite]
  induction ids generalizing p with
  | nil =>
    rw [coe_nil, add_zero] at h
    exact pure_iff.mpr h
  | cons chunkId ids ih =>
    obtain ⟨hheld, d, hinv, hledger⟩ := h
    rw [← cons_coe, ← Multiset.singleton_add, add_left_comm] at hheld hinv
    have hmem : chunkId ∈ p.deferredReleaseChunkIds := by
      rw [← mem_coe, hheld]
      exact Multiset.mem_add.mpr (.inl (mem_singleton_self _))
    rw [Lib.forAll, bind_iff, releaseId, bind_iff, get_iff, if_pos hmem, set_iff]
    refine ih ⟨?_, d, ⟨hinv.represents, ?_, hinv.allocated, hinv.evictable, ?_, hinv.refs⟩, hledger⟩
    · -- The id occurs once among those held back.
      have hnodup : ({chunkId} + (held + ids)).Nodup :=
        (nodup_add.mp (nodup_add.mp hinv.nodup_ids).1).2.1
      rw [P2P.discard, ← Multiset.filter_coe, hheld, Multiset.filter_add, Multiset.filter_singleton,
        if_neg (not_not.mpr rfl), Multiset.empty_eq_zero, zero_add, Multiset.filter_eq_self]
      rintro i hi rfl
      exact (Multiset.nodup_cons.mp (Multiset.singleton_add _ _ ▸ hnodup)).1 hi
    · rw [← hinv.ids, ← coe_add, coe_singleton]
      abel
    · rw [hinv.writePending, card_add, card_singleton]
      push_cast
      omega

end CPUPrimaryTier

end Sonar.Offload
