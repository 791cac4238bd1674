import Mathlib.Algebra.BigOperators.Group.Multiset.Basic
import Sonar.Core.EventReplay

/-!
# Histories of a block pool with events

A history is a sequence of operations on a pool by several callers, with the events each of them
emitted. It ends with the first operation that raises after it has changed something; a call of
`get_new_blocks` that finds too few free blocks raises before that and may be followed by others.

Replaying all the events gives what is registered in the pool, together with the hits reported
since the last reset, and each stored event covers a range of the request it was emitted for.
-/

namespace Sonar

open Lib List KVCacheEvent Option

namespace BlockPool

variable {ι : Type} {n : ℕ} {p p' : BlockPool n} {cfg : EventConfig} {hashBlockSize : ℕ}

/-- An operation on hashes returns without an exception. -/
def HashOp.Returns (p : BlockPool n) : HashOp n → Prop
  | .cacheFullBlocks request blocks numCachedBlocks numFullBlocks blockSize groupId blockMask =>
    (p.cacheFullBlocks request blocks numCachedBlocks numFullBlocks blockSize groupId
      blockMask).1 = .ok ()
  | .cachePartialBlock request b numTokens groupId blockSize replaceExistingHashes =>
    (p.cachePartialBlock request b numTokens groupId blockSize
      replaceExistingHashes).1.toBool = true
  | .moveBlockHashes src dst => (p.moveBlockHashes src dst).1 = .ok ()
  | .evictBlocks ids => (BlockPool.evictBlocks ids p).1 = .ok ()
  | .resetPrefixCache => True

/-- What the callers see to: a table lists a block that is not null at most once. A group id that
does not fit into four bytes makes `make_block_hash_with_group_id` raise. -/
def HashOp.Proper (p : BlockPool n) : HashOp n → Prop
  | .cacheFullBlocks _ blocks numCachedBlocks numFullBlocks _ groupId _ =>
    (p.live (slice blocks numCachedBlocks numFullBlocks)).Nodup ∧ groupId < 2 ^ 32
  | .cachePartialBlock _ _ _ groupId _ _ => groupId < 2 ^ 32
  | _ => True

instance (p : BlockPool n) : (op : HashOp n) → Decidable (op.Proper p)
  | .cacheFullBlocks .. => inferInstanceAs (Decidable (_ ∧ _))
  | .cachePartialBlock .. => inferInstanceAs (Decidable (_ < _))
  | .moveBlockHashes .. => .isTrue trivial
  | .evictBlocks .. => .isTrue trivial
  | .resetPrefixCache => .isTrue trivial

/-- The request an operation on hashes is called for. -/
def HashOp.request : HashOp n → Option Request
  | .cacheFullBlocks request _ _ _ _ _ _ => some request
  | .cachePartialBlock request _ _ _ _ _ => some request
  | _ => none

/-- The reports of hits a consumer still holds after an operation. -/
def HashOp.reportsAfter (p : BlockPool n) (reports : Multiset (ExternalBlockHash × ℕ)) :
    HashOp n → Multiset (ExternalBlockHash × ℕ)
  | .resetPrefixCache => if p.resetPrefixCache.1 then 0 else reports
  | _ => reports

/-- The hashes that stored events list. -/
def storedHashes (events : List KVCacheEvent) : Multiset (ExternalBlockHash × ℕ) :=
  ↑(events.flatMap fun
    | .blockStored event => event.blockHashes.map fun hash => (hash, event.groupIdx)
    | _ => [])

/-- The events one operation emitted, and the request it was called for. -/
structure Emission where
  request : Option Request
  events : List KVCacheEvent

/-- A pool as it is seen from outside: the references its callers hold, what it has emitted, and
the hashes that hits have reported since the last reset. -/
structure Observed (ι : Type) (n : ℕ) where
  pool : BlockPool n
  ledger : Ledger ι n
  log : List Emission
  reports : Multiset (ExternalBlockHash × ℕ)

/-- All events emitted so far, in order. -/
def Observed.events (s : Observed ι n) : List KVCacheEvent := s.log.flatMap Emission.events

/-- What some sequence of operations on a new pool leads to. -/
inductive History (cfg : EventConfig) (hashBlockSize : ℕ) : Observed ι n → Prop
  | new {enableCaching : Bool} {p : BlockPool n}
      (h : BlockPool.new n enableCaching hashBlockSize = some p) :
    History cfg hashBlockSize ⟨p, 0, [], 0⟩
  | getNewBlocks {s : Observed ι n} (h : History cfg hashBlockSize s) (i : ι) (numBlocks : ℕ) :
    History cfg hashBlockSize { s with
      pool := (s.pool.getNewBlocks numBlocks).2
      ledger := refsOf i (s.pool.granted numBlocks) + s.ledger
      log := s.log ++ [⟨none, s.pool.getNewBlocksEvents cfg numBlocks⟩] }
  | touch {s : Observed ι n} (h : History cfg hashBlockSize s) (i : ι) (blocks : List (Fin n)) :
    History cfg hashBlockSize { s with
      pool := (BlockPool.touch blocks s.pool).2
      ledger := refsOf i (s.pool.live blocks) + s.ledger }
  | freeBlocks {s : Observed ι n} (h : History cfg hashBlockSize s) (i : ι)
      (orderedBlocks : List (Fin n)) {rest : Ledger ι n}
      (hheld : s.ledger = refsOf i (s.pool.live orderedBlocks) + rest) :
    History cfg hashBlockSize { s with
      pool := (s.pool.freeBlocks orderedBlocks).2
      ledger := rest }
  | unpinBlocks {s : Observed ι n} (h : History cfg hashBlockSize s) (i : ι)
      (blocks : List (Fin n)) {rest : Ledger ι n} (hheld : s.ledger = refsOf i blocks + rest) :
    History cfg hashBlockSize { s with
      pool := (s.pool.unpinBlocks blocks).2
      ledger := rest }
  | hash {s : Observed ι n} (h : History cfg hashBlockSize s) (op : HashOp n)
      (hproper : op.Proper s.pool) (hreturns : op.Returns s.pool) {events : List KVCacheEvent}
      (hevents : op.events cfg s.pool = some events) : History cfg hashBlockSize { s with
      pool := op.run s.pool
      log := s.log ++ [⟨op.request, events⟩]
      reports := op.reportsAfter s.pool s.reports }
  | emitCachedBlockEvents {s : Observed ι n} (h : History cfg hashBlockSize s) (request : Request)
      (numCachedBlocks blockSize groupId : ℕ) {events : List KVCacheEvent}
      (hevents : s.pool.emitCachedBlockEvents cfg request numCachedBlocks blockSize groupId =
        some events) : History cfg hashBlockSize { s with
      log := s.log ++ [⟨some request, events⟩]
      reports := s.reports + storedHashes events }

/-! ### What one operation does -/

variable {events : List KVCacheEvent} {s : Observed ι n} {emission : Emission}

/-- An operation on hashes turns what a consumer holds of the pool before it into what it holds of
the pool after it. A reset also drops the reports. -/
private theorem HashOp.replays (henable : cfg.enableKvCacheEvents = true) (h : HashInv p) {op : HashOp n}
    (hproper : op.Proper p) (hreturns : op.Returns p)
    (hevents : op.events cfg p = some events) {reports : Multiset (ExternalBlockHash × ℕ)} :
    replay (published cfg p + reports) (events.map effect) =
      some (published cfg (op.run p) + op.reportsAfter p reports) := by
  cases op with
  | cacheFullBlocks =>
    exact (replays_cacheFullBlocks henable h hproper.2 hproper.1 hreturns hevents).1 reports
  | cachePartialBlock =>
    exact (replays_cachePartialBlock henable h hproper hreturns hevents).1 reports
  | moveBlockHashes =>
    obtain rfl := some.inj hevents
    exact Replays.none (published_moveBlockHashes h hreturns) reports
  | evictBlocks ids =>
    obtain rfl := some.inj hevents
    exact replays_removed henable (published_evictBlocks h) reports
  | resetPrefixCache =>
    obtain rfl := some.inj hevents
    exact replay_resetPrefixCache henable

/-- The stored events of an operation on hashes cover ranges of its request. -/
private theorem HashOp.coverRanges (henable : cfg.enableKvCacheEvents = true) (h : HashInv p)
    {op : HashOp n} (hproper : op.Proper p) (hreturns : op.Returns p)
    (hevents : op.events cfg p = some events) {event : BlockStored}
    (hmem : .blockStored event ∈ events) :
    ∃ request, op.request = some request ∧ ∃ blockHashes first last,
      CoversRange cfg p.hashBlockSize request event blockHashes first last := by
  cases op with
  | cacheFullBlocks =>
    exact ⟨_, rfl,
      (replays_cacheFullBlocks henable h hproper.2 hproper.1 hreturns hevents).2 event hmem⟩
  | cachePartialBlock =>
    exact ⟨_, rfl, (replays_cachePartialBlock henable h hproper hreturns hevents).2 event hmem⟩
  | moveBlockHashes =>
    obtain rfl := some.inj hevents
    cases hmem
  | evictBlocks =>
    obtain rfl := some.inj hevents
    exact absurd hmem not_mem_removedEvents
  | resetPrefixCache =>
    obtain rfl := some.inj hevents
    rw [resetPrefixCacheEvents] at hmem
    split_ifs at hmem <;> simp at hmem

/-- `emit_cached_block_events` emits nothing or one event for the first blocks of the request, with
no parent and all their hashes. -/
private theorem emitCachedBlockEvents_eq_some {request : Request} {numCachedBlocks blockSize groupId : ℕ}
    (hevents : p.emitCachedBlockEvents cfg request numCachedBlocks blockSize groupId =
      some events) : events = [] ∨ ∃ event blockHashes, events = [.blockStored event] ∧
      CoversRange cfg p.hashBlockSize request event blockHashes 0 numCachedBlocks := by
  rw [emitCachedBlockEvents] at hevents
  by_cases hoff : (!cfg.enableKvCacheEvents || decide (numCachedBlocks = 0)) = true
  · rw [if_pos hoff] at hevents
    exact .inl (some.inj hevents).symm
  rw [if_neg hoff] at hevents
  obtain ⟨blockHashes, hresolved, hevents⟩ := bind_eq_some_iff.mp hevents
  by_cases hlength : blockHashes.length < numCachedBlocks
  · rw [if_pos hlength] at hevents
    cases hevents
  rw [if_neg hlength] at hevents
  obtain ⟨extraKeysList, -, hevents⟩ := bind_eq_some_iff.mp hevents
  obtain rfl := some.inj hevents
  have hpos : 0 < numCachedBlocks := by
    rw [Bool.or_eq_true, decide_eq_true_eq] at hoff
    omega
  refine .inr ⟨_, blockHashes, rfl, hresolved, hpos, by omega, ?_, .refl _, rfl⟩
  rw [EventConfig.buildBlockStoredEvent, zero_mul]

/-! ### What a history leads to -/

/-- What holds after every operation of a history. -/
structure Observed.Inv (cfg : EventConfig) (hashBlockSize : ℕ) (s : Observed ι n) : Prop where
  pool : PoolInv s.pool s.ledger
  size : s.pool.hashBlockSize = hashBlockSize
  replayed : replay 0 (s.events.map effect) = some (published cfg s.pool + s.reports)
  covered : ∀ emission ∈ s.log, ∀ event, .blockStored event ∈ emission.events →
    ∃ request, emission.request = some request ∧ ∃ blockHashes first last,
      CoversRange cfg hashBlockSize request event blockHashes first last

private theorem replay_events_append {m m' : Multiset (ExternalBlockHash × ℕ)}
    (h : replay 0 (s.events.map effect) = some m)
    (hnext : replay m (emission.events.map effect) = some m') :
    replay 0 (((s.log ++ [emission]).flatMap Emission.events).map effect) = some m' := by
  rw [flatMap_append, flatMap_singleton, map_append]
  exact (replay_append h _).trans hnext

/-- An operation on references emits nothing and leaves the keys of every block alone. -/
private theorem Observed.Inv.refs {ledger : Ledger ι n} (h : s.Inv cfg hashBlockSize)
    (hpool : PoolInv p ledger) (hsame : SameHashes s.pool p) :
    Inv cfg hashBlockSize { s with pool := p, ledger := ledger } where
  pool := hpool
  size := hsame.hashBlockSize.trans h.size
  replayed := by
    rw [published_congr hsame.keysOf]
    exact h.replayed
  covered := h.covered

private theorem covered_append {log : List Emission}
    (h : ∀ emission ∈ log, ∀ event, .blockStored event ∈ emission.events →
      ∃ request, emission.request = some request ∧ ∃ blockHashes first last,
        CoversRange cfg hashBlockSize request event blockHashes first last)
    (hnext : ∀ event, .blockStored event ∈ emission.events →
      ∃ request, emission.request = some request ∧ ∃ blockHashes first last,
        CoversRange cfg hashBlockSize request event blockHashes first last) :
    ∀ other ∈ log ++ [emission], ∀ event, .blockStored event ∈ other.events →
      ∃ request, other.request = some request ∧ ∃ blockHashes first last,
        CoversRange cfg hashBlockSize request event blockHashes first last := by
  intro other hother event hevent
  rcases mem_append.mp hother with hmem | hmem
  · exact h other hmem event hevent
  · obtain rfl := mem_singleton.mp hmem
    exact hnext event hevent

private theorem not_mem_getNewBlocksEvents {numBlocks : ℕ}
    {event : BlockStored} : .blockStored event ∉ p.getNewBlocksEvents cfg numBlocks := by
  rw [getNewBlocksEvents]
  split_ifs
  · exact not_mem_nil
  · split
    · exact not_mem_nil
    · exact not_mem_removedEvents

private theorem History.inv (henable : cfg.enableKvCacheEvents = true)
    (h : History cfg hashBlockSize s) : s.Inv cfg hashBlockSize := by
  induction h with
  | @new enableCaching p h =>
    obtain ⟨hrefs, hhashes⟩ := refInv_new h
    have hkeys : ∀ b, p.keysOf b = [] := by
      intro b
      rw [BlockPool.new] at h
      split at h
      · cases h
      · obtain rfl := some.inj h
        rfl
    refine ⟨⟨hrefs, hhashes⟩, ?_, ?_, fun _ hmem => absurd hmem not_mem_nil⟩
    · rw [BlockPool.new] at h
      split at h
      · cases h
      · obtain rfl := some.inj h
        rfl
    · have hempty : published cfg p = 0 :=
        Finset.sum_eq_zero fun b _ => by rw [hkeys b, externals_nil]
      rw [hempty]
      rfl
  | @getNewBlocks s _ i numBlocks ih =>
    have hsize : (s.pool.getNewBlocks numBlocks).2.hashBlockSize = s.pool.hashBlockSize := by
      rcases getNewBlocks_spec ih.pool.refs ih.pool.hashes numBlocks with
        ⟨-, hraise⟩ | ⟨ret, p', hok, -, -, -, -, hsize, -⟩
      · rw [hraise]
      · rwa [hok]
    refine ⟨ih.pool.step (.getNewBlocks s.pool _ i _),
      hsize.trans ih.size, replay_events_append ih.replayed
        (replays_getNewBlocks ih.pool.hashes henable ih.pool.refs _),
      covered_append ih.covered fun event hmem =>
        absurd hmem not_mem_getNewBlocksEvents⟩
  | @touch s _ i blocks ih =>
    exact ih.refs (ih.pool.step (.touch s.pool _ i blocks))
      (touch_spec blocks ih.pool.refs).2.2
  | @freeBlocks s _ i orderedBlocks rest hheld ih =>
    have hpool := ih.pool
    rw [hheld] at hpool
    have hrefs := hpool.refs
    rw [blocks_refsOf_add] at hrefs
    exact ih.refs (hpool.step (.freeBlocks s.pool rest i _))
      (freeBlocks_spec _ hrefs).2.2
  | @unpinBlocks s _ i blocks rest hheld ih =>
    have hpool := ih.pool
    rw [hheld] at hpool
    have hrefs := hpool.refs
    rw [blocks_refsOf_add] at hrefs
    exact ih.refs (hpool.step (.unpinBlocks s.pool rest i blocks))
      (unpinBlocks_spec blocks hrefs).2.2
  | @hash s _ op hproper hreturns events hevents ih =>
    have hhashes := ih.pool.hashes
    refine ⟨ih.pool.step (.hash s.pool _ op),
      (op.hashStep hhashes).refs.hashBlockSize.trans ih.size, replay_events_append ih.replayed
        (HashOp.replays henable hhashes hproper hreturns hevents),
      covered_append ih.covered fun event hmem => ?_⟩
    rw [← ih.size]
    exact HashOp.coverRanges henable hhashes hproper hreturns hevents hmem
  | @emitCachedBlockEvents s _ request numCachedBlocks blockSize groupId events hevents ih =>
    have hcases := emitCachedBlockEvents_eq_some hevents
    refine ⟨ih.pool, ih.size, replay_events_append ih.replayed ?_,
      covered_append ih.covered fun event hmem => ⟨request, rfl, ?_⟩⟩
    · rw [← add_assoc]
      rcases hcases with rfl | ⟨event, _, rfl, _⟩
      · simp [replay, storedHashes]
      · simp [replay, storedHashes, effect, LogEvent.apply]
    · rcases hcases with rfl | ⟨event', blockHashes, rfl, hcovers⟩
      · cases hmem
      · obtain rfl := blockStored.inj (mem_singleton.mp hmem)
        exact ⟨blockHashes, 0, numCachedBlocks, ih.size ▸ hcovers⟩

/-- **A consumer that replays the events of a history holds what is registered, and the reports.**
No removal in the log is of something absent. A hash of a group is held once for each block
registered under it, and once more for each report of a hit since the last reset. Every stored
event covers a range of blocks of the request it was emitted for: its parent is the hash before
the range, or none at the start. -/
theorem History.replay_registered {s : Observed ι n} (henable : cfg.enableKvCacheEvents = true)
    (h : History cfg hashBlockSize s) :
    (∃ held, replay 0 (s.events.map KVCacheEvent.effect) = some held ∧
      ∀ x, held.count x = (∑ b, (s.pool.keysOf b).countP fun key => cfg.external key = x) +
        s.reports.count x) ∧ ∀ emission ∈ s.log, ∀ event, .blockStored event ∈ emission.events →
      ∃ request, emission.request = some request ∧ ∃ blockHashes first last,
        CoversRange cfg hashBlockSize request event blockHashes first last := by
  have hinv := h.inv henable
  refine ⟨⟨_, hinv.replayed, fun x => ?_⟩, hinv.covered⟩
  rw [Multiset.count_add, published, Multiset.count_sum']
  refine congrArg (· + _) (Finset.sum_congr rfl fun b _ => ?_)
  rw [externals, Multiset.count, Multiset.coe_countP, countP_map]
  exact countP_congr fun key _ => by simp [eq_comm]

/-! ### A hit that is reported again -/

/-- Events on, raw hashes, no lookahead. -/
def plainEvents : EventConfig := ⟨true, 0, "GPU", false, id⟩

/-- One block is taken, cached for a request and then reported as a hit. -/
private theorem exists_reported_history : ∃ s : Observed Unit 2, History plainEvents 16 s ∧
    s.reports.count (.bytes [7], 0) = 1 ∧
    (replay 0 (s.events.map effect)).map (Multiset.count (.bytes [7], 0)) = some 2 ∧
    (∑ b, (s.pool.keysOf b).countP fun key => plainEvents.external key = (.bytes [7], 0)) = 1 := by
  have hnew : History plainEvents 16 (⟨(new 2 true 16).get rfl, 0, [], 0⟩ : Observed Unit 2) :=
    .new (some_get _).symm
  have hcached := (hnew.getNewBlocks () 1).hash (.cacheFullBlocks oneHash [1] 0 1 16 0 none)
    (by decide) rfl rfl
  refine ⟨_, hcached.emitCachedBlockEvents oneHash 1 16 0 rfl, ?_, ?_, ?_⟩
  · decide
  · decide
  · decide

/-- With a hit reported once, the consumer holds the hash of one block twice. -/
theorem replay_registered_reported : ∃ s : Observed Unit 2, History plainEvents 16 s ∧
    ∃ held, replay 0 (s.events.map KVCacheEvent.effect) = some held ∧
      held.count (.bytes [7], 0) = 1 + 1 := by
  obtain ⟨s, h, hreports, -, hregistered⟩ := exists_reported_history
  obtain ⟨⟨held, hreplay, hcount⟩, -⟩ := History.replay_registered (by decide) h
  refine ⟨s, h, held, hreplay, ?_⟩
  rw [hcount, hregistered, hreports]

/-- A request with two hashed blocks. -/
def twoHashes : Request := { blockHashes := [[7], [8]] }

/-- A consumer does not hold just what is registered, and the parent of a stored event is not
always the hash before its first one. A hit is reported again, and a range whose first block is
masked out keeps the parent of the range. -/
theorem replay_counts_reports : (∃ s : Observed Unit 2, History plainEvents 16 s ∧
      ∃ held x, replay 0 (s.events.map KVCacheEvent.effect) = some held ∧
        held.count x ≠ ∑ b, (s.pool.keysOf b).countP fun key => plainEvents.external key = x) ∧
    ∃ s : Observed Unit 3, History plainEvents 16 s ∧
      ∃ emission ∈ s.log, ∃ event, .blockStored event ∈ emission.events ∧
        emission.request = some twoHashes ∧ event.blockHashes = [.bytes [8]] ∧
        event.parentBlockHash ≠ some (.bytes [7]) := by
  constructor
  · obtain ⟨s, h, -, hheld, hregistered⟩ := exists_reported_history
    obtain ⟨held, hreplay, hcount⟩ := map_eq_some_iff.mp hheld
    refine ⟨s, h, held, (.bytes [7], 0), hreplay, ?_⟩
    rw [hcount, hregistered]
    decide
  · have hnew : History plainEvents 16 (⟨(new 3 true 16).get rfl, 0, [], 0⟩ : Observed Unit 3) :=
      .new (some_get _).symm
    have hcached := (hnew.getNewBlocks () 2).hash
      (.cacheFullBlocks twoHashes [1, 2] 0 2 16 0 (some [false, true])) (by decide) rfl rfl
    exact ⟨_, hcached, _, mem_append_right _ (.head _), _, mem_cons_self, rfl, rfl, by decide⟩

end BlockPool

end Sonar
