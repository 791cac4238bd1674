import Sonar.Core.BlockPoolRefs

/-!
# Runs of a block pool

Several callers share one pool. A **ledger** records the references each of them holds: a caller
gains them by `get_new_blocks` and `touch` and gives them up by `free_blocks` and `unpin_blocks`,
and it may give up only what it holds. The operations on hashes are unrestricted. A run starts from
a new pool and performs any sequence of these steps, including ones that raise.

The three representations a pool keeps (reference counts and free list, map of keys, keys recorded
per block) agree after every step of every run.
-/

namespace Sonar

open Lib List

namespace BlockPool

variable {ι : Type} {n : ℕ} {p p' : BlockPool n}

/-- The operations on hashes. -/
inductive HashOp (n : ℕ) where
  | cacheFullBlocks (request : Request) (blocks : List (Fin n))
      (numCachedBlocks numFullBlocks blockSize groupId : ℕ) (blockMask : Option (List Bool))
  | cachePartialBlock (request : Request) (b : Fin n) (numTokens groupId blockSize : ℕ)
      (replaceExistingHashes : Bool)
  | moveBlockHashes (src dst : Fin n)
  | evictBlocks (ids : List ℕ)
  | resetPrefixCache

/-- The pool an operation on hashes leaves behind, whether or not it raises. -/
def HashOp.run (p : BlockPool n) : HashOp n → BlockPool n
  | .cacheFullBlocks request blocks numCachedBlocks numFullBlocks blockSize groupId blockMask =>
    (p.cacheFullBlocks request blocks numCachedBlocks numFullBlocks blockSize groupId blockMask).2
  | .cachePartialBlock request b numTokens groupId blockSize replaceExistingHashes =>
    (p.cachePartialBlock request b numTokens groupId blockSize replaceExistingHashes).2
  | .moveBlockHashes src dst => (p.moveBlockHashes src dst).2
  | .evictBlocks ids => (BlockPool.evictBlocks ids p).2
  | .resetPrefixCache => p.resetPrefixCache.2

/-- Every operation on hashes is such a step. -/
theorem HashOp.hashStep (op : HashOp n) (h : HashInv p) : HashStep p (op.run p) := by
  cases op with
  | cacheFullBlocks => exact hashStep_cacheFullBlocks h
  | cachePartialBlock => exact hashStep_cachePartialBlock h
  | moveBlockHashes src dst => exact hashStep_moveBlockHashes h
  | evictBlocks ids => exact hashStep_evictBlocks h
  | resetPrefixCache => exact hashStep_resetPrefixCache h

/-- The references held, each with the caller that holds it. -/
abbrev Ledger (ι : Type) (n : ℕ) := Multiset (ι × Fin n)

/-- One reference of caller `i` to each block of a list. -/
def refsOf (i : ι) (bs : List (Fin n)) : Ledger ι n := ↑(bs.map (Prod.mk i))

/-- The blocks a ledger refers to, with multiplicity. -/
def Ledger.blocks (ledger : Ledger ι n) : Multiset (Fin n) := ledger.map Prod.snd

/-- The blocks of a ledger, with one more entry. -/
theorem blocks_refsOf_add (i : ι) (bs : List (Fin n)) (ledger : Ledger ι n) :
    Ledger.blocks (refsOf i bs + ledger) = ↑bs + Ledger.blocks ledger := by
  simp [Ledger.blocks, refsOf]

/-- The blocks `get_new_blocks` returned, none if it raised. -/
def granted (p : BlockPool n) (numBlocks : ℕ) : List (Fin n) :=
  match (p.getNewBlocks numBlocks).1 with
  | .ok ret => ret
  | .error _ => []

/-- One operation by some caller, and what it does to the ledger. -/
inductive PoolStep : BlockPool n → Ledger ι n → BlockPool n → Ledger ι n → Prop
  | getNewBlocks (p : BlockPool n) (ledger : Ledger ι n) (i : ι) (numBlocks : ℕ) :
    PoolStep p ledger (p.getNewBlocks numBlocks).2 (refsOf i (p.granted numBlocks) + ledger)
  | touch (p : BlockPool n) (ledger : Ledger ι n) (i : ι) (blocks : List (Fin n)) :
    PoolStep p ledger (touch blocks p).2 (refsOf i (p.live blocks) + ledger)
  -- a caller frees what it holds; null blocks in its list are not references
  | freeBlocks (p : BlockPool n) (rest : Ledger ι n) (i : ι) (orderedBlocks : List (Fin n)) :
    PoolStep p (refsOf i (p.live orderedBlocks) + rest) (p.freeBlocks orderedBlocks).2 rest
  | unpinBlocks (p : BlockPool n) (rest : Ledger ι n) (i : ι) (blocks : List (Fin n)) :
    PoolStep p (refsOf i blocks + rest) (p.unpinBlocks blocks).2 rest
  | hash (p : BlockPool n) (ledger : Ledger ι n) (op : HashOp n) :
    PoolStep p ledger (op.run p) ledger

/-- A pool and a ledger that some sequence of operations leads to. -/
inductive PoolRun : BlockPool n → Ledger ι n → Prop
  | new {enableCaching : Bool} {hashBlockSize : ℕ} {p : BlockPool n}
      (h : BlockPool.new n enableCaching hashBlockSize = some p) : PoolRun p 0
  | step {p p' : BlockPool n} {ledger ledger' : Ledger ι n} (h : PoolRun p ledger)
      (hstep : PoolStep p ledger p' ledger') : PoolRun p' ledger'

/-- What holds between operations. -/
structure PoolInv (p : BlockPool n) (ledger : Ledger ι n) : Prop where
  refs : RefInv p [] ledger.blocks
  hashes : HashInv p

/-- Every operation keeps the ledger. -/
theorem PoolInv.step {ledger ledger' : Ledger ι n} (h : PoolInv p ledger)
    (hstep : PoolStep p ledger p' ledger') : PoolInv p' ledger' := by
  cases hstep with
  | getNewBlocks _ i numBlocks =>
    rcases getNewBlocks_spec h.refs h.hashes numBlocks with
      ⟨-, hraise⟩ | ⟨ret, q, hok, -, -, -, -, -, hrefs, hhashes, -⟩
    · have hgranted : p.granted numBlocks = [] := by rw [granted, hraise]
      refine ⟨?_, ?_⟩
      · rw [blocks_refsOf_add, hgranted, hraise, Multiset.coe_nil, Multiset.zero_add]
        exact h.refs
      · rw [hraise]
        exact h.hashes
    · have hgranted : p.granted numBlocks = ret := by rw [granted, hok]
      refine ⟨?_, ?_⟩
      · rw [blocks_refsOf_add, hgranted, hok]
        exact hrefs
      · rw [hok]
        exact hhashes
  | touch _ i blocks =>
    obtain ⟨-, hrefs, hsame⟩ := touch_spec blocks h.refs
    exact ⟨by rwa [blocks_refsOf_add], h.hashes.of_sameHashes hsame⟩
  | freeBlocks _ i orderedBlocks =>
    have hheld := h.refs
    rw [blocks_refsOf_add] at hheld
    obtain ⟨-, hrefs, hsame⟩ := freeBlocks_spec _ hheld
    exact ⟨hrefs, h.hashes.of_sameHashes hsame⟩
  | unpinBlocks _ i blocks =>
    have hheld := h.refs
    rw [blocks_refsOf_add] at hheld
    obtain ⟨-, hrefs, hsame⟩ := unpinBlocks_spec blocks hheld
    exact ⟨hrefs, h.hashes.of_sameHashes hsame⟩
  | hash _ op =>
    have hop := op.hashStep h.hashes
    exact ⟨h.refs.of_sameRefs hop.refs, hop.inv⟩

private theorem PoolRun.inv {ledger : Ledger ι n} (h : PoolRun p ledger) : PoolInv p ledger := by
  induction h with
  | new h =>
    obtain ⟨hrefs, hhashes⟩ := refInv_new h
    exact ⟨hrefs, hhashes⟩
  | step _ hstep ih => exact ih.step hstep

/-- **The representations of a pool agree after every operation of every run.** The free list is a
well-formed doubly linked list of exactly the non-null blocks nobody refers to; a key maps to a
block just when the block has it on record; and `get_new_blocks` hands out that many distinct free
blocks, evicted when caching is on and with the hashes they had when it is off, or raises and
changes nothing. -/
theorem PoolRun.consistent {ledger : Ledger ι n} (h : PoolRun p ledger) :
    (∃ l, p.freeBlockQueue.Represents l ∧ l.Nodup ∧ p.getNumFreeBlocks = l.length ∧
      ∀ b, b ∈ l ↔ p.isNull b = false ∧ p.refCnt b = 0) ∧
    (∀ key b, b ∈ p.cachedBlockHashToBlock.blocks key ↔
      p.blockHash b = some key ∨ key ∈ p.cachedBlockHashesByBlock b) ∧ ∀ numBlocks,
      (∃ e, p.getNewBlocks numBlocks = (.error e, p)) ∨
      ∃ ret p', p.getNewBlocks numBlocks = (.ok ret, p') ∧ ret.length = numBlocks ∧ ret.Nodup ∧
        ∀ b ∈ ret, (p.isNull b = false ∧ p.refCnt b = 0) ∧ p'.refCnt b = 1 ∧
          (p.enableCaching = true → p'.blockHash b = none ∧ p'.cachedBlockHashesByBlock b = []) ∧
          (p.enableCaching = false → p'.keysOf b = p.keysOf b) := by
  obtain ⟨hrefs, hhashes⟩ := h.inv
  refine ⟨?_, fun key b => ?_, fun numBlocks => ?_⟩
  · obtain ⟨l, hl, hnodup, hmem⟩ := hrefs.free
    rw [append_nil] at hnodup
    simp only [append_nil] at hmem
    exact ⟨l, hl, hnodup, hl.size_eq, hmem⟩
  · rw [hhashes.mem_iff, mem_keysOf]
  · rcases getNewBlocks_spec hrefs hhashes numBlocks with
      ⟨-, hraise⟩ | ⟨ret, p', hok, hlength, hnodup, hret, -, -, -, -, hkeys⟩
    · exact .inl ⟨_, hraise⟩
    refine .inr ⟨ret, p', hok, hlength, hnodup, fun b hb => ?_⟩
    obtain ⟨hnull, hzero, hone⟩ := hret b hb
    refine ⟨⟨hnull, hzero⟩, hone, fun hcaching => ?_, fun hcaching => ?_⟩
    · have hnil : p'.keysOf b = [] := by rw [hkeys, keysAfterTake, if_pos ⟨hcaching, hb⟩]
      rwa [keysOf, append_eq_nil_iff, Option.toList_eq_nil_iff] at hnil
    · rw [hkeys, keysAfterTake, if_neg (by simp [hcaching])]

/-! ### A block's life -/

/-- A caller takes blocks, caches the first of them for a request and frees them all. -/
def cycle (p : BlockPool n) (numBlocks : ℕ) (request : Request) : BlockPool n :=
  let blocks := p.granted numBlocks
  let p := (p.getNewBlocks numBlocks).2
  let p := (p.cacheFullBlocks request blocks 0 1 p.hashBlockSize 0 none).2
  (p.freeBlocks blocks).2

private theorem PoolRun.cycle {ledger : Ledger ι n} (h : PoolRun p ledger) (i : ι) (numBlocks : ℕ)
    (request : Request) : PoolRun (p.cycle numBlocks request) ledger := by
  have htaken := h.step (.getNewBlocks p ledger i numBlocks)
  generalize hq : (p.getNewBlocks numBlocks).2 = q at htaken
  let op : HashOp n := .cacheFullBlocks request (p.granted numBlocks) 0 1 q.hashBlockSize 0 none
  have hcached := htaken.step (.hash q _ op)
  -- what was granted is not null, so the caller holds a reference to each block it frees
  have hlive : (op.run q).live (p.granted numBlocks) = p.granted numBlocks := by
    rw [live, filter_eq_self, (op.hashStep htaken.inv.hashes).refs.isNull]
    intro b hb
    have hmem : b ∈ Ledger.blocks (refsOf i (p.granted numBlocks) + ledger) := by
      rw [blocks_refsOf_add]
      exact Multiset.mem_add.mpr (.inl hb)
    rw [htaken.inv.refs.notNull b hmem]
    rfl
  have hfree := PoolStep.freeBlocks (op.run q) ledger i (p.granted numBlocks)
  rw [hlive] at hfree
  have hrun := hcached.step hfree
  subst hq
  exact hrun

/-- A request with one hashed block. -/
def oneHash : Request := { blockHashes := [[7]] }

/-- With caching on, a block that was cached and freed is evicted when it is handed out again. -/
theorem poolRun_consistent_cycle :
    PoolRun (((new 3 true 16).get rfl).cycle 1 oneHash) (0 : Ledger Unit 3) ∧
      ∃ ret p', (((new 3 true 16).get rfl).cycle 1 oneHash).getNewBlocks 2 = (.ok ret, p') ∧
        ret.Nodup ∧ ∀ b ∈ ret, p'.blockHash b = none := by
  have hrun : PoolRun (((new 3 true 16).get rfl).cycle 1 oneHash) (0) :=
    (PoolRun.new (Option.some_get _).symm).cycle () 1 oneHash
  have hfree : ((((new 3 true 16).get rfl).cycle 1 oneHash).getNewBlocks 2).1.toBool = true := by
    decide
  refine ⟨hrun, ?_⟩
  obtain ⟨-, -, hnew⟩ := PoolRun.consistent hrun
  rcases hnew 2 with ⟨e, he⟩ | ⟨ret, p', hok, -, hnodup, hret⟩
  · rw [he] at hfree
    cases hfree
  · exact ⟨ret, p', hok, hnodup, fun b hb => ((hret b hb).2.2.1 (by decide)).1⟩

/-- With caching off nothing is evicted: a block that was cached and freed is handed out again with
its hash. -/
theorem getNewBlocks_keeps_hash_caching_off : ∃ (p : BlockPool 2) (ledger : Ledger Unit 2),
    PoolRun p ledger ∧ p.enableCaching = false ∧
      ∃ ret, (p.getNewBlocks 1).1 = .ok ret ∧ ∃ b ∈ ret, (p.getNewBlocks 1).2.blockHash b ≠ none := by
  refine ⟨((new 2 false 16).get rfl).cycle 1 oneHash, 0,
    (PoolRun.new (Option.some_get _).symm).cycle () 1 oneHash, by decide, [1], by decide, 1,
    by decide, by decide⟩

end BlockPool

end Sonar
