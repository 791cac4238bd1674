import Mathlib.Data.Multiset.Count
import Sonar.Core.BlockPoolHashes

/-!
# References and the free list

`RefInv p pending held` ties the reference counts of a pool to the references its callers hold
(`held`, a multiset of blocks) and to the free list: a block's count is the number of references
held to it, and the free list holds exactly the non-null blocks with count zero. `pending` are
blocks whose count has reached zero inside an operation that will put them on the free list when
its loop is done; between operations there are none.

The operations that move references keep `RefInv` with the ledger moved accordingly, and do not
touch hashes (`SameHashes`) except for `get_new_blocks`, which evicts the blocks it hands out.
-/

namespace Sonar

open Lib List

namespace BlockPool

open Multiset (add_cons coe_nil cons_add cons_coe count_cons_of_ne mem_cons_self zero_add)

variable {n : ℕ} {p p' : BlockPool n} {b c : Fin n} {pending : List (Fin n)}
  {held : Multiset (Fin n)}

/-- Two pools have the same hashes. -/
structure SameHashes (p p' : BlockPool n) : Prop where
  enableCaching : p'.enableCaching = p.enableCaching
  hashBlockSize : p'.hashBlockSize = p.hashBlockSize
  blockHash : p'.blockHash = p.blockHash
  blockHashNumTokens : p'.blockHashNumTokens = p.blockHashNumTokens
  map : p'.cachedBlockHashToBlock = p.cachedBlockHashToBlock
  aliases : p'.cachedBlockHashesByBlock = p.cachedBlockHashesByBlock

private theorem SameHashes.refl : SameHashes p p := ⟨rfl, rfl, rfl, rfl, rfl, rfl⟩

private theorem SameHashes.trans {p'' : BlockPool n} (h : SameHashes p p') (h' : SameHashes p' p'') :
    SameHashes p p'' :=
  ⟨h'.enableCaching.trans h.enableCaching, h'.hashBlockSize.trans h.hashBlockSize,
    h'.blockHash.trans h.blockHash, h'.blockHashNumTokens.trans h.blockHashNumTokens,
    h'.map.trans h.map, h'.aliases.trans h.aliases⟩

/-- The keys of a block are the same. -/
theorem SameHashes.keysOf (h : SameHashes p p') (b : Fin n) : p'.keysOf b = p.keysOf b := by
  rw [BlockPool.keysOf, BlockPool.keysOf, h.blockHash, h.aliases]

/-- Without a change of the hashes their invariant stays. -/
theorem HashInv.of_sameHashes (h : HashInv p) (hsame : SameHashes p p') : HashInv p' := by
  refine ⟨hsame.map ▸ h.wf, fun key b => ?_, fun b => ?_, fun b hb => ?_⟩
  · rw [hsame.map, hsame.keysOf]
    exact h.mem_iff key b
  · rw [hsame.keysOf]
    exact h.nodup b
  · rw [hsame.blockHash] at hb
    rw [hsame.aliases, hsame.blockHashNumTokens]
    exact h.unhashed b hb

/-- The free list, with `pending` still to be added to it, holds the non-null blocks that nobody
refers to. -/
def FreeExactly (p : BlockPool n) (pending : List (Fin n)) : Prop :=
  ∃ l, p.freeBlockQueue.Represents l ∧ (l ++ pending).Nodup ∧
    ∀ b, b ∈ l ++ pending ↔ p.isNull b = false ∧ p.refCnt b = 0

/-- The counts are the references held, and the free list is what nobody holds. -/
structure RefInv (p : BlockPool n) (pending : List (Fin n)) (held : Multiset (Fin n)) : Prop where
  free : p.FreeExactly pending
  count : ∀ b, p.isNull b = false → p.refCnt b = held.count b
  notNull : ∀ b ∈ held, p.isNull b = false
  isNull_iff : ∀ b, p.isNull b = true ↔ b = p.nullBlock

/-- Without a change of the counts their invariant stays. -/
theorem RefInv.of_sameRefs (h : RefInv p pending held) (hsame : SameRefs p p') :
    RefInv p' pending held := by
  obtain ⟨l, hl, hnodup, hmem⟩ := h.free
  refine ⟨⟨l, hsame.freeBlockQueue ▸ hl, hnodup, fun b => ?_⟩, fun b hb => ?_, fun b hb => ?_,
    fun b => ?_⟩
  · rw [hsame.isNull, hsame.refCnt]
    exact hmem b
  · rw [hsame.isNull] at hb
    rw [hsame.refCnt]
    exact h.count b hb
  · rw [hsame.isNull]
    exact h.notNull b hb
  · rw [hsame.isNull, hsame.nullBlock]
    exact h.isNull_iff b

private theorem RefInv.perm {pending' : List (Fin n)} (h : RefInv p pending held)
    (hperm : pending.Perm pending') : RefInv p pending' held := by
  obtain ⟨l, hl, hnodup, hmem⟩ := h.free
  have happend : (l ++ pending).Perm (l ++ pending') := hperm.append_left l
  refine ⟨⟨l, hl, happend.nodup_iff.mp hnodup, fun b => ?_⟩, h.count, h.notNull, h.isNull_iff⟩
  rw [← happend.mem_iff]
  exact hmem b

/-- The free list absorbs the pending blocks, in any arrangement. -/
private theorem RefInv.absorb {queue : LinkedList (Fin n)} {l l' : List (Fin n)}
    (h : RefInv p pending held) (hl : p.freeBlockQueue.Represents l) (hq : queue.Represents l')
    (hperm : (l ++ pending).Perm l') : RefInv { p with freeBlockQueue := queue } [] held := by
  obtain ⟨l0, hl0, hnodup, hmem⟩ := h.free
  obtain rfl := hl0.path.unique hl.path
  refine ⟨⟨l', hq, ?_, fun b => ?_⟩, h.count, h.notNull, h.isNull_iff⟩
  · rw [append_nil]
    exact hperm.nodup_iff.mp hnodup
  · rw [append_nil, ← hperm.mem_iff]
    exact hmem b

/-- A new pool: every block but the null block is free. -/
theorem refInv_new {enableCaching : Bool} {hashBlockSize : ℕ}
    (h : new n enableCaching hashBlockSize = some p) : RefInv p [] 0 ∧ HashInv p := by
  have hrep := LinkedList.represents_ofList (nodup_finRange n)
  rcases hl : finRange n with _ | ⟨null, rest⟩
  · rw [new, hl] at h
    cases h
  rw [hl] at hrep
  obtain ⟨queue, hpop, hqueue⟩ := hrep.popleft
  rw [new, hl, hpop] at h
  obtain rfl := Option.some.inj h
  have hnodup : (null :: rest).Nodup := hl ▸ nodup_finRange n
  refine ⟨⟨⟨rest, hqueue, by simpa using hqueue.nodup, fun b => ?_⟩, fun b _ => rfl, ?_, ?_⟩,
    ⟨BlockHashToBlockMap.wf_empty, fun key b => ?_, fun b => ?_, fun b _ => ⟨rfl, rfl⟩⟩⟩
  · have hb : b ∈ null :: rest := hl ▸ mem_finRange b
    have hnull : null ∉ rest := (nodup_cons.mp hnodup).1
    simp only [append_nil, decide_eq_false_iff_not, and_true]
    constructor
    · rintro hmem rfl
      exact hnull hmem
    · intro hne
      exact (mem_cons.mp hb).resolve_left hne
  · intro b hb
    exact absurd hb (Multiset.notMem_zero b)
  · intro b
    simp
  · simp [BlockHashToBlockMap.blocks_empty, keysOf]
  · simp [keysOf]

/-! ### Taking references -/

/-- The blocks of a list that are not null. -/
def live (p : BlockPool n) (bs : List (Fin n)) : List (Fin n) := bs.filter fun b => !p.isNull b

private theorem live_cons_of_null {bs : List (Fin n)} (h : p.isNull b = true) :
    p.live (b :: bs) = p.live bs := by
  simp [live, h]

/-- A block other than the null block counts. -/
theorem live_cons {bs : List (Fin n)} (h : p.isNull b = false) :
    p.live (b :: bs) = b :: p.live bs := by
  simp [live, h]

/-- Counting references changes no hash. -/
theorem sameHashes_addRef (p : BlockPool n) (b : Fin n) (d : ℤ) : SameHashes p (p.addRef b d) :=
  ⟨rfl, rfl, rfl, rfl, rfl, rfl⟩

@[simp] theorem addRef_refCnt_self (p : BlockPool n) (b : Fin n) (d : ℤ) :
    (p.addRef b d).refCnt b = p.refCnt b + d := by
  simp [addRef]

private theorem addRef_refCnt_of_ne {d : ℤ} (h : c ≠ b) : (p.addRef b d).refCnt c = p.refCnt c := by
  simp [addRef, h]

/-- Adding to the count of one block and to the references held to it. -/
private theorem count_addRef {held' : Multiset (Fin n)} {d : ℤ}
    (h : ∀ c, p.isNull c = false → p.refCnt c = held.count c)
    (hself : (held'.count b : ℤ) = held.count b + d)
    (hother : ∀ c ≠ b, held'.count c = held.count c) :
    ∀ c, (p.addRef b d).isNull c = false → (p.addRef b d).refCnt c = held'.count c := by
  intro c hc
  by_cases hcb : c = b
  · subst hcb
    rw [addRef_refCnt_self, hself, h c hc]
  · rw [addRef_refCnt_of_ne hcb, hother c hcb, h c hc]

private theorem RefInv.addRef_pending (h : RefInv p (b :: pending) held) :
    RefInv (p.addRef b 1) pending (b ::ₘ held) := by
  obtain ⟨l, hl, hnodup, hmem⟩ := h.free
  have hperm : (l ++ b :: pending).Perm (b :: (l ++ pending)) := perm_middle
  obtain ⟨hb, hnodup'⟩ := nodup_cons.mp (hperm.nodup_iff.mp hnodup)
  obtain ⟨hnull, hzero⟩ := (hmem b).mp (by simp)
  refine ⟨⟨l, hl, hnodup', fun c => ?_⟩, count_addRef h.count ?_ ?_, ?_, h.isNull_iff⟩
  · by_cases hcb : c = b
    · subst hcb
      simp [hb, hzero]
    · rw [addRef_refCnt_of_ne hcb]
      have := hmem c
      rwa [hperm.mem_iff, mem_cons, or_iff_right hcb] at this
  · rw [Multiset.count_cons_self]
    rfl
  · intro c hc
    exact count_cons_of_ne hc held
  · intro c hc
    rcases Multiset.mem_cons.mp hc with rfl | hc
    · exact hnull
    · exact h.notNull c hc

private theorem RefInv.addRef_used (h : RefInv p pending held) (hnull : p.isNull b = false)
    (hb : p.refCnt b ≠ 0) : RefInv (p.addRef b 1) pending (b ::ₘ held) := by
  obtain ⟨l, hl, hnodup, hmem⟩ := h.free
  refine ⟨⟨l, hl, hnodup, fun c => ?_⟩, count_addRef h.count ?_ ?_, ?_, h.isNull_iff⟩
  · by_cases hcb : c = b
    · subst hcb
      have hcount := h.count c hnull
      have hpos : (p.addRef c 1).refCnt c ≠ 0 := by
        rw [addRef_refCnt_self]
        omega
      rw [hmem c]
      exact iff_of_false (fun hc => hb hc.2) fun hc => hpos hc.2
    · rw [addRef_refCnt_of_ne hcb]
      exact hmem c
  · rw [Multiset.count_cons_self]
    rfl
  · intro c hc
    exact count_cons_of_ne hc held
  · intro c hc
    rcases Multiset.mem_cons.mp hc with rfl | hc
    · exact hnull
    · exact h.notNull c hc

/-- Dropping a reference leaves the block in use, or pending if it was the last one. -/
private theorem RefInv.dropRef (h : RefInv p pending (b ::ₘ held)) :
    RefInv (p.addRef b (-1)) (if (p.addRef b (-1)).refCnt b = 0 then b :: pending else pending)
      held := by
  obtain ⟨l, hl, hnodup, hmem⟩ := h.free
  have hnull : p.isNull b = false := h.notNull b (mem_cons_self b held)
  have hcount : p.refCnt b = held.count b + 1 := by
    rw [h.count b hnull, Multiset.count_cons_self]
    rfl
  have hb : b ∉ l ++ pending := by
    intro hb
    have := ((hmem b).mp hb).2
    omega
  refine ⟨⟨l, hl, ?_, fun c => ?_⟩, count_addRef h.count ?_ ?_, ?_, h.isNull_iff⟩
  · split_ifs
    · exact (perm_middle.nodup_iff).mpr (nodup_cons.mpr ⟨hb, hnodup⟩)
    · exact hnodup
  · by_cases hcb : c = b
    · subst hcb
      split_ifs with hzero
      · exact iff_of_true (by simp) ⟨hnull, hzero⟩
      · exact iff_of_false hb fun hc => hzero hc.2
    · have hmem' : c ∈ l ++ (if (p.addRef b (-1)).refCnt b = 0 then b :: pending else pending) ↔
          c ∈ l ++ pending := by
        split_ifs
        · rw [perm_middle.mem_iff, mem_cons, or_iff_right hcb]
        · rfl
      rw [hmem', addRef_refCnt_of_ne hcb]
      exact hmem c
  · rw [Multiset.count_cons_self]
    omega
  · intro c hc
    exact (count_cons_of_ne hc held).symm
  · intro c hc
    exact h.notNull c (Multiset.mem_cons_of_mem hc)

/-- Taking a free block off the free list makes it pending. -/
private theorem RefInv.remove (h : RefInv p [] held) (hnull : p.isNull b = false) (hb : p.refCnt b = 0) :
    ∃ queue, p.freeBlockQueue.remove b = some queue ∧
      RefInv { p with freeBlockQueue := queue } [b] held := by
  obtain ⟨l, hl, hnodup, hmem⟩ := h.free
  rw [append_nil] at hnodup
  have hbl : b ∈ l := by
    rw [← append_nil l]
    exact (hmem b).mpr ⟨hnull, hb⟩
  obtain ⟨queue, hremove, hqueue⟩ := hl.remove hbl
  have hperm : (l.erase b ++ [b]).Perm l :=
    (perm_append_singleton b _).trans (perm_cons_erase hbl).symm
  refine ⟨queue, hremove, ⟨l.erase b, hqueue, hperm.nodup_iff.mpr hnodup, fun c => ?_⟩, h.count,
    h.notNull, h.isNull_iff⟩
  rw [hperm.mem_iff, ← append_nil l]
  exact hmem c

section

variable (bs : List (Fin n))

include bs

/-- Touched blocks have one more owner each, and no error occurs. -/
theorem touch_spec (h : RefInv p [] held) :
    (touch bs p).1 = .ok () ∧ RefInv (touch bs p).2 [] (↑(p.live bs) + held) ∧
      SameHashes p (touch bs p).2 := by
  induction bs generalizing p held with
  | nil =>
    refine ⟨rfl, ?_, .refl⟩
    rw [live, filter_nil, coe_nil, zero_add]
    exact h
  | cons b bs ih =>
    rw [touch]
    split_ifs with hnull hzero
    · rw [live_cons_of_null hnull]
      exact ih h
    all_goals
      rw [Bool.not_eq_true] at hnull
      rw [live_cons hnull, ← cons_coe, cons_add, ← add_cons]
    · -- a free block leaves the free list
      obtain ⟨queue, hremove, hpending⟩ := h.remove hnull hzero
      rw [hremove]
      obtain ⟨hok, hinv, hsame⟩ := ih hpending.addRef_pending
      have hqueue : SameHashes p { p with freeBlockQueue := queue } := ⟨rfl, rfl, rfl, rfl, rfl, rfl⟩
      exact ⟨hok, hinv, (hqueue.trans (sameHashes_addRef _ b 1)).trans hsame⟩
    · obtain ⟨hok, hinv, hsame⟩ := ih (h.addRef_used hnull hzero)
      exact ⟨hok, hinv, (sameHashes_addRef p b 1).trans hsame⟩

/-! ### Dropping references -/

private theorem freeLoop_spec (h : RefInv p pending (↑(p.live bs) + held)) :
    RefInv (freeLoop bs p).2.2 (pending ++ ((freeLoop bs p).1 ++ (freeLoop bs p).2.1)) held ∧
      SameHashes p (freeLoop bs p).2.2 := by
  induction bs generalizing p pending with
  | nil =>
    refine ⟨?_, .refl⟩
    rw [live, filter_nil, coe_nil, zero_add] at h
    rw [freeLoop, append_nil, append_nil]
    exact h
  | cons b bs ih =>
    rw [freeLoop]
    by_cases hnull : p.isNull b = true
    · rw [live_cons_of_null hnull] at h
      rw [if_pos hnull]
      exact ih h
    rw [if_neg hnull]
    rw [Bool.not_eq_true] at hnull
    rw [live_cons hnull, ← cons_coe, cons_add] at h
    obtain ⟨hinv, hsame⟩ := ih h.dropRef
    have hsame' := (sameHashes_addRef p b (-1)).trans hsame
    by_cases hzero : (p.addRef b (-1)).refCnt b = 0
    · -- the block joins the blocks to evict first, or those to evict last
      rw [if_pos hzero] at hinv ⊢
      split_ifs
      · exact ⟨hinv.perm perm_middle.symm, hsame'⟩
      · refine ⟨hinv.perm ?_, hsame'⟩
        refine trans ?_ (perm_middle.symm.append_left pending)
        exact perm_middle.symm
    · rw [if_neg hzero] at hinv ⊢
      exact ⟨hinv, hsame'⟩

/-- Freed blocks have one owner less each, and no error occurs. -/
theorem freeBlocks_spec (h : RefInv p [] (↑(p.live bs) + held)) :
    (p.freeBlocks bs).1 = .ok () ∧ RefInv (p.freeBlocks bs).2 [] held ∧
      SameHashes p (p.freeBlocks bs).2 := by
  obtain ⟨hinv, hsame⟩ := freeLoop_spec bs h
  rw [nil_append] at hinv
  obtain ⟨l, hl, hnodup, -⟩ := hinv.free
  obtain ⟨hl', hnew, hdisj⟩ := nodup_append.mp hnodup
  obtain ⟨hfirst, hlast, hdisj'⟩ := nodup_append.mp hnew
  obtain ⟨queue, hprepend, hqueue⟩ := hl.prependN hfirst fun b hb hbl =>
    hdisj b hbl b (mem_append_left _ hb) rfl
  obtain ⟨queue', happend, hqueue'⟩ := hqueue.appendN hlast fun b hb hbl => by
    rcases mem_append.mp hbl with hbl | hbl
    · exact hdisj' b hbl b hb rfl
    · exact hdisj b hbl b (mem_append_right _ hb) rfl
  simp only [freeBlocks, hprepend, happend]
  refine ⟨trivial, hinv.absorb hl hqueue' ?_, hsame.trans ⟨rfl, rfl, rfl, rfl, rfl, rfl⟩⟩
  rw [← append_assoc]
  exact perm_append_comm.append_right _

/-- Every block of the list is held: none is null and each is referred to. -/
private theorem unpinLoop_spec (h : RefInv p pending (↑bs + held)) :
    ∃ released, (unpinLoop bs p).1 = .ok released ∧
      RefInv (unpinLoop bs p).2 (pending ++ released) held ∧ SameHashes p (unpinLoop bs p).2 := by
  induction bs generalizing p pending with
  | nil =>
    rw [coe_nil, zero_add] at h
    exact ⟨[], rfl, by rwa [append_nil], .refl⟩
  | cons b bs ih =>
    rw [← cons_coe, cons_add] at h
    have hnull : p.isNull b = false := h.notNull b (mem_cons_self b _)
    have hpos : p.refCnt b > 0 := by
      rw [h.count b hnull, Multiset.count_cons_self]
      omega
    rw [unpinLoop, if_pos ⟨hpos, hnull⟩]
    dsimp only
    -- arming the reuse callback changes neither references nor hashes
    set q : BlockPool n :=
      { p.addRef b (-1) with reuseWatchers := Function.update p.reuseWatchers b true }
    have hdrop : RefInv q (if q.refCnt b = 0 then b :: pending else pending) (↑bs + held) :=
      h.dropRef.of_sameRefs ⟨rfl, rfl, rfl, rfl, rfl, rfl⟩
    have hsame : SameHashes p q := ⟨rfl, rfl, rfl, rfl, rfl, rfl⟩
    obtain ⟨released, hok, hinv, hsame'⟩ := ih hdrop
    refine ⟨if q.refCnt b = 0 then b :: released else released, ?_⟩
    have hrun : unpinLoop bs q = (.ok released, (unpinLoop bs q).2) := Prod.ext hok rfl
    rw [hrun]
    refine ⟨rfl, ?_, hsame.trans hsame'⟩
    split_ifs at hinv ⊢
    · exact hinv.perm perm_middle.symm
    · exact hinv

/-- Unpinned blocks have one owner less each, and no error occurs. -/
theorem unpinBlocks_spec (h : RefInv p [] (↑bs + held)) :
    (p.unpinBlocks bs).1 = .ok () ∧ RefInv (p.unpinBlocks bs).2 [] held ∧
      SameHashes p (p.unpinBlocks bs).2 := by
  obtain ⟨released, hok, hinv, hsame⟩ := unpinLoop_spec bs h
  rw [nil_append] at hinv
  obtain ⟨l, hl, hnodup, -⟩ := hinv.free
  obtain ⟨-, hreleased, hdisj⟩ := nodup_append.mp hnodup
  obtain ⟨queue, happend, hqueue⟩ := hl.appendN hreleased fun b hb hbl => hdisj b hbl b hb rfl
  have hrun : unpinLoop bs p = (.ok released, (unpinLoop bs p).2) := Prod.ext hok rfl
  rw [unpinBlocks, hrun]
  simp only [happend]
  exact ⟨trivial, hinv.absorb hl hqueue (.refl _), hsame.trans ⟨rfl, rfl, rfl, rfl, rfl, rfl⟩⟩

end

/-! ### Handing out blocks -/

/-- The keys of a block once the blocks `taken` have been handed out: those are evicted, unless
caching is off. -/
def keysAfterTake (p : BlockPool n) (taken : List (Fin n)) (b : Fin n) :
    List BlockHashWithGroupId :=
  if p.enableCaching = true ∧ b ∈ taken then [] else p.keysOf b

/-- What `get_new_blocks` does to the hashes of one block. -/
private theorem evict_spec (h : HashInv p) (b : Fin n) {q : BlockPool n}
    (hq : q = if p.enableCaching then (p.maybeEvictCachedBlock b).2 else p) :
    HashStep p q ∧ ∀ c, q.keysOf c = p.keysAfterTake [b] c := by
  subst hq
  split_ifs with hcaching
  · refine ⟨hashStep_remove h b, fun c => ?_⟩
    obtain ⟨-, -, -, hself, hother⟩ := removeCachedBlockHashes_spec h b
    by_cases hcb : c = b
    · subst hcb
      simpa [keysAfterTake, maybeEvictCachedBlock, hcaching] using hself
    · simpa [keysAfterTake, maybeEvictCachedBlock, hcb] using hother c hcb
  · exact ⟨.refl h, fun c => by simp [keysAfterTake, hcaching]⟩

private theorem takeBlocks_spec (bs : List (Fin n)) (h : RefInv p bs held) (hhash : HashInv p) :
    (takeBlocks bs p).1 = .ok () ∧ RefInv (takeBlocks bs p).2 [] (↑bs + held) ∧
      HashInv (takeBlocks bs p).2 ∧ (takeBlocks bs p).2.isNull = p.isNull ∧
      (takeBlocks bs p).2.hashBlockSize = p.hashBlockSize ∧
      ∀ b, (takeBlocks bs p).2.keysOf b = p.keysAfterTake bs b := by
  induction bs generalizing p held with
  | nil =>
    rw [coe_nil, zero_add]
    refine ⟨rfl, h, hhash, rfl, rfl, fun b => ?_⟩
    simp [keysAfterTake, takeBlocks]
  | cons b bs ih =>
    rw [takeBlocks]
    generalize hq : (if p.enableCaching then (p.maybeEvictCachedBlock b).2 else p) = q
    obtain ⟨hstep, hkeys⟩ := evict_spec hhash b hq.symm
    have hpending : RefInv q (b :: bs) held := h.of_sameRefs hstep.refs
    have hzero : q.refCnt b = 0 := by
      obtain ⟨l, -, -, hmem⟩ := hpending.free
      exact ((hmem b).mp (by simp)).2
    have hsame := sameHashes_addRef q b 1
    obtain ⟨hok, hinv, hhash', hnull, hsize, hkeys'⟩ :=
      ih hpending.addRef_pending (hstep.inv.of_sameHashes hsame)
    rw [if_pos hzero]
    refine ⟨hok, ?_, hhash', hnull.trans hstep.refs.isNull,
      hsize.trans hstep.refs.hashBlockSize, fun c => ?_⟩
    · rw [← cons_coe, cons_add, ← add_cons]
      exact hinv
    · rw [hkeys']
      simp only [keysAfterTake, hsame.enableCaching.trans hstep.refs.enableCaching, hsame.keysOf,
        hkeys, mem_cons]
      split_ifs <;> tauto

/-- `get_new_blocks` hands out the front of the free list, or raises and changes nothing. -/
theorem getNewBlocks_spec (h : RefInv p [] held) (hhash : HashInv p) (numBlocks : ℕ) :
    (p.getNumFreeBlocks < numBlocks ∧ p.getNewBlocks numBlocks = (.error .valueError, p)) ∨
    ∃ ret p', p.getNewBlocks numBlocks = (.ok ret, p') ∧ ret.length = numBlocks ∧ ret.Nodup ∧
      (∀ b ∈ ret, p.isNull b = false ∧ p.refCnt b = 0 ∧ p'.refCnt b = 1) ∧
      p'.isNull = p.isNull ∧ p'.hashBlockSize = p.hashBlockSize ∧ RefInv p' [] (↑ret + held) ∧
      HashInv p' ∧ ∀ b, p'.keysOf b = p.keysAfterTake ret b := by
  obtain ⟨l, hl, hnodup, hmem⟩ := h.free
  rw [append_nil] at hnodup
  have hsize : p.getNumFreeBlocks = l.length := hl.size_eq
  rw [getNewBlocks]
  by_cases hn : numBlocks > p.getNumFreeBlocks
  · exact .inl ⟨hn, if_pos hn⟩
  rw [if_neg hn]
  have hn' : numBlocks ≤ l.length := by omega
  obtain ⟨queue, hpop, hqueue⟩ := hl.popleftN hn'
  rw [hpop]
  dsimp only
  set ret := l.take numBlocks
  set q := notifyReuse { p with freeBlockQueue := queue } ret
  have hperm : (l.drop numBlocks ++ ret).Perm l := by
    refine perm_append_comm.trans ?_
    rw [take_append_drop]
  have hpending : RefInv q ret held := by
    refine ⟨⟨_, hqueue, hperm.nodup_iff.mpr hnodup, fun b => ?_⟩, h.count, h.notNull, h.isNull_iff⟩
    rw [hperm.mem_iff, ← append_nil l]
    exact hmem b
  have hq : SameHashes p q := ⟨rfl, rfl, rfl, rfl, rfl, rfl⟩
  obtain ⟨hok, hinv, hhash', hnull, hblock, hkeys⟩ :=
    takeBlocks_spec ret hpending (hhash.of_sameHashes hq)
  have hrun : takeBlocks ret q = (.ok (), (takeBlocks ret q).2) := Prod.ext hok rfl
  have hret : ∀ b ∈ ret, p.isNull b = false ∧ p.refCnt b = 0 := by
    intro b hb
    refine (hmem b).mp ?_
    rw [append_nil]
    exact mem_of_mem_take hb
  have hnodup' : ret.Nodup := hnodup.sublist (take_sublist _ _)
  refine .inr ⟨ret, (takeBlocks ret q).2, by rw [hrun], length_take_of_le hn', hnodup',
    fun b hb => ⟨(hret b hb).1, (hret b hb).2, ?_⟩, hnull, hblock, hinv, hhash', fun b => ?_⟩
  · -- nobody held the block before, and the caller holds it once
    have hbnull := (hret b hb).1
    have hheld : (held.count b : ℤ) = 0 := by
      rw [← h.count b hbnull]
      exact (hret b hb).2
    rw [hinv.count b (hnull ▸ hbnull), Multiset.count_add, Multiset.coe_count,
      count_eq_one_of_mem hnodup' hb]
    omega
  · rw [hkeys b]
    simp [keysAfterTake, hq.enableCaching, hq.keysOf]

end BlockPool

end Sonar
