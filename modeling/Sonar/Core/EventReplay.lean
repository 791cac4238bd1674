import Mathlib.Algebra.Order.BigOperators.Group.Finset
import Mathlib.Algebra.Order.BigOperators.Group.List
import Mathlib.Tactic.Abel
import Sonar.Core.BlockPoolRuns
import Sonar.Core.BlockPoolEvents

/-!
# Replaying the events of a block pool

A consumer that replays the events of a pool holds a multiset of hashes with their groups. Every
operation that changes which keys are registered reports the difference: what it removes is
reported before what it adds, and what is removed was there when the operation began
(`Replays`). So after any history the consumer holds each hash of a group as many times as blocks
are registered under it, plus the **reports** of hits since the last reset, which repeat hashes
without registering anything.

A `BlockStored` event covers a range of tokens that starts at a block boundary, and its parent is
the hash before that range (`CoversRange`). The blocks of the range need not all be listed.
-/

namespace Sonar

open Lib List EventConfig

namespace BlockPool

variable {ι : Type} {n : ℕ} {p p' : BlockPool n} {b c : Fin n} {cfg : EventConfig}

/-- Keys as a consumer holds them. -/
def externals (cfg : EventConfig) (keys : List BlockHashWithGroupId) :
    Multiset (ExternalBlockHash × ℕ) := ↑(keys.map cfg.external)

@[simp] theorem externals_nil : externals cfg [] = 0 := rfl

private theorem externals_append (keys keys' : List BlockHashWithGroupId) :
    externals cfg (keys ++ keys') = externals cfg keys + externals cfg keys' := by
  rw [externals, map_append]
  rfl

/-- The registered keys, each once for every block that has it. -/
def published (cfg : EventConfig) (p : BlockPool n) : Multiset (ExternalBlockHash × ℕ) :=
  ∑ b, externals cfg (p.keysOf b)

/-- When the keys of one block change, the published keys change by the difference. -/
private theorem published_exchange (cfg : EventConfig) (hother : ∀ c ≠ b, p'.keysOf c = p.keysOf c) :
    published cfg p' + externals cfg (p.keysOf b) =
      published cfg p + externals cfg (p'.keysOf b) := by
  have hrest : ∑ c ∈ Finset.univ.erase b, externals cfg (p'.keysOf c) =
      ∑ c ∈ Finset.univ.erase b, externals cfg (p.keysOf c) :=
    Finset.sum_congr rfl fun c hc => by rw [hother c (Finset.ne_of_mem_erase hc)]
  rw [published, published, ← Finset.add_sum_erase _ _ (Finset.mem_univ b), hrest,
    ← Finset.add_sum_erase _ (fun c => externals cfg _) (Finset.mem_univ b)]
  abel

/-- Only the keys are published. -/
theorem published_congr (h : ∀ c, p'.keysOf c = p.keysOf c) : published cfg p' = published cfg p :=
  Finset.sum_congr rfl fun c _ => by rw [h c]

private theorem published_remove (cfg : EventConfig) (h : HashInv p) (b : Fin n) :
    published cfg p = published cfg (p.removeCachedBlockHashes b).2 +
      externals cfg (p.removeCachedBlockHashes b).1 := by
  obtain ⟨hkeys, -, -, hself, hother⟩ := removeCachedBlockHashes_spec h b
  have hexchange := published_exchange cfg hother
  rw [hself, externals_nil, add_zero] at hexchange
  rw [hkeys, hexchange]

/-- Inserting a key the block does not have adds just it. -/
private theorem published_insert {key : BlockHashWithGroupId} (hins : Inserted p p' key b)
    (hkey : key ∉ p.keysOf b) : published cfg p' = published cfg p + {cfg.external key} := by
  have hexchange := published_exchange cfg hins.other
  rw [hins.keys, if_neg hkey, externals_append, ← add_assoc, add_right_comm] at hexchange
  exact add_right_cancel hexchange

/-! ### What a consumer makes of the events of an operation -/

/-- The events of an operation lead from the keys registered before it to those after it, whatever
else the consumer holds. -/
def Replays (cfg : EventConfig) (p : BlockPool n) (events : List KVCacheEvent)
    (p' : BlockPool n) : Prop :=
  ∀ m, replay (published cfg p + m) (events.map KVCacheEvent.effect) = some (published cfg p' + m)

/-- Without a change there is nothing to report. -/
theorem Replays.none (h : published cfg p' = published cfg p) : Replays cfg p [] p' := by
  intro m
  rw [h]
  rfl

private theorem effect_removedEvents (henable : cfg.enableKvCacheEvents = true)
    (keys : List BlockHashWithGroupId) : (cfg.removedEvents keys).map KVCacheEvent.effect =
      (keys.map cfg.external).map fun key => LogEvent.removed [key] := by
  rw [removedEvents, if_pos henable, map_map, map_map]
  rfl

variable {keys : List BlockHashWithGroupId} {event : BlockStored} {request : Request}
  {events : List KVCacheEvent} {numTokens : ℕ} {blockHash : BlockHash}

/-- Removals, one key at a time, of keys that were registered. -/
theorem replays_removed (henable : cfg.enableKvCacheEvents = true)
    (h : published cfg p = published cfg p' + externals cfg keys) :
    Replays cfg p (cfg.removedEvents keys) p' := by
  intro m
  rw [effect_removedEvents henable]
  refine replay_removed_of_eq ?_
  rw [h, externals, add_right_comm]

/-- Removals of keys that were registered, then one `BlockStored`. -/
private theorem replays_exchange (henable : cfg.enableKvCacheEvents = true)
    (hle : externals cfg keys ≤ published cfg p)
    (h : published cfg p' + externals cfg keys = published cfg p +
      ↑(event.blockHashes.map fun hash => (hash, event.groupIdx))) :
    Replays cfg p (cfg.removedEvents keys ++ [.blockStored event]) p' := by
  intro m
  obtain ⟨rest, hrest⟩ := le_iff_exists_add.mp hle
  have hremoved : replay (published cfg p + m) ((cfg.removedEvents keys).map
      KVCacheEvent.effect) = some (rest + m) := by
    rw [effect_removedEvents henable]
    refine replay_removed_of_eq ?_
    rw [hrest, externals]
    abel
  rw [map_append, replay_append hremoved]
  have hstored : published cfg p' =
      rest + ↑(event.blockHashes.map fun hash => (hash, event.groupIdx)) := by
    rw [hrest, add_comm (externals cfg keys), add_right_comm] at h
    exact add_right_cancel h
  rw [hstored, add_right_comm]
  rfl

/-! ### Taking and evicting blocks -/

section

variable (h : HashInv p)

include h

private theorem published_takeBlocks (cfg : EventConfig) {bs : List (Fin n)}
    (hok : (takeBlocks bs p).1 = .ok ()) : published cfg p = published cfg (takeBlocks bs p).2 +
      externals cfg (takeBlocksRemoved bs p) := by
  induction bs generalizing p with
  | nil => simp [takeBlocks, takeBlocksRemoved]
  | cons b bs ih =>
    rw [takeBlocks] at hok ⊢
    rw [takeBlocksRemoved]
    by_cases hcaching : p.enableCaching = true
    · rw [if_pos hcaching, maybeEvictCachedBlock] at hok ⊢
      rw [if_pos hcaching]
      have hremove := published_remove cfg h b
      have hinv := (hashStep_remove h b).inv
      set q := (p.removeCachedBlockHashes b).2
      have hsame := sameHashes_addRef q b 1
      by_cases hzero : q.refCnt b = 0
      · rw [if_pos hzero] at hok ⊢
        have hrest := ih (hinv.of_sameHashes hsame) hok
        rw [published_congr hsame.keysOf] at hrest
        rw [hremove, hrest, externals_append]
        abel
      · rw [if_neg hzero] at hok
        cases hok
    · rw [if_neg hcaching] at hok ⊢
      rw [if_neg hcaching]
      have hsame := sameHashes_addRef p b 1
      by_cases hzero : p.refCnt b = 0
      · rw [if_pos hzero] at hok ⊢
        have hrest := ih (h.of_sameHashes hsame) hok
        rwa [published_congr hsame.keysOf] at hrest
      · rw [if_neg hzero] at hok
        cases hok

/-- `get_new_blocks` reports what it evicts. -/
theorem replays_getNewBlocks (henable : cfg.enableKvCacheEvents = true) {held : Multiset (Fin n)}
    (hrefs : RefInv p [] held) {numBlocks : ℕ} :
    Replays cfg p (p.getNewBlocksEvents cfg numBlocks) (p.getNewBlocks numBlocks).2 := by
  have hspec := getNewBlocks_spec hrefs h numBlocks
  rw [getNewBlocks] at hspec ⊢
  rw [getNewBlocksEvents]
  by_cases hn : numBlocks > p.getNumFreeBlocks
  · rw [if_pos hn, if_pos hn]
    exact .none rfl
  rw [if_neg hn] at hspec ⊢
  rw [if_neg hn]
  cases hpop : p.freeBlockQueue.popleftN numBlocks with
  | none => exact .none rfl
  | some popped =>
    obtain ⟨ret, queue⟩ := popped
    rw [hpop] at hspec
    dsimp only at hspec ⊢
    have hsame : SameHashes p (notifyReuse { p with freeBlockQueue := queue } ret) :=
      ⟨rfl, rfl, rfl, rfl, rfl, rfl⟩
    set q := notifyReuse { p with freeBlockQueue := queue } ret
    -- the loop returns, since the first alternative raises before it
    have hok : (takeBlocks ret q).1 = .ok () := by
      rcases hrun : takeBlocks ret q with ⟨_ | _, _⟩
      · rw [hrun] at hspec
        rcases hspec with ⟨hlt, -⟩ | ⟨_, _, heq, -⟩
        · exact absurd hlt hn
        · cases heq
      · rfl
    have hrun : takeBlocks ret q = (.ok (), (takeBlocks ret q).2) := Prod.ext hok rfl
    have htaken := published_takeBlocks (h.of_sameHashes hsame) cfg hok
    rw [hrun]
    exact replays_removed henable htaken

/-- The events of an eviction list what was published. -/
theorem published_evictBlocks {ids : List ℕ} :
    published cfg p = published cfg (evictBlocks ids p).2 +
      externals cfg (evictBlocksRemoved ids p) := by
  induction ids generalizing p with
  | nil => simp [evictBlocks, evictBlocksRemoved]
  | cons id ids ih =>
    rw [evictBlocks, evictBlocksRemoved]
    split_ifs with hid
    · rw [externals_append, published_remove cfg h ⟨id, hid⟩, ih (hashStep_remove h ⟨id, hid⟩).inv,
        maybeEvictCachedBlock]
      abel
    · simp

/-! ### Registering keys -/

/-- A block that `cache_full_blocks` registers has its new key and no other. -/
private theorem cacheFullBlock_ok (key : BlockHashWithGroupId) (b : Fin n)
    (numHashTokens : ℕ) (hok : (p.cacheFullBlock key b numHashTokens).1 = .ok ()) :
    (p.cacheFullBlock key b numHashTokens).2.keysOf b = [key] ∧
      ∀ c ≠ b, (p.cacheFullBlock key b numHashTokens).2.keysOf c = p.keysOf c := by
  rw [cacheFullBlock] at hok ⊢
  by_cases hnone : p.blockHash b = none
  · rw [if_pos hnone]
    have hins := (insertBlockHash_spec h key b (some numHashTokens)).2
    have hnil := h.keysOf_eq_nil.mpr hnone
    exact ⟨by rw [hins.keys, hnil]; rfl, hins.other⟩
  rw [if_neg hnone] at hok ⊢
  by_cases hshorter : (p.blockHashNumTokens b).any (· < numHashTokens) = true
  · rw [if_pos hshorter]
    obtain ⟨-, hinv, -, hself, hother⟩ := removeCachedBlockHashes_spec h b
    have hins := (insertBlockHash_spec hinv key b (some numHashTokens)).2
    refine ⟨by rw [hins.keys, hself]; rfl, fun c hc => ?_⟩
    rw [hins.other c hc, hother c hc]
  · rw [if_neg hshorter] at hok
    cases hok

/-- What `cache_full_blocks` removes from a block it registers are the keys the block has. -/
private theorem removed_eq_keysOf :
    (if p.blockHash b = none then [] else (p.removeCachedBlockHashes b).1) = p.keysOf b := by
  split_ifs with hnone
  · exact (h.keysOf_eq_nil.mpr hnone).symm
  · exact (removeCachedBlockHashes_spec h b).1

end

/-- The keys of the blocks of a list, as a consumer holds them. -/
def publishedOf (cfg : EventConfig) (p : BlockPool n) (bs : List (Fin n)) :
    Multiset (ExternalBlockHash × ℕ) := (bs.map fun b => externals cfg (p.keysOf b)).sum

private theorem publishedOf_le {bs : List (Fin n)} (h : bs.Nodup) :
    publishedOf cfg p bs ≤ published cfg p := by
  have hsum : publishedOf cfg p bs = ∑ b ∈ bs.toFinset, externals cfg (p.keysOf b) :=
    (sum_toFinset _ h).symm
  rw [hsum]
  exact Finset.sum_le_sum_of_subset (Finset.subset_univ _)

section CacheFullBlocks

variable (newBlockHashes : List BlockHash) (numCachedBlocks blockSize : ℕ)
  (blockMask : Option (List Bool))

/-- The loop of `cache_full_blocks` exchanges the keys of the blocks it registers for their new
ones. The removed keys belong to blocks of the list, as they were when the loop began. -/
private theorem published_cacheFullBlocksLoop (cfg : EventConfig) {groupId : ℕ} (hgroup : groupId < 2 ^ 32)
    (blocks : List (Fin n)) (i : ℕ) (h : HashInv p) (hnodup : (p.live blocks).Nodup)
    (hok : (cacheFullBlocksLoop newBlockHashes numCachedBlocks blockSize groupId blockMask blocks
      i p).1 = .ok ()) :
    published cfg (cacheFullBlocksLoop newBlockHashes numCachedBlocks blockSize groupId blockMask
        blocks i p).2 +
      externals cfg (cacheFullBlocksLog newBlockHashes numCachedBlocks blockSize groupId blockMask
        blocks i p).1 =
      published cfg p + ↑((cacheFullBlocksLog newBlockHashes numCachedBlocks blockSize groupId
        blockMask blocks i p).2.map fun hash => (cfg.maybeConvertBlockHash hash, groupId)) ∧
    externals cfg (cacheFullBlocksLog newBlockHashes numCachedBlocks blockSize groupId blockMask
        blocks i p).1 ≤ publishedOf cfg p (p.live blocks) := by
  induction blocks generalizing i p with
  | nil => simp [cacheFullBlocksLoop, cacheFullBlocksLog]
  | cons blk rest ih =>
    rw [cacheFullBlocksLoop] at hok ⊢
    rw [cacheFullBlocksLog]
    by_cases hskip : (p.isNull blk || blockMask.any (fun mask => !(mask[i]?.getD false))) = true
    · rw [if_pos hskip] at hok ⊢
      rw [if_pos hskip]
      have hsub : (p.live rest).Sublist (p.live (blk :: rest)) :=
        (sublist_cons_self blk rest).filter _
      obtain ⟨hpub, hle⟩ := ih (i + 1) h (hnodup.sublist hsub) hok
      exact ⟨hpub, hle.trans ((hsub.map _).sum_le_sum fun _ _ => Multiset.zero_le _)⟩
    · rw [if_neg hskip] at hok ⊢
      rw [if_neg hskip]
      cases hhash : newBlockHashes[i]? with
      | none =>
        rw [hhash] at hok
        cases hok
      | some blockHash =>
        rw [hhash] at hok
        dsimp only at hok ⊢
        have hnull : p.isNull blk = false := by
          rw [Bool.or_eq_true, not_or, Bool.not_eq_true] at hskip
          exact hskip.1
        rw [live_cons hnull] at hnodup ⊢
        obtain ⟨hfresh, hnodup⟩ := nodup_cons.mp hnodup
        set key := makeBlockHashWithGroupId blockHash groupId
        have hstep := hashStep_cacheFullBlock h key blk ((numCachedBlocks + i + 1) * blockSize)
        have hkeys := cacheFullBlock_ok h key blk ((numCachedBlocks + i + 1) * blockSize)
        rcases hblock : p.cacheFullBlock key blk ((numCachedBlocks + i + 1) * blockSize) with
          ⟨_ | _, q⟩
        · rw [hblock] at hok
          cases hok
        rw [hblock] at hok hstep hkeys
        obtain ⟨hself, hother⟩ := hkeys rfl
        have hlive : q.live rest = p.live rest := by rw [live, live, hstep.refs.isNull]
        obtain ⟨hpub, hle⟩ := ih (i + 1) hstep.inv (hlive ▸ hnodup) hok
        have hexchange := published_exchange cfg hother
        rw [hself] at hexchange
        rw [removed_eq_keysOf h, externals_append]
        constructor
        · have hkey : externals cfg [key] = {(cfg.maybeConvertBlockHash blockHash, groupId)} := by
            rw [externals, map_singleton, cfg.external_make hgroup, Multiset.coe_singleton]
          rw [add_left_comm, hpub, ← add_assoc, add_comm (externals cfg _), hexchange,
            hkey, map_cons, ← Multiset.cons_coe, ← Multiset.singleton_add, add_assoc]
        · -- the later blocks still have the keys they had before this one was registered
          have hrest : publishedOf cfg q (q.live rest) = publishedOf cfg p (p.live rest) := by
            rw [hlive, publishedOf, map_congr_left fun c hc => by
              rw [hother c fun heq => hfresh (heq ▸ hc)]]
            rfl
          exact add_le_add_right (hle.trans_eq hrest) _

/-- The hashes of the event are taken in order from those of the range. -/
private theorem cacheFullBlocksLog_sublist (groupId : ℕ) (blocks : List (Fin n)) (i : ℕ) (p : BlockPool n) :
    (cacheFullBlocksLog newBlockHashes numCachedBlocks blockSize groupId blockMask blocks
      i p).2.Sublist ((newBlockHashes.drop i).take blocks.length) := by
  induction blocks generalizing i p with
  | nil => exact nil_sublist _
  | cons blk rest ih =>
    rw [cacheFullBlocksLog]
    by_cases hskip : (p.isNull blk || blockMask.any (fun mask => !(mask[i]?.getD false))) = true
    · rw [if_pos hskip]
      refine (ih (i + 1) p).trans ?_
      cases hdrop : newBlockHashes.drop i with
      | nil => rw [← drop_drop, hdrop]; simp
      | cons hash hashes =>
        rw [← drop_drop, hdrop]
        exact sublist_cons_self _ _
    · rw [if_neg hskip]
      cases hhash : newBlockHashes[i]? with
      | none => exact nil_sublist _
      | some blockHash =>
        obtain ⟨hlt, rfl⟩ := List.getElem?_eq_some_iff.mp hhash
        rw [drop_eq_getElem_cons hlt]
        exact (ih (i + 1) _).cons_cons _

end CacheFullBlocks

/-- A `BlockStored` event covers the blocks `first` to `last` of a request: it carries their
tokens, its hashes are taken from theirs, and its parent is the hash before them. -/
structure CoversRange (cfg : EventConfig) (hashBlockSize : ℕ) (request : Request)
    (event : BlockStored) (blockHashes : List BlockHash) (first last : ℕ) : Prop where
  resolved : resolveBlockHashes request.blockHashes hashBlockSize event.blockSize false none =
    some blockHashes
  first_lt : first < last
  last_le : last ≤ blockHashes.length
  tokenIds : event.tokenIds =
    slice request.allTokenIds (first * event.blockSize) (last * event.blockSize)
  listed : event.blockHashes.Sublist
    ((slice blockHashes first last).map cfg.maybeConvertBlockHash)
  parent : event.parentBlockHash =
    if first = 0 then none else (blockHashes[first - 1]?).map cfg.maybeConvertBlockHash

/-- The stored events of a list all cover a range of the request. -/
def CoverRanges (cfg : EventConfig) (hashBlockSize : ℕ) (request : Request)
    (events : List KVCacheEvent) : Prop :=
  ∀ event, .blockStored event ∈ events →
    ∃ blockHashes first last, CoversRange cfg hashBlockSize request event blockHashes first last

/-- Removals store nothing. -/
theorem not_mem_removedEvents : .blockStored event ∉ cfg.removedEvents keys := by
  rw [removedEvents]
  split_ifs <;> simp

private theorem coverRanges_of_last {hashBlockSize : ℕ} {blockHashes : List BlockHash} {first last : ℕ}
    (h : CoversRange cfg hashBlockSize request event blockHashes first last) :
    CoverRanges cfg hashBlockSize request (cfg.removedEvents keys ++ [.blockStored event]) := by
  intro other hmem
  rcases mem_append.mp hmem with hremoved | hlast
  · exact absurd hremoved not_mem_removedEvents
  · obtain rfl := KVCacheEvent.blockStored.inj (mem_singleton.mp hlast)
    exact ⟨blockHashes, first, last, h⟩

private theorem coverRanges_nil {hashBlockSize : ℕ} : CoverRanges cfg hashBlockSize request [] := nofun

/-- `cache_full_blocks` reports the promotions, then all blocks it registers. -/
theorem replays_cacheFullBlocks (henable : cfg.enableKvCacheEvents = true) (h : HashInv p)
    {blocks : List (Fin n)}
    {numCachedBlocks numFullBlocks blockSize groupId : ℕ} {blockMask : Option (List Bool)}
    (hgroup : groupId < 2 ^ 32)
    (hnodup : (p.live (slice blocks numCachedBlocks numFullBlocks)).Nodup)
    (hok : (p.cacheFullBlocks request blocks numCachedBlocks numFullBlocks blockSize groupId
      blockMask).1 = .ok ())
    (hevents : p.cacheFullBlocksEvents cfg request blocks numCachedBlocks numFullBlocks blockSize
      groupId blockMask = some events) :
    Replays cfg p events (p.cacheFullBlocks request blocks numCachedBlocks numFullBlocks blockSize
      groupId blockMask).2 ∧ CoverRanges cfg p.hashBlockSize request events := by
  rw [cacheFullBlocks] at hok ⊢
  rw [cacheFullBlocksEvents, henable] at hevents
  by_cases hfull : numCachedBlocks ≥ numFullBlocks
  · rw [if_pos (by simp [hfull])] at hevents
    rw [if_pos hfull]
    obtain rfl := Option.some.inj hevents
    exact ⟨.none rfl, coverRanges_nil⟩
  rw [if_neg (by simp [hfull])] at hevents
  rw [if_neg hfull] at hok ⊢
  by_cases hmask : blockMask.any (fun mask =>
      mask.length ≠ (slice blocks numCachedBlocks numFullBlocks).length) = true
  · rw [if_pos hmask] at hok
    cases hok
  rw [if_neg hmask] at hok ⊢
  obtain ⟨blockHashes, hresolved, hevents⟩ := Option.bind_eq_some_iff.mp hevents
  rw [hresolved] at hok ⊢
  dsimp only at hok ⊢
  by_cases hlength : blockHashes.length < numFullBlocks
  · rw [if_pos hlength] at hok
    cases hok
  rw [if_neg hlength] at hok ⊢
  obtain ⟨indices, -, hevents⟩ := Option.bind_eq_some_iff.mp hevents
  obtain ⟨extraKeysList, -, hevents⟩ := Option.bind_eq_some_iff.mp hevents
  obtain rfl := Option.some.inj hevents
  obtain ⟨hpub, hle⟩ := published_cacheFullBlocksLoop _
    _ _ _ cfg hgroup _ 0 h hnodup hok
  refine ⟨replays_exchange henable (hle.trans (publishedOf_le hnodup)) ?_, coverRanges_of_last
      ⟨hresolved, by omega, by omega, rfl, ?_, ?_⟩⟩
  · rw [hpub, buildBlockStoredEvent, map_map]
    rfl
  · refine Sublist.map _ ((cacheFullBlocksLog_sublist _ _ _ _ _ _ 0 p).trans ?_)
    rw [slice, slice, drop_take, drop_take]
    refine (take_prefix_take_left ?_).sublist
    simp
  · split_ifs <;> rfl

/-- Whether an entry is reported is whether its block lacks it when it is inserted. -/
private theorem cachePartialBlock_exchange (cfg : EventConfig) (h : HashInv p)
    {key : BlockHashWithGroupId} {numHashTokens : ℕ} {replaceExistingHashes : Bool}
    {q : BlockPool n} (hq : q = if p.dropsOldHashes key b numHashTokens replaceExistingHashes then
      (p.removeCachedBlockHashes b).2 else p) : published cfg p = published cfg q + externals cfg
      (p.cachePartialBlockRemoved key b numHashTokens replaceExistingHashes) ∧ HashInv q ∧
    (key ∈ q.keysOf b ↔ p.reportsPartial key b replaceExistingHashes = false) := by
  have hmem : (p.blockHash b = some key || p.cachedBlockHashToBlock.contain key b) = true ↔
      key ∈ p.keysOf b := by
    rw [Bool.or_eq_true, decide_eq_true_eq, BlockHashToBlockMap.contain_iff, h.mem_iff, mem_keysOf]
    tauto
  rw [reportsPartial, Bool.or_eq_false_iff, Bool.not_eq_false', hmem, cachePartialBlockRemoved]
  by_cases hdrops : p.dropsOldHashes key b numHashTokens replaceExistingHashes = true
  · rw [if_pos hdrops] at hq ⊢
    subst hq
    obtain ⟨-, hinv, -, hself, -⟩ := removeCachedBlockHashes_spec h b
    refine ⟨published_remove cfg h b, hinv, ?_⟩
    rw [hself]
    refine iff_of_false not_mem_nil ?_
    rintro ⟨hreplace, hkey⟩
    rw [dropsOldHashes, hreplace, hmem.mpr hkey] at hdrops
    simp at hdrops
  · rw [if_neg hdrops] at hq ⊢
    subst hq
    rw [dropsOldHashes, Bool.or_eq_true, not_or] at hdrops
    exact ⟨by simp, h, by simp [hdrops.1]⟩

section

variable (h : p.getPartialBlockHash request numTokens = some blockHash)

include h

/-- A partial entry ends at a boundary of the hash blocks. -/
private theorem getPartialBlockHash_eq_some :
    numTokens / p.hashBlockSize * p.hashBlockSize = numTokens ∧ 0 < numTokens / p.hashBlockSize ∧
      request.blockHashes[numTokens / p.hashBlockSize - 1]? = some blockHash := by
  rw [getPartialBlockHash] at h
  split_ifs at h with haligned
  exact ⟨Nat.div_mul_cancel (Nat.dvd_of_mod_eq_zero haligned.1), haligned.2, h⟩

/-- The event of a partial entry covers its last hash block. -/
private theorem coversRange_partialEntry {groupId : ℕ} {extraKeysList : List PyVal} :
    CoversRange cfg p.hashBlockSize request
      (cfg.buildBlockStoredEvent request [blockHash]
        (p.getPartialBlockParentHashAndStart request numTokens).1
        (p.getPartialBlockParentHashAndStart request numTokens).2 numTokens
        (numTokens - (p.getPartialBlockParentHashAndStart request numTokens).2) groupId
        extraKeysList [numTokens])
      request.blockHashes (numTokens / p.hashBlockSize - 1) (numTokens / p.hashBlockSize) := by
  obtain ⟨haligned, hpos, hhash⟩ := getPartialBlockHash_eq_some h
  obtain ⟨hlt, hget⟩ := List.getElem?_eq_some_iff.mp hhash
  obtain ⟨k, hk⟩ := Nat.exists_eq_add_one.mpr hpos
  rw [hk, add_mul, one_mul] at haligned
  simp only [hk, Nat.add_sub_cancel] at hlt hget
  have hstart : (p.getPartialBlockParentHashAndStart request numTokens).2 = k * p.hashBlockSize := by
    rw [getPartialBlockParentHashAndStart, hk, Nat.add_sub_cancel]
  have hsize : numTokens - k * p.hashBlockSize = p.hashBlockSize := by omega
  rw [hstart, hsize, hk, Nat.add_sub_cancel]
  refine ⟨if_pos rfl, Nat.lt_succ_self k, hlt, ?_, ?_, ?_⟩
  · rw [buildBlockStoredEvent, add_mul, one_mul, haligned]
  · have hslice : slice request.blockHashes k (k + 1) = [blockHash] := by
      rw [slice, drop_take, Nat.add_sub_cancel_left, drop_eq_getElem_cons hlt, hget]
      rfl
    rw [hslice]
    exact Sublist.refl _
  · rw [getPartialBlockParentHashAndStart, hk]
    rcases k with _ | k
    · rfl
    · rfl

end

/-- `cache_partial_block` reports what it removes and the entry, if its block lacked it. -/
theorem replays_cachePartialBlock (henable : cfg.enableKvCacheEvents = true) (h : HashInv p)
    {groupId blockSize : ℕ} {replaceExistingHashes : Bool}
    (hgroup : groupId < 2 ^ 32)
    (hok : (p.cachePartialBlock request b numTokens groupId blockSize
      replaceExistingHashes).1.toBool = true)
    (hevents : p.cachePartialBlockEvents cfg request b numTokens groupId replaceExistingHashes =
      some events) : Replays cfg p events (p.cachePartialBlock request b numTokens groupId blockSize
      replaceExistingHashes).2 ∧ CoverRanges cfg p.hashBlockSize request events := by
  rw [cachePartialBlock] at hok ⊢
  rw [cachePartialBlockEvents, henable] at hevents
  by_cases hnull : p.isNull b = true
  · rw [if_pos (by simp [hnull])] at hevents
    rw [if_pos hnull]
    obtain rfl := Option.some.inj hevents
    exact ⟨.none rfl, coverRanges_nil⟩
  rw [if_neg (by simp [hnull])] at hevents
  rw [if_neg hnull] at hok ⊢
  by_cases hsize : blockSize % p.hashBlockSize ≠ 0
  · rw [if_pos hsize] at hok
    cases hok
  rw [if_neg hsize] at hok ⊢
  obtain ⟨blockHash, hhash, hevents⟩ := Option.bind_eq_some_iff.mp hevents
  rw [hhash] at hok ⊢
  dsimp only at hok hevents ⊢
  set key := makeBlockHashWithGroupId blockHash groupId
  set numHashTokens := numTokens / p.hashBlockSize * p.hashBlockSize
  generalize hq : (if p.dropsOldHashes key b numHashTokens replaceExistingHashes then
    (p.removeCachedBlockHashes b).2 else p) = q at hok ⊢
  obtain ⟨hpub, hinv, hkey⟩ := cachePartialBlock_exchange cfg h hq.symm
  obtain ⟨hinsert, hins⟩ := insertBlockHash_spec hinv key b _
  have hrun : q.insertBlockHash key b (some numHashTokens) =
      (.ok (), (q.insertBlockHash key b (some numHashTokens)).2) := Prod.ext hinsert rfl
  rw [hrun]
  set q' := (q.insertBlockHash key b (some numHashTokens)).2
  by_cases hreports : p.reportsPartial key b replaceExistingHashes = true
  · rw [if_pos hreports] at hevents
    obtain ⟨extraKeys, -, hevents⟩ := Option.bind_eq_some_iff.mp hevents
    obtain rfl := Option.some.inj hevents
    have hfresh : key ∉ q.keysOf b := fun hmem => by simp [hkey.mp hmem] at hreports
    refine ⟨replays_exchange henable (hpub ▸ Multiset.le_add_left _ _) ?_,
      coverRanges_of_last (coversRange_partialEntry hhash)⟩
    rw [published_insert hins hfresh, hpub, cfg.external_make hgroup, add_right_comm]
    rfl
  · rw [if_neg hreports] at hevents
    obtain rfl := Option.some.inj hevents
    have hkept : ∀ c, q'.keysOf c = q.keysOf c := by
      intro c
      by_cases hc : c = b
      · rw [hc, hins.keys, if_pos (hkey.mpr (by simpa using hreports))]
      · exact hins.other c hc
    refine ⟨replays_removed henable (by rw [published_congr hkept, hpub]), ?_⟩
    exact fun event hmem => absurd hmem not_mem_removedEvents

/-! ### Moving keys -/

/-- Inserting distinct keys that a block does not have adds just them. -/
private theorem published_insertKeys {numTokens : Option ℕ} (h : HashInv p) (hnodup : keys.Nodup)
    (hfresh : ∀ key ∈ keys, key ∉ p.keysOf b) :
    published cfg (insertKeys b numTokens keys p).2 = published cfg p + externals cfg keys := by
  induction keys generalizing p with
  | nil => simp [insertKeys]
  | cons key keys ih =>
    obtain ⟨hkey, hnodup⟩ := nodup_cons.mp hnodup
    obtain ⟨hok, hins⟩ := insertBlockHash_spec h key b _
    have hrun : p.insertBlockHash key b numTokens =
        (.ok (), (p.insertBlockHash key b numTokens).2) := Prod.ext hok rfl
    have hnew : key ∉ p.keysOf b := hfresh key (.head _)
    have hrest := ih hins.inv hnodup fun other hother => by
      rw [hins.keys, if_neg hnew, mem_append, mem_singleton, not_or]
      exact ⟨hfresh other (.tail _ hother), fun heq => hkey (heq ▸ hother)⟩
    rw [insertKeys, hrun]
    rw [hrest, published_insert hins hnew, add_assoc]
    rfl

/-- `move_block_hashes` changes which block has the keys, and a consumer does not see it. -/
theorem published_moveBlockHashes {src dst : Fin n} (h : HashInv p)
    (hok : (p.moveBlockHashes src dst).1 = .ok ()) :
    published cfg (p.moveBlockHashes src dst).2 = published cfg p := by
  rw [moveBlockHashes] at hok ⊢
  by_cases hdst : p.blockHash dst ≠ none ∨ p.cachedBlockHashesByBlock dst ≠ []
  · rw [if_pos hdst] at hok
    cases hok
  rw [if_neg hdst]
  rw [not_or, not_not] at hdst
  obtain ⟨hkeys, hinv, -, hself, hother⟩ := removeCachedBlockHashes_spec h src
  have hempty : (p.removeCachedBlockHashes src).2.keysOf dst = [] := by
    by_cases heq : dst = src
    · rw [heq, hself]
    · rw [hother dst heq, h.keysOf_eq_nil.mpr hdst.1]
  rw [published_remove cfg h src]
  refine published_insertKeys hinv (hkeys ▸ h.nodup src) fun key _ => ?_
  rw [hempty]
  exact not_mem_nil

/-! ### Resetting -/

/-- `reset_prefix_cache` clears all that a consumer holds, or changes nothing. -/
theorem replay_resetPrefixCache (henable : cfg.enableKvCacheEvents = true)
    {m : Multiset (ExternalBlockHash × ℕ)} :
    replay (published cfg p + m) ((p.resetPrefixCacheEvents cfg).map KVCacheEvent.effect) =
      some (published cfg p.resetPrefixCache.2 + if p.resetPrefixCache.1 then 0 else m) := by
  by_cases hused : n - p.getNumFreeBlocks ≠ 1
  · have hrun : p.resetPrefixCache = (false, p) := if_pos hused
    rw [resetPrefixCacheEvents, hrun]
    rfl
  · have hdone : p.resetPrefixCache.1 = true := by rw [resetPrefixCache, if_neg hused]
    have hkeys : ∀ b, p.resetPrefixCache.2.keysOf b = [] := by
      intro b
      rw [resetPrefixCache, if_neg hused]
      rfl
    have hempty : published cfg p.resetPrefixCache.2 = 0 :=
      Finset.sum_eq_zero fun b _ => by rw [hkeys b, externals_nil]
    rw [resetPrefixCacheEvents, hdone, henable, hempty]
    rfl

end BlockPool

end Sonar
