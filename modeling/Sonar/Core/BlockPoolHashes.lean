import Sonar.Core.BlockPool

/-!
# The hashes of a pool's blocks

A key is on record in three places: as the primary hash of a block, among the aliases of a block,
and in the map from keys to blocks. `HashInv` says that they agree: the map sends a key to a block
exactly when the key is one of the block's own. It also says that a block without a primary hash
has no alias and no token count, which is what the assertion in `set_block_hash` and the promotion
of an alias rely on.

Every operation that registers, moves or removes keys keeps `HashInv`, also when it raises half
way, and leaves references and free list alone (`SameRefs`). All of them are made of two steps,
removing every key of a block (`removeCachedBlockHashes_spec`) and inserting one key
(`insertBlockHash_spec`).
-/

namespace Sonar

open List BlockHashToBlockMap

namespace BlockPool

variable {n : ℕ} {p p' : BlockPool n} {b c : Fin n} {key : BlockHashWithGroupId}

/-- Two pools differ at most in their hashes. -/
structure SameRefs (p p' : BlockPool n) : Prop where
  enableCaching : p'.enableCaching = p.enableCaching
  hashBlockSize : p'.hashBlockSize = p.hashBlockSize
  refCnt : p'.refCnt = p.refCnt
  isNull : p'.isNull = p.isNull
  nullBlock : p'.nullBlock = p.nullBlock
  freeBlockQueue : p'.freeBlockQueue = p.freeBlockQueue

private theorem SameRefs.refl : SameRefs p p := ⟨rfl, rfl, rfl, rfl, rfl, rfl⟩

private theorem SameRefs.trans {p'' : BlockPool n} (h : SameRefs p p') (h' : SameRefs p' p'') :
    SameRefs p p'' :=
  ⟨h'.enableCaching.trans h.enableCaching, h'.hashBlockSize.trans h.hashBlockSize,
    h'.refCnt.trans h.refCnt, h'.isNull.trans h.isNull, h'.nullBlock.trans h.nullBlock,
    h'.freeBlockQueue.trans h.freeBlockQueue⟩

/-- The records of keys agree with each other. -/
structure HashInv (p : BlockPool n) : Prop where
  wf : p.cachedBlockHashToBlock.WF
  mem_iff : ∀ key b, b ∈ p.cachedBlockHashToBlock.blocks key ↔ key ∈ p.keysOf b
  nodup : ∀ b, (p.keysOf b).Nodup
  unhashed : ∀ b, p.blockHash b = none →
    p.cachedBlockHashesByBlock b = [] ∧ p.blockHashNumTokens b = none

/-- The keys of a block are its primary hash and the additional ones. -/
theorem mem_keysOf : key ∈ p.keysOf b ↔
    p.blockHash b = some key ∨ key ∈ p.cachedBlockHashesByBlock b := by
  rw [keysOf, mem_append, Option.mem_toList]

/-- A block without a primary hash has no keys. -/
theorem HashInv.keysOf_eq_nil (h : HashInv p) : p.keysOf b = [] ↔ p.blockHash b = none := by
  constructor
  · intro hnil
    cases hb : p.blockHash b with
    | none => rfl
    | some key => simp [keysOf, hb] at hnil
  · intro hb
    simp [keysOf, hb, (h.unhashed b hb).1]

/-! ### Removing the keys of a block -/

/-- Popping distinct keys that all lead to `b` removes each of them and takes `b` out of their
values. -/
private theorem popKeys_spec (b : Fin n) (keys : List BlockHashWithGroupId)
    (m : BlockHashToBlockMap BlockHashWithGroupId (Fin n)) (hwf : m.WF) (hnodup : keys.Nodup)
    (hmem : ∀ key ∈ keys, b ∈ m.blocks key) :
    (popKeys b keys m).1 = keys ∧ (popKeys b keys m).2.WF ∧
      ∀ key c, c ∈ (popKeys b keys m).2.blocks key ↔ c ∈ m.blocks key ∧ ¬(c = b ∧ key ∈ keys) := by
  induction keys generalizing m with
  | nil => exact ⟨rfl, hwf, fun key c => by simp [popKeys]⟩
  | cons k keys ih =>
    obtain ⟨hk, hkeys⟩ := nodup_cons.mp hnodup
    have hrest : ∀ key ∈ keys, b ∈ (m.pop k b).2.blocks key := fun key hkey => by
      have hne : key ≠ k := fun heq => hk (heq ▸ hkey)
      rw [blocks_pop_of_ne hne]
      exact hmem key (.tail _ hkey)
    obtain ⟨ih1, ih2, ih3⟩ := ih _ hwf.pop hkeys hrest
    have hpop : (m.pop k b).1 = some b := by
      rw [pop_fst, if_pos (hmem k (.head _))]
    refine ⟨by simp [popKeys, hpop, ih1], ih2, fun key c => ?_⟩
    rw [popKeys, ih3]
    by_cases hkey : key = k
    · subst hkey
      rw [blocks_pop_self, hwf.nodup_blocks.mem_erase_iff]
      simp [hk, and_comm]
    · rw [blocks_pop_of_ne hkey]
      simp [hkey]

/-- Removing the keys of a block returns them all, and leaves the block without hashes and every
other block as it was. -/
theorem removeCachedBlockHashes_spec (h : HashInv p) (b : Fin n) :
    (p.removeCachedBlockHashes b).1 = p.keysOf b ∧ HashInv (p.removeCachedBlockHashes b).2 ∧
      SameRefs p (p.removeCachedBlockHashes b).2 ∧ (p.removeCachedBlockHashes b).2.keysOf b = [] ∧
      ∀ c ≠ b, (p.removeCachedBlockHashes b).2.keysOf c = p.keysOf c := by
  rw [removeCachedBlockHashes]
  split_ifs with hnil
  · exact ⟨hnil.symm, h, .refl, hnil, fun _ _ => rfl⟩
  obtain ⟨hkeys, hwf, hblocks⟩ := popKeys_spec b _ _ h.wf
    (h.nodup b) fun key hkey => (h.mem_iff key b).mpr hkey
  dsimp only
  generalize popKeys b (p.keysOf b) p.cachedBlockHashToBlock = popped at hkeys hwf hblocks
  have hself : (p.resetHash b popped.2).keysOf b = [] := by simp [keysOf, resetHash]
  have hother : ∀ c ≠ b, (p.resetHash b popped.2).keysOf c = p.keysOf c := by
    intro c hc
    simp [keysOf, resetHash, hc]
  refine ⟨hkeys, ⟨hwf, fun key c => ?_, fun c => ?_, fun c hc => ?_⟩,
    ⟨rfl, rfl, rfl, rfl, rfl, rfl⟩, hself, hother⟩
  · rw [resetHash, hblocks, h.mem_iff]
    by_cases hc : c = b
    · subst hc
      rw [← resetHash, hself]
      exact iff_of_false (fun hkey => hkey.2 ⟨rfl, hkey.1⟩) not_mem_nil
    · rw [← resetHash, hother c hc]
      simp [hc]
  · by_cases hc : c = b
    · rw [hc, hself]
      exact nodup_nil
    · rw [hother c hc]
      exact h.nodup c
  · by_cases hcb : c = b
    · subst hcb
      simp [resetHash]
    · simp only [resetHash, Function.update_of_ne hcb] at hc ⊢
      exact h.unhashed c hc

/-! ### Inserting a key -/

/-- What registering `key` for `b` does: the key is added to the block's own keys, and to no other
block's. -/
structure Inserted (p p' : BlockPool n) (key : BlockHashWithGroupId) (b : Fin n) : Prop where
  inv : HashInv p'
  refs : SameRefs p p'
  keys : p'.keysOf b = if key ∈ p.keysOf b then p.keysOf b else p.keysOf b ++ [key]
  other : ∀ c ≠ b, p'.keysOf c = p.keysOf c

/-- The map after an insertion agrees with the keys after it. -/
private theorem HashInv.inserted (h : HashInv p) (hkey : key ∉ p.keysOf b)
    (hmap : p'.cachedBlockHashToBlock = p.cachedBlockHashToBlock.insert key b)
    (hkeys : p'.keysOf b = p.keysOf b ++ [key]) (hself : p'.blockHash b ≠ none)
    (hsame : ∀ c ≠ b, p'.blockHash c = p.blockHash c ∧
      p'.cachedBlockHashesByBlock c = p.cachedBlockHashesByBlock c ∧
      p'.blockHashNumTokens c = p.blockHashNumTokens c) (hrefs : SameRefs p p') :
    Inserted p p' key b := by
  have hfresh : b ∉ p.cachedBlockHashToBlock.blocks key := fun hmem =>
    hkey ((h.mem_iff key b).mp hmem)
  have hother : ∀ c ≠ b, p'.keysOf c = p.keysOf c := fun c hc => by
    rw [keysOf, (hsame c hc).1, (hsame c hc).2.1, keysOf]
  refine ⟨⟨hmap ▸ h.wf.insert, fun key' c => ?_, fun c => ?_, fun c hc => ?_⟩, hrefs,
    by rw [hkeys, if_neg hkey], hother⟩
  · rw [hmap]
    by_cases hk : key' = key
    · subst hk
      rw [blocks_insert_self hfresh, mem_append, h.mem_iff]
      by_cases hc : c = b
      · subst hc
        simp [hkeys]
      · simp [hother c hc, hc]
    · rw [blocks_insert_of_ne hk, h.mem_iff]
      by_cases hc : c = b
      · subst hc
        simp [hkeys, hk]
      · rw [hother c hc]
  · by_cases hc : c = b
    · subst hc
      rw [hkeys, nodup_append]
      refine ⟨h.nodup c, nodup_singleton key, fun a ha a' ha' => ?_⟩
      rw [mem_singleton.mp ha']
      exact fun heq => hkey (heq ▸ ha)
    · rw [hother c hc]
      exact h.nodup c
  · have hne : c ≠ b := fun heq => hself (heq ▸ hc)
    rw [(hsame c hne).1] at hc
    rw [(hsame c hne).2.1, (hsame c hne).2.2]
    exact h.unhashed c hc

/-- `_insert_block_hash` never raises on a consistent pool. -/
theorem insertBlockHash_spec (h : HashInv p) (key : BlockHashWithGroupId) (b : Fin n)
    (numTokens : Option ℕ) : (p.insertBlockHash key b numTokens).1 = .ok () ∧
      Inserted p (p.insertBlockHash key b numTokens).2 key b := by
  rw [insertBlockHash]
  split_ifs with hprimary hcontain hnone htokens
  · have hkey : key ∈ p.keysOf b := mem_keysOf.mpr (.inl hprimary)
    exact ⟨rfl, h, .refl, by rw [if_pos hkey], fun _ _ => rfl⟩
  · have hkey : key ∈ p.keysOf b := (h.mem_iff key b).mp (contain_iff.mp hcontain)
    exact ⟨rfl, h, .refl, by rw [if_pos hkey], fun _ _ => rfl⟩
  · -- the key becomes the primary hash
    have hkey : key ∉ p.keysOf b := by simp [h.keysOf_eq_nil.mpr hnone]
    refine ⟨rfl, h.inserted hkey rfl ?_ ?_ (fun c hc => ?_) ⟨rfl, rfl, rfl, rfl, rfl, rfl⟩⟩
    · simp [keysOf, setBlockHash, hnone, (h.unhashed b hnone).1]
    · simp [setBlockHash]
    · simp [setBlockHash, hc]
  · exact absurd (h.unhashed b hnone).2 htokens
  · -- the key becomes an alias
    have hkey : key ∉ p.keysOf b := fun hmem =>
      hcontain (contain_iff.mpr ((h.mem_iff key b).mpr hmem))
    have halias : key ∉ p.cachedBlockHashesByBlock b := fun hmem =>
      hkey (mem_keysOf.mpr (.inr hmem))
    refine ⟨rfl, h.inserted hkey rfl ?_ hnone (fun c hc => ?_) ⟨rfl, rfl, rfl, rfl, rfl, rfl⟩⟩
    · simp [keysOf, addAlias, halias]
    · simp [addAlias, hc]

/-! ### The operations -/

/-- The keys agree and references are untouched: what every operation on hashes guarantees,
whether or not it raises. -/
structure HashStep (p p' : BlockPool n) : Prop where
  inv : HashInv p'
  refs : SameRefs p p'

/-- A call that does nothing. -/
theorem HashStep.refl (h : HashInv p) : HashStep p p := ⟨h, .refl⟩

private theorem HashStep.trans {p'' : BlockPool n} (h : HashStep p p') (h' : HashStep p' p'') :
    HashStep p p'' := ⟨h'.inv, h.refs.trans h'.refs⟩

/-- A block that leaves the cache. -/
theorem hashStep_remove (h : HashInv p) (b : Fin n) : HashStep p (p.removeCachedBlockHashes b).2 :=
  have hspec := removeCachedBlockHashes_spec h b
  ⟨hspec.2.1, hspec.2.2.1⟩

private theorem hashStep_insert (h : HashInv p) (key : BlockHashWithGroupId) (b : Fin n)
    (numTokens : Option ℕ) : HashStep p (p.insertBlockHash key b numTokens).2 :=
  have hspec := (insertBlockHash_spec h key b _).2
  ⟨hspec.inv, hspec.refs⟩

/-- One block becomes cached. -/
theorem hashStep_cacheFullBlock (h : HashInv p) (key : BlockHashWithGroupId) (blk : Fin n)
    (numHashTokens : ℕ) : HashStep p (p.cacheFullBlock key blk numHashTokens).2 := by
  rw [cacheFullBlock]
  split_ifs
  · exact hashStep_insert h key blk _
  · have hremove := hashStep_remove h blk
    exact hremove.trans (hashStep_insert hremove.inv key blk _)
  · exact .refl h

/-- The loop of `cache_full_blocks`, block by block. -/
private theorem hashStep_cacheFullBlocksLoop (newBlockHashes : List BlockHash)
    (numCachedBlocks blockSize groupId : ℕ) (blockMask : Option (List Bool))
    (blocks : List (Fin n)) (i : ℕ) (h : HashInv p) :
    HashStep p (cacheFullBlocksLoop newBlockHashes numCachedBlocks blockSize groupId blockMask
      blocks i p).2 := by
  induction blocks generalizing i p with
  | nil => exact .refl h
  | cons blk rest ih =>
    rw [cacheFullBlocksLoop]
    split_ifs
    · exact ih (i + 1) h
    cases newBlockHashes[i]? with
    | none => exact .refl h
    | some blockHash =>
      have hblock := hashStep_cacheFullBlock h (makeBlockHashWithGroupId blockHash groupId) blk
        ((numCachedBlocks + i + 1) * blockSize)
      dsimp only
      split
      · next heq => exact heq ▸ hblock
      · next heq =>
        rw [heq] at hblock
        exact hblock.trans (ih (i + 1) hblock.inv)

/-- Full blocks become cached, up to the first error. -/
theorem hashStep_cacheFullBlocks (h : HashInv p) {request : Request} {blocks : List (Fin n)}
    {numCachedBlocks numFullBlocks blockSize groupId : ℕ} {blockMask : Option (List Bool)} :
    HashStep p (p.cacheFullBlocks request blocks numCachedBlocks numFullBlocks blockSize groupId
      blockMask).2 := by
  rw [cacheFullBlocks]
  split_ifs
  · exact .refl h
  dsimp only
  split_ifs
  · exact .refl h
  split
  · exact .refl h
  · split_ifs
    · exact .refl h
    · exact hashStep_cacheFullBlocksLoop _ _ _ _ _ _ _ h

/-- Inserting a key and returning something else afterwards. -/
private theorem hashStep_insert_then {α : Type} (h : HashInv p) (key : BlockHashWithGroupId)
    (b : Fin n) (numTokens : Option ℕ) (next : BlockPool n → PoolResult n α)
    (hnext : ∀ p', HashInv p' → HashStep p' (next p').2) :
    HashStep p (match p.insertBlockHash key b numTokens with
      | (.error e, p) => (.error e, p)
      | (.ok _, p) => next p : PoolResult n α).2 := by
  have hinsert := hashStep_insert h key b numTokens
  split
  · next heq =>
    rwa [heq] at hinsert
  · next heq =>
    rw [heq] at hinsert
    exact hinsert.trans (hnext _ hinsert.inv)

section

variable (h : HashInv p)

include h

/-- A partial block becomes cached, or an error leaves the keys consistent. -/
theorem hashStep_cachePartialBlock {request : Request}
    {numTokens groupId blockSize : ℕ} {replaceExistingHashes : Bool} :
    HashStep p (p.cachePartialBlock request b numTokens groupId blockSize
      replaceExistingHashes).2 := by
  rw [cachePartialBlock]
  split_ifs
  · exact .refl h
  · exact .refl h
  cases p.getPartialBlockHash request numTokens with
  | none => exact .refl h
  | some blockHash =>
    dsimp only
    split_ifs
    · have hremove := hashStep_remove h b
      exact hremove.trans (hashStep_insert_then hremove.inv _ _ _ _ fun p' h' => .refl h')
    · exact hashStep_insert_then h _ _ _ _ fun p' h' => .refl h'

private theorem hashStep_insertKeys {numTokens : Option ℕ} {keys : List BlockHashWithGroupId} :
    HashStep p (insertKeys b numTokens keys p).2 := by
  induction keys generalizing p with
  | nil => exact .refl h
  | cons key keys ih => exact hashStep_insert_then h key b _ _ fun p' h' => ih h'

/-- The keys move, or an error leaves them consistent. -/
theorem hashStep_moveBlockHashes {src dst : Fin n} : HashStep p (p.moveBlockHashes src dst).2 := by
  rw [moveBlockHashes]
  split_ifs
  · exact .refl h
  · have hremove := hashStep_remove h src
    exact hremove.trans (hashStep_insertKeys hremove.inv)

/-- Blocks leave the cache. -/
theorem hashStep_evictBlocks {ids : List ℕ} : HashStep p (evictBlocks ids p).2 := by
  induction ids generalizing p with
  | nil => exact .refl h
  | cons id ids ih =>
    rw [evictBlocks]
    split_ifs with hid
    · have hremove := hashStep_remove h ⟨id, hid⟩
      exact hremove.trans (ih hremove.inv)
    · exact .refl h

/-- All blocks leave the cache. -/
theorem hashStep_resetPrefixCache : HashStep p p.resetPrefixCache.2 := by
  rw [resetPrefixCache]
  split_ifs
  · exact .refl h
  · refine ⟨⟨wf_empty, fun key b => ?_, fun b => ?_, fun b _ => ⟨rfl, rfl⟩⟩,
      ⟨rfl, rfl, rfl, rfl, rfl, rfl⟩⟩
    · simp [blocks_empty, keysOf]
    · simp [keysOf]

end

end BlockPool

end Sonar
