import Mathlib.Data.List.Nodup
import Mathlib.Logic.Function.Basic
import Mathlib.Tactic.Common
import Sonar.Request.Basic

/-!
# Prefix-cache keys and the map from keys to blocks

A prefix-cache **key** packs a block hash with the id of a KV cache group into raw bytes: the hash
followed by the id in four bytes. `BlockHashToBlockMap` maps a key to one block, or, once a second
block with the same contents is registered, to several in the order they came.

What a map stores under a key is one list of blocks, `BlockHashToBlockMap.blocks`; the two shapes
of a value are a matter of representation. `BlockHashToBlockMap.WF` is what keeps them apart: a
value of several blocks is never empty and has no repeats. Each operation has one lemma that gives
its effect on `blocks`, and nothing else of the map is needed later.
-/

namespace Sonar

open List
open Function (update_of_ne update_self)

/-! ### Keys -/

/-- A block hash with a group id, as raw bytes. -/
abbrev BlockHashWithGroupId := List UInt8

/-- A group id in four bytes, most significant first. -/
def groupIdBytes (groupId : ℕ) : List UInt8 :=
  [UInt8.ofNat (groupId / 2 ^ 24), UInt8.ofNat (groupId / 2 ^ 16), UInt8.ofNat (groupId / 2 ^ 8),
    UInt8.ofNat groupId]

/-- The key of a block hash in one cache group. -/
def makeBlockHashWithGroupId (blockHash : BlockHash) (groupId : ℕ) : BlockHashWithGroupId :=
  blockHash ++ groupIdBytes groupId

/-! ### Block hashes at a coarser block size -/

/-- `BlockHashListWithBlockSize` as the list it presents: every `scaleFactor`-th hash, which
already covers the prefix up to its boundary. -/
def scaledBlockHashes (blockHashes : List BlockHash) (scaleFactor : ℕ) : List BlockHash :=
  (List.range (blockHashes.length / scaleFactor)).filterMap fun idx =>
    blockHashes[(idx + 1) * scaleFactor - 1]?

/-- `resolve_block_hashes`: the hashes seen at `blockSize`. A manager that supports fine-grained
lookup keeps the original hashes when hits need only be aligned to less than a block. -/
def resolveBlockHashes (blockHashes : List BlockHash) (hashBlockSize blockSize : ℕ)
    (supportsFineGrainedHashLookup : Bool) (alignmentTokens : Option ℕ) : Option (List BlockHash) :=
  if blockSize = hashBlockSize then some blockHashes
  else if supportsFineGrainedHashLookup &&
      alignmentTokens.any (fun a => a < blockSize ∧ blockSize % a = 0) then some blockHashes
  else if blockSize % hashBlockSize = 0 then
    some (scaledBlockHashes blockHashes (blockSize / hashBlockSize))
  else none

/-! ### The map -/

/-- The value of a key: one block, or several in the order of insertion. -/
inductive KVCacheBlocks (β : Type*) where
  | one (block : β)
  | many (blocks : List β)

open KVCacheBlocks

/-- The blocks of a value. -/
def KVCacheBlocks.toList {β : Type*} : KVCacheBlocks β → List β
  | .one block => [block]
  | .many blocks => blocks

@[simp] theorem KVCacheBlocks.toList_one {β : Type*} (block : β) :
    (one block).toList = [block] := rfl

@[simp] theorem KVCacheBlocks.toList_many {β : Type*} (blocks : List β) :
    (many blocks).toList = blocks := rfl

/-- The map of a prefix cache. -/
structure BlockHashToBlockMap (κ β : Type*) where
  cache : κ → Option (KVCacheBlocks β)

namespace BlockHashToBlockMap

variable {κ β : Type*} [DecidableEq κ] [DecidableEq β]

/-- The empty map. -/
def empty : BlockHashToBlockMap κ β := ⟨fun _ => none⟩

variable (m : BlockHashToBlockMap κ β)

/-- `get_one_block`: the block inserted first. -/
def getOneBlock (key : κ) : Option β :=
  match m.cache key with
  | none => none
  | some (.one block) => some block
  | some (.many blocks) => blocks.head?

/-- Whether the block is among those of the key. -/
def contain (key : κ) (block : β) : Bool :=
  match m.cache key with
  | none => false
  | some (.one b) => b == block
  | some (.many blocks) => blocks.contains block

/-- Insertion into a dictionary keyed by block id: a block that is there keeps its place. -/
def insertBlock (blocks : List β) (block : β) : List β :=
  if block ∈ blocks then blocks else blocks ++ [block]

/-- One more block for a key. A second block turns the single entry into a table. -/
def insert (key : κ) (block : β) : BlockHashToBlockMap κ β :=
  let value := match m.cache key with
    | none => .one block
    | some (.one b) => .many (insertBlock [b] block)
    | some (.many blocks) => .many (insertBlock blocks block)
  ⟨Function.update m.cache key (some value)⟩

/-- `pop`: the removed block, if it was there, and the map without it. -/
def pop (key : κ) (block : β) : Option β × BlockHashToBlockMap κ β :=
  match m.cache key with
  | none => (none, m)
  | some (.one b) =>
    if b = block then (some b, ⟨Function.update m.cache key none⟩) else (none, m)
  | some (.many blocks) =>
    let rest := blocks.erase block
    (if block ∈ blocks then some block else none,
      ⟨Function.update m.cache key (if rest.length > 0 then some (.many rest) else none)⟩)

/-- The blocks stored under a key. -/
def blocks (key : κ) : List β :=
  match m.cache key with
  | none => []
  | some value => value.toList

/-- A value of several blocks is not empty and has no repeats. -/
def WF : Prop :=
  ∀ key bs, m.cache key = some (.many bs) → bs ≠ [] ∧ bs.Nodup

variable {m : BlockHashToBlockMap κ β} {key key' : κ} {block : β}

omit [DecidableEq κ] [DecidableEq β] in
theorem blocks_empty (key : κ) : (empty : BlockHashToBlockMap κ β).blocks key = [] := rfl

omit [DecidableEq κ] in
/-- A block is contained exactly if it is listed. -/
theorem contain_iff : m.contain key block = true ↔ block ∈ m.blocks key := by
  rw [contain, blocks]
  rcases m.cache key with _ | ⟨b⟩ | ⟨bs⟩
  · simp
  · dsimp only
    rw [beq_iff_eq, toList_one, mem_singleton, eq_comm]
  · exact contains_iff_mem

omit [DecidableEq κ] [DecidableEq β] in
/-- A block is listed once for a key. -/
theorem WF.nodup_blocks (h : m.WF) : (m.blocks key).Nodup := by
  rw [blocks]
  rcases hv : m.cache key with _ | ⟨b⟩ | ⟨bs⟩
  · exact nodup_nil
  · exact nodup_singleton b
  · exact (h key bs hv).2

omit [DecidableEq κ] [DecidableEq β] in
/-- The empty map. -/
theorem wf_empty : (empty : BlockHashToBlockMap κ β).WF := by
  intro key bs h
  cases h

/-! ### Insertion -/

/-- Other keys keep their blocks. -/
theorem blocks_insert_of_ne (h : key' ≠ key) :
    (m.insert key block).blocks key' = m.blocks key' := by
  simp [insert, blocks, h]

/-- A new block is listed last. -/
theorem blocks_insert_self (h : block ∉ m.blocks key) :
    (m.insert key block).blocks key = m.blocks key ++ [block] := by
  rcases hv : m.cache key with _ | ⟨b⟩ | ⟨bs⟩
  · simp [insert, blocks, hv]
  · simp only [blocks, hv, toList_one] at h ⊢
    simp only [insert, hv, update_self, insertBlock, if_neg h, toList_many]
  · simp only [blocks, hv, toList_many] at h ⊢
    simp [insert, hv, insertBlock, if_neg h]

/-- Insertion lists no block twice. -/
protected theorem WF.insert (hwf : m.WF) : (m.insert key block).WF := by
  have hinsert : ∀ bs : List β, bs.Nodup → insertBlock bs block ≠ [] ∧
      (insertBlock bs block).Nodup := by
    intro bs hbs
    rw [insertBlock]
    split_ifs with hmem
    · exact ⟨ne_nil_of_mem hmem, hbs⟩
    · exact ⟨by simp, by simpa [nodup_append] using ⟨hbs, fun a ha hab => hmem (hab ▸ ha)⟩⟩
  intro key' bs h
  by_cases hk : key' = key
  · subst hk
    simp only [insert, update_self] at h
    rcases hv : m.cache key' with _ | ⟨b⟩ | ⟨bs'⟩
    · rw [hv] at h
      cases h
    · rw [hv] at h
      cases h
      exact hinsert [b] (nodup_singleton b)
    · rw [hv] at h
      cases h
      exact hinsert bs' (hwf key' bs' hv).2
  · simp only [insert, update_of_ne hk] at h
    exact hwf key' bs h

/-! ### Removal -/

/-- `pop` returns the block exactly if the key has it. -/
theorem pop_fst : (m.pop key block).1 = if block ∈ m.blocks key then some block else none := by
  rcases hv : m.cache key with _ | ⟨b⟩ | ⟨bs⟩
  · simp [pop, blocks, hv]
  · by_cases hb : b = block
    · simp [pop, blocks, hv, hb]
    · simp [pop, blocks, hv, hb, Ne.symm hb]
  · simp [pop, blocks, hv]

/-- Other keys keep their blocks. -/
theorem blocks_pop_of_ne (h : key' ≠ key) : (m.pop key block).2.blocks key' = m.blocks key' := by
  rw [pop]
  rcases m.cache key with _ | ⟨b⟩ | ⟨bs⟩
  · rfl
  · dsimp only
    split_ifs
    · simp [blocks, h]
    · rfl
  · simp [blocks, h]

/-- The key loses the block. -/
theorem blocks_pop_self : (m.pop key block).2.blocks key = (m.blocks key).erase block := by
  rw [pop]
  rcases hv : m.cache key with _ | ⟨b⟩ | ⟨bs⟩
  · simp [blocks, hv]
  · by_cases hb : b = block
    · simp [blocks, hv, hb]
    · have hne : (b == block) = false := by simpa using hb
      simp [blocks, hv, hb]
  · simp only [blocks, hv, toList_many]
    rcases hrest : bs.erase block with _ | ⟨c, rest⟩
    · simp
    · simp

/-- `pop` leaves no empty table. -/
protected theorem WF.pop (hwf : m.WF) : (m.pop key block).2.WF := by
  intro key' bs h
  rw [pop] at h
  rcases hv : m.cache key with _ | ⟨b⟩ | ⟨bs'⟩
  · rw [hv] at h
    exact hwf key' bs h
  · rw [hv] at h
    dsimp only at h
    split_ifs at h
    · dsimp only at h
      by_cases hk : key' = key
      · subst hk
        simp at h
      · rw [update_of_ne hk] at h
        exact hwf key' bs h
    · exact hwf key' bs h
  · rw [hv] at h
    dsimp only at h
    by_cases hk : key' = key
    · subst hk
      rw [update_self] at h
      split_ifs at h with hlen
      cases h
      exact ⟨ne_nil_of_length_pos hlen, (hwf key' bs' hv).2.erase block⟩
    · rw [update_of_ne hk] at h
      exact hwf key' bs h

end BlockHashToBlockMap

end Sonar
