import Mathlib.Algebra.Ring.Nat
import Mathlib.Data.List.Sort
import Sonar.Lib.Dict

/-!
# The multi-modal cache replicated by key

The frontend keeps sizes and prompt updates (`Sender`), the engine core keeps the items
(`Receiver`). The frontend sends no data for an item it holds, and the core raises
`MultiModalCacheMissError` if it does not hold that item.

`_merge_mm_kwargs` goes through a request modality by modality; `get_and_update_features` goes
through it by prompt position. While both orders agree, the two caches hold the same keys with the
same sizes in the same order (`Mirrors`), and nothing is missed. With two modalities in the other
order they drift apart: each evicts what the other keeps.

The cache is one of the `cachetools` library with methods of its own. What is inherited from the
library is a parameter (`CacheTools`), with its documented behaviour as a hypothesis
(`LawfulCacheTools`).
-/

namespace Sonar.Multimodal

open Lib List Dict Except
open Prod (ext fst map)

/-! ### The cache -/

/-- `LRUCache`, with the entries from the least to the most recently used. Sizes are whole numbers,
so the whole part of the capacity is all that counts. -/
structure LRUCache (V : Type) where
  maxsize : ℕ
  data : Dict String V := ∅

open LRUCache

section Evictions

variable {V : Type} (getsizeof : V → ℕ) (maxsize size : ℕ)

/-- The size of the entries together. -/
def currsize (l : List (String × V)) : ℕ := (l.map fun e => getsizeof e.2).sum

/-- `popitem` until a value of the size fits. -/
def popitems : List (String × V) → List (String × V)
  | [] => []
  | e :: es => if maxsize < currsize getsizeof (e :: es) + size then popitems es else e :: es

private theorem popitems_suffix (l : List (String × V)) : popitems getsizeof maxsize size l <:+ l := by
  induction l with
  | nil => exact suffix_rfl
  | cons e es ih =>
    rw [popitems]
    split_ifs
    · exact ih.trans (suffix_cons e es)
    · exact suffix_rfl

private theorem map_popitems (l : List (String × V)) :
    (popitems getsizeof maxsize size l).map (map id getsizeof) =
      popitems id maxsize size (l.map (map id getsizeof)) := by
  induction l with
  | nil => rfl
  | cons e es ih =>
    have hsum : currsize id ((e :: es).map (map id getsizeof)) = currsize getsizeof (e :: es) := by
      rw [currsize, map_map]
      rfl
    rw [map_cons] at hsum ⊢
    rw [popitems, popitems, hsum]
    split_ifs
    · exact ih
    · rfl

end Evictions

namespace LRUCache

variable {V : Type} {getsizeof : V → ℕ}

/-- A key that is there becomes the most recently used. -/
def touch (c : LRUCache V) (key : String) : LRUCache V := { c with data := c.data.moveToEnd key }

/-- `pop` with a default. -/
def pop (c : LRUCache V) (key : String) : LRUCache V := { c with data := c.data.erase key }

/-- The entries after `popitem` has made room for a value of the size. -/
def makeRoom (getsizeof : V → ℕ) (c : LRUCache V) (size : ℕ) : Dict String V :=
  ⟨popitems getsizeof c.maxsize size c.data.entries,
    c.data.nodup.sublist ((popitems_suffix getsizeof c.maxsize size _).sublist.map _)⟩

/-- The sizes that a cache holds. -/
def sizes (getsizeof : V → ℕ) (c : LRUCache V) : LRUCache ℕ := ⟨c.maxsize, c.data.map getsizeof⟩

private theorem sizes_touch (c : LRUCache V) (key : String) :
    (c.touch key).sizes getsizeof = (c.sizes getsizeof).touch key := by
  rw [touch, sizes, map_moveToEnd]
  rfl

/-- Which entries make room depends on the sizes only. -/
private theorem map_makeRoom (c : LRUCache V) (size : ℕ) :
    (c.makeRoom getsizeof size).map getsizeof = (c.sizes getsizeof).makeRoom id size :=
  ext (map_popitems _ _ _ _)

private theorem touch_of_get?_none {c : LRUCache V} {key : String} (h : c.data.get? key = none) :
    c.touch key = c := by
  rw [touch, moveToEnd, h]

end LRUCache

/-- What `LRUCache` inherits from `cachetools.LRUCache`. -/
class CacheTools where
  /-- The cache after `__getitem__` of a key that is there. -/
  getitem {V : Type} (c : LRUCache V) (key : String) : LRUCache V
  /-- `__setitem__`; `none` is the `ValueError("value too large")`. -/
  setitem {V : Type} (getsizeof : V → ℕ) (c : LRUCache V) (key : String) (value : V) :
    Option (LRUCache V)

/-- The documented behaviour, as far as the two sides use it. -/
class LawfulCacheTools [CacheTools] : Prop where
  /-- A key that is read becomes the most recently used. -/
  getitem_eq {V : Type} {c : LRUCache V} {key : String} (h : (c.data.get? key).isSome) :
    CacheTools.getitem c key = c.touch key
  /-- A value that is larger than the cache is refused. -/
  setitem_too_large {V : Type} {getsizeof : V → ℕ} {c : LRUCache V} {key : String} {value : V}
    (h : c.maxsize < getsizeof value) : CacheTools.setitem getsizeof c key value = none
  /-- For a new key, `popitem` is called until the value fits. The key is then the most recently
  used. -/
  setitem_new {V : Type} {getsizeof : V → ℕ} {c : LRUCache V} {key : String} {value : V}
    (h : getsizeof value ≤ c.maxsize) (hnew : c.data.get? key = none) :
    CacheTools.setitem getsizeof c key value =
      some { c with data := (c.makeRoom getsizeof (getsizeof value)).set key value }

namespace LRUCache

variable [CacheTools] {V : Type} {getsizeof : V → ℕ}

/-- `get`: a miss leaves the cache as it is. -/
def get (c : LRUCache V) (key : String) : Option V × LRUCache V :=
  match c.data.get? key with
  | some value => (some value, CacheTools.getitem c key)
  | none => (none, c)

/-- `put_if_fits`. -/
def putIfFits (getsizeof : V → ℕ) (c : LRUCache V) (key : String) (value : V) : Bool × LRUCache V :=
  match CacheTools.setitem getsizeof c key value with
  | some c => (true, c)
  | none => (false, c)

private theorem get_eq [LawfulCacheTools] (c : LRUCache V) (key : String) :
    c.get key = (c.data.get? key, c.touch key) := by
  rw [get]
  cases hget : c.data.get? key with
  | some value => rw [LawfulCacheTools.getitem_eq (hget ▸ rfl)]
  | none => rw [touch_of_get?_none hget]

/-- What the insertion of a new key does to the sizes depends on the sizes only. -/
private theorem sizes_putIfFits [LawfulCacheTools] {c : LRUCache V} {key : String}
    (hnew : c.data.get? key = none) (value : V) :
    (c.putIfFits getsizeof key value).2.sizes getsizeof =
      ((c.sizes getsizeof).putIfFits id key (getsizeof value)).2 := by
  rw [putIfFits, putIfFits]
  by_cases hfits : getsizeof value ≤ c.maxsize
  · have hnew' : (c.sizes getsizeof).data.get? key = none := by
      rw [sizes, get?_map, hnew]
      rfl
    have hfits' : id (getsizeof value) ≤ (c.sizes getsizeof).maxsize := hfits
    rw [LawfulCacheTools.setitem_new hfits hnew, LawfulCacheTools.setitem_new hfits' hnew', id,
      ← map_makeRoom]
    simp only [sizes]
    rw [Dict.map_set]
  · have hlarge : (c.sizes getsizeof).maxsize < id (getsizeof value) := not_le.mp hfits
    rw [LawfulCacheTools.setitem_too_large (not_le.mp hfits),
      LawfulCacheTools.setitem_too_large hlarge]

end LRUCache

/-! ### The two sides -/

/-- What `_merge_mm_kwargs` may raise; a `LookupError` is an `IndexError` or a `KeyError`. -/
inductive MergeError where
  | assertionError
  | lookupError
deriving DecidableEq, Repr

/-- `MultiModalProcessorCacheItemMetadata`. -/
structure CacheItemMetadata (Update : Type) where
  itemSize : ℕ
  promptUpdates : List Update

/-- The cache of `LruKeyReplicatedSenderCache`. -/
abbrev Sender (Update : Type) := LRUCache (CacheItemMetadata Update)

/-- The cache of `LruKeyReplicatedReceiverCache`. -/
abbrev Receiver (Item : Type) := LRUCache Item

variable {Item Update : Type} (getItemSize : Item → ℕ) (recompute : Update → ℕ → Update)

section Sides

variable [CacheTools]

/-- `LruKeyReplicatedSenderCache.get_and_update_item`: an item that is held is not sent. -/
def Sender.getAndUpdateItem (c : Sender Update) (mmItem : Option (Item × List Update))
    (mmHash : String) : Except MergeError ((Option Item × List Update) × Sender Update) :=
  match c.get mmHash with
  | (some cached, c) => .ok ((none, cached.promptUpdates), c)
  | (none, c) =>
    match mmItem with
    | none => .error .assertionError
    | some (item, updates) => .ok ((some item, updates),
        (c.putIfFits CacheItemMetadata.itemSize mmHash ⟨getItemSize item, updates⟩).2)

/-- `LruKeyReplicatedReceiverCache.get_and_update_item`; `none` is the
`MultiModalCacheMissError`. -/
def Receiver.getAndUpdateItem (c : Receiver Item) (mmItem : Option Item) (mmHash : String) :
    Option Item × Receiver Item :=
  match mmItem with
  | some item => (some item, ((c.pop mmHash).putIfFits getItemSize mmHash item).2)
  | none => c.get mmHash

/-- The touches before the updates. -/
def touchAll {V : Type} (c : LRUCache V) (keys : List String) : LRUCache V :=
  keys.foldl touch c

/-- A request as `_merge_mm_kwargs` and `process_inputs` see it. The positions are the offsets of
the placeholders, and the LoRA name is there if it goes into the identifiers. -/
structure MmRequest (Item Update : Type) where
  mmHashes : Dict String (List String)
  mmIsCached : Dict String (List Bool)
  mmMissingKwargs : Dict String (List Item)
  mmMissingPromptUpdates : Dict String (List (List Update))
  mmPositions : Dict String (List ℕ)
  loraName : Option String := none

namespace MmRequest

/-- An entry of a list of a modality. -/
def entry {α : Type} (d : Dict String (List α)) (modality : String) (idx : ℕ) :
    Except MergeError α :=
  match ((d.get? modality).getD [])[idx]? with
  | some x => .ok x
  | none => .error .lookupError

variable (req : MmRequest Item Update)

/-- The item handed to the cache, and how many missing items of the modality are used up. -/
def missing (modality : String) (itemIdx nextIdx : ℕ) :
    Except MergeError (Option (Item × List Update) × ℕ) := do
  match ← entry req.mmIsCached modality itemIdx with
  | true => return (none, nextIdx)
  | false =>
    let kwargs ← entry req.mmMissingKwargs modality nextIdx
    let updates ← entry req.mmMissingPromptUpdates modality nextIdx
    return (some (kwargs, updates), nextIdx + 1)

/-- The inner loop of `_merge_mm_kwargs`. -/
def mergeItems (modality : String) : List String → ℕ → ℕ → Sender Update →
    Except MergeError (List (Option Item × List Update) × Sender Update)
  | [], _, _, c => .ok ([], c)
  | itemHash :: hashes, itemIdx, nextIdx, c => do
    let found ← req.missing modality itemIdx nextIdx
    let updated ← c.getAndUpdateItem getItemSize found.1 itemHash
    let rest ← mergeItems modality hashes (itemIdx + 1) found.2 updated.2
    return ((updated.1.1, updated.1.2.map fun update => recompute update itemIdx) :: rest.1, rest.2)

/-- The outer loop: the merged items of each modality. -/
def mergeModalities : List (String × List String) →
    (String → List (Option Item × List Update)) → Sender Update →
    Except MergeError ((String → List (Option Item × List Update)) × Sender Update)
  | [], merged, c => .ok (merged, c)
  | (modality, hashes) :: rest, merged, c => do
    let items ← req.mergeItems getItemSize recompute modality hashes 0 0 c
    mergeModalities rest (Function.update merged modality items.1) items.2

/-- `_merge_mm_kwargs`: the keys are touched first, then the items are merged. -/
def mergeMmKwargs (c : Sender Update) :
    Except MergeError ((String → List (Option Item × List Update)) × Sender Update) :=
  req.mergeModalities getItemSize recompute req.mmHashes.entries (fun _ => [])
    (touchAll c req.mmHashes.values.flatten)

/-- The items in the order of their positions in the prompt. -/
def argsortMmPositions : List (String × ℕ) :=
  let flat := req.mmPositions.entries.flatMap fun e =>
    e.2.zipIdx.map fun x => (x.1, e.1, x.2)
  (flat.insertionSort fun a b => a.1 ≤ b.1).map Prod.snd

/-- The key of a feature: its hash, or its identifier if the hash is empty. -/
def cacheKey (mmHash : String) : String :=
  if mmHash ≠ "" then mmHash
  else match req.loraName with
    | none => mmHash
    | some name => name ++ ":" ++ mmHash

/-- The features of a request: the data that is sent and the key. -/
def features (merged : String → List (Option Item × List Update)) :
    Except MergeError (List (Option Item × String)) :=
  req.argsortMmPositions.mapM fun x => do
    let mmHash ← entry req.mmHashes x.1 x.2
    match (merged x.1)[x.2]? with
    | some item => return (item.1, req.cacheKey mmHash)
    | none => throw .lookupError

end MmRequest

/-- The loop of `get_and_update_features`: the data, and the hashes that are missing. -/
def updateFeatures : List (Option Item × String) → Receiver Item →
    (List (Option Item) × List String) × Receiver Item
  | [], c => (([], []), c)
  | (data, key) :: features, c =>
    let updated := c.getAndUpdateItem getItemSize data key
    let rest := updateFeatures features updated.2
    ((updated.1 :: rest.1.1, if updated.1.isNone then key :: rest.1.2 else rest.1.2), rest.2)

/-- `get_and_update_features`; the error carries the missing hashes. -/
def Receiver.getAndUpdateFeatures (c : Receiver Item) (features : List (Option Item × String)) :
    Except (List String) (List (Option Item)) × Receiver Item :=
  let out := updateFeatures getItemSize features (touchAll c (features.map Prod.snd))
  (if out.1.2 = [] then .ok out.1.1 else .error out.1.2, out.2)

/-- Requests that the frontend handles one after another, with the features it sends. -/
def sendAll : List (MmRequest Item Update) → Sender Update →
    Except MergeError (List (List (Option Item × String)) × Sender Update)
  | [], c => .ok ([], c)
  | req :: reqs, c => do
    let merged ← req.mergeMmKwargs getItemSize recompute c
    let sent ← req.features merged.1
    let rest ← sendAll reqs merged.2
    return (sent :: rest.1, rest.2)

/-- The core handles them in the same order, up to the first `MultiModalCacheMissError`. -/
def receiveAll : List (List (Option Item × String)) → Receiver Item →
    Except (List String) (Receiver Item)
  | [], c => .ok c
  | sent :: rest, c =>
    match c.getAndUpdateFeatures getItemSize sent with
    | (.ok _, c) => receiveAll rest c
    | (.error missing, _) => .error missing

end Sides

/-! ### In step -/

variable {getItemSize recompute} {s s' : Sender Update} {r : Receiver Item}

/-- The caches hold the same keys with the same sizes in the same order. -/
def Mirrors (getItemSize : Item → ℕ) (s : Sender Update) (r : Receiver Item) : Prop :=
  s.sizes CacheItemMetadata.itemSize = r.sizes getItemSize

section

variable (h : Mirrors getItemSize s r)

include h

/-- A touch of both. -/
theorem Mirrors.touch {key : String} : Mirrors getItemSize (s.touch key) (r.touch key) := by
  rw [Mirrors, sizes_touch, sizes_touch, h]

private theorem Mirrors.touchAll (keys : List String) :
    Mirrors getItemSize (touchAll s keys) (touchAll r keys) := by
  induction keys generalizing s r with
  | nil => exact h
  | cons key keys ih => exact ih h.touch

private theorem Mirrors.get? (key : String) :
    (s.data.get? key).map CacheItemMetadata.itemSize = (r.data.get? key).map getItemSize := by
  rw [← get?_map, ← get?_map]
  exact congrArg (fun c : LRUCache ℕ => c.data.get? key) h

/-- One item: what the frontend holds the core finds, and what is sent both insert. -/
theorem Mirrors.update [CacheTools] [LawfulCacheTools] {mmItem : Option (Item × List Update)}
    {mmHash : String} {out : Option Item × List Update}
    (hsend : s.getAndUpdateItem getItemSize mmItem mmHash = .ok (out, s')) :
    ∃ data r', r.getAndUpdateItem getItemSize out.1 mmHash = (some data, r') ∧
      Mirrors getItemSize s' r' := by
  have hsizes := h.get? mmHash
  rw [Sender.getAndUpdateItem, get_eq] at hsend
  cases hget : s.data.get? mmHash with
  | some cached =>
    rw [hget] at hsend hsizes
    obtain ⟨rfl, rfl⟩ := Prod.mk.inj (ok.inj hsend)
    obtain ⟨item, hitem, -⟩ := Option.map_eq_some_iff.mp hsizes.symm
    exact ⟨item, r.touch mmHash, (get_eq r mmHash).trans (ext hitem rfl), h.touch⟩
  | none =>
    rw [hget] at hsend hsizes
    have hnone := Option.map_eq_none_iff.mp hsizes.symm
    cases mmItem with
    | none => cases hsend
    | some mmItem =>
      obtain ⟨rfl, rfl⟩ := Prod.mk.inj (ok.inj hsend)
      refine ⟨mmItem.1, _, rfl, ?_⟩
      have hpop : r.pop mmHash = r := by rw [pop, erase_of_get?_none hnone]
      -- both evict by the sizes they hold, and these agree
      rw [Mirrors, touch_of_get?_none hget, hpop, sizes_putIfFits hget, sizes_putIfFits hnone, h]

end

private theorem ok_of_bind {ε α β : Type} {x : Except ε α} {f : α → Except ε β} {b : β}
    (h : (x >>= f) = .ok b) : ∃ a, x = .ok a ∧ f a = .ok b := by
  cases x with
  | error e => cases h
  | ok a => exact ⟨a, rfl, h⟩

/-- The core finds the data of all the features. -/
def Finds [CacheTools] (getItemSize : Item → ℕ) (features : List (Option Item × String)) (s' : Sender Update)
    (r : Receiver Item) : Prop :=
  ∃ data r', updateFeatures getItemSize features r = ((data, []), r') ∧ Mirrors getItemSize s' r'

/-- Features that are found one list after another. -/
theorem Finds.append [CacheTools] {l l' : List (Option Item × String)} {s'' : Sender Update}
    (h : Finds getItemSize l s' r)
    (h' : ∀ r', Mirrors getItemSize s' r' → Finds getItemSize l' s'' r') :
    Finds getItemSize (l ++ l') s'' r := by
  induction l generalizing r with
  | nil =>
    obtain ⟨data, r', hupdate, hmirrors⟩ := h
    obtain ⟨-, rfl⟩ := Prod.mk.inj hupdate
    exact h' _ hmirrors
  | cons x l ih =>
    obtain ⟨data, r', hupdate, hmirrors⟩ := h
    obtain ⟨hdata, rfl⟩ := Prod.mk.inj hupdate
    obtain ⟨-, hmissing⟩ := Prod.mk.inj hdata
    split_ifs at hmissing with hnone
    obtain ⟨data', r'', hupdate', hmirrors'⟩ :=
      ih ⟨_, _, ext (ext rfl hmissing) rfl, hmirrors⟩
    refine ⟨(r.getAndUpdateItem getItemSize x.1 x.2).1 :: data', r'', ?_, hmirrors'⟩
    rw [cons_append, updateFeatures, hupdate']
    rw [if_neg hnone]

variable {req : MmRequest Item Update} {modality : String}

private theorem Mirrors.mergeItems [CacheTools] [LawfulCacheTools] (h : Mirrors getItemSize s r) {hashes : List String}
    {itemIdx nextIdx : ℕ} {items : List (Option Item × List Update)}
    (hmerge : req.mergeItems getItemSize recompute modality hashes itemIdx nextIdx s =
      .ok (items, s')) :
    items.length = hashes.length ∧ Finds getItemSize ((items.map fst).zip hashes) s' r := by
  induction hashes generalizing itemIdx nextIdx s r items with
  | nil =>
    obtain ⟨rfl, rfl⟩ := Prod.mk.inj (ok.inj hmerge)
    exact ⟨rfl, [], r, rfl, h⟩
  | cons mmHash hashes ih =>
    obtain ⟨found, -, hmerge⟩ := ok_of_bind hmerge
    obtain ⟨⟨out, s1⟩, hsend, hmerge⟩ := ok_of_bind hmerge
    obtain ⟨⟨rest, s2⟩, hrest, hmerge⟩ := ok_of_bind hmerge
    obtain ⟨rfl, rfl⟩ := Prod.mk.inj (ok.inj hmerge)
    obtain ⟨data, r1, hfound, hmirrors⟩ := h.update hsend
    obtain ⟨hlength, hfinds⟩ := ih hmirrors hrest
    refine ⟨congrArg _ hlength, Finds.append (l := [(out.1, mmHash)])
      ⟨[some data], r1, ?_, hmirrors⟩ fun r' hr' => (ih hr' hrest).2⟩
    rw [updateFeatures, hfound]
    rfl

/-- The features of the modalities, in the order of the loops. -/
def inOrder (merged : String → List (Option Item × List Update)) (l : List (String × List String)) :
    List (Option Item × String) :=
  l.flatMap fun e => ((merged e.1).map fst).zip e.2

variable {l : List (String × List String)} {merged : String → List (Option Item × List Update)}

private theorem Mirrors.mergeModalities [CacheTools] [LawfulCacheTools] (h : Mirrors getItemSize s r)
    (hnodup : (l.map fst).Nodup) {merged' : String → List (Option Item × List Update)}
    (hmerge : req.mergeModalities getItemSize recompute l merged s = .ok (merged', s')) :
    (∀ m ∉ l.map fst, merged' m = merged m) ∧ (∀ e ∈ l, (merged' e.1).length = e.2.length) ∧
      Finds getItemSize (inOrder merged' l) s' r := by
  induction l generalizing s r merged with
  | nil =>
    obtain ⟨rfl, rfl⟩ := Prod.mk.inj (ok.inj hmerge)
    exact ⟨fun _ _ => rfl, nofun, [], r, rfl, h⟩
  | cons e l ih =>
    obtain ⟨modality, hashes⟩ := e
    obtain ⟨hnot, hnodup⟩ := nodup_cons.mp hnodup
    obtain ⟨⟨items, s1⟩, hitems, hrest⟩ := ok_of_bind hmerge
    obtain ⟨hlength, hfinds⟩ := h.mergeItems hitems
    -- later modalities leave the items of this one
    have hself : merged' modality = items := by
      obtain ⟨-, r1, -, hmirrors⟩ := hfinds
      rw [(ih hmirrors hnodup hrest).1 _ hnot, Function.update_self]
    obtain ⟨data, r1, hupdate, hmirrors⟩ := hfinds
    obtain ⟨hothers, hlengths, -⟩ := ih hmirrors hnodup hrest
    refine ⟨fun m hm => ?_, fun e he => ?_, ?_⟩
    · rw [map_cons, mem_cons, not_or] at hm
      obtain ⟨hne, hm⟩ := hm
      rw [hothers m hm, Function.update_of_ne hne]
    · rcases mem_cons.mp he with rfl | he
      · rw [hself, hlength]
      · exact hlengths e he
    · rw [inOrder, flatMap_cons, hself]
      exact Finds.append ⟨data, r1, hupdate, hmirrors⟩ fun r' hr' => (ih hr' hnodup hrest).2.2

/-! ### Requests in prompt order -/

namespace MmRequest

/-- The features stand in the prompt as the loops of `_merge_mm_kwargs` visit them, and each goes
by its hash. -/
structure PromptOrder (req : MmRequest Item Update) : Prop where
  order : req.argsortMmPositions =
    req.mmHashes.entries.flatMap fun e => (List.range e.2.length).map (Prod.mk e.1)
  keys : req.loraName = none ∨ "" ∉ req.mmHashes.values.flatten

instance (req : MmRequest Item Update) : Decidable req.PromptOrder :=
  decidable_of_iff (_ ∧ _) ⟨fun h => ⟨h.1, h.2⟩, fun h => ⟨h.order, h.keys⟩⟩

private theorem PromptOrder.cacheKey (h : req.PromptOrder) {mmHash : String}
    (hmem : mmHash ∈ req.mmHashes.values.flatten) : req.cacheKey mmHash = mmHash := by
  rw [MmRequest.cacheKey]
  split_ifs with hempty
  · rfl
  · rcases h.keys with hnone | hnot
    · rw [hnone]
    · exact absurd (not_not.mp hempty ▸ hmem) hnot

private theorem mapM_ok {α β : Type} {f : α → Except MergeError β} {g : α → β} {l : List α}
    (h : ∀ a ∈ l, f a = .ok (g a)) : l.mapM f = .ok (l.map g) := by
  induction l with
  | nil => rfl
  | cons a l ih =>
    rw [mapM_cons, h a (.head _), ih fun a ha => h a (.tail _ ha)]
    rfl

variable {merged : String → List (Option Item × List Update)}

private theorem PromptOrder.features (h : req.PromptOrder)
    (hlength : ∀ e ∈ req.mmHashes.entries, (merged e.1).length = e.2.length) :
    req.features merged = .ok (inOrder merged req.mmHashes.entries) := by
  have hfeature : ∀ e ∈ req.mmHashes.entries, ∀ i < e.2.length, (do
        let mmHash ← entry req.mmHashes e.1 i
        match (merged e.1)[i]? with
        | some item => return (item.1, req.cacheKey mmHash)
        | none => throw .lookupError : Except MergeError (Option Item × String)) =
      .ok (((merged e.1)[i]?.map fst).getD none, e.2[i]?.getD "") := by
    intro e he i hi
    have hmem : e.2[i] ∈ req.mmHashes.values.flatten :=
      mem_flatten.mpr ⟨e.2, mem_map_of_mem he, getElem_mem hi⟩
    have hi' : i < (merged e.1).length := hlength e he ▸ hi
    rw [entry, mem_entries.mp he, Option.getD_some, getElem?_eq_getElem hi, getElem?_eq_getElem hi']
    change ok (_, req.cacheKey _) = _
    rw [h.cacheKey hmem]
    rfl
  rw [MmRequest.features, h.order]
  refine (mapM_ok (g := fun x => (((merged x.1)[x.2]?.map fst).getD none,
    ((req.mmHashes.get? x.1).getD [])[x.2]?.getD "")) fun x hx => ?_).trans (congrArg ok ?_)
  · obtain ⟨e, he, hx⟩ := mem_flatMap.mp hx
    obtain ⟨i, hi, rfl⟩ := mem_map.mp hx
    rw [hfeature e he i (mem_range.mp hi), mem_entries.mp he, Option.getD_some]
  · rw [map_flatMap]
    refine flatMap_congr fun e he => ext_getElem (by simp [hlength e he]) fun i _ hi => ?_
    rw [length_zip, lt_min_iff, length_map] at hi
    simp [mem_entries.mp he, hi.1, hi.2]

end MmRequest

/-- Requests in prompt order: the core finds everything, and the caches stay in step. -/
private theorem Mirrors.receiveAll [CacheTools] [LawfulCacheTools] {reqs : List (MmRequest Item Update)}
    (horder : ∀ req ∈ reqs, req.PromptOrder) {features : List (List (Option Item × String))}
    (h : Mirrors getItemSize s r)
    (hsend : sendAll getItemSize recompute reqs s = .ok (features, s')) :
    ∃ r', receiveAll getItemSize features r = .ok r' ∧ Mirrors getItemSize s' r' := by
  induction reqs generalizing s r features with
  | nil =>
    obtain ⟨rfl, rfl⟩ := Prod.mk.inj (ok.inj hsend)
    exact ⟨r, rfl, h⟩
  | cons req reqs ih =>
    obtain ⟨⟨merged, s1⟩, hmerge, hsend⟩ := ok_of_bind hsend
    obtain ⟨sent, hsent, hsend⟩ := ok_of_bind hsend
    obtain ⟨⟨rest, s2⟩, hrest, hsend⟩ := ok_of_bind hsend
    obtain ⟨rfl, rfl⟩ := Prod.mk.inj (ok.inj hsend)
    have htouched := h.touchAll req.mmHashes.values.flatten
    obtain ⟨-, hlength, data, r1, hupdate, hmirrors⟩ :=
      htouched.mergeModalities req.mmHashes.nodup hmerge
    obtain rfl := ok.inj (((horder req (.head _)).features hlength).symm.trans hsent)
    obtain ⟨r', hreceive, hmirrors'⟩ :=
      ih (fun req hreq => horder req (.tail _ hreq)) hmirrors hrest
    have hkeys : (inOrder merged req.mmHashes.entries).map Prod.snd = req.mmHashes.values.flatten := by
      rw [inOrder, map_flatMap]
      refine flatMap_congr fun e he => map_snd_zip ?_
      rw [length_map, hlength e he]
    have hfound : r.getAndUpdateFeatures getItemSize (inOrder merged req.mmHashes.entries) =
        (.ok data, r1) := by
      rw [Receiver.getAndUpdateFeatures, hkeys, hupdate]
      rfl
    refine ⟨r', ?_, hmirrors'⟩
    rw [receiveAll, hfound]
    exact hreceive

/-- **Nothing is missed while the orders agree**: from new caches of one capacity, the core finds
every item that was sent without data. -/
theorem receiveAll_ok [CacheTools] [LawfulCacheTools] (getItemSize : Item → ℕ)
    (recompute : Update → ℕ → Update) (capacity : ℕ) (reqs : List (MmRequest Item Update)) (horder : ∀ req ∈ reqs, req.PromptOrder)
    {features : List (List (Option Item × String))}
    (hsend : sendAll getItemSize recompute reqs ⟨capacity, ∅⟩ = .ok (features, s')) :
    ∃ r, receiveAll getItemSize features ⟨capacity, ∅⟩ = .ok r := by
  have hnew : Mirrors getItemSize (⟨capacity, ∅⟩ : Sender Update) ⟨capacity, ∅⟩ := rfl
  obtain ⟨r, hreceive, -⟩ := hnew.receiveAll horder hsend
  exact ⟨r, hreceive⟩

/-- An LRU cache with the documented behaviour. -/
instance : CacheTools where
  getitem c key := c.touch key
  setitem getsizeof c key value :=
    if c.maxsize < getsizeof value then none
    else
      let data :=
        if (c.data.get? key).all fun old => getsizeof old < getsizeof value then
          c.makeRoom getsizeof (getsizeof value)
        else c.data
      some { c with data := (data.erase key).set key value }

instance : LawfulCacheTools where
  getitem_eq _ := rfl
  setitem_too_large h := if_pos h
  setitem_new {V getsizeof c key value} h hnew := by
    have hroom : (c.makeRoom getsizeof (getsizeof value)).get? key = none :=
      get?_eq_none.mpr fun hmem => get?_eq_none.mp hnew
        (((popitems_suffix getsizeof c.maxsize _ _).map fst).subset hmem)
    change (if c.maxsize < getsizeof value then none else _) = _
    rw [if_neg h.not_gt, hnew]
    exact congrArg (fun d : Dict String V => some (LRUCache.mk c.maxsize (d.set key value)))
      (erase_of_get?_none hroom)

/-- A request of one item of each modality. -/
def oneOfEach (hashes : Dict String (List String)) (cached : Bool)
    (positions : Dict String (List ℕ)) : MmRequest Unit Unit :=
  ⟨hashes, hashes.map fun _ => [cached], hashes.map fun _ => [()], hashes.map fun _ => [[]],
    positions, none⟩

/-- An image and a video at the given offsets, then a second image, then the video again. -/
def imageAndVideo (image video : ℕ) : List (MmRequest Unit Unit) :=
  [oneOfEach ⟨[("image", ["a"]), ("video", ["b"])], by decide⟩ false
      ⟨[("image", [image]), ("video", [video])], by simp⟩,
    oneOfEach ⟨[("image", ["c"])], by decide⟩ false ⟨[("image", [0])], by decide⟩,
    oneOfEach ⟨[("video", ["b"])], by decide⟩ true ⟨[("video", [0])], by decide⟩]

/-- With the image first in the prompt as well, the video is found. -/
theorem receiveAll_ok_imageFirst :
    ∃ sent, sendAll (fun _ => 1) (fun u _ => u) (imageAndVideo 0 5) ⟨2, ∅⟩ = .ok sent ∧
      ∃ r, receiveAll (fun _ => 1) sent.1 ⟨2, ∅⟩ = .ok r :=
  ⟨_, rfl, receiveAll_ok (fun _ => 1) (fun u _ => u) 2 (imageAndVideo 0 5) (by decide) rfl⟩

/-- With the video first, the core has evicted what the frontend still holds. -/
theorem receiveAll_videoFirst :
    ∃ sent, sendAll (fun _ => 1) (fun u _ => u) (imageAndVideo 5 0) ⟨2, ∅⟩ = .ok sent ∧
      receiveAll (fun _ : Unit => 1) sent.1 ⟨2, ∅⟩ = .error ["b"] :=
  ⟨_, rfl, rfl⟩

end Sonar.Multimodal
