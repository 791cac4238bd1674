import Mathlib.Data.List.Dedup
import Sonar.Lib.Returns
import Sonar.P2P.Protocol

/-!
# Cache policies of the CPU tier

A **cache policy** organizes the chunks that are resident in CPU memory and decides which of them are
evicted. `CachePolicy` has the calls the manager makes. `ChunkStatus` is a mutable object in the
source that the policy and the manager share; here `put` writes a changed status back.

`LawfulPolicy` says what a policy does to the dictionary of resident chunks it stands for
(`Represents`): recency and adaptation never change it, and `evict` removes chunks that are idle and
not protected, or nothing.
-/

namespace Sonar.Offload

open Lib P2P

scoped instance : LawfulBEq OffloadKey := inferInstance

/-- `ChunkStatus`: `refCnt` counts the transfers that read the chunk, `-1` while it is written. -/
structure ChunkStatus where
  refCnt : ℤ := -1
  chunkId : ℕ
deriving DecidableEq, Repr

/-- Whether the chunk is written and can be read. -/
def ChunkStatus.isReady (c : ChunkStatus) : Bool := decide (0 ≤ c.refCnt)

/-- The status with another reference count. -/
def ChunkStatus.withRef (c : ChunkStatus) (refCnt : ℤ) : ChunkStatus := { c with refCnt }

/-- The count fits in the `c_int32` that the code keeps it in. -/
def ChunkStatus.FitsInt32 (c : ChunkStatus) : Prop := c.refCnt.bmod (2 ^ 32) = c.refCnt

/-- The counts from -1 up to the bound fit. -/
theorem ChunkStatus.fitsInt32 {c : ChunkStatus} (hlow : -1 ≤ c.refCnt) (hhigh : c.refCnt < 2 ^ 31) :
    c.FitsInt32 :=
  Int.bmod_eq_of_le (by omega) (by omega)

@[simp] theorem ChunkStatus.withRef_refCnt (c : ChunkStatus) (r : ℤ) : (c.withRef r).refCnt = r := rfl

/-- `ReqContext`: the id of a request and the positions of its keys. Policies and managers attach their
state to the object, whose identity is `ident`. -/
structure ReqContext where
  ident : ℕ
  reqId : String
  position : OffloadKey → Option ℕ := fun _ => none

/-- The exceptions of the offloading code. A message is a format string, with the key it mentions. -/
inductive OffloadError where
  | assertionError (message : String) (key : Option OffloadKey := none)
  | keyError
deriving DecidableEq, Repr

/-- Calls of a policy. -/
abbrev PolicyM (π α : Type) := ExceptT OffloadError (StateM π) α

/-- What the manager asks of a policy. -/
class CachePolicy (π : Type) where
  /-- `__init__`, with the cache capacity. -/
  new : ℕ → π
  /-- The chunks that are resident. -/
  residents : π → List (OffloadKey × ChunkStatus)
  get : π → OffloadKey → Option ChunkStatus
  /-- A resident chunk has changed. -/
  put : π → OffloadKey → ChunkStatus → π
  insert : OffloadKey → ChunkStatus → ReqContext → PolicyM π PUnit
  remove : OffloadKey → PolicyM π PUnit
  onStoreMiss : List OffloadKey → PolicyM π PUnit
  onRequestAccess : List OffloadKey → ReqContext → PolicyM π PUnit
  onRequestFinished : List (List OffloadKey) → List OffloadKey → List OffloadKey → ReqContext →
    PolicyM π PUnit
  evict : ℕ → List OffloadKey → PolicyM π (Option (List (OffloadKey × ChunkStatus)))
  clear : π → π
  markEvictable : OffloadKey → PolicyM π PUnit
  markNonEvictable : OffloadKey → PolicyM π PUnit

open CachePolicy

/-- `order_request_keys`: one order across all groups, by position if all positions are known. -/
def orderRequestKeys (keyGroups : List (List OffloadKey)) (ctx : ReqContext) : List OffloadKey :=
  let keys := keyGroups.flatten
  let positions := (keys.filter fun key => (ctx.position key).isSome).dedup
  if positions.length = keys.length then
    keys.mergeSort fun a b => decide ((ctx.position a).getD 0 ≤ (ctx.position b).getD 0)
  else keys

/-- Keys removed one after the other. -/
def eraseAll (d : Dict OffloadKey ChunkStatus) (l : List (OffloadKey × ChunkStatus)) :
    Dict OffloadKey ChunkStatus := l.foldl (fun d e => d.erase e.1) d

/-- What is left after the erasures. -/
theorem get?_eraseAll (d : Dict OffloadKey ChunkStatus) (l : List (OffloadKey × ChunkStatus)) (k : OffloadKey) :
    (eraseAll d l).get? k = if k ∈ l.map Prod.fst then none else d.get? k := by
  induction l generalizing d with
  | nil => rfl
  | cons e l ih =>
    change (eraseAll (d.erase e.1) l).get? k = _
    rw [ih, Dict.get?_erase, List.map_cons]
    by_cases hk : k = e.1
    · rw [if_pos hk, ite_self, if_pos (hk ▸ List.mem_cons_self)]
    · rw [if_neg hk]
      simp only [List.mem_cons, hk, false_or]

/-- What `evict` may return and leave. -/
def Evicts (n : ℕ) (protectedKeys : List OffloadKey) (d : Dict OffloadKey ChunkStatus)
    (l : List (OffloadKey × ChunkStatus)) : Prop :=
  l.length = n ∧ (l.map Prod.fst).Nodup ∧
    ∀ e ∈ l, d.get? e.1 = some e.2 ∧ e.2.refCnt = 0 ∧ e.1 ∉ protectedKeys

/-- A policy that does what the manager relies on. -/
class LawfulPolicy (π : Type) [CachePolicy π] where
  /-- The resident chunks a policy stands for. -/
  Represents : π → Dict OffloadKey ChunkStatus → Prop
  new_represents : ∀ n, Represents (new n) ∅
  residents_perm : ∀ {p d}, Represents p d → (residents p).Perm d.entries
  get_eq : ∀ {p d}, Represents p d → ∀ k, get p k = d.get? k
  /-- A reference count changes between two values that are not zero. -/
  put_represents : ∀ {p d k c r}, Represents p d → d.get? k = some c → c.refCnt ≠ 0 → r ≠ 0 →
    Represents (put p k (c.withRef r)) (d.set k (c.withRef r))
  /-- A chunk that was idle is used. -/
  pin_represents : ∀ {p d k c r}, Represents p d → d.get? k = some c → c.refCnt = 0 → r ≠ 0 →
    Returns (markNonEvictable k) p fun _ p' =>
      Represents (put p' k (c.withRef r)) (d.set k (c.withRef r))
  /-- A chunk becomes idle. -/
  unpin_represents : ∀ {p d k c}, Represents p d → d.get? k = some c → c.refCnt ≠ 0 →
    Returns (markEvictable k) (put p k (c.withRef 0)) fun _ p' =>
      Represents p' (d.set k (c.withRef 0))
  insert_represents : ∀ {p d k c} (ctx), Represents p d → d.get? k = none → c.refCnt ≠ 0 →
    Returns (insert k c ctx) p fun _ p' => Represents p' (d.set k c)
  remove_represents : ∀ {p d k c}, Represents p d → d.get? k = some c →
    Returns (remove k) p fun _ p' => Represents p' (d.erase k)
  onStoreMiss_represents : ∀ {p d} (keys), Represents p d →
    Returns (onStoreMiss keys) p fun _ p' => Represents p' d
  onRequestAccess_represents : ∀ {p d} (keys ctx), Represents p d →
    Returns (onRequestAccess keys ctx) p fun _ p' => Represents p' d
  onRequestFinished_represents : ∀ {p d} (keyGroups inserted reused ctx), Represents p d →
    Returns (onRequestFinished keyGroups inserted reused ctx) p fun _ p' => Represents p' d
  evict_represents : ∀ {p d} (n protectedKeys), Represents p d →
    Returns (evict n protectedKeys) p fun r p' => match r with
      | none => Represents p' d
      | some l => Evicts n protectedKeys d l ∧ Represents p' (eraseAll d l)
  clear_represents : ∀ p, Represents (clear p) ∅

end Sonar.Offload
