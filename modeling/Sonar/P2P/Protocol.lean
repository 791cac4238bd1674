import Sonar.Lib.Dict

/-!
# Messages between peers

Two engines that share KV blocks talk over one connection. Each end has a **client role**, which
looks up and fetches blocks, and a **server role**, which serves them by writing into the client's
memory. A request runs in **rounds**: a fetch closes a round, and the server answers it with
`TransferDone`, or with `AbortAck` once an abort has stopped its writes.

Messages appear here as they are after `validate()`: the fields have their types, indexes and
rounds are not negative, and the lists of a message are equally long (`PeerMsg.Valid`). Messages of
the handshake are left out. Times are in milliseconds.
-/

namespace Sonar.P2P

open Lib List

/-- The id two peers know a request by. -/
abbrev KvRequestId := String

/-- A job id, assigned by the tiering manager. -/
abbrev JobId := ℕ

/-- The key of an offloaded block. -/
abbrev OffloadKey := List UInt8

/-- A reading of the monotonic clock. -/
abbrev Time := ℕ

/-- `LookupResult`: what a manager or a tier answers about a key. -/
inductive LookupResult where
  | miss
  | hit
  | hitPending
  | retry
deriving DecidableEq, Repr

/-- The exceptions the roles raise. -/
inductive RoleError where
  | valueError
  | assertionError
  | keyError
deriving DecidableEq, Repr

/-- The result of a call that may raise, and the state it leaves behind. -/
abbrev Outcome (σ α : Type) := Except RoleError α × σ

/-- The messages after the handshake. -/
inductive PeerMsg where
  | fetch (kvRequestId : KvRequestId) (keys : List OffloadKey) (blockIndexes : List ℕ)
      (roundSeq : ℕ)
  | lookup (kvRequestId : KvRequestId) (keys : List OffloadKey) (roundSeq : ℕ)
  | lookupResp (kvRequestId : KvRequestId) (keys : List OffloadKey) (hits : List Bool)
  | transferDone (kvRequestId : KvRequestId) (success : Bool) (roundSeq : ℕ)
  | abortFetch (kvRequestId : KvRequestId) (roundSeq : ℕ)
  | abortAck (kvRequestId : KvRequestId) (roundSeq : ℕ)
deriving DecidableEq, Repr

/-- What `validate()` checks beyond the types of the fields. -/
def PeerMsg.Valid : PeerMsg → Prop
  | .fetch _ keys blockIndexes _ => keys.length = blockIndexes.length
  | .lookupResp _ keys hits => keys.length = hits.length
  | _ => True

/-- Add to a set kept as a list. -/
def insertSet {α : Type*} [DecidableEq α] (a : α) (l : List α) : List α :=
  if a ∈ l then l else l ++ [a]

@[simp] theorem mem_insertSet {α : Type*} [DecidableEq α] {a b : α} {l : List α} :
    b ∈ insertSet a l ↔ b = a ∨ b ∈ l := by
  rw [insertSet]
  split_ifs with ha
  · constructor
    · exact .inr
    · rintro (rfl | hb)
      · exact ha
      · exact hb
  · rw [mem_append, mem_singleton, or_comm]

/-- Remove from a set kept as a list. -/
def discard {α : Type*} [DecidableEq α] (a : α) (l : List α) : List α := l.filter (· ≠ a)

@[simp] theorem mem_discard {α : Type*} [DecidableEq α] {a b : α} {l : List α} :
    b ∈ discard a l ↔ b ∈ l ∧ b ≠ a := by
  rw [discard, mem_filter, decide_eq_true_eq]

end Sonar.P2P
