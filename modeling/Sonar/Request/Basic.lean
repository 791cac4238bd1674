import Mathlib.Algebra.Ring.Nat
import Mathlib.Data.List.Basic
import Mathlib.Data.Int.Basic
import Sonar.Lib.Bisect

/-!
# Requests and the inputs of a block hash

A block hash digests one Python object: a tuple of the parent digest, the block's token ids and
the block's **extra keys**. `PyVal` is the fragment of Python objects that can occur there, so
that two hash inputs are equal here exactly when the two Python objects are. No part of a key is
kept apart from another by its Lean type; what separates, say, a LoRA key from a cache salt is
the tag the source puts in its first component, and nothing else.

`Request` carries the fields of the engine's request that hashing and the streaming session
update read or write. `mmFeatures` is expected in the order of its offsets and without overlaps
(`Request.FeaturesSorted`): the source states it as an assumption of both `_gen_mm_extra_hash_keys`
and `get_mm_features_in_window`, and builds the list that way.
-/

namespace Sonar

/-- The Python objects a block hash is computed from. -/
inductive PyVal where
  | none
  | int (i : ℤ)
  | str (s : String)
  | bytes (b : List UInt8)
  | tuple (xs : List PyVal)

/-- A block hash is a digest, kept as raw bytes. -/
abbrev BlockHash := List UInt8

/-- Where a multimodal item's placeholder tokens stand in the prompt. -/
structure PlaceholderRange where
  offset : ℕ
  length : ℕ
deriving DecidableEq, Repr

/-- One multimodal item of a request. -/
structure MultiModalFeatureSpec where
  identifier : String
  mmPosition : PlaceholderRange
deriving DecidableEq, Repr

/-- The first token position past the item's placeholder. -/
def MultiModalFeatureSpec.endPos (f : MultiModalFeatureSpec) : ℕ :=
  f.mmPosition.offset + f.mmPosition.length

/-- A LoRA adapter: the name and path a client refers to, and the engine's own integer id. -/
structure LoRARequest where
  loraName : String
  loraIntId : ℕ
  loraPath : String
deriving DecidableEq, Repr

/-- What the frontend sends for one request. -/
structure EngineCoreRequest where
  promptTokenIds : Option (List ℤ) := .none
  promptEmbeds : Option (List (List UInt8)) := .none
  promptIsTokenIds : Option (List Bool) := .none
  mmFeatures : Option (List MultiModalFeatureSpec) := .none
  loraRequest : Option LoRARequest := .none
  cacheSalt : Option String := .none
  sessionId : Option String := .none
  resumable : Bool := false

/-- `RequestStatus`. -/
inductive RequestStatus where
  | waiting
  | waitingForStructuredOutputGrammar
  | waitingForRemoteKvs
  | waitingForStreamingReq
  | running
  | preempted
  | finishedStopped
  | finishedLengthCapped
  | finishedAborted
  | finishedIgnored
  | finishedError
  | finishedRepetition
deriving DecidableEq, Repr

/-- The key a request is known by. -/
abbrev RequestId := String

/-- The part of an engine request that block hashing, session updates, block allocation and
scheduling work on. `promptEmbeds` holds one row of raw tensor bytes per prompt position. -/
structure Request where
  requestId : RequestId := ""
  status : RequestStatus := .waiting
  promptTokenIds : Option (List ℤ) := .none
  promptEmbeds : Option (List (List UInt8)) := .none
  promptIsTokenIds : Option (List Bool) := .none
  numPromptTokens : ℕ := 0
  outputTokenIds : List ℤ := []
  allTokenIds : List ℤ := []
  numComputedTokens : ℕ := 0
  numInFlightTokens : ℕ := 0
  sharedPrefixBoundary : ℕ := 0
  mmFeatures : List MultiModalFeatureSpec := []
  loraRequest : Option LoRARequest := .none
  cacheSalt : Option String := .none
  sessionId : Option String := .none
  blockHashes : List BlockHash := []
  resumable : Bool := false
deriving DecidableEq, Repr

namespace Request

/-- Tokens the request holds, prompt and output together. -/
def numTokens (request : Request) : ℕ := request.allTokenIds.length

/-- Items in the order of their placeholders, no two of which overlap. -/
def FeaturesSorted (request : Request) : Prop :=
  request.mmFeatures.Pairwise fun f g => f.endPos ≤ g.mmPosition.offset

instance (request : Request) : Decidable request.FeaturesSorted :=
  inferInstanceAs (Decidable (List.Pairwise _ _))

end Request

/-- The indices `(lo, hi)` of the features that overlap the token window `[start, stop)`. -/
def getMmFeaturesInWindow (mmFeatures : List MultiModalFeatureSpec) (start stop : ℕ) : ℕ × ℕ :=
  (Lib.bisectLeft mmFeatures MultiModalFeatureSpec.endPos (start + 1),
    Lib.bisectLeft mmFeatures (fun f => f.mmPosition.offset) stop)

variable {mmFeatures : List MultiModalFeatureSpec}

section

variable (h : mmFeatures.Pairwise fun f g => f.endPos ≤ g.mmPosition.offset)

include h

/-- Sorted, non-overlapping features have nondecreasing ends, the order the search for the
lower index relies on. -/
theorem pairwise_endPos_le : mmFeatures.Pairwise fun f g => f.endPos ≤ g.endPos :=
  h.imp fun hfg => hfg.trans (Nat.le_add_right _ _)

end

end Sonar
