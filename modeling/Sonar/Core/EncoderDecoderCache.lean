import Mathlib.Algebra.BigOperators.Group.Multiset.Basic
import Mathlib.Algebra.Order.Group.Multiset
import Sonar.Lib.Bisect

/-!
# The encoder cache of encoder-decoder models

`EncoderDecoderCacheManager` counts free slots and has no record of the inputs that hold them. The
scheduler takes slots when it schedules the inputs of a request, and returns them in every step
after the first token, when the request finishes and when it is preempted or has no room. A run
keeps the list of the inputs whose slots were taken and not returned. As long as only such inputs
are returned, the counter and the list agree.
-/

namespace Sonar

open Lib

/-- A multimodal input of a request, with its placeholder. -/
structure EncoderInput where
  identifier : String
  offset : ℕ
  length : ℕ
  isEmbed : Option (List Bool) := none
deriving DecidableEq

/-- The number of encoder outputs of an input. -/
def EncoderInput.getNumEmbeds (input : EncoderInput) : ℕ :=
  input.isEmbed.elim input.length (List.count true)

/-- Which encoder outputs stand for a range of its tokens. -/
def EncoderInput.getEmbedsIndicesInRange (input : EncoderInput) (startIdx endIdx : ℕ) : ℕ × ℕ :=
  input.isEmbed.elim (startIdx, endIdx) fun mask =>
    ((mask.take startIdx).count true, (mask.take endIdx).count true)

/-- A request, as far as the manager reads it. -/
structure EncoderRequest where
  requestId : String
  mmFeatures : List EncoderInput
deriving DecidableEq

/-- `get_num_encoder_embeds`, which is asked for inputs of the request only. -/
def EncoderRequest.getNumEncoderEmbeds (request : EncoderRequest) (inputId : ℕ) : ℕ :=
  request.mmFeatures[inputId]?.elim 0 EncoderInput.getNumEmbeds

/-- The manager of the encoder outputs: free slots, and outputs that are freed at later calls. -/
structure EncoderDecoderCacheManager where
  cacheSize : ℕ
  numFreeSlots : ℤ
  allocated : List String := []
  toFree : List String := []

namespace EncoderDecoderCacheManager

/-- `__init__`. -/
def new (cacheSize : ℕ) : EncoderDecoderCacheManager := { cacheSize, numFreeSlots := cacheSize }

variable (m : EncoderDecoderCacheManager) (request : EncoderRequest)

/-- `reset`: all slots are free again. -/
def reset : EncoderDecoderCacheManager := new m.cacheSize

/-- Whether an input fits the compute budget and the free slots. -/
def canAllocate (inputId encoderComputeBudget numEmbedsToSchedule : ℕ) : Bool :=
  let numEncoderEmbeds := request.getNumEncoderEmbeds inputId
  if numEncoderEmbeds > encoderComputeBudget then false
  else ((numEncoderEmbeds + numEmbedsToSchedule : ℕ) : ℤ) ≤ m.numFreeSlots

/-- The slots of an input are taken. -/
def allocate (inputId : ℕ) : EncoderDecoderCacheManager :=
  { m with
    numFreeSlots := m.numFreeSlots - request.getNumEncoderEmbeds inputId
    allocated := m.allocated ++ (request.mmFeatures[inputId]?.map (·.identifier)).toList }

/-- The slots of an input are given back. -/
def freeEncoderInput (inputId : ℕ) : EncoderDecoderCacheManager :=
  { m with numFreeSlots := m.numFreeSlots + request.getNumEncoderEmbeds inputId }

/-- Every input counts as cached. -/
def getCachedInputIds : List ℕ := List.range request.mmFeatures.length

/-- The outputs that were allocated before the last call; the next call returns those since. -/
def getFreedMmHashes : List String × EncoderDecoderCacheManager :=
  (m.toFree, { m with toFree := m.allocated, allocated := [] })

/-! ### The scheduler -/

/-- The loop of `_try_schedule_encoder_inputs` over the inputs of a request without computed
tokens. -/
def scheduleLoop (encoderWindowEnd : ℕ) : List (EncoderInput × ℕ) → ℕ → ℕ → List ℕ
  | [], _, _ => []
  | (input, i) :: rest, encoderComputeBudget, numEmbedsToSchedule =>
    if m.canAllocate request i encoderComputeBudget numEmbedsToSchedule then
      let currEmbeds := input.getEmbedsIndicesInRange 0
        (min input.length (encoderWindowEnd - input.offset))
      if currEmbeds.2 - currEmbeds.1 = 0 then
        scheduleLoop encoderWindowEnd rest encoderComputeBudget numEmbedsToSchedule
      else
        i :: scheduleLoop encoderWindowEnd rest (encoderComputeBudget - request.getNumEncoderEmbeds i)
          (numEmbedsToSchedule + request.getNumEncoderEmbeds i)
    else []

/-- The inputs that `_try_schedule_encoder_inputs` schedules for an encoder-decoder model. -/
def tryScheduleEncoderInputs (numComputedTokens numNewTokens encoderComputeBudget
    shiftComputedTokens : ℕ) : List ℕ :=
  let encoderWindowEnd := numComputedTokens + numNewTokens + shiftComputedTokens
  let hi := bisectLeft request.mmFeatures (·.offset) encoderWindowEnd
  -- once decoder tokens are computed, the inputs were encoded
  if numNewTokens = 0 ∨ numComputedTokens > 0 then []
  else scheduleLoop m request encoderWindowEnd (request.mmFeatures.zipIdx.take hi)
    encoderComputeBudget 0

/-- The inputs that `_free_encoder_inputs` returns for an encoder-decoder model. -/
def inputsToFree (numComputedTokens numOutputPlaceholders : ℕ) : List ℕ :=
  (getCachedInputIds request).filter fun i => numComputedTokens > 0 ||
    request.mmFeatures[i]?.any fun input =>
      (input.offset + input.length : ℤ) ≤ numComputedTokens - numOutputPlaceholders

end EncoderDecoderCacheManager

/-- What a scheduler does to the cache: `update` is `_free_encoder_inputs` after a step, `release`
is `free` for a request that finishes, is preempted or gets no blocks. -/
inductive EncoderCall where
  | schedule (request : EncoderRequest)
      (numComputedTokens numNewTokens encoderComputeBudget shiftComputedTokens : ℕ)
  | update (request : EncoderRequest) (numComputedTokens numOutputPlaceholders : ℕ)
  | release (request : EncoderRequest)
  | getFreedMmHashes
  | reset

/-- The manager in a run, with the inputs allocated and not yet freed. -/
structure EncoderRun where
  manager : EncoderDecoderCacheManager
  held : Multiset (EncoderRequest × ℕ) := 0

/-- The inputs that a call frees. -/
def EncoderCall.frees : EncoderCall → List (EncoderRequest × ℕ)
  | .update request numComputedTokens numOutputPlaceholders =>
    (EncoderDecoderCacheManager.inputsToFree request numComputedTokens
      numOutputPlaceholders).map (request, ·)
  | .release request => (EncoderDecoderCacheManager.getCachedInputIds request).map (request, ·)
  | _ => []

namespace EncoderRun

open EncoderDecoderCacheManager

/-- The inputs that a call allocates. -/
def takes (s : EncoderRun) : EncoderCall → List (EncoderRequest × ℕ)
  | .schedule request numComputedTokens numNewTokens encoderComputeBudget shiftComputedTokens =>
    (s.manager.tryScheduleEncoderInputs request numComputedTokens numNewTokens
      encoderComputeBudget shiftComputedTokens).map (request, ·)
  | _ => []

/-- The manager after one call, with the inputs that hold slots then. -/
def next (s : EncoderRun) : EncoderCall → EncoderRun
  | .getFreedMmHashes => { s with manager := s.manager.getFreedMmHashes.2 }
  | .reset => ⟨s.manager.reset, 0⟩
  | call => ⟨call.frees.foldl (fun m p => m.freeEncoderInput p.1 p.2)
      ((s.takes call).foldl (fun m p => m.allocate p.1 p.2) s.manager),
      s.held + s.takes call - call.frees⟩

/-- The embeddings of some inputs. -/
def embeds (inputs : Multiset (EncoderRequest × ℕ)) : ℕ :=
  (inputs.map fun p => p.1.getNumEncoderEmbeds p.2).sum

/-- The counter is what the inputs leave of the cache. -/
structure Conserved (s : EncoderRun) : Prop where
  nonneg : 0 ≤ s.manager.numFreeSlots
  le : s.manager.numFreeSlots ≤ s.manager.cacheSize
  eq : s.manager.numFreeSlots = s.manager.cacheSize - embeds s.held

/-- Every input that a call frees is allocated and not yet freed. -/
def Owns (s : EncoderRun) (call : EncoderCall) : Prop := (call.frees : Multiset _) ≤ s.held

/-- Each call of a run frees inputs that are held then. -/
def OwnsAll : EncoderRun → List EncoderCall → Prop
  | _, [] => True
  | s, call :: calls => s.Owns call ∧ OwnsAll (s.next call) calls

private theorem embeds_add (a b : Multiset (EncoderRequest × ℕ)) :
    embeds (a + b) = embeds a + embeds b := by
  rw [embeds, Multiset.map_add, Multiset.sum_add, embeds, embeds]

/-- Calls that move the counter by the embeddings of an input, one after the other. -/
private theorem foldl_slots {c : ℤ}
    {f : EncoderDecoderCacheManager → EncoderRequest × ℕ → EncoderDecoderCacheManager}
    (hf : ∀ m p, (f m p).cacheSize = m.cacheSize ∧
      (f m p).numFreeSlots = m.numFreeSlots + c * p.1.getNumEncoderEmbeds p.2)
    (inputs : List (EncoderRequest × ℕ)) (m : EncoderDecoderCacheManager) :
    (inputs.foldl f m).cacheSize = m.cacheSize ∧
      (inputs.foldl f m).numFreeSlots = m.numFreeSlots + c * embeds inputs := by
  induction inputs generalizing m with
  | nil => exact ⟨rfl, by simp [embeds]⟩
  | cons p inputs ih =>
    obtain ⟨hsize, hfree⟩ := ih (f m p)
    obtain ⟨hsize1, hfree1⟩ := hf m p
    refine ⟨hsize.trans hsize1, hfree.trans ?_⟩
    rw [hfree1]
    simp [embeds, Int.mul_add, add_assoc]

private theorem embeds_scheduleLoop_le {m : EncoderDecoderCacheManager} {request : EncoderRequest}
    {windowEnd toSchedule : ℕ} (budget : ℕ) {inputs : List (EncoderInput × ℕ)}
    (h : toSchedule ≤ m.numFreeSlots) :
    ((toSchedule + embeds ((scheduleLoop m request windowEnd inputs budget
      toSchedule).map (request, ·)) : ℕ)) ≤ m.numFreeSlots := by
  induction inputs generalizing budget toSchedule with
  | nil => simpa [scheduleLoop, embeds] using h
  | cons p inputs ih =>
    rw [scheduleLoop]
    dsimp only
    split_ifs with hcan
    · exact ih budget h
    · have hfits : ((toSchedule + request.getNumEncoderEmbeds p.2)) ≤ m.numFreeSlots := by
        rw [canAllocate] at hcan
        split_ifs at hcan
        rw [add_comm]
        exact of_decide_eq_true hcan
      have hrest := ih (budget - request.getNumEncoderEmbeds p.2) hfits
      rwa [add_assoc] at hrest
    · simpa [embeds] using h

private theorem Conserved.takes_le {s : EncoderRun} (h : s.Conserved) (call : EncoderCall) :
    (embeds (s.takes call)) ≤ s.manager.numFreeSlots := by
  have hnone : (embeds ([] : List (EncoderRequest × ℕ))) ≤ s.manager.numFreeSlots := h.nonneg
  cases call with
  | schedule request numComputedTokens numNewTokens budget shift =>
    rw [takes, tryScheduleEncoderInputs]
    split_ifs
    · exact hnone
    · rw [← zero_add (embeds _)]
      exact embeds_scheduleLoop_le _ h.nonneg
  | _ => exact hnone

/-- Every call keeps the slots accounted for, if it frees only what is held. -/
theorem Conserved.next {s : EncoderRun} (h : s.Conserved) {call : EncoderCall} (howns : s.Owns call) :
    (s.next call).Conserved := by
  have htakes := h.takes_le call
  have hmain : Conserved ⟨call.frees.foldl (fun m p => m.freeEncoderInput p.1 p.2)
      ((s.takes call).foldl (fun m p => m.allocate p.1 p.2) s.manager),
      s.held + s.takes call - call.frees⟩ := by
    have hrest : embeds (s.held + s.takes call - call.frees) + embeds call.frees =
        embeds s.held + embeds (s.takes call) := by
      rw [← embeds_add, ← embeds_add, tsub_add_cancel_of_le (howns.trans (Multiset.le_add_right _ _))]
    obtain ⟨hsize, hfree⟩ := foldl_slots (c := -1) (f := fun m p => m.allocate p.1 p.2)
      (fun m p => ⟨rfl, by simp [allocate, sub_eq_add_neg]⟩) (s.takes call) s.manager
    obtain ⟨hsize', hfree'⟩ := foldl_slots (c := 1) (f := fun m p => m.freeEncoderInput p.1 p.2)
      (fun m p => ⟨rfl, by simp [freeEncoderInput]⟩) call.frees
      ((s.takes call).foldl (fun m p => m.allocate p.1 p.2) s.manager)
    have hheld := h.eq
    refine ⟨?_, ?_, ?_⟩ <;> dsimp only <;> omega
  cases call with
  | getFreedMmHashes => exact ⟨h.nonneg, h.le, h.eq⟩
  | reset => exact ⟨Int.natCast_nonneg _, le_rfl, (sub_zero _).symm⟩
  | _ => exact hmain

/-- In every state of a run whose calls free only what is held, the counter is conserved. -/
theorem conserved_of_ownsAll {cacheSize : ℕ} {calls : List EncoderCall}
    (h : OwnsAll ⟨.new cacheSize, 0⟩ calls) (k : ℕ) :
    ((calls.take k).foldl next ⟨.new cacheSize, 0⟩).Conserved := by
  have hstart : Conserved ⟨.new cacheSize, 0⟩ := ⟨Int.natCast_nonneg _, le_rfl, (sub_zero _).symm⟩
  generalize mk (.new cacheSize) 0 = s at h hstart
  induction calls generalizing s k with
  | nil =>
    rw [List.take_nil]
    exact hstart
  | cons call calls ih =>
    cases k with
    | zero => exact hstart
    | succ k => exact ih k _ h.2 (hstart.next h.1)

/-- A request with 1500 embeddings, as many as the cache has slots. -/
def audio : EncoderRequest := ⟨"r", [⟨"audio", 0, 1500, none⟩]⟩

/-- The slots are returned after each of two steps, and the cache has twice its size. -/
theorem next_update_twice :
    let s := [.schedule audio 0 3 1500 0, .update audio 3 0, .update audio 4 0].foldl next
      ⟨.new 1500, 0⟩
    s.manager.numFreeSlots = 3000 ∧ s.manager.cacheSize = 1500 ∧ s.held = 0 := by
  decide

/-- Another request, with 700 embeddings. -/
def speech : EncoderRequest := ⟨"s", [⟨"speech", 0, 700, none⟩]⟩

/-- The first request takes all slots and returns them after its first step; the second one takes some of
them and is aborted. -/
theorem conserved_update :
    let calls : List EncoderCall := [.schedule audio 0 3 1500 0, .update audio 3 0, .getFreedMmHashes,
      .schedule speech 0 3 1500 0, .release speech]
    let after k := (calls.take k).foldl next ⟨.new 1500, 0⟩
    (List.range 6).map (fun k => (after k).manager.numFreeSlots) = [1500, 0, 1500, 1500, 800, 1500] ∧
      (after 4).held = {(speech, 0)} ∧ ∀ k, (after k).Conserved := by
  intro calls after
  have howns : OwnsAll ⟨.new 1500, 0⟩ calls := by
    refine ⟨?_, ?_, ?_, ?_, ?_, trivial⟩ <;> unfold Owns <;> decide
  exact ⟨by decide, by decide, conserved_of_ownsAll howns⟩

end EncoderRun

end Sonar
