import Sonar.Request.Incremental

/-!
# Block hashes of a streaming session

A **streaming session** is one request that receives its input in chunks. When a chunk has been
answered, `_update_request_as_session` drops the last sampled token, turns the other output into
prompt and appends the next chunk. It keeps the hashes of the blocks that lie below the cut.

With lookahead that is one hash too many exactly when the dropped token was the last lookahead
token of a block (`discardsLookahead`): the block itself survives, its hash still describes the
dropped token, and the hashes chained from it inherit that. The scheduler knows: on admitting a
resumable request with no computed tokens it clears the hashes and computes them again, since
only KV that stays resident may go by the old ones. `Session` follows a session through
generation, updates and such rebuilds with a flag that is lost on an update of that kind and
regained on a rebuild; while the flag is up, the hashes are those of the current tokens.
-/

namespace Sonar

open Lib List Option MultiModalFeatureSpec

/-- The next input chunk of a session. -/
structure StreamingUpdate where
  mmFeatures : Option (List MultiModalFeatureSpec) := .none
  promptTokenIds : Option (List ℤ) := .none

/-- A feature moved right by `base` positions. -/
def MultiModalFeatureSpec.shift (base : ℕ) (f : MultiModalFeatureSpec) : MultiModalFeatureSpec :=
  { f with mmPosition := { f.mmPosition with offset := f.mmPosition.offset + base } }

/-- The session before it is hashed again: the last token is cut off, the remaining output becomes
prompt, the next chunk and its shifted items follow. -/
def Request.continueSession (hashBlockSize keepEnd : ℕ) (session : Request) (promptIds : List ℤ)
    (update : StreamingUpdate) : Request :=
  let keptOutputTokens := slice session.allTokenIds session.numPromptTokens keepEnd
  let newTokens := update.promptTokenIds.getD []
  let allTokenIds := session.allTokenIds.take keepEnd
  { session with
    outputTokenIds := []
    blockHashes := session.blockHashes.take (keepEnd / hashBlockSize)
    mmFeatures := session.mmFeatures ++ (update.mmFeatures.getD []).map (shift allTokenIds.length)
    allTokenIds := allTokenIds ++ newTokens
    promptTokenIds := some (promptIds ++ keptOutputTokens ++ newTokens) }

/-- `_update_request_as_session`. The two assertions are the cut not reaching into computed tokens
and the session having a token prompt. -/
def updateRequestAsSession (hasher : BlockHasher) (session : Request) (update : StreamingUpdate) :
    Option Request :=
  let keepEnd : ℤ := (session.numTokens : ℤ) - 1
  if keepEnd ≥ (session.numComputedTokens : ℤ) then do
    let promptIds ← session.promptTokenIds
    let session ← (session.continueSession hasher.hashBlockSize keepEnd.toNat promptIds
      update).updateBlockHashes (some hasher)
    return { session with numPromptTokens := (session.promptTokenIds.getD []).length }
  else .none

/-- What `schedule` does to the hashes of a resumable request it admits with no computed tokens
while hashes have lookahead. -/
def rebuildBlockHashes (hasher : BlockHasher) (request : Request) : Option Request :=
  if request.numComputedTokens = 0 ∧ request.resumable ∧ hasher.numHashLookaheadTokens ≠ 0 then
    { request with blockHashes := [] }.updateBlockHashes (some hasher)
  else some request

/-- The last token is the last lookahead token of some block. -/
def discardsLookahead (hasher : BlockHasher) (session : Request) : Bool :=
  decide (0 < hasher.numHashLookaheadTokens ∧
    hasher.hashBlockSize + hasher.numHashLookaheadTokens ≤ session.numTokens ∧
    hasher.hashBlockSize ∣ session.numTokens - hasher.numHashLookaheadTokens)

/-- A chunk's items are in order and inside the chunk. -/
structure StreamingUpdate.WellFormed (update : StreamingUpdate) : Prop where
  sorted : (update.mmFeatures.getD []).Pairwise fun f g => f.endPos ≤ g.mmPosition.offset
  within : ∀ f ∈ update.mmFeatures.getD [], f.endPos ≤ (update.promptTokenIds.getD []).length

/-- The states a streaming session goes through. The flag says that no update since the session
began or its hashes were last rebuilt has discarded a block's last lookahead token. An update
follows on a stopped turn, so at least one token was sampled since the chunk began. -/
inductive Session (hasher : BlockHasher) : Request → Bool → Prop
  | start {request : EngineCoreRequest} {r : Request}
      (hsorted : (request.mmFeatures.getD []).Pairwise fun f g => f.endPos ≤ g.mmPosition.offset)
      (hwithin : ∀ f ∈ request.mmFeatures.getD [], f.endPos ≤ r.numPromptTokens)
      (h : Request.fromEngineCoreRequest request (some hasher) .none = some r) : Session hasher r true
  | generate {r r' : Request} {clean : Bool} (batch : ℤ ⊕ List ℤ) (hr : Session hasher r clean)
      (h : r.appendOutputTokenIds (some hasher) batch = some r') : Session hasher r' clean
  | compute {r : Request} {clean : Bool} (n : ℕ) (hr : Session hasher r clean) :
      Session hasher { r with numComputedTokens := n } clean
  | update {r r' : Request} {clean : Bool} {u : StreamingUpdate} (hr : Session hasher r clean)
      (hu : u.WellFormed) (hout : r.numPromptTokens < r.numTokens)
      (h : updateRequestAsSession hasher r u = some r') :
      Session hasher r' (clean && !discardsLookahead hasher r)
  | rebuild {r r' : Request} {clean : Bool} (hr : Session hasher r clean)
      (hzero : r.numComputedTokens = 0) (hres : r.resumable)
      (hL : hasher.numHashLookaheadTokens ≠ 0) (h : rebuildBlockHashes hasher r = some r') :
      Session hasher r' true

/-! ### One update -/

/-- What holds of a session whether or not its hashes are current: its items are in order and
inside the prompt, and the prompt's length is on record. -/
structure SessionWF (r : Request) : Prop where
  sorted : r.FeaturesSorted
  within : ∀ f ∈ r.mmFeatures, f.endPos ≤ r.numPromptTokens
  prompt : ∀ p, r.promptTokenIds = some p → p.length = r.numPromptTokens

namespace Request

variable {session : Request} {update : StreamingUpdate} {promptIds : List ℤ}
  {hashBlockSize keepEnd : ℕ}

section

variable (hkeep : keepEnd ≤ session.numTokens)

include hkeep

/-- Items of the next chunk start at or after the cut. -/
private theorem keepEnd_le_of_mem_shift {g : MultiModalFeatureSpec}
    (hg : g ∈ (update.mmFeatures.getD []).map (shift (session.allTokenIds.take keepEnd).length)) :
    keepEnd ≤ g.mmPosition.offset := by
  obtain ⟨f, -, rfl⟩ := mem_map.mp hg
  have hlen : (session.allTokenIds.take keepEnd).length = keepEnd := by
    rw [length_take]
    exact min_eq_left hkeep
  rw [hlen]
  exact Nat.le_add_left _ _

private theorem continueSession_sorted (h : SessionWF session) (hu : update.WellFormed) (hprompt : session.numPromptTokens ≤ keepEnd) :
    (session.continueSession hashBlockSize keepEnd promptIds update).FeaturesSorted := by
  refine pairwise_append.mpr ⟨h.sorted, ?_, fun f hf g hg => ?_⟩
  · refine pairwise_map.mpr (hu.sorted.imp fun {f g} hfg => ?_)
    simp only [shift, endPos] at hfg ⊢
    omega
  · exact ((h.within f hf).trans hprompt).trans (keepEnd_le_of_mem_shift hkeep hg)

/-- The update leaves everything below the cut as it was. -/
private theorem sameBelow_continueSession :
    SameBelow session (session.continueSession hashBlockSize keepEnd promptIds update) keepEnd := by
  refine ⟨?_, ?_, rfl, rfl, rfl⟩
  · have hlen : (session.allTokenIds.take keepEnd).length = keepEnd := by
      rw [length_take]
      exact min_eq_left hkeep
    exact (take_left' hlen).symm
  · have hnew : ((update.mmFeatures.getD []).map
        (shift (session.allTokenIds.take keepEnd).length)).filter
        (fun f => decide (f.mmPosition.offset < keepEnd)) = [] := by
      refine filter_eq_nil_iff.mpr fun g hg hlt => ?_
      have hge := keepEnd_le_of_mem_shift hkeep hg
      have := of_decide_eq_true hlt
      omega
    simp only [continueSession, filter_append, hnew, append_nil]

/-- After the update the whole token sequence is prompt. -/
private theorem length_prompt_continueSession (update : StreamingUpdate)
    (hprompt : session.numPromptTokens ≤ keepEnd)
    (hids : promptIds.length = session.numPromptTokens) :
    (promptIds ++ slice session.allTokenIds session.numPromptTokens keepEnd ++
      update.promptTokenIds.getD []).length = keepEnd + (update.promptTokenIds.getD []).length := by
  simp only [numTokens] at hkeep
  simp only [length_append, slice, length_drop, length_take]
  omega

end

end Request

open Request

namespace BlockHasher

variable (hasher : BlockHasher)

/-- Whatever hashes a request holds, `update_block_hashes` succeeds and touches nothing else. -/
private theorem exists_updateBlockHashes {request : Request} (hs : request.FeaturesSorted) :
    ∃ hashes, request.updateBlockHashes (some hasher) =
      some { request with blockHashes := hashes } := by
  simp only [updateBlockHashes, hasher.requestBlockHasher_resume hs]
  exact ⟨_, rfl⟩

/-- Unless the cut token closes a lookahead window, every kept hash covers kept tokens only. -/
private theorem kept_le_numHashable {session : Request} (h : discardsLookahead hasher session = false)
    (hpos : 0 < session.numTokens) :
    min ((session.numTokens - 1) / hasher.hashBlockSize) (hasher.numHashable session.numTokens) ≤
      hasher.numHashable (session.numTokens - 1) := by
  refine le_of_forall_lt fun i hi => ?_
  obtain ⟨hblock, hhash⟩ := lt_min_iff.mp hi
  rw [hasher.lt_numHashable] at hhash ⊢
  have hblock' : (i + 1) * hasher.hashBlockSize ≤ session.numTokens - 1 :=
    (Nat.le_div_iff_mul_le hasher.hashBlockSize_pos).mp hblock
  rw [Nat.succ_mul] at hblock'
  by_contra hlt
  have hend : i * hasher.hashBlockSize + hasher.hashBlockSize + hasher.numHashLookaheadTokens =
      session.numTokens := by omega
  refine of_decide_eq_false h ⟨by omega, by omega, i + 1, ?_⟩
  rw [← hend, Nat.add_sub_cancel, Nat.mul_succ, mul_comm]

/-- The kept hashes of a current session are a prefix of the continued session's hash list. -/
private theorem kept_isPrefix {session : Request} (promptIds : List ℤ) (update : StreamingUpdate)
    (hcur : session.blockHashes = hasher.hashList session)
    (h : discardsLookahead hasher session = false) (hpos : 0 < session.numTokens) :
    (session.continueSession hasher.hashBlockSize (session.numTokens - 1) promptIds
        update).blockHashes <+:
      hasher.hashList (session.continueSession hasher.hashBlockSize (session.numTokens - 1)
        promptIds update) := by
  have hkeep : session.numTokens - 1 ≤ session.numTokens := Nat.sub_le _ _
  have htake : (session.continueSession hasher.hashBlockSize (session.numTokens - 1) promptIds
      update).blockHashes = chainHashes hasher.chainStep hasher.noneHash (hasher.content session)
        (min ((session.numTokens - 1) / hasher.hashBlockSize)
          (hasher.numHashable session.numTokens)) := by
    rw [continueSession, hcur, hashList, chainHashes, ← map_take, take_range, chainHashes]
  rw [htake, hasher.chainHashes_eq_of_sameBelow (sameBelow_continueSession hkeep)
    (hasher.kept_le_numHashable h hpos)]
  refine chainHashes_isPrefix ((hasher.kept_le_numHashable h hpos).trans (hasher.numHashable_mono ?_))
  simp only [numTokens, continueSession, length_append, length_take] at hkeep ⊢
  omega

end BlockHasher

/-! ### Whole sessions -/

variable {hasher : BlockHasher}

variable {session r' r : Request} {u : StreamingUpdate} {clean : Bool}

/-- A session can be continued when the cut does not reach into computed tokens; the continuation
is hashed on, and then the prompt's length is recorded. -/
private theorem updateRequestAsSession_eq {promptIds : List ℤ}
    (hids : session.promptTokenIds = some promptIds)
    (hcomp : session.numComputedTokens < session.numTokens) :
    updateRequestAsSession hasher session u =
      ((session.continueSession hasher.hashBlockSize (session.numTokens - 1) promptIds
        u).updateBlockHashes (some hasher)).map fun r =>
          { r with numPromptTokens := (r.promptTokenIds.getD []).length } := by
  have hguard : session.numTokens - 1 ≥ (session.numComputedTokens : ℤ) := by omega
  have hnat : ((session.numTokens : ℤ) - 1).toNat = session.numTokens - 1 := by omega
  simp only [updateRequestAsSession, hguard, hids, hnat, bind_eq_bind,
    bind_some]
  cases (session.continueSession hasher.hashBlockSize (session.numTokens - 1) promptIds
    u).updateBlockHashes (some hasher) <;> rfl

/-- An update that goes through found a token prompt and no computed token at the cut. -/
private theorem of_updateRequestAsSession_eq_some (h : updateRequestAsSession hasher session u = some r') :
    session.numComputedTokens < session.numTokens ∧
      ∃ promptIds, session.promptTokenIds = some promptIds := by
  rw [updateRequestAsSession] at h
  split_ifs at h with hguard
  refine ⟨by omega, ?_⟩
  cases hids : session.promptTokenIds with
  | none => simp [hids] at h
  | some p => exact ⟨p, rfl⟩

/-- Step lemma: an update keeps a session well formed. If the hashes were current and no block
loses its last lookahead token, they are current again. -/
theorem SessionWF.update (hwf : SessionWF session)
    (hu : u.WellFormed) (hout : session.numPromptTokens < session.numTokens)
    (h : updateRequestAsSession hasher session u = some r') :
    SessionWF r' ∧ (session.blockHashes = hasher.hashList session →
      discardsLookahead hasher session = false → r'.blockHashes = hasher.hashList r') := by
  obtain ⟨hcomp, promptIds, hids⟩ := of_updateRequestAsSession_eq_some h
  have hkeep : session.numTokens - 1 ≤ session.numTokens := Nat.sub_le _ _
  have hprompt : session.numPromptTokens ≤ session.numTokens - 1 := by omega
  have hsorted : (session.continueSession hasher.hashBlockSize (session.numTokens - 1) promptIds
      u).FeaturesSorted := continueSession_sorted hkeep hwf hu hprompt
  have hlen := length_prompt_continueSession hkeep u hprompt (hwf.prompt _ hids)
  obtain ⟨hashes, hupd⟩ := hasher.exists_updateBlockHashes hsorted
  rw [updateRequestAsSession_eq hids hcomp, hupd] at h
  simp only [map_some, some.injEq] at h
  subst h
  refine ⟨⟨hsorted, fun f hf => ?_, fun p hp => ?_⟩, fun hcur hdis => ?_⟩
  · -- old items end inside the kept prompt, new ones inside the appended chunk
    simp only [continueSession, getD_some]
    rcases mem_append.mp hf with hold | hnew
    · have := hwf.within f hold
      omega
    · obtain ⟨g, hg, rfl⟩ := mem_map.mp hnew
      have hin := hu.within g hg
      have hcut : (session.allTokenIds.take (session.numTokens - 1)).length ≤
          session.numTokens - 1 := by
        rw [length_take]
        exact min_le_left _ _
      simp only [shift, endPos] at hin ⊢
      omega
  · cases hp
    rfl
  · have hpre := hasher.kept_isPrefix promptIds u hcur hdis (by omega)
    rw [hasher.updateBlockHashes_eq hsorted hpre] at hupd
    have hhashes := congrArg (Option.map blockHashes) hupd
    simp only [map_some, some.injEq] at hhashes
    exact hhashes.symm

/-- A token prompt that is accepted has the length on record. -/
private theorem Request.length_of_lengthFromPrompt {p : List ℤ} {embeds : Option (List (List UInt8))}
    {n : ℕ} (h : lengthFromPromptTokenIdsOrEmbeds (some p) embeds = some n) : p.length = n := by
  cases embeds with
  | none => exact some.inj h
  | some embeds =>
    simp only [lengthFromPromptTokenIdsOrEmbeds] at h
    split_ifs at h
    exact some.inj h

/-- The invariant of a session: it is well formed, and while the flag is up its hashes are current.
Without lookahead the flag stays up. -/
structure SessionInv (hasher : BlockHasher) (r : Request) (clean : Bool) : Prop where
  wf : SessionWF r
  current : clean = true → r.blockHashes = hasher.hashList r
  noLookahead : hasher.numHashLookaheadTokens = 0 → clean = true

/-- A new session. -/
theorem SessionInv.start {request : EngineCoreRequest}
    (hsorted : (request.mmFeatures.getD []).Pairwise fun f g => f.endPos ≤ g.mmPosition.offset)
    (hwithin : ∀ f ∈ request.mmFeatures.getD [], f.endPos ≤ r.numPromptTokens)
    (h : fromEngineCoreRequest request (some hasher) .none = some r) :
    SessionInv hasher r true := by
  rw [fromEngineCoreRequest, bind_eq_bind, bind_eq_some_iff] at h
  obtain ⟨n, hn, h⟩ := h
  have hs : (unhashed request .none n).FeaturesSorted := hsorted
  rw [hasher.updateBlockHashes_eq hs nil_prefix, some.injEq] at h
  subst h
  refine ⟨⟨hsorted, hwithin, fun p hp => ?_⟩, fun _ => rfl, fun _ => rfl⟩
  have hp' : request.promptTokenIds = some p := hp
  rw [hp'] at hn
  exact length_of_lengthFromPrompt hn

private theorem SessionInv.generate (hinv : SessionInv hasher r clean)
    {batch : ℤ ⊕ List ℤ} (h : r.appendOutputTokenIds (some hasher) batch = some r') :
    SessionInv hasher r' clean := by
  refine ⟨?_, fun hclean => ?_, hinv.noLookahead⟩
  · have hs : (r.extend (batchTokens batch)).FeaturesSorted := hinv.wf.sorted
    obtain ⟨hashes, hupd⟩ := hasher.exists_updateBlockHashes hs
    rw [appendOutputTokenIds, hupd, some.injEq] at h
    subst h
    exact ⟨hinv.wf.sorted, hinv.wf.within, hinv.wf.prompt⟩
  · obtain ⟨r'', hr'', hhashed, -⟩ := appendOutputTokenIds_hashed
      ⟨hinv.wf.sorted, hinv.current hclean⟩ batch
    rw [h, some.injEq] at hr''
    subst hr''
    exact hhashed.blockHashes_eq

private theorem SessionInv.rebuild (hinv : SessionInv hasher r clean)
    (hzero : r.numComputedTokens = 0) (hres : r.resumable)
    (hL : hasher.numHashLookaheadTokens ≠ 0) (h : rebuildBlockHashes hasher r = some r') :
    SessionInv hasher r' true := by
  have hs : ({ r with blockHashes := [] }).FeaturesSorted := hinv.wf.sorted
  rw [rebuildBlockHashes, if_pos ⟨hzero, hres, hL⟩,
    hasher.updateBlockHashes_eq hs nil_prefix, some.injEq] at h
  subst h
  exact ⟨⟨hs, hinv.wf.within, hinv.wf.prompt⟩, fun _ => rfl, fun _ => rfl⟩

/-- Run lemma: the invariant holds in every state of a session. -/
private theorem Session.inv (h : Session hasher r clean) : SessionInv hasher r clean := by
  induction h with
  | start hsorted hwithin h => exact .start hsorted hwithin h
  | generate batch _ h ih => exact ih.generate h
  | compute n _ ih =>
    exact ⟨⟨ih.wf.sorted, ih.wf.within, ih.wf.prompt⟩, ih.current, ih.noLookahead⟩
  | @update r r' clean u _ hu hout h ih =>
    obtain ⟨hwf, hcur⟩ := ih.wf.update hu hout h
    refine ⟨hwf, fun hclean => ?_, fun hL => ?_⟩
    · rw [Bool.and_eq_true, Bool.not_eq_true'] at hclean
      exact hcur (ih.current hclean.1) hclean.2
    · have hdis : discardsLookahead hasher r = false := by simp [discardsLookahead, hL]
      rw [ih.noLookahead hL, hdis]
      rfl
  | rebuild _ hzero hres hL h ih => exact ih.rebuild hzero hres hL h

/-- **Hashes of a streaming session.** In every state of a session reached without an update that
discarded a block's last lookahead token since the session began or its hashes were last rebuilt
(always, when hashes have no lookahead), the stored hashes are those of the current tokens and
items from scratch; and the next update goes through whenever the cut leaves the computed tokens
alone. -/
theorem Session.blockHashes_eq_fromScratch (hasher : BlockHasher) (r : Request) (clean : Bool)
    (h : Session hasher r clean) :
    (clean = true → hasher.requestBlockHasher { r with blockHashes := [] } = some r.blockHashes) ∧
    (hasher.numHashLookaheadTokens = 0 → clean = true) ∧
    ∀ u : StreamingUpdate, u.WellFormed → r.numPromptTokens < r.numTokens →
      r.numComputedTokens < r.numTokens → r.promptTokenIds.isSome →
      ∃ r', updateRequestAsSession hasher r u = some r' := by
  have hinv := h.inv
  refine ⟨fun hclean => ?_, hinv.noLookahead, fun u hu hout hcomp hids => ?_⟩
  · rw [hasher.requestBlockHasher_nil hinv.wf.sorted, hinv.current hclean]
  · obtain ⟨promptIds, hids⟩ := isSome_iff_exists.mp hids
    have hsorted : (r.continueSession hasher.hashBlockSize (r.numTokens - 1) promptIds
        u).FeaturesSorted :=
      continueSession_sorted (Nat.sub_le _ _) hinv.wf hu (by omega)
    obtain ⟨hashes, hupd⟩ := hasher.exists_updateBlockHashes hsorted
    rw [updateRequestAsSession_eq hids hcomp, hupd]
    exact ⟨_, rfl⟩

/-- A session whose first chunk `1, 2, 3` was answered with `4` and continued with `5`: blocks of
two tokens, one token of lookahead, and a cut that no block's lookahead ends on. -/
theorem Session.blockHashes_eq_fromScratch_clean_update :
    ∃ r, Session (checksumHasher 1) r true ∧ r.allTokenIds = [1, 2, 3, 5] ∧
      (checksumHasher 1).requestBlockHasher { r with blockHashes := [] } = some r.blockHashes := by
  let r0 : Request := { promptTokenIds := some [1, 2, 3], numPromptTokens := 3,
                        allTokenIds := [1, 2, 3], blockHashes := [[23]], resumable := true }
  let r1 : Request := { r0 with outputTokenIds := [4], allTokenIds := [1, 2, 3, 4] }
  let r2 : Request := { r0 with promptTokenIds := some [1, 2, 3, 5], numPromptTokens := 4,
                                allTokenIds := [1, 2, 3, 5] }
  have h0 : Session (checksumHasher 1) r0 true :=
    @start _ { promptTokenIds := some [1, 2, 3], resumable := true } _ (by decide)
      (by decide) (by decide +kernel)
  have h1 : Session (checksumHasher 1) r1 true := h0.generate (.inl 4) (by decide +kernel)
  have hclean : discardsLookahead (checksumHasher 1) r1 = false := by decide +kernel
  have h2 := @update _ r1 r2 true { promptTokenIds := some [5] } h1
    ⟨by decide, by decide⟩ (by decide) (by decide +kernel)
  rw [hclean] at h2
  exact ⟨r2, h2, rfl, (blockHashes_eq_fromScratch _ _ _ h2).1 rfl⟩

/-- The first chunk `1, 2` is answered with `3` and continued with `4`. The hash of block `1, 2`
was computed with the lookahead token `3`; the update drops that token and keeps the hash, which is
not the one the tokens `1, 2, 4` have. -/
theorem session_update_keeps_discarded_lookahead : ∃ r r', Session (checksumHasher 1) r true ∧
      updateRequestAsSession (checksumHasher 1) r { promptTokenIds := some [4] } = some r' ∧
      r'.allTokenIds = [1, 2, 4] ∧
      (checksumHasher 1).requestBlockHasher { r' with blockHashes := [] } ≠
        some r'.blockHashes := by
  let r0 : Request := { promptTokenIds := some [1, 2], numPromptTokens := 2,
                        allTokenIds := [1, 2], resumable := true }
  let r1 : Request := { r0 with outputTokenIds := [3], allTokenIds := [1, 2, 3],
                                blockHashes := [[23]] }
  let r2 : Request := { r0 with promptTokenIds := some [1, 2, 4], numPromptTokens := 3,
                                allTokenIds := [1, 2, 4], blockHashes := [[23]] }
  have h0 : Session (checksumHasher 1) r0 true :=
    @Session.start _ { promptTokenIds := some [1, 2], resumable := true } _ (by decide)
      (by decide) (by decide +kernel)
  have h1 : Session (checksumHasher 1) r1 true := h0.generate (.inl 3) (by decide +kernel)
  exact ⟨r1, r2, h1, by decide +kernel, rfl, by decide +kernel⟩

end Sonar
