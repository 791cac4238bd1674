import Sonar.Text.AttributedText

/-!
# The text of a byte-level tokenizer

Where every token stands for some bytes, the decoder should release the text of the generated bytes
as it follows the prompt. Its window begins and ends with whole characters, so that the text behind
it is decoded on its own (`Window`), and what it releases in the end is determined by how the window
was seeded from the prompt (`emitted_eq`): with text of the prompt that ends with a character, or,
if the prompt does not, with nothing, and then the prompt itself is released again.
-/

namespace Sonar.Text

open Lib.Utf8 List

private theorem fromBoundary_append {a b : List Char} : fromBoundary (a ++ b) (byteLen a) = b := by
  rw [fromBoundary, floorPrefix_append, drop_left]

namespace DecodeStream

variable {tokenizer : Tokenizer} {bytes : TokenId → List UInt8} {st : DecodeStream}
  {target : List UInt8} {handed : List Char}

/-- Every token stands for some bytes, and the text is that of the bytes. -/
def ByteLevel (tokenizer : Tokenizer) (bytes : TokenId → List UInt8) : Prop :=
  ∀ ids skip, tokenizer.decode ids skip = .ok (lossy (ids.flatMap bytes))

/-- A byte-level tokenizer decodes the bytes of the ids. -/
protected theorem ByteLevel.decodeIds (hb : ByteLevel tokenizer bytes) (st : DecodeStream)
    (ids : List TokenId) : st.decodeIds tokenizer ids = .ok (lossy (ids.flatMap bytes)) := by
  rw [decodeIds, hb]

/-- The text of a token is split off at the end of a character. -/
private theorem pendingGroupSplit_spec {decode : List TokenId → List Char}
    (hd : ∀ ids, st.decodeIds tokenizer ids = .ok (decode ids)) (pending : Option (List Char))
    (tokenId : TokenId) (newChunk : List Char) :
    ∃ split, st.pendingGroupSplit tokenizer pending tokenId newChunk = .ok split ∧
      (split = none ∨ ∃ a b, newChunk = a ++ b ∧ split = some (byteLen a)) := by
  cases pending with
  | none => exact ⟨none, rfl, .inl rfl⟩
  | some pending =>
    rw [pendingGroupSplit.eq_def]
    dsimp only
    split_ifs with hmerged
    · exact ⟨none, rfl, .inl rfl⟩
    · rw [not_or, not_not] at hmerged
      obtain ⟨-, own, hown⟩ := hmerged
      refine ⟨_, by rw [hd]; rfl, ?_⟩
      split_ifs
      · exact .inr ⟨_, own, hown.symm, rfl⟩
      · exact .inl rfl

private theorem release_spec {decoded : AttributedTextBuffer} (hok : decoded.Ok handed) (tokenId : TokenId)
    (zeroWidth : Bool) {newChunk : List Char} {split : Option ℕ}
    (hsplit : split = none ∨ ∃ a b, newChunk = a ++ b ∧ split = some (byteLen a)) :
    ∃ decoded', release decoded tokenId zeroWidth newChunk split = .ok decoded' ∧
      decoded'.Ok handed ∧ decoded'.text = decoded.text ++ newChunk := by
  rcases hsplit with rfl | ⟨a, b, rfl, rfl⟩
  · have hrecord : (if zeroWidth then decoded else decoded.recordPendingToken tokenId).Ok handed ∧
        (if zeroWidth then decoded else decoded.recordPendingToken tokenId).text = decoded.text := by
      split_ifs
      · exact ⟨hok, rfl⟩
      · exact ⟨hok.recordPendingToken tokenId, rfl⟩
    obtain ⟨hadded, htext⟩ := hrecord.1.appendVisibleText _
    exact ⟨_, rfl, hadded, htext.trans (by rw [hrecord.2])⟩
  · obtain ⟨holder, htext⟩ := hok.appendVisibleText a
    obtain ⟨hown, htext'⟩ := (holder.recordPendingToken tokenId).appendVisibleText b
    refine ⟨_, ?_, hown, ?_⟩
    · rw [release, splitAtByte_append]
      rfl
    · rw [← append_assoc]
      rfl

/-- What was handed out leaves the last bytes back. -/
structure Handed (st : DecodeStream) (handed : List Char) : Prop where
  ok : st.decoded.Ok handed
  heldBack : byteLen handed ≤ byteLen st.decoded.text - st.minBytesToBuffer

/-- The token is kept in the window, since the text is not longer or ends in U+FFFD. -/
structure Keeps (st : DecodeStream) (ids : List TokenId) (string : List Char) (n : ℕ)
    (st' : DecodeStream) : Prop where
  held : byteLen string ≤ byteLen st.prefixText ∨ string.getLast? = some replacement
  added : n = 0
  text : st'.decoded.text = st.decoded.text
  window : st'.ids = ids
  prefixText : st'.prefixText = st.prefixText
  prefixIndex : st'.prefixIndex = st.prefixIndex

/-- The text of the window is released from the end of the text before, and the window moves on. -/
structure Releases (st : DecodeStream) (ids : List TokenId) (string : List Char)
    (decode : List TokenId → List Char) (n : ℕ) (st' : DecodeStream) : Prop where
  longer : byteLen st.prefixText < byteLen string
  clean : string.getLast? ≠ some replacement
  added : n = byteLen (fromBoundary string (byteLen st.prefixText))
  text : st'.decoded.text = st.decoded.text ++ fromBoundary string (byteLen st.prefixText)
  window : st'.ids = ids.drop st.prefixIndex
  prefixText : st'.prefixText = decode (ids.drop st.prefixIndex)
  prefixIndex : st'.prefixIndex = (ids.drop st.prefixIndex).length

/-- What pushing a token does, with a tokenizer that can decode. -/
private theorem pushSeeded_spec {decode : List TokenId → List Char}
    (hd : ∀ ids, st.decodeIds tokenizer ids = .ok (decode ids)) (h : st.Handed handed)
    (tokenId : TokenId) :
    ∃ n st', st.pushSeeded tokenizer tokenId = .ok (n, st') ∧ st'.Handed handed ∧
      st'.prefixSeeded = st.prefixSeeded ∧ st'.skipSpecialTokens = st.skipSpecialTokens ∧
      st'.minBytesToBuffer = st.minBytesToBuffer ∧
      (Keeps st (st.ids ++ [tokenId]) (decode (st.ids ++ [tokenId])) n st' ∨
        Releases st (st.ids ++ [tokenId]) (decode (st.ids ++ [tokenId])) decode n st') := by
  set ids := st.ids ++ [tokenId]
  set produced := byteLen st.prefixText < byteLen (decode ids) && !endsIncomplete (decode ids)
    with hproduced
  set zeroWidth := (st.skipSpecialTokens && tokenizer.isSpecialId tokenId) ||
    (!produced && (tokenizer.idToToken tokenId).isNone)
  have hrecord : (if zeroWidth then st.decoded.recordZeroWidthToken tokenId else st.decoded).Ok
      handed ∧ (if zeroWidth then st.decoded.recordZeroWidthToken tokenId else st.decoded).text =
        st.decoded.text := by
    split_ifs
    · exact ⟨h.ok.recordZeroWidthToken, rfl⟩
    · exact ⟨h.ok, rfl⟩
  rw [pushSeeded, hd]
  change ∃ n st', (if !produced then _ else _) = _ ∧ _
  by_cases hp : produced = true
  · obtain ⟨split, hsplit, hboundary⟩ := pendingGroupSplit_spec hd
      _ tokenId
      _
    obtain ⟨decoded, hrelease, hadded, htext⟩ := release_spec hrecord.1 tokenId _ hboundary
    have hclean := hproduced ▸ hp
    rw [Bool.and_eq_true, decide_eq_true_eq, Bool.not_eq_true', endsIncomplete,
      decide_eq_false_iff_not] at hclean
    refine ⟨_, { st with
        decoded
        ids := ids.drop _
        prefixText := decode _
        prefixIndex := (ids.drop _).length
        pendingString := none }, ?_, ⟨hadded, ?_⟩, rfl, rfl, rfl, .inr
      ⟨hclean.1, hclean.2, rfl, htext.trans (by rw [hrecord.2]), rfl, rfl, rfl⟩⟩
    swap
    · rw [htext, hrecord.2, byteLen_append]
      exact h.heldBack.trans (Nat.sub_le_sub_right (Nat.le_add_right _ _) _)
    rw [hp, hsplit]
    change (release _ _ _ _ _).bind _ = _
    rw [hrelease]
    change (st.decodeIds tokenizer _).bind _ = _
    rw [hd]
    rfl
  · have hheld : byteLen (decode ids) ≤ byteLen st.prefixText ∨
        (decode ids).getLast? = some replacement := by
      by_contra hno
      push Not at hno
      refine hp ?_
      rw [Bool.and_eq_true, decide_eq_true_eq, Bool.not_eq_true', endsIncomplete,
        decide_eq_false_iff_not]
      exact hno
    rw [if_pos (by simpa using hp)]
    refine ⟨0, _, rfl, ?_⟩
    split_ifs
    · exact ⟨⟨h.ok.recordZeroWidthToken, h.heldBack⟩, rfl, rfl, rfl,
        .inl ⟨hheld, rfl, rfl, rfl, rfl, rfl⟩⟩
    · exact ⟨⟨h.ok.recordPendingToken tokenId, h.heldBack⟩, rfl, rfl, rfl,
        .inl ⟨hheld, rfl, rfl, rfl, rfl, rfl⟩⟩

/-- The first part of the window is text with whole characters; what was released comes from bytes
with whole characters, and the rest of the window from the bytes that follow. -/
structure Window (bytes : TokenId → List UInt8) (st : DecodeStream) (target : List UInt8)
    (handed : List Char) : Prop where
  seeded : st.prefixSeeded = true
  buffer : st.Handed handed
  index : st.prefixIndex ≤ st.ids.length
  whole : Whole ((st.ids.take st.prefixIndex).flatMap bytes)
  prefixText : st.prefixText = lossy ((st.ids.take st.prefixIndex).flatMap bytes)
  released : ∃ done, Whole done ∧ st.decoded.text = lossy done ∧
    target = done ++ (st.ids.drop st.prefixIndex).flatMap bytes

private theorem Window.decode_append (h : Window bytes st target handed) (ids : List TokenId) :
    lossy ((st.ids ++ ids).flatMap bytes) = st.prefixText ++
      lossy ((st.ids.drop st.prefixIndex).flatMap bytes ++ ids.flatMap bytes) := by
  rw [h.prefixText, ← h.whole.lossy_append, ← append_assoc, ← flatMap_append,
    take_append_drop, flatMap_append]

/-- A token is pushed: its bytes are decoded, and released or kept in the window. -/
private theorem Window.pushSeeded (hb : ByteLevel tokenizer bytes) (h : Window bytes st target handed)
    (tokenId : TokenId) : ∃ n st', st.pushSeeded tokenizer tokenId = .ok (n, st') ∧
      Window bytes st' (target ++ bytes tokenId) handed := by
  obtain ⟨done, hdone, htext, htarget⟩ := h.released
  have hdrop : ((st.ids ++ [tokenId]).drop st.prefixIndex).flatMap bytes =
      (st.ids.drop st.prefixIndex).flatMap bytes ++ bytes tokenId := by
    rw [drop_append_of_le_length h.index, flatMap_append, flatMap_singleton]
  have htake : (st.ids ++ [tokenId]).take st.prefixIndex = st.ids.take st.prefixIndex :=
    take_append_of_le_length h.index
  have hstring := h.decode_append [tokenId]
  rw [flatMap_singleton, ← hdrop] at hstring
  obtain ⟨n, st', hpush, hok, hseeded, -, -, hkeeps | hreleases⟩ :=
    pushSeeded_spec (hb.decodeIds st) h.buffer tokenId
  · refine ⟨n, st', hpush, hseeded.trans h.seeded, hok, ?_, ?_, ?_, done, hdone,
      hkeeps.text.trans htext, ?_⟩
    · rw [hkeeps.window, hkeeps.prefixIndex, length_append]
      exact h.index.trans (Nat.le_add_right _ _)
    · rw [hkeeps.window, hkeeps.prefixIndex, htake]
      exact h.whole
    · rw [hkeeps.window, hkeeps.prefixIndex, htake, hkeeps.prefixText]
      exact h.prefixText
    · rw [hkeeps.window, hkeeps.prefixIndex, hdrop, htarget, append_assoc]
  · -- the window is not empty and does not end in U+FFFD, so it ends with a character
    have hlonger := hreleases.longer
    have hclean := hreleases.clean
    have hadded := hreleases.text
    rw [hstring, byteLen_append] at hlonger
    rw [hstring] at hclean
    rw [hstring, fromBoundary_append] at hadded
    have hne : lossy (((st.ids ++ [tokenId]).drop st.prefixIndex).flatMap bytes) ≠ [] :=
      byteLen_pos.mp (by omega)
    have hwhole : Whole (((st.ids ++ [tokenId]).drop st.prefixIndex).flatMap bytes) := by
      refine whole_of_getLast? ?_
      rwa [getLast?_append_of_ne_nil _ hne] at hclean
    refine ⟨n, st', hpush, hseeded.trans h.seeded, hok, ?_, ?_, ?_,
      done ++ ((st.ids ++ [tokenId]).drop st.prefixIndex).flatMap bytes, ?_, ?_, ?_⟩
    · rw [hreleases.window, hreleases.prefixIndex]
    · rw [hreleases.window, hreleases.prefixIndex, take_length]
      exact hwhole
    · rw [hreleases.window, hreleases.prefixIndex, take_length, hreleases.prefixText]
    · rw [Whole, pending_append, hdone]
      exact hwhole
    · rw [hadded, htext, hdone.lossy_append]
    · rw [hreleases.window, hreleases.prefixIndex, drop_length, hdrop, htarget]
      simp

/-! ### Calls -/

/-- A call of the decoder before it is flushed. -/
inductive Call where
  | pushToken (tokenId : TokenId)
  | nextChunk

/-- The tokens that are pushed. -/
def pushed : List Call → List TokenId
  | [] => []
  | .pushToken tokenId :: calls => tokenId :: pushed calls
  | .nextChunk :: calls => pushed calls

/-- The text that the calls and the flush after them return. -/
def emitted (tokenizer : Tokenizer) (st : DecodeStream) : List Call → Except StreamError (List Char)
  | [] => do
    let ((lastChunk, _), _) ← st.flush tokenizer none
    return chunkText lastChunk
  | .pushToken tokenId :: calls => do
    let (_, st) ← st.pushToken tokenizer tokenId
    emitted tokenizer st calls
  | .nextChunk :: calls => do
    let (chunk, st) ← st.nextChunk
    return chunkText chunk ++ (← emitted tokenizer st calls)

private theorem ensureSeeded_of_seeded (h : st.prefixSeeded = true) :
    st.ensureSeeded tokenizer = .ok st := by
  rw [ensureSeeded, h]
  rfl

/-- Handing out a chunk changes neither the window nor the text. -/
protected theorem Handed.nextChunk (h : st.Handed handed) :
    ∃ chunk decoded, st.nextChunk = .ok (chunk, { st with decoded }) ∧
      decoded.text = st.decoded.text ∧ Handed { st with decoded } (handed ++ chunkText chunk) := by
  obtain ⟨chunk, decoded, htake, hok, htext, -, hchunk⟩ :=
    h.ok.takeReady (isPrefix_floorPrefix h.ok.isPrefix h.heldBack) (floorPrefix_isPrefix _ _)
  refine ⟨chunk, decoded, ?_, htext, hchunk ▸ hok, ?_⟩
  · rw [nextChunk, floorCharBoundary, htake]
    rfl
  · rw [← hchunk, htext]
    exact byteLen_floorPrefix_le _ _

private theorem flush_spec {rest : List Char} (hrest : st.windowText tokenizer = .ok rest)
    (h : st.decoded.Ok handed) :
    ∃ last full st', st.flush tokenizer none = .ok ((last, full), st') ∧
      handed ++ chunkText last = st.decoded.text ++ rest := by
  set decoded := if rest = [] then st.decoded else st.decoded.appendVisibleText rest with hdecoded
  have hadded : decoded.Ok handed ∧ decoded.text = st.decoded.text ++ rest := by
    rw [hdecoded]
    split_ifs with hnil
    · rw [hnil, append_nil]
      exact ⟨h, rfl⟩
    · exact h.appendVisibleText _
  obtain ⟨hok, htext, hresolved⟩ := hadded.1.resolvePendingZeroWidth
  obtain ⟨last, full, hfinish, hlast, -⟩ := hok.finish hresolved
  refine ⟨last, full, { st with
    decoded := {}, ids := [], prefixText := [], prefixIndex := 0, prefixSeeded := true
    pendingString := none }, ?_, by rw [← hlast, htext, hadded.2]⟩
  rw [flush, hrest]
  change (decoded.resolvePendingZeroWidth.finish).bind _ = _
  rw [hfinish]
  rfl

/-- The window completes the text that is decoded. -/
protected theorem Window.windowText (hb : ByteLevel tokenizer bytes) (h : Window bytes st target handed) :
    ∃ rest, st.windowText tokenizer = .ok rest ∧ st.decoded.text ++ rest = lossy target := by
  obtain ⟨done, hdone, htext, htarget⟩ := h.released
  have hall := h.decode_append []
  rw [append_nil, flatMap_nil, append_nil] at hall
  refine ⟨lossy ((st.ids.drop st.prefixIndex).flatMap bytes), ?_, ?_⟩
  · rw [windowText]
    split_ifs with hids
    · rw [hb.decodeIds, hall]
      exact congrArg _ fromBoundary_append
    · rw [h.seeded, Bool.true_and, Bool.not_eq_true', Bool.not_eq_false, List.isEmpty_iff] at hids
      rw [hids, drop_nil]
      rfl
  · rw [htarget, hdone.lossy_append, htext]

/-- **The chunks are the text of the bytes**, from any state with a window. -/
protected theorem Window.emitted (hb : ByteLevel tokenizer bytes) (h : Window bytes st target handed)
    (calls : List Call) : ∃ text, emitted tokenizer st calls = .ok text ∧
      handed ++ text = lossy (target ++ (pushed calls).flatMap bytes) := by
  induction calls generalizing st target handed with
  | nil =>
    obtain ⟨rest, hrest, hall⟩ := h.windowText hb
    obtain ⟨last, full, st', hflush, htext⟩ := flush_spec hrest h.buffer.ok
    refine ⟨chunkText last, ?_, ?_⟩
    · rw [emitted, hflush]
      rfl
    · rw [htext, hall]
      simp [pushed]
  | cons call calls ih =>
    cases call with
    | pushToken tokenId =>
      obtain ⟨n, st', hpush, hwindow⟩ := h.pushSeeded hb tokenId
      obtain ⟨text, hemitted, htext⟩ := ih hwindow
      refine ⟨text, ?_, ?_⟩
      · rw [emitted, pushToken, ensureSeeded_of_seeded h.seeded]
        change (st.pushSeeded tokenizer tokenId).bind _ = _
        rw [hpush]
        exact hemitted
      · rw [htext, pushed, flatMap_cons, append_assoc]
    | nextChunk =>
      obtain ⟨chunk, decoded, hnext, hsame, hhanded⟩ := h.buffer.nextChunk
      have hwindow : Window bytes { st with decoded } target (handed ++ chunkText chunk) :=
        ⟨h.seeded, hhanded, h.index, h.whole, h.prefixText, hsame ▸ h.released⟩
      obtain ⟨text, hemitted, htext⟩ := ih hwindow
      refine ⟨chunkText chunk ++ text, ?_, ?_⟩
      · rw [emitted, hnext]
        change (emitted tokenizer { st with decoded } calls).bind _ = _
        rw [hemitted]
        rfl
      · rw [← append_assoc, htext, pushed]

/-! ### Seeding from the prompt -/

/-- The text of a suffix of the prompt. -/
def suffixText (bytes : TokenId → List UInt8) (prompt : List TokenId) (len : ℕ) : List Char :=
  lossy ((prompt.drop (prompt.length - len)).flatMap bytes)

/-- The window is seeded with nothing: no suffix that is tried decodes without U+FFFD, and the prompt
ends in it. -/
def reemits (bytes : TokenId → List UInt8) (prompt : List TokenId) : Bool :=
  (suffixLens prompt.length).all (fun len => replacement ∈ suffixText bytes prompt len) &&
    endsIncomplete (lossy (prompt.flatMap bytes))

private theorem mem_suffixLens {n len : ℕ} (h : len ∈ suffixLens n) : SAFE_SUFFIX_MIN ≤ len ∧ len ≤ n := by
  rw [suffixLens] at h
  split_ifs at h
  · obtain ⟨hle, hlt⟩ := mem_range'_1.mp h
    omega
  · cases h

section

variable (hb : ByteLevel tokenizer bytes)

include hb

/-- No id of a prompt is left out. -/
protected theorem ByteLevel.decodePromptContext (st : DecodeStream) (ids : List TokenId) :
    st.decodePromptContext tokenizer ids = .ok (lossy (ids.flatMap bytes), ids) := by
  rw [decodePromptContext, hb.decodeIds]

/-- The first suffix that decodes without U+FFFD is taken. -/
protected theorem ByteLevel.seedSuffix {lens : List ℕ}
    (hlens : ∀ len ∈ lens, SAFE_SUFFIX_MIN ≤ len ∧ len ≤ st.ids.length) :
    (lens.all (fun len => replacement ∈ suffixText bytes st.ids len) = true ∧
      st.seedSuffix tokenizer lens = .ok none) ∨
    (lens.all (fun len => replacement ∈ suffixText bytes st.ids len) = false ∧
      ∃ ids, replacement ∉ lossy (ids.flatMap bytes) ∧
        st.seedSuffix tokenizer lens = .ok (some (lossy (ids.flatMap bytes), ids))) := by
  induction lens with
  | nil => exact .inl ⟨rfl, rfl⟩
  | cons len lens ih =>
    obtain ⟨hmin, hle⟩ := hlens len (.head _)
    have hlength : SAFE_SUFFIX_MIN ≤ (st.ids.drop (st.ids.length - len)).length := by
      rw [length_drop]
      omega
    rw [seedSuffix, hb.decodePromptContext, all_cons]
    simp only [bind, Except.bind]
    by_cases hclean : replacement ∈ suffixText bytes st.ids len
    · rw [if_neg fun hand => hand.1 hclean, decide_eq_true hclean]
      exact ih fun len hlen => hlens len (.tail _ hlen)
    · rw [if_pos ⟨hclean, hlength⟩, decide_eq_false hclean]
      exact .inr ⟨rfl, _, hclean, rfl⟩

/-- The first push finds a window that was seeded from the prompt. -/
protected theorem ByteLevel.seedPrefix (hnew : st.prefixText = [])
    (hindex : st.prefixIndex = 0) (hhanded : st.Handed handed) (htext : st.decoded.text = []) :
    ∃ st', st.seedPrefix tokenizer = .ok st' ∧ Window bytes { st' with prefixSeeded := true }
      (if reemits bytes st.ids then st.ids.flatMap bytes else []) handed := by
  -- whatever the window is seeded with, it holds nothing else
  have hseed : ∀ ids, Whole (ids.flatMap bytes) → Window bytes { st with
      prefixText := lossy (ids.flatMap bytes), ids, prefixIndex := ids.length
      prefixSeeded := true } [] handed := fun ids hwhole =>
    ⟨rfl, ⟨hhanded.ok, hhanded.heldBack⟩, le_rfl, by rwa [take_length],
      by rw [take_length], [], whole_nil, htext, by rw [drop_length]; rfl⟩
  rw [seedPrefix, reemits]
  have hlens : ∀ len ∈ suffixLens st.ids.length, SAFE_SUFFIX_MIN ≤ len ∧ len ≤ st.ids.length :=
    fun _ => mem_suffixLens
  rcases hb.seedSuffix hlens with ⟨hall, hnone⟩ | ⟨hall, ids, hclean, hsome⟩
  · rw [hall, Bool.true_and, hnone]
    simp only [bind, Except.bind, hb.decodePromptContext]
    split_ifs with hends
    · exact ⟨_, rfl, rfl, ⟨hhanded.ok, hhanded.heldBack⟩, by simp [hindex], by simpa [hindex] using whole_nil,
        by rw [hnew, hindex]; rfl, [], whole_nil, htext, by simp [hindex]⟩
    · rw [endsIncomplete, decide_eq_true_eq] at hends
      exact ⟨_, rfl, hseed st.ids (whole_of_getLast? hends)⟩
  · rw [hall, hsome]
    exact ⟨_, rfl, hseed ids (whole_of_getLast? fun hlast => hclean (mem_of_getLast? hlast))⟩

/-- Before the first push nothing is handed out; with it the window is there. -/
private theorem emitted_unseeded (hseeded : st.prefixSeeded = false)
    (hids : st.ids ≠ []) (hnew : st.prefixText = []) (hindex : st.prefixIndex = 0)
    (hhanded : st.Handed []) (htext : st.decoded.text = []) {calls : List Call} :
    emitted tokenizer st calls = .ok (if pushed calls = [] then [] else
      lossy ((if reemits bytes st.ids then st.ids.flatMap bytes else []) ++
        (pushed calls).flatMap bytes)) := by
  induction calls generalizing st with
  | nil =>
    have hrest : st.windowText tokenizer = .ok [] := by
      rw [windowText, hseeded]
      rfl
    obtain ⟨last, full, st', hflush, hlast⟩ := flush_spec hrest hhanded.ok
    rw [htext] at hlast
    rw [emitted, hflush]
    exact congrArg _ hlast
  | cons call calls ih =>
    cases call with
    | pushToken tokenId =>
      obtain ⟨st', hseed, hwindow⟩ := hb.seedPrefix hnew hindex hhanded htext
      have hensure : st.ensureSeeded tokenizer = .ok { st' with prefixSeeded := true } := by
        have hempty : st.ids.isEmpty = false := by simpa using hids
        rw [ensureSeeded, hseeded, hempty, hseed]
        rfl
      obtain ⟨text, hemitted, hall⟩ := hwindow.emitted hb _
      rw [if_neg (by simp [pushed]), ← hall, nil_append, ← hemitted, emitted, emitted, pushToken,
        pushToken, hensure, ensureSeeded_of_seeded rfl]
    | nextChunk =>
      obtain ⟨chunk, decoded, hnext, hsame, hhanded'⟩ := hhanded.nextChunk
      have hchunk : chunkText chunk = [] := by
        have hpre := hhanded'.ok.isPrefix
        rw [hsame, htext] at hpre
        exact prefix_nil.mp hpre
      rw [emitted, hnext]
      change (emitted tokenizer { st with decoded } calls).bind _ = _
      rw [@ih { st with decoded } hseeded hids hnew hindex (by rwa [hchunk] at hhanded')
        (hsame.trans htext), hchunk]
      rfl

/-- **What a new decoder emits.** -/
theorem emitted_new (prompt : List TokenId) (skip : Bool) (minBytes : ℕ) (calls : List Call) :
    emitted tokenizer (new prompt skip minBytes) calls = .ok (if pushed calls = [] then [] else
      lossy ((if reemits bytes prompt then prompt.flatMap bytes else []) ++
        (pushed calls).flatMap bytes)) := by
  have hhanded : (new prompt skip minBytes).Handed [] :=
    ⟨AttributedTextBuffer.ok_new, Nat.zero_le _⟩
  by_cases hprompt : prompt = []
  · subst hprompt
    have hwindow : Window bytes (new [] skip minBytes) [] [] :=
      ⟨rfl, hhanded, le_rfl, whole_nil, rfl, [], whole_nil, rfl, rfl⟩
    obtain ⟨text, hemitted, htext⟩ := hwindow.emitted hb calls
    rw [hemitted, ← nil_append text, htext, if_neg (Bool.eq_false_iff.mp rfl : ¬ reemits bytes [] = true)]
    split_ifs with hnone
    · rw [hnone]
      rfl
    · rfl
  · exact emitted_unseeded hb (by simpa [new] using hprompt) hprompt rfl rfl hhanded rfl

end

/-- The text of prompt and generated tokens behind the complete characters of the prompt. -/
def textAfter (bytes : TokenId → List UInt8) (prompt generated : List TokenId) : List Char :=
  (lossy ((prompt ++ generated).flatMap bytes)).drop (complete (prompt.flatMap bytes)).length

/-- The decoder continues the prompt: without a generated token, if the prompt ends with a character;
if it is seeded with nothing, if the prompt completes no character; and else, if the prompt ends
with a character, or the generated bytes read the same without the character that it began. -/
def Continues (bytes : TokenId → List UInt8) (prompt generated : List TokenId) : Prop :=
  if generated = [] then Whole (prompt.flatMap bytes)
  else if reemits bytes prompt then complete (prompt.flatMap bytes) = []
  else Whole (prompt.flatMap bytes) ∨
    lossy (generated.flatMap bytes) = (feed (pending (prompt.flatMap bytes))
      (generated.flatMap bytes)).1 ++ (pending ((prompt ++ generated).flatMap bytes)).flush

/-- **Where the emitted text is the text after the prompt.** -/
theorem emitted_eq_textAfter_iff (hb : ByteLevel tokenizer bytes) (prompt : List TokenId)
    (skip : Bool) (minBytes : ℕ) (calls : List Call) :
    emitted tokenizer (new prompt skip minBytes) calls =
      .ok (textAfter bytes prompt (pushed calls)) ↔ Continues bytes prompt (pushed calls) := by
  set before := prompt.flatMap bytes with hbefore
  set after := (pushed calls).flatMap bytes with hafter
  have htext : textAfter bytes prompt (pushed calls) =
      (feed (pending before) after).1 ++ (feed (pending before) after).2.flush := by
    rw [textAfter, flatMap_append, lossy_append, drop_left]
  rw [emitted_new hb, htext, Continues, ← hbefore, Except.ok.injEq]
  split_ifs with hnone hreemits
  · -- what the prompt has begun is not emitted
    have hnil : after = [] := by
      rw [hafter, hnone]
      rfl
    rw [hnil, whole_iff]
    change [] = (pending before).flush ↔ _
    rw [Pending.flush]
    split_ifs with hneed <;> simp [hneed]
  · rw [lossy_append]
    exact append_left_eq_self
  · rw [flatMap_append, pending_append]
    refine ⟨.inr, fun h => h.elim (fun hwhole => ?_) id⟩
    rw [show pending before = {} from hwhole]
    rfl

/-- Every token is the byte of its id. -/
def byteTokenizer : Tokenizer where
  decode ids _ := .ok (lossy (ids.flatMap fun id => [UInt8.ofNat id]))
  idToToken id := some (Nat.toDigits 10 id)
  isSpecialId _ := false

/-- "hi" and the first byte of a character. -/
def cutPrompt : List TokenId := [104, 105, 226]

/-- A prompt and a token that begins a character. -/
theorem emitted_eq_textAfter_iff_cutPrompt : ByteLevel byteTokenizer (fun id => [UInt8.ofNat id]) ∧
      emitted byteTokenizer (new [104, 105] false 0) [.pushToken 226, .nextChunk] =
        .ok (textAfter (fun id => [UInt8.ofNat id]) [104, 105] [226]) :=
  ⟨fun _ _ => rfl, (emitted_eq_textAfter_iff (fun _ _ => rfl) [104, 105] false 0
    [.pushToken 226, .nextChunk]).mpr (.inl (by decide +kernel))⟩

/-- The prompt is emitted again. -/
theorem emitted_cutPrompt :
    emitted byteTokenizer (new cutPrompt false 0) [.pushToken 97] = .ok ['h', 'i', '�', 'a'] ∧
      textAfter (fun id => [UInt8.ofNat id]) cutPrompt [97] = ['�', 'a'] ∧
      ¬ Continues (fun id => [UInt8.ofNat id]) cutPrompt [97] := by
  refine ⟨by decide +kernel, by decide +kernel, ?_⟩
  rw [Continues]
  decide +kernel

end DecodeStream

end Sonar.Text
