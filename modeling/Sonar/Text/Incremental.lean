import Sonar.Lib.Utf8

/-!
# Decoding tokens as they are generated

The incremental decoder of the Rust front end (`incremental.rs`, `incremental/attribution.rs`). It
keeps a short window of token ids with the text of its first part, and releases what a longer decode
adds to that text, unless it ends in U+FFFD. Released text goes to a buffer that also remembers
where each token stands in the text, and hands the text out in chunks.

A text is the list of its characters; offsets are in bytes, and a slice that is not at the end of a
character is a panic.
-/

namespace Sonar.Text

open Lib.Utf8

/-- The id of a token. -/
abbrev TokenId := ℕ

/-- What a tokenizer offers. -/
structure Tokenizer where
  decode : List TokenId → Bool → Except String (List Char)
  idToToken : TokenId → Option (List Char)
  isSpecialId : TokenId → Bool

/-- How a call can fail. -/
inductive StreamError where
  /-- The tokenizer could not decode. -/
  | tokenizer (message : String)
  /-- A slice, an offset or an `unreachable!` that panics. -/
  | panic
deriving DecidableEq, Repr

/-- The value of an expression that panics where there is none. -/
def expect {α : Type} : Option α → Except StreamError α
  | some a => .ok a
  | none => .error .panic

/-! ### Text with the places of its tokens -/

/-- The place of a token in decoded text. -/
inductive TokenAnchor where
  | visible (byteOffset : ℕ)
  | zeroWidth (byteOffset : ℕ)
deriving DecidableEq, Repr

namespace TokenAnchor

/-- Where the anchor is. -/
def byteOffset : TokenAnchor → ℕ
  | visible n => n
  | zeroWidth n => n

/-- An anchor moved by `delta`; below zero it panics. -/
def offsetBy (delta : ℤ) (anchor : TokenAnchor) : Except StreamError TokenAnchor :=
  let offset := anchor.byteOffset + delta
  if offset < 0 then .error .panic
  else match anchor with
    | visible _ => .ok (visible offset.toNat)
    | zeroWidth _ => .ok (zeroWidth offset.toNat)

end TokenAnchor

/-- A generated token and its place. -/
structure TokenAttribution where
  tokenId : TokenId
  anchor : TokenAnchor
deriving DecidableEq, Repr

/-- Decoded text and the tokens attributed to it. -/
structure DecodedText where
  text : List Char := []
  attributions : List TokenAttribution := []
deriving DecidableEq, Repr

/-- The attribution with its anchor moved. -/
def TokenAttribution.offsetBy (delta : ℤ) (a : TokenAttribution) :
    Except StreamError TokenAttribution := do
  return { a with anchor := ← a.anchor.offsetBy delta }

namespace DecodedText

variable (d : DecodedText)

/-- There is neither text nor a token. -/
def isEmpty : Bool := d.text.isEmpty && d.attributions.isEmpty

/-- Whether `drain_prefix` moves the token to the prefix: a visible token follows its first byte, a
zero-width one goes with the text it ends. -/
def inPrefix (len : ℕ) (a : TokenAttribution) : Bool :=
  match a.anchor with
  | .visible offset => offset < len
  | .zeroWidth offset => offset ≤ len

/-- `drain_prefix`: the prefix split off, and the suffix that stays. -/
def drainPrefix (len : ℕ) : Except StreamError (DecodedText × DecodedText) := do
  let (text, rest) ← expect (splitAtByte d.text len)
  let left ← (d.attributions.filter fun a => !inPrefix len a).mapM (TokenAttribution.offsetBy (-len))
  return (⟨text, d.attributions.filter (inPrefix len)⟩, ⟨rest, left⟩)

/-- The texts one after the other, with the anchors of the second one moved. -/
def append (other : DecodedText) : Except StreamError DecodedText :=
  if d.isEmpty then .ok other
  else do
    let moved ← other.attributions.mapM (TokenAttribution.offsetBy (byteLen d.text))
    return ⟨d.text ++ other.text, d.attributions ++ moved⟩

end DecodedText

/-- A generated token whose place may not be known yet. -/
structure PendingAttribution where
  tokenId : TokenId
  anchor : Option TokenAnchor
deriving DecidableEq, Repr

/-- The place of a token that had none. -/
def PendingAttribution.resolve (anchor : TokenAnchor) (a : PendingAttribution) :
    PendingAttribution :=
  match a.anchor with
  | none => { a with anchor := some anchor }
  | some _ => a

/-- A token that has its place. -/
def PendingAttribution.resolved (a : PendingAttribution) : Option TokenAttribution :=
  a.anchor.map fun anchor => ⟨a.tokenId, anchor⟩

/-- All decoded text, and what of it was handed out. -/
structure AttributedTextBuffer where
  text : List Char := []
  emittedByteOffset : ℕ := 0
  attributions : List PendingAttribution := []
  emittedAttributionCount : ℕ := 0
  pendingStart : Option ℕ := none

namespace AttributedTextBuffer

variable (b : AttributedTextBuffer)

/-- A token whose text is not decided yet. -/
def recordPendingToken (tokenId : TokenId) : AttributedTextBuffer :=
  { b with
    pendingStart := some (b.pendingStart.getD b.attributions.length)
    attributions := b.attributions ++ [⟨tokenId, none⟩] }

/-- A token without text of its own. -/
def recordZeroWidthToken (tokenId : TokenId) : AttributedTextBuffer :=
  { b with attributions := b.attributions ++ [⟨tokenId, some (.zeroWidth (byteLen b.text))⟩] }

/-- The pending tokens get a place. -/
def resolvePending (anchor : TokenAnchor) : AttributedTextBuffer :=
  match b.pendingStart with
  | none => b
  | some start =>
    { b with
      pendingStart := none
      attributions :=
        b.attributions.take start ++ (b.attributions.drop start).map (·.resolve anchor) }

/-- More text; the tokens that were pending begin it. -/
def appendVisibleText (text : List Char) : AttributedTextBuffer :=
  { b.resolvePending (.visible (byteLen b.text)) with text := b.text ++ text }

/-- The tokens that are pending have no text. -/
def resolvePendingZeroWidth : AttributedTextBuffer :=
  b.resolvePending (.zeroWidth (byteLen b.text))

/-- A place that was cut off moves to the cut. -/
def collapse (byteOffset : ℕ) (a : PendingAttribution) : PendingAttribution :=
  match a.anchor with
  | some anchor =>
    if byteOffset ≤ anchor.byteOffset then { a with anchor := some (.zeroWidth byteOffset) } else a
  | none => a

/-- The text is cut, and what was behind the cut is anchored at it. -/
def truncate (b : AttributedTextBuffer) (byteOffset : ℕ) :
    Except StreamError AttributedTextBuffer := do
  -- `String::truncate` does nothing beyond the end
  let text ← if byteLen b.text ≤ byteOffset then .ok b.text
    else (expect (splitAtByte b.text byteOffset)).map Prod.fst
  return { b with text, attributions := b.attributions.map (collapse byteOffset) }

/-- The text is cut if there is a limit. -/
def truncateTo : Option ℕ → Except StreamError AttributedTextBuffer
  | some byteOffset => b.truncate byteOffset
  | none => .ok b

/-- A token whose place is known and lies before the cutoff. -/
def ready (cutoff : ℕ) (a : PendingAttribution) : Bool :=
  match a.anchor with
  | some (.visible offset) => offset < cutoff
  | some (.zeroWidth offset) => offset ≤ cutoff
  | none => false

/-- The text up to `cutoff` that was not emitted yet, with its tokens. -/
def takeReady (cutoff : ℕ) : Except StreamError (Option DecodedText × AttributedTextBuffer) := do
  let chunkStart := b.emittedByteOffset
  let taken := (b.attributions.drop b.emittedAttributionCount).takeWhile (ready cutoff)
  if cutoff = chunkStart ∧ taken = [] then return (none, b)
  let attributions ← (taken.filterMap PendingAttribution.resolved).mapM
    (TokenAttribution.offsetBy (-chunkStart))
  let text ← expect (Lib.Utf8.slice b.text chunkStart cutoff)
  return (some ⟨text, attributions⟩, { b with
      emittedByteOffset := cutoff
      emittedAttributionCount := b.emittedAttributionCount + taken.length })

/-- What was not emitted, all the text, and an empty buffer. -/
def finish : Except StreamError ((Option DecodedText × DecodedText) × AttributedTextBuffer) := do
  let (lastChunk, b) ← b.takeReady (byteLen b.text)
  let attributions ← b.attributions.mapM fun a => expect a.resolved
  return ((lastChunk, ⟨b.text, attributions⟩), {})

end AttributedTextBuffer

/-! ### The decoder -/

/-- The text from the last end of a character at the offset or before it. -/
def fromBoundary (text : List Char) (n : ℕ) : List Char := text.drop (floorPrefix text n).length

/-- The text ends in U+FFFD. -/
def endsIncomplete (text : List Char) : Bool := text.getLast? = some replacement

/-- The shortest context that is tried. -/
def SAFE_SUFFIX_MIN : ℕ := 4

/-- The longest context that is tried. -/
def SAFE_SUFFIX_MAX : ℕ := 6

/-- The state of a decoder. -/
structure DecodeStream where
  skipSpecialTokens : Bool
  minBytesToBuffer : ℕ
  ids : List TokenId
  prefixText : List Char := []
  prefixIndex : ℕ := 0
  prefixSeeded : Bool
  pendingString : Option (List Char) := none
  decoded : AttributedTextBuffer := {}

namespace DecodeStream

/-- A stream behind a prompt. -/
def new (promptTokenIds : List TokenId) (skipSpecialTokens : Bool) (minBytesToBuffer : ℕ) :
    DecodeStream :=
  { skipSpecialTokens, minBytesToBuffer, ids := promptTokenIds, prefixSeeded := promptTokenIds = [] }

variable (tokenizer : Tokenizer)

/-- The text of the ids. -/
def decodeIds (st : DecodeStream) (ids : List TokenId) : Except StreamError (List Char) :=
  match tokenizer.decode ids st.skipSpecialTokens with
  | .ok text => .ok text
  | .error message => .error (.tokenizer message)

/-- Where the text of the pending tokens ends inside the new chunk. -/
def pendingGroupSplit (st : DecodeStream) (pending : Option (List Char)) (tokenId : TokenId)
    (newChunk : List Char) : Except StreamError (Option ℕ) :=
  match pending with
  | none => .ok none
  | some pending => do
    let pendingChunk := fromBoundary pending (byteLen st.prefixText)
    if pendingChunk = [] ∨ ¬ pendingChunk <+: newChunk then return none
    let own ← st.decodeIds tokenizer [tokenId]
    let independent := own ≠ [] ∧ byteLen newChunk = byteLen pendingChunk + byteLen own ∧
      own <:+ newChunk
    return if independent then some (byteLen pendingChunk) else none

/-- The text of a prompt; ids that the tokenizer does not know are left out where it fails. -/
def decodePromptContext (st : DecodeStream) (ids : List TokenId) :
    Except StreamError (List Char × List TokenId) :=
  match st.decodeIds tokenizer ids with
  | .ok decoded => .ok (decoded, ids)
  | .error e => do
    let filtered := ids.filter fun id => (tokenizer.idToToken id).isSome
    if filtered.length = ids.length then throw e
    return (← st.decodeIds tokenizer filtered, filtered)

/-- The first suffix of the prompt that decodes cleanly and is long enough. -/
def seedSuffix (st : DecodeStream) : List ℕ → Except StreamError (Option (List Char × List TokenId))
  | [] => .ok none
  | suffixLen :: lens => do
    let (decoded, contextIds) ←
      st.decodePromptContext tokenizer (st.ids.drop (st.ids.length - suffixLen))
    if replacement ∉ decoded ∧ SAFE_SUFFIX_MIN ≤ contextIds.length then
      return some (decoded, contextIds)
    st.seedSuffix lens

/-- The lengths of the suffixes that are tried. -/
def suffixLens (promptLen : ℕ) : List ℕ :=
  if SAFE_SUFFIX_MIN < promptLen then
    List.range' SAFE_SUFFIX_MIN (min SAFE_SUFFIX_MAX (promptLen - 1) + 1 - SAFE_SUFFIX_MIN)
  else []

/-- The prompt as the context of the first token. -/
def seedPrefix (st : DecodeStream) : Except StreamError DecodeStream := do
  match ← st.seedSuffix tokenizer (suffixLens st.ids.length) with
  | some (decoded, contextIds) =>
    return { st with prefixText := decoded, ids := contextIds, prefixIndex := contextIds.length }
  | none =>
    let (decoded, contextIds) ← st.decodePromptContext tokenizer st.ids
    if endsIncomplete decoded then return { st with ids := contextIds }
    return { st with prefixText := decoded, ids := contextIds, prefixIndex := contextIds.length }

/-- The text of a token goes to the buffer, apart from that of the tokens pending before it if it is
known where it begins. -/
def release (decoded : AttributedTextBuffer) (tokenId : TokenId) (zeroWidth : Bool)
    (newChunk : List Char) : Option ℕ → Except StreamError AttributedTextBuffer
  | some split => do
    let (older, own) ← expect (splitAtByte newChunk split)
    return ((decoded.appendVisibleText older).recordPendingToken tokenId).appendVisibleText own
  | none =>
    let decoded := if zeroWidth then decoded else decoded.recordPendingToken tokenId
    .ok (decoded.appendVisibleText newChunk)

/-- The part of `pushToken` before the token is looked at. -/
def ensureSeeded (st : DecodeStream) : Except StreamError DecodeStream :=
  if !st.prefixSeeded && !st.ids.isEmpty then
    (st.seedPrefix tokenizer).map fun st => { st with prefixSeeded := true }
  else .ok st

/-- The part of `pushToken` that decodes the token. -/
def pushSeeded (st : DecodeStream) (tokenId : TokenId) : Except StreamError (ℕ × DecodeStream) := do
  let ids := st.ids ++ [tokenId]
  let string ← st.decodeIds tokenizer ids
  let producedText := byteLen st.prefixText < byteLen string && !endsIncomplete string
  let zeroWidth := (st.skipSpecialTokens && tokenizer.isSpecialId tokenId) ||
    (!producedText && (tokenizer.idToToken tokenId).isNone)
  let decoded := if zeroWidth then st.decoded.recordZeroWidthToken tokenId else st.decoded
  if !producedText then
    return (0, if zeroWidth then { st with ids, decoded } else
      { st with ids, decoded := decoded.recordPendingToken tokenId, pendingString := some string })
  let newChunk := fromBoundary string (byteLen st.prefixText)
  -- a token without a width is not split off
  let pending := if zeroWidth then none else st.pendingString
  let split ← st.pendingGroupSplit tokenizer pending tokenId newChunk
  let decoded ← release decoded tokenId zeroWidth newChunk split
  let ids := ids.drop st.prefixIndex
  let prefixText ← st.decodeIds tokenizer ids
  return (byteLen newChunk,
    { st with decoded, ids, prefixText, prefixIndex := ids.length, pendingString := none })

/-- One token, after the prompt is seeded, and how many bytes of text it adds. -/
def pushToken (st : DecodeStream) (tokenId : TokenId) : Except StreamError (ℕ × DecodeStream) := do
  let st ← st.ensureSeeded tokenizer
  st.pushSeeded tokenizer tokenId

/-- The next piece of text, without the bytes that are held back. -/
def nextChunk (st : DecodeStream) : Except StreamError (Option DecodedText × DecodeStream) := do
  let cutoff := floorCharBoundary st.decoded.text (byteLen st.decoded.text - st.minBytesToBuffer)
  let (chunk, decoded) ← st.decoded.takeReady cutoff
  return (chunk, { st with decoded })

/-- The text of the window behind the text before it. -/
def windowText (st : DecodeStream) : Except StreamError (List Char) :=
  if st.prefixSeeded && !st.ids.isEmpty then
    (st.decodeIds tokenizer st.ids).map (fromBoundary · (byteLen st.prefixText))
  else .ok []

/-- The end of the stream: the last piece and the whole text, cut at the limit. -/
def flush (st : DecodeStream) (truncateOutputTo : Option ℕ) :
    Except StreamError ((Option DecodedText × DecodedText) × DecodeStream) := do
  let newChunk ← st.windowText tokenizer
  let decoded := if newChunk = [] then st.decoded else st.decoded.appendVisibleText newChunk
  let decoded ← decoded.resolvePendingZeroWidth.truncateTo truncateOutputTo
  let (out, decoded) ← decoded.finish
  return (out, { st with
    decoded, ids := [], prefixText := [], prefixIndex := 0, prefixSeeded := true
    pendingString := none })

end DecodeStream

end Sonar.Text
