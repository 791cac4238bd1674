import Mathlib.Data.List.MinMax
import Sonar.PhraseGuard.PendingText

/-!
# What the journal releases

The tokens of a journal are split into those released and those pending (`Aligned`). Between two calls
their text has no banned phrase, and the pending tokens that have bytes are within the longest suffix
that may grow into one (`Holds`). One `feed` keeps this (`Holds.feed`). Then so do the runs (`Reaches`),
in which feeding goes on after every rewind.
-/

namespace Sonar.PhraseGuard.PendingText

open Lib Automaton List

variable {casefold : Char → List Char} {patterns words : List (List UInt8)}
  {released pending : List Entry} {p p' : PendingText} {e : Entry} {d : Decision} {k token : ℕ}
  {text : List Char}

/-- The fields of a journal, by its released and its pending tokens. -/
structure Aligned (words : List (List UInt8)) (released pending : List Entry) (p : PendingText) :
    Prop where
  tokens : p.tokens = pending.map Prod.fst
  ends : p.ends = endsFrom 0 pending
  length_states : p.states.length = pending.length
  states : ∀ i < pending.length,
    Reads words (p.states.getD i 0) (bytes (released ++ pending.take (i + 1)))
  publishedState : Reads words p.publishedState (bytes released)
  numBytes : p.numBytes = (bytes pending).length
  published : p.published = released.length

private theorem Aligned.length_tokens (h : Aligned words released pending p) :
    p.tokens.length = pending.length := by
  rw [h.tokens, length_map]

/-! ### Releasing -/

/-- What a release leaves alone. -/
private theorem release_fields (p : PendingText) (k : ℕ) : (p.release k).2.state = p.state ∧
    (p.release k).2.zeroWidthTokens = p.zeroWidthTokens ∧ (p.release k).2.pattern = p.pattern ∧
    (p.release k).2.caseSensitive = p.caseSensitive ∧
    (p.release k).2.maxPendingTokens = p.maxPendingTokens := by
  unfold release
  split_ifs <;> exact ⟨rfl, rfl, rfl, rfl, rfl⟩

section

variable (h : Aligned words released pending p)

include h

/-- `_release` gives out the first pending tokens and moves them to the released ones. -/
theorem Aligned.release (hk : k ≤ pending.length) :
    (p.release k).1 = (pending.take k).map Prod.fst ∧
      Aligned words (released ++ pending.take k) (pending.drop k) (p.release k).2 := by
  by_cases hzero : k = 0
  · rw [hzero, take_zero, append_nil]
    exact ⟨rfl, h⟩
  have hbytes : p.ends.getD (k - 1) 0 = (bytes (pending.take k)).length := by
    rw [h.ends, getD_endsFrom hzero hk]
  have hsum : (bytes pending).length =
      (bytes (pending.take k)).length + (bytes (pending.drop k)).length := by
    rw [← length_bytes_append, take_append_drop]
  have hlen : (pending.take k).length = k := length_take_of_le hk
  rw [PendingText.release, if_neg hzero]
  refine ⟨?_, ?_, ?_, ?_, ?_, ?_, ?_, ?_⟩
  · rw [map_take, ← h.tokens]
  · rw [map_drop, ← h.tokens]
  -- The ends that stay are counted from the released bytes.
  · have hdrop : (endsFrom 0 pending).drop k =
        endsFrom ((bytes (pending.take k)).length) (pending.drop k) := by
      conv_lhs => rw [← take_append_drop k pending, endsFrom_append]
      rw [drop_left' (length_endsFrom.trans hlen), zero_add]
    change (p.ends.drop k).map (fun tokenEnd => tokenEnd - p.ends.getD (k - 1) 0) = _
    rw [hbytes, h.ends, hdrop, map_sub_endsFrom, sub_self]
  · rw [length_drop, length_drop, h.length_states]
  · intro i hi
    rw [length_drop] at hi
    have hreads := h.states (k + i) (by omega)
    have htake : released ++ pending.take k ++ (pending.drop k).take (i + 1) =
        released ++ pending.take (k + i + 1) := by
      rw [append_assoc, ← take_add, add_assoc]
    rw [htake, getD_eq_getElem?_getD, getElem?_drop]
    exact hreads
  · have hreads := h.states (k - 1) (by omega)
    rwa [Nat.sub_add_cancel (Nat.pos_of_ne_zero hzero)] at hreads
  · rw [h.numBytes]
    push_cast
    omega
  · rw [h.published, length_append, hlen]

private theorem Aligned.scanned {data : List UInt8} {s : ℕ}
    (hs : Reads words s (bytes (released ++ pending ++ [(token, data)]))) :
    Aligned words released (pending ++ [(token, data)]) ((p.append token data).scanned s) := by
  have hbytes : ((bytes (pending ++ [(token, data)])).length) = p.numBytes + data.length := by
    rw [length_bytes_append, h.numBytes, length_bytes_cons]
    rfl
  refine ⟨?_, ?_, ?_, ?_, h.publishedState, hbytes.symm, h.published⟩
  · change p.tokens ++ [token] = _
    rw [h.tokens, map_append]
    rfl
  · change p.ends ++ [p.numBytes + data.length] = _
    rw [endsFrom_append, h.ends, h.numBytes, zero_add]
    rfl
  · change (p.states ++ [s]).length = _
    rw [length_append, length_append, h.length_states]
    rfl
  · intro i hi
    change Reads words ((p.states ++ [s]).getD i 0) _
    rw [length_append] at hi
    rcases Nat.lt_succ_iff_lt_or_eq.mp hi with hlt | rfl
    · rw [getD_append _ _ _ _ (h.length_states ▸ hlt), take_append_of_le_length hlt]
      exact h.states i hlt
    · rw [getD_append_right _ _ _ _ h.length_states.le, h.length_states, Nat.sub_self,
        take_of_length_le (by rw [length_append]; rfl), ← append_assoc]
      exact hs

private theorem Aligned.dropped : Aligned words released [] p.dropped :=
  ⟨rfl, rfl, rfl, fun _ hi => absurd hi (Nat.not_lt_zero _), h.publishedState, rfl, h.published⟩

end

/-! ### Feeding -/

/-- A journal that guards against the patterns. -/
structure Guards (patterns words : List (List UInt8)) (caseSensitive : Bool) (p : PendingText) :
    Prop where
  compiled : Compiled patterns words p.pattern
  exists_pattern : ∃ q, q ∈ patterns
  ne_nil : ∀ q ∈ patterns, q ≠ []
  caseSensitive : p.caseSensitive = caseSensitive
  limit : ∀ q ∈ patterns, maxZeroWidthTokens + q.length ≤ p.maxPendingTokens

/-- What holds between two calls. -/
structure Holds (patterns words : List (List UInt8)) (released pending : List Entry)
    (p : PendingText) : Prop extends Aligned words released pending p where
  state : Reads words p.state (bytes (released ++ pending))
  clean : ∀ q ∈ patterns, ¬ q <:+: bytes (released ++ pending)
  quiet : ∃ tail, tail <:+ pending ∧ (∀ e ∈ tail, e.2 = []) ∧ p.zeroWidthTokens ≤ tail.length
  few : ∀ w, LongestSuffix {w | w ∈ words} (bytes (released ++ pending)) w → wide pending ≤ w.length

variable {caseSensitive : Bool}

/-- In a clean text the state is shorter than a pattern. -/
private theorem Guards.length_lt (hg : Guards patterns words caseSensitive p) {t w : List UInt8}
    (hclean : ∀ q ∈ patterns, ¬ q <:+: t) (hw : LongestSuffix {w | w ∈ words} t w) :
    ∃ q ∈ patterns, w.length < q.length := by
  rcases hg.compiled.needed w hw.mem with rfl | ⟨q, hq, hpre⟩
  · obtain ⟨q, hq⟩ := hg.exists_pattern
    exact ⟨q, hq, length_pos_iff.mpr (hg.ne_nil q hq)⟩
  · refine ⟨q, hq, lt_of_le_of_ne hpre.length_le fun hlen => hclean q hq ?_⟩
    rw [← hpre.eq_of_length hlen]
    exact hw.suffix.isInfix

/-- The trailing tokens without bytes, after one more token. -/
private theorem Holds.quiet_append (h : Holds patterns words released pending p) (token : ℕ)
    (data : List UInt8) : ∃ tail, tail <:+ pending ++ [(token, data)] ∧ (∀ e ∈ tail, e.2 = []) ∧
      (p.append token data).zeroWidthTokens ≤ tail.length := by
  by_cases hnil : data = []
  · obtain ⟨tail, ⟨init, hinit⟩, htail, hle⟩ := h.quiet
    refine ⟨tail ++ [(token, data)], ⟨init, ?_⟩, ?_, ?_⟩
    · rw [← append_assoc, hinit]
    · intro e he
      rcases mem_append.mp he with he | he
      · exact htail e he
      · rw [mem_singleton.mp he]
        exact hnil
    · rw [hnil, length_append]
      exact Nat.add_le_add_right hle 1
  · refine ⟨[], nil_suffix, nofun, ?_⟩
    change (if data.isEmpty then p.zeroWidthTokens + 1 else 0) ≤ _
    rw [if_neg (by rwa [List.isEmpty_iff])]
    exact le_rfl

section

variable (hg : Guards patterns words caseSensitive p)

include hg

/-- The journal after the scan of a token. -/
private theorem Holds.scanned (h : Holds patterns words released pending p) (data : List UInt8) :
    Aligned words released (pending ++ [(token, data)])
      ((p.append token data).scanned (p.pattern.scan p.state data).1) := by
  refine h.toAligned.scanned ?_
  have hbytes : bytes (released ++ pending ++ [(token, data)]) =
      bytes (released ++ pending) ++ data := by
    rw [bytes_append]
    exact congrArg _ (append_nil data)
  exact hbytes ▸ (hg.compiled.scan hg.ne_nil h.state data).reads

/-- A match begins before the end of the text, so the new token is not released. -/
private theorem Holds.lt_of_match (h : Holds patterns words released pending p) {data : List UInt8}
    {start offset : ℤ} {k : ℕ} (hstart : (p.pattern.scan p.state data).2.1 = some start)
    (hoffset : offset ≤ p.numBytes + start)
    (hk : Boundary (pending ++ [(token, data)]) offset k) :
    k < (pending ++ [(token, data)]).length := by
  refine hk.lt_length (append_ne_nil_of_right_ne_nil _ (cons_ne_nil _ _)) (hoffset.trans_lt ?_)
  obtain ⟨m, hm, s, -, hpre, -, heq⟩ :=
    (hg.compiled.scan hg.ne_nil h.state data).earliest.attained start hstart
  have hpos := length_pos_iff.mpr (hg.ne_nil m hm)
  have hle := hpre.length_le
  have hlen : (bytes (pending ++ [(token, data)])).length = (bytes pending).length + data.length := by
    rw [length_bytes_append, length_bytes_cons]
    rfl
  rw [h.numBytes]
  omega

/-- After a match there is a token to block. -/
private theorem Holds.tokens_ne_nil_of_match (h : Holds patterns words released pending p)
    {data : List UInt8} {start keepFrom : ℤ}
    (hstart : (p.pattern.scan p.state data).2.1 = some start) :
    let q := (p.append token data).scanned (p.pattern.scan p.state data).1
    (q.release (q.tokenAt (min (p.numBytes + start) keepFrom))).2.tokens ≠ [] := by
  intro q
  have haligned : Aligned words released (pending ++ [(token, data)]) q := h.scanned hg data
  have hboundary : Boundary (pending ++ [(token, data)]) (min (p.numBytes + start) keepFrom) _ :=
    boundary_tokenAt haligned.ends
  have hlt := h.lt_of_match hg hstart (min_le_left _ _) hboundary
  rw [(haligned.release hboundary.le).2.tokens, ne_eq, map_eq_nil_iff, drop_eq_nil_iff, not_le]
  exact hlt

/-- `feed` fails only on too many tokens without bytes: after a match a token is left to block. -/
private theorem Holds.feed_error (h : Holds patterns words released pending p) {message : String}
    (hfeed : p.feed casefold token text = .error message) :
    maxZeroWidthTokens < (pending ++ [(token, utf8 (foldText casefold caseSensitive text))]).countP
      fun e => e.2.isEmpty := by
  rw [feed, hg.caseSensitive] at hfeed
  set data := utf8 (foldText casefold caseSensitive text)
  dsimp only at hfeed
  split_ifs at hfeed with hlimit
  · rcases hlimit with hlimit | hlimit
    -- There are more tokens than a pattern has bytes.
    · obtain ⟨w, -, hw⟩ := h.state
      obtain ⟨q, hq, hlt⟩ := hg.length_lt h.clean hw
      have hfew := h.few w hw
      have hmax := hg.limit q hq
      have hlen : (p.append token data).tokens.length = (pending ++ [(token, data)]).length := by
        change (p.tokens ++ [token]).length = _
        rw [length_append, length_append, h.length_tokens]
        rfl
      have hwide : wide (pending ++ [(token, data)]) ≤ wide pending + 1 := by
        rw [wide_append]
        exact Nat.add_le_add_left (wide_cons_le _ []) _
      have hsplit : (pending ++ [(token, data)]).length = wide (pending ++ [(token, data)]) +
          (pending ++ [(token, data)]).countP fun e => e.2.isEmpty := by
        rw [length_eq_countP_add_countP fun e : Entry => !e.2.isEmpty]
        congr 2
        funext e
        cases e.2.isEmpty <;> rfl
      change p.maxPendingTokens < _ at hlimit
      omega
    -- The last tokens have no bytes.
    · obtain ⟨tail, hsuffix, htail, hle⟩ := h.quiet_append token data
      have hall : tail.countP (fun e => e.2.isEmpty) = tail.length :=
        countP_eq_length.mpr fun e he => isEmpty_iff.mpr (htail e he)
      exact (hlimit.trans_le hle).trans_le (hall ▸ hsuffix.sublist.countP_le)
  · split at hfeed
    next start hstart =>
      split at hfeed
      next hnil => exact absurd hnil (h.tokens_ne_nil_of_match hg hstart)
      next => cases hfeed
    next => cases hfeed

/-- What a `feed` that succeeds has done. -/
private theorem feed_cases (hfeed : p.feed casefold token text = .ok (d, p')) :
    ∃ data out q, data = utf8 (foldText casefold caseSensitive text) ∧
      out = p.pattern.scan p.state data ∧ q = (p.append token data).scanned out.1 ∧
      ((∃ start k, out.2.1 = some start ∧
          k = q.tokenAt (min (p.numBytes + start) (q.numBytes - (out.2.2))) ∧
          d.ready = (q.release k).1 ∧ d.rewindTo = some (q.release k).2.published ∧
          p' = (q.release k).2.dropped) ∨
        (∃ k, out.2.1 = none ∧ k = q.tokenAt (q.numBytes - (out.2.2)) ∧
          d.ready = (q.release k).1 ∧ d.rewindTo = none ∧ p' = (q.release k).2)) := by
  rw [feed, hg.caseSensitive] at hfeed
  dsimp only at hfeed
  split_ifs at hfeed
  refine ⟨_, _, _, rfl, rfl, rfl, ?_⟩
  split at hfeed
  · rename_i start hout
    split at hfeed
    · cases hfeed
    · obtain ⟨rfl, rfl⟩ := Prod.ext_iff.mp (Except.ok.inj hfeed)
      exact .inl ⟨start, _, hout, rfl, rfl, rfl, rfl⟩
  · rename_i hout
    obtain ⟨rfl, rfl⟩ := Prod.ext_iff.mp (Except.ok.inj hfeed)
    exact .inr ⟨_, hout, rfl, rfl, rfl, rfl⟩

private theorem Guards.congr (h : p'.pattern = p.pattern ∧ p'.caseSensitive = p.caseSensitive ∧
    p'.maxPendingTokens = p.maxPendingTokens) : Guards patterns words caseSensitive p' := by
  refine ⟨?_, hg.exists_pattern, hg.ne_nil, h.2.1.trans hg.caseSensitive, ?_⟩
  · rw [h.1]
    exact hg.compiled
  · rw [h.2.2]
    exact hg.limit

/-- Feeding keeps the automaton. -/
theorem Guards.feed
    (hfeed : p.feed casefold token text = .ok (d, p')) : Guards patterns words caseSensitive p' := by
  obtain ⟨data, out, q, -, -, rfl, ⟨start, k, -, -, -, -, rfl⟩ | ⟨k, -, -, -, -, rfl⟩⟩ :=
    feed_cases hg hfeed
  · exact hg.congr (release_fields _ _).2.2
  · exact hg.congr (release_fields _ _).2.2

end

section

variable (h : Holds patterns words released pending p)

include h

/-- The tokens released before a match are part of the text that was clean. -/
private theorem Holds.clean_take (k : ℕ) : ∀ q ∈ patterns, ¬ q <:+: bytes (released ++ pending.take k) := by
  intro q hq hoccurs
  refine h.clean q hq (hoccurs.trans (IsPrefix.isInfix ⟨bytes (pending.drop k), ?_⟩))
  rw [← bytes_append, append_assoc, take_append_drop]

/-- A text that stays without match stays clean. -/
private theorem Holds.clean_append {data : List UInt8}
    (hearliest : Earliest patterns (bytes (released ++ pending)) data none) :
    ∀ q ∈ patterns, ¬ q <:+: bytes (released ++ (pending ++ [(token, data)])) := by
  intro q hq hoccurs
  have hbytes : bytes (released ++ (pending ++ [(token, data)])) =
      bytes (released ++ pending) ++ data := by
    rw [← append_assoc, bytes_append]
    exact congrArg _ (append_nil data)
  rw [hbytes] at hoccurs
  rcases infix_append hoccurs with hold | ⟨end', hne, hpre, hsuffix⟩
  · exact h.clean q hq hold
  · obtain ⟨start, hstart, -⟩ := hearliest.bound q hq end' hne hpre hsuffix
    cases hstart

/-- A `feed` releases the first of the pending tokens. It keeps the others, or drops them and says
how many tokens are released. -/
theorem Holds.feed (hg : Guards patterns words caseSensitive p)
    (hfeed : p.feed casefold token text = .ok (d, p')) :
    ∃ fed k, fed = pending ++ [(token, utf8 (foldText casefold caseSensitive text))] ∧
      k ≤ fed.length ∧ d.ready = (fed.take k).map Prod.fst ∧
      (d.rewindTo = none ∧ Holds patterns words (released ++ fed.take k) (fed.drop k) p' ∨
        d.rewindTo = some (released.length + k) ∧
          Holds patterns words (released ++ fed.take k) [] p') := by
  obtain ⟨data, out, q, rfl, hout, hq, hcases⟩ := feed_cases hg hfeed
  set data := utf8 (foldText casefold caseSensitive text)
  set fed := pending ++ [(token, data)]
  have hscan := hg.compiled.scan hg.ne_nil h.state data
  rw [← hout] at hscan
  have hbytes : bytes (released ++ pending ++ [(token, data)]) =
      bytes (released ++ pending) ++ data := by
    rw [bytes_append]
    exact congrArg _ (append_nil data)
  have hreads : Reads words out.1 (bytes (released ++ pending ++ [(token, data)])) :=
    hbytes ▸ hscan.reads
  have haligned : Aligned words released fed q := hq ▸ hout ▸ h.scanned hg data
  refine ⟨fed, ?_⟩
  rcases hcases with ⟨start, k, hstart, hk, hready, hrewind, rfl⟩ | ⟨k, hnone, hk, hready, hrewind, rfl⟩
  · have hboundary : Boundary fed (min (p.numBytes + start) (q.numBytes - (out.2.2))) k :=
      hk ▸ boundary_tokenAt haligned.ends
    obtain ⟨hfirst, hrelease⟩ := haligned.release hboundary.le
    have hlt : k < fed.length := h.lt_of_match hg (hout ▸ hstart) (min_le_left _ _) hboundary
    have htake : fed.take k = pending.take k := by
      rw [length_append] at hlt
      exact take_append_of_le_length (Nat.lt_succ_iff.mp hlt)
    refine ⟨k, rfl, hboundary.le, hready.trans hfirst, .inr ⟨?_, hrelease.dropped, ?_, ?_, ?_, ?_⟩⟩
    · rw [hrewind, hrelease.published, length_append, length_take_of_le hboundary.le]
    · rw [append_nil]
      exact hrelease.publishedState
    · rw [append_nil, htake]
      exact h.clean_take k
    · exact ⟨[], nil_suffix, nofun, le_rfl⟩
    · exact fun w _ => Nat.zero_le _
  · have hboundary : Boundary fed (q.numBytes - (out.2.2)) k :=
      hk ▸ boundary_tokenAt haligned.ends
    obtain ⟨hfirst, hrelease⟩ := haligned.release hboundary.le
    have hall : released ++ fed.take k ++ fed.drop k = released ++ fed := by
      rw [append_assoc, take_append_drop]
    refine ⟨k, rfl, hboundary.le, hready.trans hfirst, .inl ⟨hrewind, hrelease, ?_, ?_, ?_, ?_⟩⟩
    · rw [hall, (release_fields _ _).1, hq, ← append_assoc]
      exact hreads
    · rw [hall]
      exact h.clean_append (hnone ▸ hscan.earliest)
    · obtain ⟨tail, hsuffix, htail, hle⟩ := h.quiet_append token data
      refine ⟨tail, hboundary.suffix_drop hsuffix htail, htail, ?_⟩
      rw [(release_fields _ _).2.1, hq]
      exact hle
    -- The pending tokens with bytes reach into the suffix that is kept.
    · intro w hw
      rw [hall, ← append_assoc, hbytes] at hw
      have hafter := hboundary.after
      rw [haligned.numBytes, hscan.depth w hw] at hafter
      omega

end

/-! ### Runs -/

/-- The patterns of a list of phrases. -/
def encodePhrases (casefold : Char → List Char) (caseSensitive : Bool) (phrases : List (List Char)) :
    List (List UInt8) :=
  phrases.map fun phrase => utf8 (foldText casefold caseSensitive phrase)

variable {phrases : List (List Char)} {start : PendingText}

/-- A new guard holds nothing and reads its phrases. -/
private theorem guards_new (hnew : new casefold phrases caseSensitive = .ok start) :
    ∃ words, Guards (encodePhrases casefold caseSensitive phrases) words caseSensitive start ∧
      Holds (encodePhrases casefold caseSensitive phrases) words [] [] start := by
  cases hcompile : compile (encodePhrases casefold caseSensitive phrases) with
  | error message =>
    rw [new, ← encodePhrases, hcompile] at hnew
    cases hnew
  | ok a =>
    rw [new, ← encodePhrases, hcompile] at hnew
    obtain rfl := Except.ok.inj hnew
    obtain ⟨⟨words, hcompiled⟩, hne⟩ := compiled_of_compile hcompile
    refine ⟨words, ⟨hcompiled, ?_, hne, rfl, ?_⟩, ⟨rfl, rfl, rfl, ?_, ?_, rfl, rfl⟩, ?_, ?_, ?_, ?_⟩
    · refine exists_mem_of_ne_nil _ fun hnil => ?_
      rw [hnil] at hcompile
      cases hcompile
    -- A pattern is a phrase or a folded phrase, encoded.
    · intro q hq
      obtain ⟨phrase, hphrase, rfl⟩ := mem_map.mp hq
      refine Nat.add_le_add_left ?_ _
      have hlen : (utf8 (foldText casefold caseSensitive phrase)).length ≤
          max (utf8 phrase).length (utf8 (phrase.flatMap casefold)).length := by
        rw [foldText]
        split_ifs
        · exact le_max_left _ _
        · exact le_max_right _ _
      refine hlen.trans (le_max_of_le' 0 (mem_map_of_mem hphrase) le_rfl)
    · exact fun i hi => absurd hi (Nat.not_lt_zero i)
    · exact hcompiled.reads_nil
    · exact hcompiled.reads_nil
    · exact fun q hq hoccurs => hne q hq (infix_nil.mp hoccurs)
    · exact ⟨[], nil_suffix, nofun, le_rfl⟩
    · exact fun w _ => Nat.zero_le _

/-- The runs of a journal: the tokens that were fed and not rewound, with their texts, and the tokens
that were released. -/
inductive Reaches (casefold : Char → List Char) (start : PendingText) :
    PendingText → List (ℕ × List Char) → List ℕ → Prop
  | new : Reaches casefold start start [] []
  | feed {p p' kept released d token text} : Reaches casefold start p kept released →
    p.feed casefold token text = .ok (d, p') → Reaches casefold start p'
      (d.rewindTo.elim (kept ++ [(token, text)]) fun n => (kept ++ [(token, text)]).take n)
      (released ++ d.ready)

/-- A fed token with its bytes. -/
def encodeEntry (casefold : Char → List Char) (caseSensitive : Bool) (x : ℕ × List Char) : Entry :=
  (x.1, utf8 (foldText casefold caseSensitive x.2))

private theorem foldText_append (text text' : List Char) : foldText casefold caseSensitive (text ++ text') =
      foldText casefold caseSensitive text ++ foldText casefold caseSensitive text' := by
  rw [foldText, foldText, foldText]
  split_ifs
  · rfl
  · exact flatMap_append

private theorem bytes_map_encodeEntry (l : List (ℕ × List Char)) :
    bytes (l.map (encodeEntry casefold caseSensitive)) =
      utf8 (foldText casefold caseSensitive (l.flatMap Prod.snd)) := by
  induction l with
  | nil =>
    rw [flatMap_nil, foldText, flatMap_nil, ite_self]
    rfl
  | cons x l ih =>
    rw [flatMap_cons, foldText_append, utf8, flatMap_append, ← utf8, ← utf8, ← ih]
    rfl

/-- A phrase that occurs in the text occurs in its bytes. -/
private theorem not_infix_of_clean {l : List (ℕ × List Char)}
    (hclean : ∀ q ∈ encodePhrases casefold caseSensitive phrases,
      ¬ q <:+: bytes (l.map (encodeEntry casefold caseSensitive))) :
    ∀ phrase ∈ phrases, ¬ foldText casefold caseSensitive phrase <:+:
      foldText casefold caseSensitive (l.flatMap Prod.snd) := by
  rintro phrase hphrase ⟨s, r, hsr⟩
  refine hclean _ (mem_map_of_mem hphrase) ⟨utf8 s, utf8 r, ?_⟩
  rw [bytes_map_encodeEntry, ← hsr, utf8, utf8, utf8, utf8, flatMap_append, flatMap_append]

/-- The tokens of a run are the released ones and the pending ones. -/
structure Splits (casefold : Char → List Char) (caseSensitive : Bool)
    (patterns words : List (List UInt8)) (p : PendingText) (kept : List (ℕ × List Char))
    (released : List ℕ) (gone pending : List Entry) : Prop where
  guards : Guards patterns words caseSensitive p
  holds : Holds patterns words gone pending p
  kept : kept.map (encodeEntry casefold caseSensitive) = gone ++ pending
  released : released = gone.map Prod.fst

/-- Feeding keeps the journal split into released and pending tokens. -/
theorem Splits.feed {kept : List (ℕ × List Char)} {released : List ℕ} {gone : List Entry}
    (h : Splits casefold caseSensitive patterns words p kept released gone pending)
    (hfeed : p.feed casefold token text = .ok (d, p')) :
    ∃ gone' pending', Splits casefold caseSensitive patterns words p'
      (d.rewindTo.elim (kept ++ [(token, text)]) (kept ++ [(token, text)]).take)
      (released ++ d.ready) gone' pending' := by
  obtain ⟨fed, k, rfl, hle, hready, hnext⟩ := h.holds.feed h.guards hfeed
  set fed := pending ++ [(token, utf8 (foldText casefold caseSensitive text))]
  have hkept : (kept ++ [(token, text)]).map (encodeEntry casefold caseSensitive) = gone ++ fed := by
    rw [map_append, h.kept, append_assoc]
    rfl
  have hreleased : released ++ d.ready = (gone ++ fed.take k).map Prod.fst := by
    rw [map_append, hready, h.released]
  rcases hnext with ⟨hnone, hholds⟩ | ⟨hsome, hholds⟩
  · refine ⟨_, _, h.guards.feed hfeed, hholds, ?_, hreleased⟩
    rw [hnone, Option.elim_none, hkept, append_assoc, take_append_drop]
  · refine ⟨_, _, h.guards.feed hfeed, hholds, ?_, hreleased⟩
    rw [hsome, Option.elim_some, map_take, hkept, take_length_add_append, append_nil]

/-- At any time the tokens kept so far split into released and pending ones. -/
private theorem Reaches.splits {kept : List (ℕ × List Char)} {released : List ℕ}
    (hnew : PendingText.new casefold phrases caseSensitive = .ok start)
    (hrun : Reaches casefold start p kept released) :
    ∃ words gone pending, Splits casefold caseSensitive
      (encodePhrases casefold caseSensitive phrases) words p kept released gone pending := by
  obtain ⟨words, hguards, hholds⟩ := guards_new hnew
  refine ⟨words, ?_⟩
  induction hrun with
  | new => exact ⟨[], [], hguards, hholds, rfl, rfl⟩
  | feed _ hfeed ih =>
    obtain ⟨gone, pending, hsplits⟩ := ih
    exact hsplits.feed hfeed

/-- In every run of a journal, with `kept` the tokens that were fed and not rewound: the text of the
released tokens has no banned phrase, the released tokens and the pending ones are those kept, a
rewind goes back to the number of tokens released, and a `feed` fails only when more than
`maxZeroWidthTokens` tokens without text are pending. `finish` releases all tokens kept, and their
text has no banned phrase either. -/
theorem released_text_clean {kept : List (ℕ × List Char)} {released : List ℕ}
    (hnew : new casefold phrases caseSensitive = .ok start)
    (hrun : Reaches casefold start p kept released) :
    (∀ phrase ∈ phrases, ¬ foldText casefold caseSensitive phrase <:+:
      foldText casefold caseSensitive ((kept.take released.length).flatMap Prod.snd)) ∧
    released ++ p.tokens = kept.map Prod.fst ∧
    (∀ token text d p', p.feed casefold token text = .ok (d, p') →
      ∀ n, d.rewindTo = some n → n = (released ++ d.ready).length) ∧
    (∀ token text message, p.feed casefold token text = .error message →
      maxZeroWidthTokens < (kept.drop released.length ++ [(token, text)]).countP
        fun x => (utf8 (foldText casefold caseSensitive x.2)).isEmpty) ∧
    released ++ p.finish.1 = kept.map Prod.fst ∧
    (∀ phrase ∈ phrases, ¬ foldText casefold caseSensitive phrase <:+:
      foldText casefold caseSensitive (kept.flatMap Prod.snd)) := by
  obtain ⟨words, gone, pending, h⟩ := hrun.splits hnew
  have hlen : released.length = gone.length := by rw [h.released, length_map]
  have htokens : released ++ p.tokens = kept.map Prod.fst := by
    rw [h.released, h.holds.tokens, ← map_append, ← h.kept, map_map]
    rfl
  have hclean : ∀ phrase ∈ phrases, ¬ foldText casefold caseSensitive phrase <:+:
      foldText casefold caseSensitive (kept.flatMap Prod.snd) := by
    refine not_infix_of_clean ?_
    rw [h.kept]
    exact h.holds.clean
  refine ⟨?_, htokens, ?_, ?_, ?_, hclean⟩
  · refine not_infix_of_clean ?_
    rw [map_take, h.kept, hlen, take_left, ← append_nil gone]
    exact h.holds.clean_take 0
  · intro token text d p' hfeed n hn
    obtain ⟨fed, k, -, hle, hready, ⟨hnone, -⟩ | ⟨hsome, -⟩⟩ := h.holds.feed h.guards hfeed
    · cases hn.symm.trans hnone
    · obtain rfl := Option.some.inj (hn.symm.trans hsome)
      rw [length_append, hlen, hready, length_map, length_take_of_le hle]
  · intro token text message hfeed
    have hmany := h.holds.feed_error h.guards hfeed
    have hpending : pending = (kept.drop released.length).map (encodeEntry casefold caseSensitive) := by
      rw [map_drop, h.kept, hlen, drop_left]
    have hmap : pending ++ [(token, utf8 (foldText casefold caseSensitive text))] =
        (kept.drop released.length ++ [(token, text)]).map (encodeEntry casefold caseSensitive) := by
      rw [hpending, map_append]
      rfl
    rwa [hmap, countP_map] at hmany
  · obtain ⟨hfirst, -⟩ := h.holds.release (h.holds.length_tokens.le)
    rw [finish, hfirst, h.holds.length_tokens, take_length, ← h.holds.tokens]
    exact htokens

/-- The second token completes the phrase, and both tokens are rewound. The third one stays pending. -/
theorem released_text_clean_after_rewind :
    ∃ start p, new (fun c => [c]) [['a', 'b']] true = .ok start ∧
      Reaches (fun c => [c]) start p [(3, ['a'])] [] ∧ p.finish.1 = [3] := by
  let start : PendingText :=
    { pattern := (add {} [97, 98]).finish, caseSensitive := true, maxPendingTokens := 258 }
  let held token : PendingText :=
    { start with state := 1, tokens := [token], ends := [1], states := [1], numBytes := 1 }
  have hnew : new (fun c => [c]) [['a', 'b']] true = .ok start := rfl
  have hheld token :
      start.feed (fun c => [c]) token ['a'] = .ok ({ ready := [] }, held token) := rfl
  have hmatch : (held 1).feed (fun c => [c]) 2 ['b'] =
      .ok ({ ready := [], rewindTo := some 0, blockedToken := some 1 }, start) := rfl
  have hrun : Reaches (fun c => [c]) start (held 3) [(3, ['a'])] [] :=
    ((Reaches.new.feed (hheld 1)).feed hmatch).feed (hheld 3)
  exact ⟨start, held 3, hnew, hrun, (released_text_clean hnew hrun).2.2.2.2.1⟩

end Sonar.PhraseGuard.PendingText
