import Sonar.Text.Incremental

/-!
# What the text buffer hands out

`AttributedTextBuffer.Ok` says which part of the text was handed out, and where the tokens stand: in
the order of the text, and behind what was handed out if they were not. A token whose place is not
known yet counts as standing at the end, which is where it will be put. With that no call panics, and
the chunks follow each other (`Ok.takeReady`, `Ok.finish`).
-/

namespace Sonar.Text

open Lib.Utf8 List

/-- The text of a chunk, if there is one. -/
def chunkText (chunk : Option DecodedText) : List Char := (chunk.map DecodedText.text).getD []

private theorem exists_mapM {α β : Type} {f : α → Except StreamError β} {l : List α}
    (h : ∀ a ∈ l, ∃ b, f a = .ok b) : ∃ bs, l.mapM f = .ok bs := by
  induction l with
  | nil => exact ⟨[], rfl⟩
  | cons a l ih =>
    obtain ⟨b, hb⟩ := h a (.head _)
    obtain ⟨bs, hbs⟩ := ih fun a ha => h a (.tail _ ha)
    refine ⟨b :: bs, ?_⟩
    rw [mapM_cons, hb, hbs]
    rfl

/-- Where a token stands in a text of the given length. -/
def PendingAttribution.place (len : ℕ) (a : PendingAttribution) : ℕ :=
  (a.anchor.map TokenAnchor.byteOffset).getD len

open PendingAttribution

private theorem PendingAttribution.place_of_resolved {a : PendingAttribution} (h : a.anchor ≠ none)
    (len len' : ℕ) : a.place len = a.place len' := by
  obtain ⟨anchor, hanchor⟩ := Option.ne_none_iff_exists'.mp h
  rw [place, place, hanchor]
  rfl

private theorem PendingAttribution.place_resolve {a : PendingAttribution} (anchor : TokenAnchor) (len : ℕ) :
    (a.resolve anchor).place len = a.place anchor.byteOffset ∧ (a.resolve anchor).anchor ≠ none := by
  rw [resolve]
  cases hanchor : a.anchor with
  | none => simp [place, hanchor]
  | some _ => simp [place, hanchor]

/-- Places in order and up to an end; those that were not handed out come after what was. -/
structure Placed (places : List ℕ) (count handed len : ℕ) : Prop where
  sorted : places.Pairwise (· ≤ ·)
  bound : ∀ n ∈ places, n ≤ len
  later : ∀ n ∈ places.drop count, handed ≤ n

private theorem Placed.concat {places : List ℕ} {count handed len : ℕ} (h : Placed places count handed len)
    (hle : handed ≤ len) : Placed (places ++ [len]) count handed len where
  sorted := by
    refine pairwise_append.mpr ⟨h.sorted, pairwise_singleton _ _, fun n hn m hm => ?_⟩
    rw [mem_singleton.mp hm]
    exact h.bound n hn
  bound n hn := (mem_append.mp hn).elim (h.bound n) fun hn => (mem_singleton.mp hn).le
  later n hn := by
    rw [drop_append] at hn
    rcases mem_append.mp hn with hn | hn
    · exact h.later n hn
    · rwa [mem_singleton.mp (mem_of_mem_drop hn)]

namespace AttributedTextBuffer

variable {b : AttributedTextBuffer} {handed text : List Char}

/-- Where the tokens stand. -/
def places (b : AttributedTextBuffer) : List ℕ :=
  b.attributions.map (·.place (byteLen b.text))

/-- The tokens that have their place, and those from the first pending one on. -/
def Splits (b : AttributedTextBuffer) (settled pending : List PendingAttribution) : Prop :=
  b.attributions = settled ++ pending ∧ (∀ a ∈ settled, a.anchor ≠ none) ∧
    (b.pendingStart = some settled.length ∨ b.pendingStart = none ∧ pending = [])

/-- What holds between calls, with the text handed out so far. -/
structure Ok (b : AttributedTextBuffer) (handed : List Char) : Prop where
  isPrefix : handed <+: b.text
  emitted : b.emittedByteOffset = byteLen handed
  placed : Placed b.places b.emittedAttributionCount (byteLen handed) (byteLen b.text)
  splits : ∃ settled pending, b.Splits settled pending

/-- The empty buffer. -/
theorem ok_new : Ok {} [] where
  isPrefix := nil_prefix
  emitted := rfl
  placed := ⟨Pairwise.nil, by simp [places], by simp⟩
  splits := ⟨[], [], rfl, by simp, .inr ⟨rfl, rfl⟩⟩

private theorem byteLen_le_of_isPrefix {a : List Char} (h : a <+: text) : byteLen a ≤ byteLen text := by
  obtain ⟨rest, rfl⟩ := h
  rw [byteLen_append]
  exact Nat.le_add_right _ _

/-- A pending token adds no text. -/
protected theorem Ok.recordPendingToken (h : b.Ok handed) (tokenId : TokenId) :
    (b.recordPendingToken tokenId).Ok handed := by
  have hplaces : (b.recordPendingToken tokenId).places = b.places ++ [byteLen b.text] := map_append
  obtain ⟨settled, pending, hsplit, hsettled, hstart⟩ := h.splits
  refine ⟨h.isPrefix, h.emitted, ?_, settled, pending ++ [⟨tokenId, none⟩], ?_, hsettled, .inl ?_⟩
  · rw [hplaces]
    exact h.placed.concat (byteLen_le_of_isPrefix h.isPrefix)
  · rw [recordPendingToken, hsplit, append_assoc]
  · rw [recordPendingToken, hsplit]
    rcases hstart with hstart | ⟨hstart, rfl⟩
    · simp [hstart]
    · simp [hstart]

/-- A token without text is anchored at the end. -/
protected theorem Ok.recordZeroWidthToken (h : b.Ok handed) {tokenId : TokenId} :
    (b.recordZeroWidthToken tokenId).Ok handed := by
  have hplaces : (b.recordZeroWidthToken tokenId).places = b.places ++ [byteLen b.text] :=
    map_append
  obtain ⟨settled, pending, hsplit, hsettled, hstart⟩ := h.splits
  refine ⟨h.isPrefix, h.emitted, ?_, ?_⟩
  · rw [hplaces]
    exact h.placed.concat (byteLen_le_of_isPrefix h.isPrefix)
  · rw [recordZeroWidthToken, hsplit]
    set a : PendingAttribution := ⟨tokenId, some (.zeroWidth (byteLen b.text))⟩
    rcases hstart with hstart | ⟨hstart, rfl⟩
    · exact ⟨settled, pending ++ [a], append_assoc _ _ _, hsettled, .inl hstart⟩
    · refine ⟨settled ++ [a], [], by simp, fun a' ha => ?_, .inr ⟨hstart, rfl⟩⟩
      rcases mem_append.mp ha with ha | ha
      · exact hsettled a' ha
      · simp [mem_singleton.mp ha]

variable {a : PendingAttribution} {anchor : TokenAnchor} {len : ℕ}

/-- After the pending tokens got a place at the end, every token has a place, where it stood. -/
protected theorem Ok.resolvePending (h : b.Ok handed) (hanchor : anchor.byteOffset = byteLen b.text) :
    (∀ a ∈ (b.resolvePending anchor).attributions, a.anchor ≠ none) ∧
      (b.resolvePending anchor).pendingStart = none ∧
      ∀ len, (b.resolvePending anchor).attributions.map (·.place len) = b.places := by
  obtain ⟨settled, pending, hsplit, hsettled, hstart⟩ := h.splits
  have hsame : ∀ len, settled.map (·.place len) = settled.map (·.place (byteLen b.text)) :=
    fun len => map_congr_left fun a ha => a.place_of_resolved (hsettled a ha) _ _
  rw [resolvePending, places, hsplit]
  rcases hstart with hstart | ⟨hstart, rfl⟩
  · simp only [hstart, take_left, drop_left]
    refine ⟨fun a ha => ?_, trivial, fun len => ?_⟩
    · rcases mem_append.mp ha with ha | ha
      · exact hsettled a ha
      · obtain ⟨a, -, rfl⟩ := mem_map.mp ha
        exact (a.place_resolve anchor 0).2
    · rw [map_append, map_append, map_map, hsame]
      refine congrArg _ (map_congr_left fun a _ => ?_)
      exact hanchor ▸ (a.place_resolve anchor len).1
  · simp only [hstart, hsplit, append_nil]
    exact ⟨hsettled, trivial, hsame⟩

private theorem text_resolvePending (b : AttributedTextBuffer) (anchor : TokenAnchor) :
    (b.resolvePending anchor).text = b.text ∧
      (b.resolvePending anchor).emittedByteOffset = b.emittedByteOffset ∧
      (b.resolvePending anchor).emittedAttributionCount = b.emittedAttributionCount := by
  rw [resolvePending]
  split <;> exact ⟨rfl, rfl, rfl⟩

/-- Text is added after the pending tokens got their place. -/
private theorem Ok.addText (h : b.Ok handed)
    (hanchor : anchor.byteOffset = byteLen b.text) (text : List Char) :
    Ok { b.resolvePending anchor with text := b.text ++ text } handed := by
  obtain ⟨hresolved, hpending, hplaces⟩ := h.resolvePending hanchor
  obtain ⟨-, hemitted, hcount⟩ := text_resolvePending b anchor
  refine ⟨h.isPrefix.trans (prefix_append _ _), hemitted.trans h.emitted, ?_, _, [],
    (append_nil _).symm, hresolved, .inr ⟨hpending, rfl⟩⟩
  rw [places, hplaces]
  rw [hcount]
  refine ⟨h.placed.sorted, fun n hn => (h.placed.bound n hn).trans ?_, h.placed.later⟩
  exact byteLen_le_of_isPrefix (prefix_append _ _)

/-- Visible text anchors what is pending. -/
theorem Ok.appendVisibleText (h : b.Ok handed) (text : List Char) :
    (b.appendVisibleText text).Ok handed ∧ (b.appendVisibleText text).text = b.text ++ text :=
  ⟨h.addText rfl text, rfl⟩

private theorem Ok.settle (h : b.Ok handed)
    (hanchor : anchor.byteOffset = byteLen b.text) : (b.resolvePending anchor).Ok handed := by
  have hok := h.addText hanchor []
  rwa [append_nil, ← (text_resolvePending b anchor).1] at hok

/-- What is pending is anchored without text. -/
theorem Ok.resolvePendingZeroWidth (h : b.Ok handed) :
    b.resolvePendingZeroWidth.Ok handed ∧ b.resolvePendingZeroWidth.text = b.text ∧
      ∀ a ∈ b.resolvePendingZeroWidth.attributions, a.anchor ≠ none :=
  ⟨h.settle rfl, (text_resolvePending b _).1, (h.resolvePending rfl).1⟩

/-- A token that is not ready stands at the cutoff or behind it. -/
private theorem le_place_of_not_ready {cutoff : ℕ} (hle : cutoff ≤ len)
    (h : ready cutoff a = false) : cutoff ≤ a.place len := by
  rw [ready] at h
  rw [place]
  split at h
  all_goals
    rename_i hanchor
    simp [hanchor, TokenAnchor.byteOffset] at h ⊢
    omega

/-- From the first token that is not ready on, the tokens stand at the cutoff or behind it. -/
private theorem le_place_of_mem_drop {l : List PendingAttribution} {cutoff : ℕ}
    (hle : cutoff ≤ len) (hsorted : (l.map (·.place len)).Pairwise (· ≤ ·)) :
    ∀ a ∈ l.drop (l.takeWhile (ready cutoff)).length, cutoff ≤ a.place len := by
  induction l with
  | nil => simp
  | cons x l ih =>
    obtain ⟨hx, hl⟩ := pairwise_cons.mp hsorted
    rw [takeWhile_cons]
    split_ifs with hready
    · exact ih hl
    · have hfirst := le_place_of_not_ready hle (Bool.not_eq_true _ ▸ hready)
      intro a ha
      rcases mem_cons.mp ha with rfl | ha
      · exact hfirst
      · exact hfirst.trans (hx _ (mem_map_of_mem ha))

private theorem exists_offsetBy {start : ℕ} (hstart : start ≤ a.place len)
    {t : TokenAttribution} (ht : a.resolved = some t) :
    ∃ anchor, t.anchor.offsetBy (-start) = .ok anchor := by
  obtain ⟨anchor, hanchor, rfl⟩ := Option.map_eq_some_iff.mp ht
  rw [place, hanchor] at hstart
  have hle : ¬ (anchor.byteOffset + -(start : ℤ) < 0) := by
    have : start ≤ anchor.byteOffset := hstart
    omega
  cases anchor <;> exact ⟨_, if_neg hle⟩

/-- **Chunks follow each other**: taking what is ready up to a cutoff hands out the text up to it. -/
protected theorem Ok.takeReady (h : b.Ok handed) {upTo : List Char} (hhanded : handed <+: upTo)
    (hupTo : upTo <+: b.text) :
    ∃ chunk b', b.takeReady (byteLen upTo) = .ok (chunk, b') ∧ b'.Ok upTo ∧ b'.text = b.text ∧
      b'.attributions = b.attributions ∧ upTo = handed ++ chunkText chunk := by
  set len := byteLen b.text
  set left := b.attributions.drop b.emittedAttributionCount
  have hplaces : b.places.drop b.emittedAttributionCount = left.map (·.place len) := map_drop.symm
  have hlater : ∀ a ∈ left, byteLen handed ≤ a.place len := fun a ha =>
    h.placed.later _ (hplaces ▸ mem_map_of_mem ha)
  obtain ⟨mid, rfl⟩ := hhanded
  obtain ⟨rest, hrest⟩ := hupTo
  rw [takeReady, h.emitted]
  split_ifs with hnone
  · -- nothing is ready
    have hmid : mid = [] := by
      by_contra hne
      have := byteLen_pos.mpr hne
      rw [byteLen_append] at hnone
      omega
    subst hmid
    rw [append_nil] at hrest ⊢
    exact ⟨none, b, rfl, h, rfl, rfl, (append_nil _).symm⟩
  · obtain ⟨attributions, hattributions⟩ : ∃ attributions,
        ((left.takeWhile (ready (byteLen (handed ++ mid)))).filterMap
          resolved).mapM (TokenAttribution.offsetBy (-(byteLen handed))) = .ok attributions := by
      refine exists_mapM fun t ht => ?_
      obtain ⟨a, ha, hat⟩ := mem_filterMap.mp ht
      obtain ⟨anchor, hanchor⟩ := exists_offsetBy (hlater a (takeWhile_subset _ ha)) hat
      exact ⟨{ t with anchor }, by rw [TokenAttribution.offsetBy, hanchor]; rfl⟩
    have hslice : Lib.Utf8.slice b.text (byteLen handed) (byteLen (handed ++ mid)) = some mid := by
      rw [← hrest, Lib.Utf8.slice, splitAtByte_append]
      change (splitAtByte (handed ++ mid) (byteLen handed)).bind _ = _
      rw [splitAtByte_append]
      rfl
    refine ⟨some ⟨mid, attributions⟩, { b with
        emittedByteOffset := byteLen _
        emittedAttributionCount := b.emittedAttributionCount +
          (left.takeWhile (ready (byteLen (handed ++ mid)))).length }, ?_,
      ⟨⟨rest, hrest⟩, rfl, ⟨h.placed.sorted, h.placed.bound, ?_⟩, h.splits⟩, rfl, rfl, rfl⟩
    · rw [hattributions, hslice]
      rfl
    · intro n hn
      change n ∈ b.places.drop _ at hn
      rw [← drop_drop, hplaces, ← map_drop] at hn
      obtain ⟨a, ha, rfl⟩ := mem_map.mp hn
      refine le_place_of_mem_drop ?_ (hplaces ▸ h.placed.sorted.drop) a ha
      exact byteLen_le_of_isPrefix ⟨rest, hrest⟩

/-- At the end all the text is handed out. -/
protected theorem Ok.finish (h : b.Ok handed) (hresolved : ∀ a ∈ b.attributions, a.anchor ≠ none) :
    ∃ last full, b.finish = .ok ((last, full), {}) ∧ b.text = handed ++ chunkText last ∧
      full.text = b.text := by
  obtain ⟨chunk, b', htake, -, htext, hattributions, hchunk⟩ := h.takeReady h.isPrefix prefix_rfl
  obtain ⟨attributions, hmap⟩ : ∃ attributions,
      b'.attributions.mapM (fun a => expect a.resolved) = .ok _ := by
    refine exists_mapM fun a ha => ?_
    obtain ⟨anchor, hanchor⟩ := Option.ne_none_iff_exists'.mp (hresolved a (hattributions ▸ ha))
    exact ⟨⟨a.tokenId, anchor⟩, by rw [resolved, hanchor]; rfl⟩
  refine ⟨chunk, ⟨b'.text, attributions⟩, ?_, hchunk, htext⟩
  rw [finish, htake]
  change (b'.attributions.mapM (fun a => expect a.resolved)).bind _ = _
  rw [hmap]
  rfl

end AttributedTextBuffer

end Sonar.Text
