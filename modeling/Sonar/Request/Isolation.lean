import Mathlib.Logic.Encodable.Basic
import Mathlib.Logic.Equiv.List
import Sonar.Request.HashSpec

/-!
# Equal block hashes come from equal prefixes

Prefix caching shares a block between two requests when their block hashes are equal, so a block
hash must pin down everything the block's KV depends on. For a hash function that is injective on
Python objects and never returns the empty digest, it does: equal hashes stand at the same index,
and the two requests agree there on the tokens (lookahead included), the LoRA adapter, the cache
salt, and the identifier and position of every multimodal item that overlaps those tokens.

Two arguments meet. Along the chain, equal hashes have equal contents at every earlier block
(`Lib.content_eq_of_chainHash_eq`). Inside one block, the extra keys of four features are
concatenated into a single tuple; they are told apart by their **tags**, so filtering a tuple by
tag recovers the keys of each feature (`parts_eq_of_windowExtraKeys_eq`). The cache salt is in
the first block only, and reaches the others through the chain.
-/

namespace Sonar

open Lib List PyVal

/-! ### Reading a tuple of extra keys back -/

/-- An object is a tuple whose first component is the given tag. -/
def hasTag (tag : String) : PyVal → Bool
  | .tuple (.str s :: _) => s == tag
  | _ => false

private theorem packExtraKeys_inj {xs ys : List PyVal} (h : packExtraKeys xs = packExtraKeys ys) :
    xs = ys := by
  cases xs <;> cases ys <;> simp_all [packExtraKeys]

/-- The extra keys of a window before they are packed. -/
def windowKeyList (sha256 : List UInt8 → List UInt8) (request : Request) (start stop : ℕ) :
    List PyVal :=
  genLoraExtraHashKeys request ++ mmKeys start stop request.mmFeatures ++
    cacheSaltKeys request start ++ genPromptEmbedsExtraHashKeys sha256 request start stop

section Tags

variable (tag : String) (request : Request) (start stop : ℕ)

/-- Keys that all carry the tag `t` are kept or dropped together. -/
private theorem filter_hasTag_of_forall {t : String} {keys : List PyVal}
    (h : ∀ x ∈ keys, hasTag tag x = (t == tag)) :
    keys.filter (hasTag tag) = if t == tag then keys else [] := by
  split_ifs with ht
  · exact filter_eq_self.mpr fun x hx => (h x hx).trans ht
  · exact filter_eq_nil_iff.mpr fun x hx hx' => ht ((h x hx).symm.trans hx')

private theorem hasTag_lora : ∀ x ∈ genLoraExtraHashKeys request, hasTag tag x = ("lora" == tag) := by
  intro x hx
  rw [genLoraExtraHashKeys] at hx
  split at hx
  · cases hx
  · rw [mem_singleton.mp hx, hasTag]

private theorem hasTag_mm (fs : List MultiModalFeatureSpec) :
    ∀ x ∈ mmKeys start stop fs, hasTag tag x = ("mm" == tag) := by
  intro x hx
  obtain ⟨f, -, rfl⟩ := mem_map.mp hx
  rfl

private theorem hasTag_salt :
    ∀ x ∈ cacheSaltKeys request start, hasTag tag x = ("cache_salt" == tag) := by
  intro x hx
  rw [cacheSaltKeys] at hx
  split at hx
  · cases hx
  · split_ifs at hx
    · rw [mem_singleton.mp hx, hasTag]
    · cases hx

private theorem hasTag_embeds (sha256 : List UInt8 → List UInt8) :
    ∀ x ∈ genPromptEmbedsExtraHashKeys sha256 request start stop,
      hasTag tag x = ("prompt_embeds" == tag) := by
  intro x hx
  rw [genPromptEmbedsExtraHashKeys] at hx
  split at hx
  · cases hx
  · rw [mem_singleton.mp hx, hasTag]

/-- Filtering by tag splits the concatenation back into its parts. -/
private theorem filter_hasTag (sha256 : List UInt8 → List UInt8) :
    (windowKeyList sha256 request start stop).filter (hasTag tag) =
      (if "lora" == tag then genLoraExtraHashKeys request else []) ++
        (if "mm" == tag then mmKeys start stop request.mmFeatures else []) ++
        (if "cache_salt" == tag then cacheSaltKeys request start else []) ++
        (if "prompt_embeds" == tag then genPromptEmbedsExtraHashKeys sha256 request start stop
          else []) := by
  simp [windowKeyList, filter_hasTag_of_forall tag (hasTag_lora tag _),
    filter_hasTag_of_forall tag (hasTag_mm tag _ _ _),
    filter_hasTag_of_forall tag (hasTag_salt tag _ _),
    filter_hasTag_of_forall tag (hasTag_embeds tag _ _ _ _)]

end Tags

section Parts

variable {sha256 : List UInt8 → List UInt8} {r1 r2 : Request} {start stop : ℕ}

/-- Equal extra keys have equal parts: the LoRA key, the item keys and the salt key. -/
theorem parts_eq_of_windowExtraKeys_eq
    (h : windowExtraKeys sha256 r1 start stop = windowExtraKeys sha256 r2 start stop) :
    genLoraExtraHashKeys r1 = genLoraExtraHashKeys r2 ∧
      mmKeys start stop r1.mmFeatures = mmKeys start stop r2.mmFeatures ∧
      cacheSaltKeys r1 start = cacheSaltKeys r2 start := by
  have hlist : windowKeyList sha256 r1 start stop = windowKeyList sha256 r2 start stop :=
    packExtraKeys_inj h
  have hfilter : ∀ tag, (windowKeyList sha256 r1 start stop).filter (hasTag tag) =
      (windowKeyList sha256 r2 start stop).filter (hasTag tag) := fun tag => by rw [hlist]
  refine ⟨?_, ?_, ?_⟩
  · simpa [filter_hasTag] using hfilter "lora"
  · simpa [filter_hasTag] using hfilter "mm"
  · simpa [filter_hasTag] using hfilter "cache_salt"

private theorem lora_eq_of_keys_eq (h : genLoraExtraHashKeys r1 = genLoraExtraHashKeys r2) :
    (r1.loraRequest.map fun l => (l.loraName, l.loraPath)) =
      r2.loraRequest.map fun l => (l.loraName, l.loraPath) := by
  cases h1 : r1.loraRequest <;> cases h2 : r2.loraRequest <;>
    simp_all [genLoraExtraHashKeys]

/-- Equal keys have equal salts. -/
theorem salt_eq_of_keys_eq (h1 : r1.cacheSalt ≠ some "") (h2 : r2.cacheSalt ≠ some "")
    (h : cacheSaltKeys r1 0 = cacheSaltKeys r2 0) : r1.cacheSalt = r2.cacheSalt := by
  cases hs1 : r1.cacheSalt <;> cases hs2 : r2.cacheSalt <;> simp_all [cacheSaltKeys]

/-- An item that reaches into a window leaves its identifier and offset in the window's keys. -/
private theorem exists_item_of_keys_eq
    (h : mmKeys start stop r1.mmFeatures = mmKeys start stop r2.mmFeatures)
    {f : MultiModalFeatureSpec} (hf : f ∈ r1.mmFeatures) (hw : InWindow start stop f) :
    ∃ g ∈ r2.mmFeatures, g.identifier = f.identifier ∧
      g.mmPosition.offset = f.mmPosition.offset := by
  have hmem : mmKey start f ∈ mmKeys start stop r2.mmFeatures := by
    rw [← h]
    exact mem_map_of_mem (mem_filter.mpr ⟨hf, decide_eq_true hw⟩)
  obtain ⟨g, hg, hkey⟩ := mem_map.mp hmem
  simp only [mmKey, tuple.injEq, cons.injEq, str.injEq, int.injEq, true_and] at hkey
  exact ⟨g, mem_of_mem_filter hg, hkey.1, by omega⟩

end Parts

/-! ### Along the chain -/

namespace BlockHasher

variable {hasher : BlockHasher}

/-- **No collisions.** The hash function is injective and its digests are not empty. An empty
digest would be taken for a missing parent. -/
structure CollisionFree (hasher : BlockHasher) : Prop where
  inj : Function.Injective hasher.cachingHashFn
  ne_nil : ∀ v, hasher.cachingHashFn v ≠ []

private theorem chainStep_eq {parent : BlockHash} (h : parent ≠ []) (c : List ℤ × PyVal) :
    hasher.chainStep parent c =
      hasher.cachingHashFn (.tuple [.bytes parent, .tuple (c.1.map .int), c.2]) := by
  rw [chainStep, hashBlockTokens]
  simp [h]

private theorem map_int_injective : Function.Injective (map int) :=
  map_injective_iff.mpr fun _ _ h => by injection h

private theorem chainStep_inj (hc : hasher.CollisionFree) {p p' : BlockHash} {c c' : List ℤ × PyVal}
    (hp : p ≠ []) (hp' : p' ≠ []) (h : hasher.chainStep p c = hasher.chainStep p' c') :
    p = p' ∧ c = c' := by
  rw [chainStep_eq hp, chainStep_eq hp'] at h
  have htuple := hc.inj h
  simp only [tuple.injEq, cons.injEq, bytes.injEq, and_true] at htuple
  exact ⟨htuple.1, Prod.ext (map_int_injective htuple.2.1) htuple.2.2⟩

/-- Equal hashes stand at the same index and have equal contents at every block up to it. -/
theorem contents_eq_of_hash_eq (hc : hasher.CollisionFree) {r1 r2 : Request} {i j : ℕ}
    {h : BlockHash} (h1 : (hasher.hashList r1)[i]? = some h)
    (h2 : (hasher.hashList r2)[j]? = some h) :
    i = j ∧ ∀ k ≤ i, hasher.content r1 k = hasher.content r2 k := by
  have hseed : hasher.noneHash ≠ [] := hc.ne_nil _
  have hP : ∀ p c, hasher.chainStep p c ≠ [] := fun _ _ => hc.ne_nil _
  have hi := (List.getElem?_eq_some_iff.mp h1).1
  have hj := (List.getElem?_eq_some_iff.mp h2).1
  rw [hashList, length_chainHashes] at hi hj
  rw [hashList, getElem?_chainHashes hi, Option.some.injEq] at h1
  rw [hashList, getElem?_chainHashes hj, Option.some.injEq] at h2
  have heq := h1.trans h2.symm
  obtain rfl : i = j := Nat.succ.inj (length_eq_of_chainHash_eq (P := (· ≠ [])) hseed hP
    (chainStep_inj hc) (fun _ _ hne => by cases hc.inj hne) heq)
  exact ⟨rfl, fun k hk => content_eq_of_chainHash_eq (P := (· ≠ [])) hseed hP
    (chainStep_inj hc) heq k (Nat.lt_succ_of_le hk)⟩

/-- The end of the window a block's hash covers, lookahead included. -/
def windowEnd (hasher : BlockHasher) (k : ℕ) : ℕ :=
  k * hasher.hashBlockSize + hasher.hashBlockSize + hasher.numHashLookaheadTokens

/-- The window keys of a block and the tokens of its window are determined by its content. -/
theorem window_eq_of_content_eq {r1 r2 : Request} {k : ℕ}
    (h : hasher.content r1 k = hasher.content r2 k) :
    windowExtraKeys hasher.sha256 r1 (k * hasher.hashBlockSize) (hasher.windowEnd k) =
        windowExtraKeys hasher.sha256 r2 (k * hasher.hashBlockSize) (hasher.windowEnd k) ∧
      slice r1.allTokenIds (k * hasher.hashBlockSize) (hasher.windowEnd k) =
        slice r2.allTokenIds (k * hasher.hashBlockSize) (hasher.windowEnd k) := by
  obtain ⟨htokens, hkeys⟩ := Prod.ext_iff.mp h
  simp only [content, blockKeys] at htokens hkeys
  by_cases hL : hasher.numHashLookaheadTokens = 0
  · simp only [hL] at hkeys
    simp only [windowEnd, hL]
    exact ⟨hkeys, htokens⟩
  · simp only [hL, if_false, tuple.injEq, cons.injEq] at hkeys
    refine ⟨hkeys.1, ?_⟩
    have hmid : k * hasher.hashBlockSize ≤ k * hasher.hashBlockSize + hasher.hashBlockSize := by
      omega
    have hend : k * hasher.hashBlockSize + hasher.hashBlockSize ≤ hasher.windowEnd k := by
      rw [windowEnd]
      omega
    rw [slice_append hmid hend, slice_append hmid hend, htokens]
    exact congrArg _ (map_int_injective hkeys.2)

/-- Equal windows at every block up to `i` give equal tokens below the end of the last one. -/
theorem take_eq_of_windows_eq {xs ys : List ℤ} {i : ℕ}
    (h : ∀ k ≤ i, slice xs (k * hasher.hashBlockSize) (hasher.windowEnd k) =
      slice ys (k * hasher.hashBlockSize) (hasher.windowEnd k)) :
    xs.take (hasher.windowEnd i) = ys.take (hasher.windowEnd i) := by
  induction i with
  | zero => simpa [slice] using h 0 le_rfl
  | succ i ih =>
    have hprev := ih fun k hk => h k (by omega)
    have hstart : (i + 1) * hasher.hashBlockSize ≤ hasher.windowEnd i := by
      rw [windowEnd, Nat.succ_mul]
      omega
    have hend : (i + 1) * hasher.hashBlockSize ≤ hasher.windowEnd (i + 1) := by
      rw [windowEnd]
      omega
    have hhead : xs.take ((i + 1) * hasher.hashBlockSize) =
        ys.take ((i + 1) * hasher.hashBlockSize) := by
      have hslice : slice xs 0 _ = slice ys 0 _ := slice_eq_of_take_eq hprev hstart
      simpa [slice] using hslice
    rw [take_eq_append_slice hend, take_eq_append_slice hend, hhead, h (i + 1) le_rfl]

end BlockHasher

/-- An item covers one of the first `n` token positions. -/
def MultiModalFeatureSpec.Overlaps (f : MultiModalFeatureSpec) (n : ℕ) : Prop :=
  ∃ p < n, f.mmPosition.offset ≤ p ∧ p < f.endPos

/-- An item that overlaps the tokens hashed up to block `i` reaches into the window of one of
these blocks. -/
private theorem MultiModalFeatureSpec.Overlaps.exists_window {hasher : BlockHasher}
    {f : MultiModalFeatureSpec} {i : ℕ} (h : f.Overlaps (hasher.windowEnd i)) :
    ∃ k ≤ i, InWindow (k * hasher.hashBlockSize) (hasher.windowEnd k) f := by
  obtain ⟨p, hp, hoff, hend⟩ := h
  have hpos := hasher.hashBlockSize_pos
  -- the block that holds position `p`, or the last one when `p` is a lookahead position
  rcases lt_or_ge (p / hasher.hashBlockSize) i with hlt | hge
  · refine ⟨p / hasher.hashBlockSize, hlt.le, ?_, ?_⟩
    · exact (Nat.div_mul_le_self p _).trans_lt hend
    · have := Nat.lt_div_mul_add hpos (a := p)
      rw [BlockHasher.windowEnd]
      omega
  · refine ⟨i, le_rfl, ?_, hoff.trans_lt hp⟩
    exact ((Nat.le_div_iff_mul_le hpos).mp hge).trans_lt hend

/-- **Equal block hashes come from equal prefixes.** If the hasher gives two requests the same
hash, it stands at the same index in both, and the requests agree on the tokens it covers, the
lookahead tokens included, on the LoRA adapter and the cache salt, and on the identifier and
position of every item that overlaps those tokens. -/
theorem prefix_eq_of_blockHash_eq (hasher : BlockHasher) (hc : hasher.CollisionFree)
    (r1 r2 : Request) (hs1 : r1.FeaturesSorted) (hs2 : r2.FeaturesSorted)
    (hsalt1 : r1.cacheSalt ≠ some "") (hsalt2 : r2.cacheSalt ≠ some "")
    (l1 l2 : List BlockHash)
    (hl1 : hasher.requestBlockHasher { r1 with blockHashes := [] } = some l1)
    (hl2 : hasher.requestBlockHasher { r2 with blockHashes := [] } = some l2)
    (i j : ℕ) (h : BlockHash) (h1 : l1[i]? = some h) (h2 : l2[j]? = some h) :
    i = j ∧ r1.allTokenIds.take (hasher.windowEnd i) = r2.allTokenIds.take (hasher.windowEnd i) ∧
      ((r1.loraRequest.map fun l => (l.loraName, l.loraPath)) =
        r2.loraRequest.map fun l => (l.loraName, l.loraPath)) ∧ r1.cacheSalt = r2.cacheSalt ∧
      (∀ f ∈ r1.mmFeatures, f.Overlaps (hasher.windowEnd i) → ∃ g ∈ r2.mmFeatures,
        g.identifier = f.identifier ∧ g.mmPosition.offset = f.mmPosition.offset) ∧
      ∀ f ∈ r2.mmFeatures, f.Overlaps (hasher.windowEnd i) → ∃ g ∈ r1.mmFeatures,
        g.identifier = f.identifier ∧ g.mmPosition.offset = f.mmPosition.offset := by
  rw [hasher.requestBlockHasher_nil hs1, Option.some.injEq] at hl1
  rw [hasher.requestBlockHasher_nil hs2, Option.some.injEq] at hl2
  subst hl1 hl2
  obtain ⟨rfl, hcontent⟩ := BlockHasher.contents_eq_of_hash_eq hc h1 h2
  have hwindow := fun k hk => BlockHasher.window_eq_of_content_eq (hcontent k hk)
  have hparts := fun k hk => parts_eq_of_windowExtraKeys_eq (hwindow k hk).1
  refine ⟨rfl, BlockHasher.take_eq_of_windows_eq fun k hk => (hwindow k hk).2,
    lora_eq_of_keys_eq (hparts 0 (Nat.zero_le _)).1, ?_, fun f hf hover => ?_, fun f hf hover => ?_⟩
  · have hzero := (hparts 0 (Nat.zero_le _)).2.2
    rw [zero_mul] at hzero
    exact salt_eq_of_keys_eq hsalt1 hsalt2 hzero
  · obtain ⟨k, hk, hw⟩ := hover.exists_window
    exact exists_item_of_keys_eq (hparts k hk).2.1 hf hw
  · obtain ⟨k, hk, hw⟩ := hover.exists_window
    exact exists_item_of_keys_eq (hparts k hk).2.1.symm hf hw

/-! ### A collision-free hasher -/

mutual

/-- A prefix-free serialization of the objects a hash is computed from. -/
def PyVal.serialize : PyVal → List ℕ
  | .none => [0]
  | .int i => [1, Encodable.encode i]
  | .str s => [2, Encodable.encode (s.toList.map Char.toNat)]
  | .bytes b => [3, Encodable.encode (b.map UInt8.toNat)]
  | .tuple xs => 4 :: xs.length :: serializeList xs

/-- The serializations of a list, one after the other. -/
def PyVal.serializeList : List PyVal → List ℕ
  | [] => []
  | x :: xs => serialize x ++ serializeList xs

end

private theorem toNat_toList_injective : Function.Injective fun s : String =>
    s.toList.map Char.toNat := by
  intro s t h
  have hchars : s.toList = t.toList := map_injective_iff.mpr (fun a b hab => Char.ext
    (UInt32.toNat_inj.mp hab)) h
  exact String.toList_injective hchars

mutual

/-- No serialization is the beginning of another. -/
private theorem PyVal.serialize_append_inj : ∀ (a b : PyVal) (s t : List ℕ),
    a.serialize ++ s = b.serialize ++ t → a = b ∧ s = t
  | .none, b, s, t, h => by
    cases b <;> simp_all [serialize]
  | .int i, b, s, t, h => by
    cases b <;> simp_all [serialize]
  | .str x, b, s, t, h => by
    cases b <;> simp_all [serialize]
    exact toNat_toList_injective h.1
  | .bytes x, b, s, t, h => by
    cases b <;> simp_all [serialize]
    exact map_injective_iff.mpr (fun a b hab => UInt8.toNat_inj.mp hab) h.1
  | .tuple xs, b, s, t, h => by
    cases b with
    | tuple ys =>
      simp only [serialize, cons_append, List.cons.injEq, true_and] at h
      obtain ⟨hxs, hst⟩ := serializeList_append_inj xs ys s t h.1 h.2
      exact ⟨congrArg _ hxs, hst⟩
    | none => simp [serialize] at h
    | int _ => simp [serialize] at h
    | str _ => simp [serialize] at h
    | bytes _ => simp [serialize] at h

/-- A list of values can be read back from its bytes. -/
theorem PyVal.serializeList_append_inj : ∀ (xs ys : List PyVal) (s t : List ℕ),
    xs.length = ys.length → serializeList xs ++ s = serializeList ys ++ t → xs = ys ∧ s = t
  | [], [], s, t, _, h => ⟨rfl, by simpa [serializeList] using h⟩
  | [], _ :: _, _, _, hlen, _ => by simp at hlen
  | _ :: _, [], _, _, hlen, _ => by simp at hlen
  | x :: xs, y :: ys, s, t, hlen, h => by
    rw [serializeList, serializeList, append_assoc, append_assoc] at h
    obtain ⟨hxy, hrest⟩ := serialize_append_inj x y _ _ h
    obtain ⟨hxs, hst⟩ := serializeList_append_inj xs ys s t (by simpa using hlen) hrest
    exact ⟨by rw [hxy, hxs], hst⟩

end

/-- A hasher whose digest writes the serialized object in unary: blocks of two tokens, one token
of lookahead. -/
def unaryHasher : BlockHasher where
  hashBlockSize := 2
  cachingHashFn := fun v => List.replicate (Encodable.encode v.serialize + 1) 0
  numHashLookaheadTokens := 1
  sha256 := id
  hashBlockSize_pos := Nat.two_pos

/-- The example hash has no collisions. -/
theorem unaryHasher_collisionFree : unaryHasher.CollisionFree := by
  refine ⟨fun v w h => ?_, fun v h => ?_⟩
  · have hlen := congrArg length h
    simp only [unaryHasher, length_replicate, add_right_cancel_iff,
      Encodable.encode_inj] at hlen
    exact (serialize_append_inj v w [] [] (by rw [hlen])).1
  · simp [unaryHasher] at h

/-- Two requests that differ after their third token share the hash of their first block. -/
theorem prefix_eq_of_blockHash_eq_first_block :
    let r1 : Request := { allTokenIds := [1, 2, 3, 4], cacheSalt := some "a",
                          mmFeatures := [⟨"image", 1, 1⟩] }
    let r2 : Request := { allTokenIds := [1, 2, 3, 5], cacheSalt := some "a",
                          mmFeatures := [⟨"image", 1, 1⟩] }
    r1.allTokenIds.take 3 = r2.allTokenIds.take 3 ∧ r1.cacheSalt = r2.cacheSalt := by
  intro r1 r2
  have hs1 : r1.FeaturesSorted := by decide
  have hs2 : r2.FeaturesSorted := by decide
  have h2 : (unaryHasher.hashList r2)[0]? = some _ := getElem?_chainHashes (by decide)
  obtain ⟨-, htokens, -, hsalt, -⟩ := prefix_eq_of_blockHash_eq _
    unaryHasher_collisionFree r1 r2 hs1 hs2 (by decide) (by decide) _ _
    (unaryHasher.requestBlockHasher_nil hs1) (unaryHasher.requestBlockHasher_nil hs2) 0 0 _
    (getElem?_chainHashes (by decide)) h2
  exact ⟨htokens, hsalt⟩

/-- An empty salt is hashed as none, and the length of an item is not hashed: two requests share a
hash though they differ in both. -/
theorem blockHash_eq_of_empty_salt :
    let r1 : Request := { allTokenIds := [1, 2, 3], mmFeatures := [⟨"image", 1, 1⟩] }
    let r2 : Request := { allTokenIds := [1, 2, 3], cacheSalt := some "",
                          mmFeatures := [⟨"image", 1, 2⟩] }
    r1.cacheSalt ≠ r2.cacheSalt ∧ unaryHasher.CollisionFree ∧
      ∃ h, unaryHasher.requestBlockHasher r1 = some [h] ∧
        unaryHasher.requestBlockHasher r2 = some [h] :=
  ⟨by decide, unaryHasher_collisionFree, _, rfl, rfl⟩

end Sonar
