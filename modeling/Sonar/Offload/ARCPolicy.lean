import Sonar.Offload.CachePolicy

/-!
# The ARC policy

Resident chunks are in one of two tables: `t1` holds chunks that were used once, `t2` those that were
used again. The ghost lists `b1` and `b2` remember keys that were evicted from the tables, and a store
miss on a ghost moves the target size of `t1`.

`evict` scans each table once, from its oldest entry, and chooses between the two scans by the target.
Nothing is changed before all candidates are found (`ARCCachePolicy.Scanned` is the invariant of the
scan).

The target is a floating point number. The arithmetic is a parameter here (`FloatOps`), and no result
depends on it.
-/

namespace Sonar.Offload

open Lib P2P Returns List Dict
open Prod (fst)
open Option (isSome_none isSome_some none_or or_none some_ne_none some_or)

/-- The arithmetic of the target size. -/
class FloatOps (F : Type) where
  ofNat : ℕ → F
  add : F → F → F
  sub : F → F → F
  div : F → F → F
  max : F → F → F
  min : F → F → F
  /-- `int(x)`. -/
  toInt : F → ℤ

open FloatOps

/-- The policy: two tables of chunks and two lists of ghosts. -/
structure ARCCachePolicy (F : Type) where
  cacheCapacity : ℕ
  targetT1Size : F
  t1 : Dict OffloadKey ChunkStatus := ∅
  t2 : Dict OffloadKey ChunkStatus := ∅
  b1 : List OffloadKey := []
  b2 : List OffloadKey := []

open ARCCachePolicy

namespace ARCCachePolicy

variable {F : Type} [FloatOps F] (p : ARCCachePolicy F) (key : OffloadKey)

/-- The chunk of a resident key. -/
def get : Option ChunkStatus :=
  (p.t1.get? key).or (p.t2.get? key)

/-- A chunk that is resident is changed in its table. -/
def put (chunk : ChunkStatus) : ARCCachePolicy F :=
  if (p.t1.get? key).isSome then { p with t1 := p.t1.set key chunk }
  else { p with t2 := p.t2.set key chunk }

/-- A new chunk is used once, and is no ghost. -/
def insert (chunk : ChunkStatus) : ARCCachePolicy F :=
  { p with
    t1 := p.t1.set key chunk
    b1 := discard key p.b1
    b2 := discard key p.b2 }

/-- A chunk leaves its table. -/
def remove : ARCCachePolicy F :=
  if (p.t1.get? key).isSome then { p with t1 := p.t1.erase key }
  else { p with t2 := p.t2.erase key }

/-- A ghost that is hit moves the target towards its own table. The flag says whether there was one.
-/
def adaptToGhostHit : Bool × ARCCachePolicy F :=
  let size (l : List OffloadKey) : F := ofNat l.length
  if key ∈ p.b1 then
    let delta := max (ofNat 1) (div (size p.b2) (size p.b1))
    (true, { p with
      targetT1Size := min (add p.targetT1Size delta) (ofNat p.cacheCapacity)
      b1 := discard key p.b1 ++ [key] })
  else if key ∈ p.b2 then
    let delta := max (ofNat 1) (div (size p.b1) (size p.b2))
    (true, { p with
      targetT1Size := max (sub p.targetT1Size delta) (ofNat 0)
      b2 := discard key p.b2 ++ [key] })
  else (false, p)

/-- `on_store_miss`: the ghosts among the keys, from the last one to the first. -/
def onStoreMiss (keys : List OffloadKey) : ARCCachePolicy F :=
  keys.reverse.foldl (fun p key => (p.adaptToGhostHit key).2) p

/-- What `on_request_finished` does for one key. -/
def finishKey (insertionOnlyKeys reusedKeys : List OffloadKey) (p : ARCCachePolicy F)
    (key : OffloadKey) : ARCCachePolicy F :=
  if key ∈ insertionOnlyKeys then
    -- A store is no access: the key keeps its table.
    if (p.t1.get? key).isSome then { p with t1 := p.t1.moveToEnd key }
    else { p with t2 := p.t2.moveToEnd key }
  else if key ∈ reusedKeys then
    match p.t1.get? key with
    | some chunk => { p with t1 := p.t1.erase key, t2 := p.t2.set key chunk }
    | none => { p with t2 := p.t2.moveToEnd key }
  else p

/-- An empty policy with the same capacity. -/
def clear : ARCCachePolicy F :=
  { p with
    t1 := ∅
    t2 := ∅
    b1 := []
    b2 := []
    targetT1Size := ofNat 0 }

/-- `next_candidate`, with what is left of the iterator. -/
def nextCandidate (protectedKeys : List OffloadKey) : List (OffloadKey × ChunkStatus) →
      Option (OffloadKey × ChunkStatus) × List (OffloadKey × ChunkStatus)
  | [] => (none, [])
  | e :: entries =>
    if e.2.refCnt = 0 ∧ e.1 ∉ protectedKeys then (some e, entries)
    else nextCandidate protectedKeys entries

/-- The local variables of `evict`. A candidate comes with whether it is from `t1`. -/
structure Scan where
  candidates : List ((OffloadKey × ChunkStatus) × Bool) := []
  virtualT1Size : ℤ
  t1Iter : List (OffloadKey × ChunkStatus)
  t2Iter : List (OffloadKey × ChunkStatus)

/-- The next candidate of `t1`, if there is one. -/
def Scan.takeT1 (protectedKeys : List OffloadKey) (s : Scan) : Bool × Scan :=
  match nextCandidate protectedKeys s.t1Iter with
  | (some e, t1Iter) => (true, { s with
      candidates := s.candidates ++ [(e, true)], virtualT1Size := s.virtualT1Size - 1, t1Iter })
  | (none, t1Iter) => (false, { s with t1Iter })

/-- The next candidate of `t2`, if there is one. -/
def Scan.takeT2 (protectedKeys : List OffloadKey) (s : Scan) : Bool × Scan :=
  match nextCandidate protectedKeys s.t2Iter with
  | (some e, t2Iter) => (true, { s with candidates := s.candidates ++ [(e, false)], t2Iter })
  | (none, t2Iter) => (false, { s with t2Iter })

/-- One round of the selection loop. -/
def Scan.round (target : ℤ) (protectedKeys : List OffloadKey) (s : Scan) : Option Scan :=
  let (found, s) := if target ≤ s.virtualT1Size then s.takeT1 protectedKeys else (false, s)
  if found then some s
  else
    let (found, s) := s.takeT2 protectedKeys
    if found then some s
    else
      let (found, s) := s.takeT1 protectedKeys
      if found then some s else none

/-- The selection loop. -/
def Scan.rounds (target : ℤ) (protectedKeys : List OffloadKey) : ℕ → Scan → Option Scan
  | 0, s => some s
  | n + 1, s => (s.round target protectedKeys).bind (Scan.rounds target protectedKeys n)

/-- A candidate leaves its table and becomes a ghost. -/
def applyEviction (c : (OffloadKey × ChunkStatus) × Bool) : ARCCachePolicy F :=
  if c.2 then { p with t1 := p.t1.erase c.1.1, b1 := insertSet c.1.1 p.b1 }
  else { p with t2 := p.t2.erase c.1.1, b2 := insertSet c.1.1 p.b2 }

/-- The ghost lists are bounded by the capacity. -/
def trimGhosts : ARCCachePolicy F :=
  { p with
    b1 := p.b1.drop (p.b1.length - p.cacheCapacity)
    b2 := p.b2.drop (p.b2.length - p.cacheCapacity) }

/-- `n` chunks without readers that are not protected become ghosts; `none` if there are too few. -/
def evict (n : ℕ) (protectedKeys : List OffloadKey) :
    Option (List (OffloadKey × ChunkStatus)) × ARCCachePolicy F :=
  if n = 0 then (some [], p)
  else
    let scan : Scan := {
      virtualT1Size := p.t1.entries.length
      t1Iter := p.t1.entries
      t2Iter := p.t2.entries }
    match scan.rounds (toInt p.targetT1Size) protectedKeys n with
    | none => (none, p)
    | some scan =>
      (some (scan.candidates.map fst), (scan.candidates.foldl applyEviction p).trimGhosts)

end ARCCachePolicy

instance {F : Type} [FloatOps F] : CachePolicy (ARCCachePolicy F) where
  new cacheCapacity := { cacheCapacity, targetT1Size := ofNat 0 }
  residents p := p.t1.entries ++ p.t2.entries
  get := get
  put := put
  insert key chunk _ := modify fun p => p.insert key chunk
  remove key := modify fun p => p.remove key
  onStoreMiss keys := modify fun p => p.onStoreMiss keys
  onRequestAccess _ _ := pure ⟨⟩
  onRequestFinished keyGroups insertionOnlyKeys reusedKeys ctx := modify fun p =>
    (orderRequestKeys keyGroups ctx).reverse.foldl
      (finishKey insertionOnlyKeys reusedKeys) p
  evict n protectedKeys := do
    let p ← get
    let out := p.evict n protectedKeys
    set out.2
    pure out.1
  clear := clear
  markEvictable _ := pure ⟨⟩
  markNonEvictable _ := pure ⟨⟩

namespace ARCCachePolicy

variable {F : Type} {p : ARCCachePolicy F} {d : Dict OffloadKey ChunkStatus} {key : OffloadKey}
  {c : ChunkStatus} {protectedKeys : List OffloadKey}

/-! ### The two tables stand for one dictionary -/

/-- A key is in one table only, and the dictionary has what the tables have. -/
structure Stands (p : ARCCachePolicy F) (d : Dict OffloadKey ChunkStatus) : Prop where
  disjoint : ∀ k, p.t1.get? k = none ∨ p.t2.get? k = none
  get_eq : ∀ k, (p.t1.get? k).or (p.t2.get? k) = d.get? k

variable {p' : ARCCachePolicy F} {it rest : List (OffloadKey × ChunkStatus)}
  {e : OffloadKey × ChunkStatus} {t : Dict OffloadKey ChunkStatus}

section

variable (h : p.Stands d)

include h

/-- Only the tables matter. -/
private theorem Stands.congr
    (h1 : ∀ k, p'.t1.get? k = p.t1.get? k) (h2 : ∀ k, p'.t2.get? k = p.t2.get? k) : p'.Stands d := by
  refine ⟨fun k => ?_, fun k => ?_⟩
  · rw [h1, h2]
    exact h.disjoint k
  · rw [h1, h2]
    exact h.get_eq k

/-- A change of one key in the tables and in the dictionary. -/
theorem Stands.update {d' : Dict OffloadKey ChunkStatus}
    (hdisjoint : p'.t1.get? key = none ∨ p'.t2.get? key = none)
    (hkey : (p'.t1.get? key).or (p'.t2.get? key) = d'.get? key)
    (hothers : ∀ k, k ≠ key → p'.t1.get? k = p.t1.get? k ∧ p'.t2.get? k = p.t2.get? k ∧
      d'.get? k = d.get? k) : p'.Stands d' := by
  refine ⟨fun k => ?_, fun k => ?_⟩
  · by_cases hk : k = key
    · exact hk ▸ hdisjoint
    · rw [(hothers k hk).1, (hothers k hk).2.1]
      exact h.disjoint k
  · by_cases hk : k = key
    · exact hk ▸ hkey
    · rw [(hothers k hk).1, (hothers k hk).2.1, (hothers k hk).2.2]
      exact h.get_eq k

/-- A key that is not resident is in neither table. -/
theorem Stands.none_of_none (hnone : d.get? key = none) :
    p.t1.get? key = none ∧ p.t2.get? key = none := by
  rwa [← h.get_eq, Option.or_eq_none_iff] at hnone

/-- A resident chunk is in the first table, or else in the second. -/
private theorem Stands.cases (hc : d.get? key = some c) : p.t1.get? key = some c ∧ p.t2.get? key = none ∨
      p.t1.get? key = none ∧ p.t2.get? key = some c := by
  rw [← h.get_eq] at hc
  cases h1 : p.t1.get? key with
  | none =>
    rw [h1] at hc
    exact .inr ⟨rfl, hc⟩
  | some c' =>
    rw [h1] at hc
    exact .inl ⟨hc, (h.disjoint key).resolve_left (h1 ▸ some_ne_none c')⟩

/-- A resident chunk changes in its table. -/
protected theorem Stands.put (hc : d.get? key = some c) {c' : ChunkStatus} :
    (p.put key c').Stands (d.set key c') := by
  rw [put]
  obtain ⟨h1, h2⟩ | ⟨h1, h2⟩ := h.cases hc
  · rw [h1, if_pos isSome_some]
    refine h.update (.inr h2) ?_ fun k hk => ?_
    · rw [get?_set_self, get?_set_self, some_or]
    · exact ⟨get?_set_of_ne hk, rfl, get?_set_of_ne hk⟩
  · rw [h1, if_neg (isSome_none ▸ Bool.false_ne_true)]
    refine h.update (.inl h1) ?_ fun k hk => ?_
    · rw [h1, get?_set_self, get?_set_self, none_or]
    · exact ⟨rfl, get?_set_of_ne hk, get?_set_of_ne hk⟩

/-- A new chunk goes to the first table. -/
protected theorem Stands.insert (hnone : d.get? key = none) (c : ChunkStatus) :
    (p.insert key c).Stands (d.set key c) := by
  refine h.update (.inr (h.none_of_none hnone).2) ?_ fun k hk => ?_
  · rw [insert, get?_set_self, get?_set_self, some_or]
  · exact ⟨get?_set_of_ne hk, rfl, get?_set_of_ne hk⟩

/-- A key that is not in the second table leaves the first. -/
private theorem Stands.erase_t1 {b1 : List OffloadKey} (h2 : p.t2.get? key = none) :
    ({ p with t1 := p.t1.erase key, b1 }).Stands (d.erase key) := by
  refine h.update (.inr h2) ?_ fun k hk => ?_
  · rw [get?_erase_self, get?_erase_self, h2, or_none]
  · exact ⟨get?_erase_of_ne hk, rfl, get?_erase_of_ne hk⟩

/-- A key that is not in the first table leaves the second. -/
private theorem Stands.erase_t2 {b2 : List OffloadKey} (h1 : p.t1.get? key = none) :
    ({ p with t2 := p.t2.erase key, b2 }).Stands (d.erase key) := by
  refine h.update (.inl h1) ?_ fun k hk => ?_
  · rw [get?_erase_self, get?_erase_self, h1, or_none]
  · exact ⟨rfl, get?_erase_of_ne hk, get?_erase_of_ne hk⟩

/-- A chunk leaves the table it is in. -/
protected theorem Stands.remove (hc : d.get? key = some c) : (p.remove key).Stands (d.erase key) := by
  rw [remove]
  obtain ⟨h1, h2⟩ | ⟨h1, h2⟩ := h.cases hc
  · rw [h1]
    exact h.erase_t1 h2
  · rw [h1]
    exact h.erase_t2 h1

/-- A chunk that is used again goes to the second table, and stays resident. -/
protected theorem Stands.finishKey {insertionOnlyKeys reusedKeys : List OffloadKey} :
    (p.finishKey insertionOnlyKeys reusedKeys key).Stands d := by
  rw [finishKey]
  split_ifs with hinsertion ht1 hreused
  · exact h.congr (fun k => get?_moveToEnd) fun _ => rfl
  · exact h.congr (fun _ => rfl) fun k => get?_moveToEnd
  · cases h1 : p.t1.get? key with
    | none => exact h.congr (fun _ => rfl) fun k => get?_moveToEnd
    | some c =>
      refine h.update (.inl get?_erase_self) ?_ fun k hk => ?_
      · rw [get?_erase_self, get?_set_self, none_or, ← h.get_eq, h1, some_or]
      · exact ⟨get?_erase_of_ne hk, get?_set_of_ne hk, rfl⟩
  · exact h

/-- The target is not part of what the tables stand for. -/
protected theorem Stands.adaptToGhostHit [FloatOps F] : (p.adaptToGhostHit key).2.Stands d := by
  rw [adaptToGhostHit]
  split_ifs
  · exact h.congr (fun _ => rfl) fun _ => rfl
  · exact h.congr (fun _ => rfl) fun _ => rfl
  · exact h

end

private theorem Stands.foldl {f : ARCCachePolicy F → OffloadKey → ARCCachePolicy F}
    (hf : ∀ p key, p.Stands d → (f p key).Stands d) {keys : List OffloadKey} (h : p.Stands d) :
    (keys.foldl f p).Stands d := by
  induction keys generalizing p with
  | nil => exact h
  | cons key keys ih => exact ih (hf p key h)

/-- The entries of the tables are those of the dictionary. -/
private theorem Stands.perm (h : p.Stands d) : (p.t1.entries ++ p.t2.entries).Perm d.entries := by
  refine (perm_ext_iff_of_nodup ?_ (.of_map _ d.nodup)).mpr ?_
  · refine nodup_append.mpr ⟨.of_map _ p.t1.nodup, .of_map _ p.t2.nodup, ?_⟩
    rintro ⟨k, c⟩ he1 ⟨k', c'⟩ he2 heq
    obtain ⟨rfl, rfl⟩ := Prod.mk.inj heq
    rw [mem_entries] at he1 he2
    rcases h.disjoint k with hnone | hnone
    · exact some_ne_none c (he1 ▸ hnone)
    · exact some_ne_none c (he2 ▸ hnone)
  · rintro ⟨k, c⟩
    rw [mem_append, mem_entries, mem_entries, mem_entries]
    constructor
    · rintro (h1 | h2)
      · rw [← h.get_eq, h1, some_or]
      · have h1 := (h.disjoint k).resolve_right (h2 ▸ some_ne_none c)
        rw [← h.get_eq, h1, h2, none_or]
    · intro hc
      exact (h.cases hc).imp And.left And.right

/-! ### The scan of `evict` -/

/-- An entry that may be evicted. -/
def idle (protectedKeys : List OffloadKey) (e : OffloadKey × ChunkStatus) : Bool :=
  e.2.refCnt = 0 ∧ e.1 ∉ protectedKeys

/-- A candidate is idle and not protected, and the iterator stands behind it. -/
private theorem nextCandidate_some (h : nextCandidate protectedKeys it = (some e, rest)) :
    (e :: rest).Sublist it ∧ (e.2.refCnt = 0 ∧ e.1 ∉ protectedKeys) ∧
      it.countP (idle protectedKeys) = rest.countP (idle protectedKeys) + 1 := by
  induction it with
  | nil => cases h
  | cons e' it ih =>
    rw [nextCandidate] at h
    split_ifs at h with hidle
    · obtain ⟨he, rfl⟩ := Prod.mk.inj h
      obtain rfl := Option.some.inj he
      exact ⟨.refl _, hidle, countP_cons_of_pos (decide_eq_true hidle)⟩
    · obtain ⟨hsub, hfree, hcount⟩ := ih h
      refine ⟨hsub.cons _, hfree, ?_⟩
      rw [countP_cons_of_neg (by simpa [idle] using hidle), hcount]

private theorem nextCandidate_none (h : nextCandidate protectedKeys it = (none, rest)) :
    rest = [] ∧ it.countP (idle protectedKeys) = 0 := by
  induction it with
  | nil => exact ⟨(Prod.mk.inj h).2.symm, rfl⟩
  | cons e it ih =>
    rw [nextCandidate] at h
    split_ifs at h with hidle
    · cases (Prod.mk.inj h).1
    · rw [countP_cons_of_neg (by simpa [idle] using hidle)]
      exact ih h

/-- The candidates are distinct entries of the tables, and those behind the iterators. -/
structure Scanned (p : ARCCachePolicy F) (protectedKeys : List OffloadKey) (s : Scan) : Prop where
  iter1 : s.t1Iter.Sublist p.t1.entries
  iter2 : s.t2Iter.Sublist p.t2.entries
  nodup : (s.candidates.map fun c => c.1.1).Nodup
  behind : ∀ c ∈ s.candidates, c.1.1 ∉ s.t1Iter.map fst ∧ c.1.1 ∉ s.t2Iter.map fst
  source : ∀ c ∈ s.candidates, (if c.2 then p.t1 else p.t2).get? c.1.1 = some c.1.2 ∧
    c.1.2.refCnt = 0 ∧ c.1.1 ∉ protectedKeys

variable {s : Scan}

/-- The iterators may move on. -/
theorem Scanned.advance {t1Iter t2Iter : List (OffloadKey × ChunkStatus)}
    (h : Scanned p protectedKeys s) (h1 : t1Iter.Sublist s.t1Iter) (h2 : t2Iter.Sublist s.t2Iter) :
    Scanned p protectedKeys { s with t1Iter, t2Iter } where
  iter1 := h1.trans h.iter1
  iter2 := h2.trans h.iter2
  nodup := h.nodup
  behind c hc := ⟨fun hin => (h.behind c hc).1 ((h1.map _).subset hin),
    fun hin => (h.behind c hc).2 ((h2.map _).subset hin)⟩
  source := h.source

/-- One more candidate, which is behind both iterators. -/
theorem Scanned.add {fromT1 : Bool} {virtualT1Size : ℤ}
    (h : Scanned p protectedKeys s) (hnew : e.1 ∉ s.candidates.map fun c => c.1.1)
    (hbehind : e.1 ∉ s.t1Iter.map fst ∧ e.1 ∉ s.t2Iter.map fst)
    (hsource : (if fromT1 then p.t1 else p.t2).get? e.1 = some e.2)
    (hfree : e.2.refCnt = 0 ∧ e.1 ∉ protectedKeys) :
    Scanned p protectedKeys { s with candidates := s.candidates ++ [(e, fromT1)], virtualT1Size } where
  iter1 := h.iter1
  iter2 := h.iter2
  nodup := by
    rw [map_append, map_singleton, nodup_append]
    refine ⟨h.nodup, nodup_singleton _, ?_⟩
    rintro k hk k' hk' rfl
    exact hnew (mem_singleton.mp hk' ▸ hk)
  behind c hc := by
    rcases mem_append.mp hc with hc | hc
    · exact h.behind c hc
    · rw [mem_singleton.mp hc]
      exact hbehind
  source c hc := by
    rcases mem_append.mp hc with hc | hc
    · exact h.source c hc
    · rw [mem_singleton.mp hc]
      exact ⟨hsource, hfree⟩

private theorem not_mem_keys_of_get?_none (hsub : it.Sublist t.entries) (hnone : t.get? key = none) :
    key ∉ it.map fst := fun hin =>
  get?_eq_none.mp hnone ((hsub.map fst).subset hin)

/-- What an iterator yields is in its table once. -/
private theorem nodup_keys (hsub : (e :: it).Sublist t.entries) :
    e.1 ∉ it.map fst ∧ t.get? e.1 = some e.2 := by
  have hnodup := t.nodup.sublist (hsub.map fst)
  rw [map_cons, nodup_cons] at hnodup
  exact ⟨hnodup.1, mem_entries.mp (hsub.subset (.head _))⟩

/-- The candidates that the iterators still have before them. -/
def Scan.left (protectedKeys : List OffloadKey) (s : Scan) : ℕ :=
  s.t1Iter.countP (idle protectedKeys) + s.t2Iter.countP (idle protectedKeys)

/-- An attempt to find a candidate: what is found is one more, and one less is left. -/
structure Attempt (p : ARCCachePolicy F) (protectedKeys : List OffloadKey) (s : Scan)
    (out : Bool × Scan) : Prop where
  scanned : Scanned p protectedKeys out.2
  length : out.2.candidates.length = s.candidates.length + out.1.toNat
  left : s.left protectedKeys = out.2.left protectedKeys + out.1.toNat

private theorem Scanned.takeT1 (hp : p.Stands d) (h : Scanned p protectedKeys s) :
    Attempt p protectedKeys s (s.takeT1 protectedKeys) ∧ ((s.takeT1 protectedKeys).1 = false →
        (s.takeT1 protectedKeys).2.left protectedKeys = s.t2Iter.countP (idle protectedKeys)) := by
  rw [Scan.takeT1]
  split
  next e rest hnext =>
    obtain ⟨hsub, hfree, hcount⟩ := nextCandidate_some hnext
    obtain ⟨hrest, hget⟩ := nodup_keys (hsub.trans h.iter1)
    have h2 := (hp.disjoint e.1).resolve_left (hget ▸ some_ne_none e.2)
    refine ⟨⟨(h.advance ((sublist_cons_self e rest).trans hsub) (.refl _)).add ?_
      ⟨hrest, not_mem_keys_of_get?_none h.iter2 h2⟩ hget hfree, length_append, ?_⟩, nofun⟩
    · -- The iterator had the entry before it, so no candidate has its key.
      intro hmem
      obtain ⟨c, hc, heq⟩ := mem_map.mp hmem
      exact (h.behind c hc).1 (heq ▸ mem_map_of_mem (hsub.subset (.head _)))
    · rw [Scan.left, hcount]
      exact add_right_comm _ _ _
  next rest hnext =>
    obtain ⟨rfl, hcount⟩ := nextCandidate_none hnext
    refine ⟨⟨h.advance (nil_sublist _) (.refl _), rfl, ?_⟩, fun _ => zero_add _⟩
    rw [Scan.left, hcount]
    rfl

private theorem Scanned.takeT2 (hp : p.Stands d) (h : Scanned p protectedKeys s) :
    Attempt p protectedKeys s (s.takeT2 protectedKeys) ∧ ((s.takeT2 protectedKeys).1 = false →
      (s.takeT2 protectedKeys).2.t2Iter.countP (idle protectedKeys) = 0) := by
  rw [Scan.takeT2]
  split
  next e rest hnext =>
    obtain ⟨hsub, hfree, hcount⟩ := nextCandidate_some hnext
    obtain ⟨hrest, hget⟩ := nodup_keys (hsub.trans h.iter2)
    have h1 := (hp.disjoint e.1).resolve_right (hget ▸ some_ne_none e.2)
    refine ⟨⟨(h.advance (.refl _) ((sublist_cons_self e rest).trans hsub)).add ?_
      ⟨not_mem_keys_of_get?_none h.iter1 h1, hrest⟩ hget hfree, length_append, ?_⟩, nofun⟩
    · intro hmem
      obtain ⟨c, hc, heq⟩ := mem_map.mp hmem
      exact (h.behind c hc).2 (heq ▸ mem_map_of_mem (hsub.subset (.head _)))
    · rw [Scan.left, hcount]
      rfl
  next rest hnext =>
    obtain ⟨rfl, hcount⟩ := nextCandidate_none hnext
    refine ⟨⟨h.advance (.refl _) (nil_sublist _), rfl, ?_⟩, fun _ => rfl⟩
    rw [Scan.left, hcount]
    rfl

/-- A round finds one candidate, or the loop gives up because none is left. -/
private theorem Scanned.round (target : ℤ) (hp : p.Stands d) (h : Scanned p protectedKeys s) :
    match s.round target protectedKeys with
    | some s' => Attempt p protectedKeys s (true, s')
    | none => s.left protectedKeys = 0 := by
  have hfirst : Attempt p protectedKeys s
      (if target ≤ s.virtualT1Size then s.takeT1 protectedKeys else (false, s)) := by
    split_ifs
    · exact (h.takeT1 hp).1
    · exact ⟨h, rfl, rfl⟩
  rw [Scan.round]
  generalize (if target ≤ s.virtualT1Size then s.takeT1 protectedKeys else (false, s)) = first
    at hfirst ⊢
  obtain ⟨_ | _, t⟩ := first
  swap
  · exact hfirst
  obtain ⟨hsecond, hnone⟩ := hfirst.scanned.takeT2 hp
  dsimp only
  generalize t.takeT2 protectedKeys = second at hsecond hnone ⊢
  have hleft := hfirst.left.trans hsecond.left
  have hlength := hsecond.length
  rw [hfirst.length] at hlength
  obtain ⟨_ | _, u⟩ := second
  swap
  · exact ⟨hsecond.scanned, hlength, hleft⟩
  obtain ⟨hthird, hlast⟩ := hsecond.scanned.takeT1 hp
  generalize u.takeT1 protectedKeys = third at hthird hlast ⊢
  obtain ⟨_ | _, v⟩ := third
  · exact hleft.trans (hthird.left.trans ((hlast rfl).trans (hnone rfl)))
  · exact ⟨hthird.scanned, hthird.length.trans (congrArg _ hlength), hleft.trans hthird.left⟩

/-- The loop finds as many candidates as it is asked for, unless there are fewer. -/
theorem Scanned.rounds (target : ℤ) (hp : p.Stands d) (n : ℕ) :
    ∀ {s : Scan}, Scanned p protectedKeys s → match s.rounds target protectedKeys n with
      | some s' => Scanned p protectedKeys s' ∧
          s'.candidates.length = s.candidates.length + n ∧ n ≤ s.left protectedKeys
      | none => s.left protectedKeys < n := by
  induction n with
  | zero => exact fun h => ⟨h, rfl, Nat.zero_le _⟩
  | succ n ih =>
    intro s h
    have hround := h.round target hp
    rw [Scan.rounds]
    cases hnext : s.round target protectedKeys with
    | none =>
      rw [hnext] at hround
      exact hround ▸ Nat.succ_pos n
    | some t =>
      rw [hnext] at hround
      have hrest := ih (s := t) hround.scanned
      have hlength : t.candidates.length = s.candidates.length + 1 := hround.length
      have hleft : s.left protectedKeys = t.left protectedKeys + 1 := hround.left
      rw [Option.bind_some]
      cases hrounds : t.rounds target protectedKeys n with
      | none =>
        rw [hrounds] at hrest
        omega
      | some s' =>
        rw [hrounds] at hrest
        exact ⟨hrest.1, by omega, by omega⟩

/-- The candidates leave their tables, one after the other. -/
private theorem Stands.foldl_applyEviction {candidates : List ((OffloadKey × ChunkStatus) × Bool)}
    (h : p.Stands d)
    (hother : ∀ c ∈ candidates, (if c.2 then p.t2 else p.t1).get? c.1.1 = none) :
    (candidates.foldl applyEviction p).Stands (eraseAll d (candidates.map fst)) := by
  induction candidates generalizing p d with
  | nil => exact h
  | cons c candidates ih =>
    have hc := hother _ (.head _)
    refine ih ?_ fun c' hc' => ?_
    · rw [applyEviction]
      split_ifs at hc ⊢
      · exact h.erase_t1 hc
      · exact h.erase_t2 hc
    · -- A table only loses keys, so those that are not in a table stay out of it.
      have hnone := hother c' (.tail _ hc')
      rw [applyEviction]
      split_ifs at hnone ⊢
      · exact hnone
      · rw [get?_erase, hnone, ite_self]
      · rw [get?_erase, hnone, ite_self]
      · exact hnone

/-- What the evictions do to the ghost lists: only keys of candidates join, each the list of its
table. -/
structure Buries (candidates : List ((OffloadKey × ChunkStatus) × Bool))
    (p p' : ARCCachePolicy F) : Prop where
  b1 : ∀ k ∈ p'.b1, k ∈ p.b1 ∨ ∃ c ∈ candidates, c.2 = true ∧ c.1.1 = k
  b2 : ∀ k ∈ p'.b2, k ∈ p.b2 ∨ ∃ c ∈ candidates, c.2 = false ∧ c.1.1 = k
  config : p'.cacheCapacity = p.cacheCapacity ∧ p'.targetT1Size = p.targetT1Size

private theorem buries_foldl (candidates : List ((OffloadKey × ChunkStatus) × Bool)) :
    Buries candidates p (candidates.foldl applyEviction p) := by
  induction candidates generalizing p with
  | nil => exact ⟨fun _ => .inl, fun _ => .inl, rfl, rfl⟩
  | cons c candidates ih =>
    obtain ⟨h1, h2, hconfig⟩ := ih
    rw [foldl_cons]
    have hmore : ∀ {b k}, (∃ c ∈ candidates, c.2 = b ∧ c.1.1 = k) →
        ∃ c' ∈ c :: candidates, c'.2 = b ∧ c'.1.1 = k := by
      rintro b k ⟨c', hc', heq⟩
      exact ⟨c', .tail _ hc', heq⟩
    refine ⟨fun k hk => ?_, fun k hk => ?_, ?_⟩
    · refine (h1 k hk).elim (fun hmem => ?_) fun hc => .inr (hmore hc)
      rw [applyEviction] at hmem
      split_ifs at hmem with hfrom
      · exact (mem_insertSet.mp hmem).symm.imp id fun heq => ⟨c, .head _, hfrom, heq.symm⟩
      · exact .inl hmem
    · refine (h2 k hk).elim (fun hmem => ?_) fun hc => .inr (hmore hc)
      rw [applyEviction] at hmem
      split_ifs at hmem with hfrom
      · exact .inl hmem
      · exact (mem_insertSet.mp hmem).symm.imp id fun heq =>
          ⟨c, .head _, Bool.eq_false_of_not_eq_true hfrom, heq.symm⟩
    · rw [hconfig.1, hconfig.2, applyEviction]
      split_ifs
      · exact ⟨rfl, rfl⟩
      · exact ⟨rfl, rfl⟩

/-- `evict` finds `n` chunks whenever there are as many, and changes nothing otherwise. The keys that
become ghosts come from the tables. -/
protected theorem Stands.evict [FloatOps F] (h : p.Stands d) (n : ℕ) (protectedKeys : List OffloadKey) :
    match p.evict n protectedKeys with
    | (none, p') => p' = p ∧ d.entries.countP (idle protectedKeys) < n
    | (some l, p') => (Evicts n protectedKeys d l ∧ p'.Stands (eraseAll d l)) ∧
        n ≤ d.entries.countP (idle protectedKeys) ∧
        ∃ candidates, Buries candidates p p' ∧ candidates.map fst = l ∧
          ∀ c ∈ candidates, (if c.2 then p.t1 else p.t2).get? c.1.1 = some c.1.2 := by
  rw [evict]
  by_cases hn : n = 0
  · rw [if_pos hn]
    exact ⟨⟨⟨hn.symm, nodup_nil, nofun⟩, h⟩, hn ▸ Nat.zero_le _, [], buries_foldl [], rfl, nofun⟩
  rw [if_neg hn]
  have hstart : Scanned p protectedKeys {
      virtualT1Size := p.t1.entries.length, t1Iter := p.t1.entries, t2Iter := p.t2.entries } :=
    ⟨.refl _, .refl _, nodup_nil, nofun, nofun⟩
  have hrounds := hstart.rounds (toInt p.targetT1Size) h n
  rw [Scan.left, ← countP_append, h.perm.countP_eq] at hrounds
  dsimp only
  generalize Scan.rounds _ protectedKeys n _ = out at hrounds ⊢
  cases out with
  | none => exact ⟨rfl, hrounds⟩
  | some s =>
    obtain ⟨hs, hlen, hle⟩ := hrounds
    have hghosts := buries_foldl (p := p) s.candidates
    refine ⟨⟨⟨?_, ?_, fun e he => ?_⟩, ?_⟩, hle, s.candidates,
      ⟨fun k hk => hghosts.b1 k (mem_of_mem_drop hk), fun k hk => hghosts.b2 k (mem_of_mem_drop hk),
        hghosts.config⟩, rfl, fun c hc => (hs.source c hc).1⟩
    · rw [length_map, hlen]
      exact zero_add n
    · rw [map_map]
      exact hs.nodup
    · obtain ⟨c, hc, rfl⟩ := mem_map.mp he
      obtain ⟨hget, hfree⟩ := hs.source c hc
      refine ⟨?_, hfree⟩
      split_ifs at hget with hfrom
      · rw [← h.get_eq, hget, some_or]
      · have h1 := (h.disjoint c.1.1).resolve_right (hget ▸ some_ne_none c.1.2)
        rw [← h.get_eq, h1, hget, none_or]
    · refine (h.foldl_applyEviction fun c hc => ?_).congr (fun _ => rfl) fun _ => rfl
      obtain ⟨hget, -⟩ := hs.source c hc
      split_ifs at hget ⊢ with hfrom
      · exact (h.disjoint c.1.1).resolve_left (hget ▸ some_ne_none c.1.2)
      · exact (h.disjoint c.1.1).resolve_right (hget ▸ some_ne_none c.1.2)

end ARCCachePolicy

instance {F : Type} [FloatOps F] : LawfulPolicy (ARCCachePolicy F) where
  Represents := Stands
  new_represents _ := ⟨fun _ => .inl rfl, fun _ => rfl⟩
  residents_perm h := h.perm
  get_eq h := h.get_eq
  put_represents h hc _ _ := h.put hc
  pin_represents h hc _ _ := pure_iff.mpr (h.put hc)
  unpin_represents h hc _ := pure_iff.mpr (h.put hc)
  insert_represents _ h hnone _ := modify_iff.mpr (h.insert hnone _)
  remove_represents h hc := modify_iff.mpr (h.remove hc)
  onStoreMiss_represents keys h := modify_iff.mpr
    (h.foldl (fun _ key hp => hp.adaptToGhostHit))
  onRequestAccess_represents _ _ h := pure_iff.mpr h
  onRequestFinished_represents _ insertionOnlyKeys reusedKeys _ h := modify_iff.mpr
    (h.foldl (fun _ key hp => hp.finishKey))
  evict_represents := by
    intro p d n protectedKeys h
    have hevict := h.evict n protectedKeys
    refine bind_iff.mpr (get_iff.mpr ?_)
    refine bind_iff.mpr (set_iff.mpr (pure_iff.mpr ?_))
    generalize p.evict n protectedKeys = out at hevict ⊢
    obtain ⟨_ | l, p'⟩ := out
    · exact (show p' = p from hevict.1) ▸ h
    · exact hevict.1
  clear_represents _ := ⟨fun _ => .inl rfl, fun _ => rfl⟩

end Sonar.Offload
