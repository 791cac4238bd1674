import Sonar.Offload.ARCPolicy
import Mathlib.Algebra.Order.Ring.Rat
import Mathlib.Data.Nat.Cast.Order.Ring

/-!
# Histories of the ARC policy

Over any history of calls, the four lists hold different keys, the ghost lists and the target are within
the capacity, and `evict` fails only if there is too little to evict (`ARCCachePolicy.sound_of_history`).

The ghosts are the reason for the order of things: a key is in a ghost list only while it is not
resident (`ARCCachePolicy.Kept`), so an evicted key is new to both of them.
-/

namespace Sonar.Offload

open Lib P2P List Dict
open Prod (fst)

/-- The laws of the arithmetic that bound the target: they hold for numbers that are rounded, too. -/
class LawfulFloatOps (F : Type) [FloatOps F] [LinearOrder F] : Prop where
  ofNat_le {m n : ℕ} (h : m ≤ n) : (FloatOps.ofNat m : F) ≤ FloatOps.ofNat n
  max_eq (x y : F) : FloatOps.max x y = max x y
  min_eq (x y : F) : FloatOps.min x y = min x y
  add_nonneg {x y : F} (hx : FloatOps.ofNat 0 ≤ x) (hy : FloatOps.ofNat 0 ≤ y) :
    FloatOps.ofNat 0 ≤ FloatOps.add x y
  sub_le {x y : F} (hy : FloatOps.ofNat 0 ≤ y) : FloatOps.sub x y ≤ x

namespace ARCCachePolicy

variable {F : Type} [FloatOps F]

/-- A history of calls, with the chunks that were inserted and neither removed nor evicted since. Only
keys that are not resident are inserted. -/
inductive History : ARCCachePolicy F → Dict OffloadKey ChunkStatus → Prop
  | new (cacheCapacity : ℕ) : History (CachePolicy.new cacheCapacity) ∅
  | insert {p d key} (h : History p d) (hnew : d.get? key = none) (chunk : ChunkStatus) :
      History (p.insert key chunk) (d.set key chunk)
  /-- The manager changes the reference count of a resident chunk. -/
  | put {p d key chunk} (h : History p d) (hchunk : d.get? key = some chunk) (refCnt : ℤ) :
      History (p.put key (chunk.withRef refCnt)) (d.set key (chunk.withRef refCnt))
  | remove {p d} (h : History p d) (key : OffloadKey) : History (p.remove key) (d.erase key)
  | onStoreMiss {p d} (h : History p d) (keys : List OffloadKey) : History (p.onStoreMiss keys) d
  | onRequestFinished {p d} (h : History p d) (keyGroups : List (List OffloadKey))
      (insertionOnlyKeys reusedKeys : List OffloadKey) (ctx : ReqContext) :
      History ((orderRequestKeys keyGroups ctx).reverse.foldl
        (finishKey insertionOnlyKeys reusedKeys) p) d
  | evict {p d} (h : History p d) (n : ℕ) (protectedKeys : List OffloadKey) :
      History (p.evict n protectedKeys).2 (eraseAll d ((p.evict n protectedKeys).1.getD []))
  | clear {p d} (h : History p d) : History p.clear ∅

variable [LinearOrder F] {p p' : ARCCachePolicy F} {d d' : Dict OffloadKey ChunkStatus}
  {key : OffloadKey}

/-- The target is between 0 and the capacity. -/
def TargetInRange (p : ARCCachePolicy F) : Prop :=
  FloatOps.ofNat 0 ≤ p.targetT1Size ∧ p.targetT1Size ≤ FloatOps.ofNat p.cacheCapacity

/-- What every call keeps. -/
structure Kept (p : ARCCachePolicy F) (d : Dict OffloadKey ChunkStatus) : Prop where
  stands : p.Stands d
  ghosts : ∀ k, k ∈ p.b1 ∨ k ∈ p.b2 → d.get? k = none
  apart : ∀ k ∈ p.b1, k ∉ p.b2
  bounded : p.b1.length ≤ p.cacheCapacity ∧ p.b2.length ≤ p.cacheCapacity
  target : p.TargetInRange

/-- A call other than `evict`: no key joins a ghost list, and none that stays becomes resident. -/
theorem Kept.step (h : p.Kept d) (hstands : p'.Stands d') (h1 : p'.b1 <+~ p.b1) (h2 : p'.b2 <+~ p.b2)
    (hnone : ∀ k, k ∈ p'.b1 ∨ k ∈ p'.b2 → d.get? k = none → d'.get? k = none)
    (hcapacity : p'.cacheCapacity = p.cacheCapacity) (htarget : p'.TargetInRange) : p'.Kept d' := by
  refine ⟨hstands, fun k hk => hnone k hk (h.ghosts k ?_), fun k hk hk' => ?_, ?_, htarget⟩
  · exact hk.imp (fun hk => h1.subset hk) fun hk => h2.subset hk
  · exact h.apart k (h1.subset hk) (h2.subset hk')
  · rw [hcapacity]
    exact ⟨h1.length_le.trans h.bounded.1, h2.length_le.trans h.bounded.2⟩

private theorem Kept.tables (h : p.Kept d) (hstands : p'.Stands d')
    (hsame : (p'.b1, p'.b2, p'.cacheCapacity, p'.targetT1Size) =
      (p.b1, p.b2, p.cacheCapacity, p.targetT1Size))
    (hnone : ∀ k, d.get? k = none → d'.get? k = none) : p'.Kept d' := by
  simp only [Prod.mk.injEq] at hsame
  obtain ⟨h1, h2, hcapacity, htarget⟩ := hsame
  refine h.step hstands (h1 ▸ .refl _) (h2 ▸ .refl _) (fun k _ => hnone k) hcapacity ?_
  rw [TargetInRange, htarget, hcapacity]
  exact h.target

/-- A key that is stored is no ghost any longer. -/
protected theorem Kept.insert (h : p.Kept d) (hnew : d.get? key = none) (chunk : ChunkStatus) :
    (p.insert key chunk).Kept (d.set key chunk) := by
  refine h.step (h.stands.insert hnew chunk) filter_sublist.subperm filter_sublist.subperm
    (fun k hk hnone => ?_) rfl h.target
  have hne : k ≠ key := hk.elim (fun hk => (mem_discard.mp hk).2) fun hk => (mem_discard.mp hk).2
  rw [get?_set_of_ne hne, hnone]

/-- A change of a resident chunk. -/
protected theorem Kept.put (h : p.Kept d) {chunk chunk' : ChunkStatus}
    (hchunk : d.get? key = some chunk) : (p.put key chunk').Kept (d.set key chunk') := by
  refine h.tables (h.stands.put hchunk) ?_ fun k hnone => ?_
  · rw [put]
    split_ifs
    · rfl
    · rfl
  · rw [get?_set_of_ne, hnone]
    rintro rfl
    cases hnone.symm.trans hchunk

/-- A removed chunk leaves no ghost. -/
protected theorem Kept.remove (h : p.Kept d) (key : OffloadKey) :
    (p.remove key).Kept (d.erase key) := by
  refine h.tables ?_ ?_ fun k hnone => by rw [get?_erase, hnone, ite_self]
  · cases hkey : d.get? key with
    | some chunk => exact h.stands.remove hkey
    | none =>
      obtain ⟨h1, h2⟩ := h.stands.none_of_none hkey
      rw [remove, h1, erase_of_get?_none h2, erase_of_get?_none hkey]
      exact h.stands
  · rw [remove]
    split_ifs
    · rfl
    · rfl

/-- At the end of a request chunks change their table or their place in it. -/
protected theorem Kept.finishKey (h : p.Kept d) (insertionOnlyKeys reusedKeys : List OffloadKey)
    (key : OffloadKey) : (p.finishKey insertionOnlyKeys reusedKeys key).Kept d := by
  refine h.tables h.stands.finishKey ?_ fun _ => id
  rw [finishKey]
  split_ifs
  · rfl
  · rfl
  · split
    · rfl
    · rfl
  · rfl

private theorem subperm_moved {l : List OffloadKey} (h : key ∈ l) : discard key l ++ [key] <+~ l :=
  perm_append_comm.subperm.trans (cons_subperm_of_not_mem_of_mem
    (fun hmem => (mem_discard.mp hmem).2 rfl) h filter_sublist.subperm)

/-- Evicted keys were resident, so they are new among the ghosts. -/
protected theorem Kept.evict (h : p.Kept d) (n : ℕ) (protectedKeys : List OffloadKey) :
    (p.evict n protectedKeys).2.Kept (eraseAll d ((p.evict n protectedKeys).1.getD [])) := by
  have hevict := h.stands.evict n protectedKeys
  have hbounded : (p.evict n protectedKeys).2.b1.length ≤ (p.evict n protectedKeys).2.cacheCapacity ∧
      (p.evict n protectedKeys).2.b2.length ≤ (p.evict n protectedKeys).2.cacheCapacity := by
    rw [evict]
    split_ifs
    · exact h.bounded
    · dsimp only
      split
      · exact h.bounded
      · simp only [trimGhosts, length_drop]
        omega
  generalize p.evict n protectedKeys = out at hevict hbounded ⊢
  obtain ⟨_ | l, p'⟩ := out
  · obtain rfl : p' = p := hevict.1
    exact h
  obtain ⟨⟨-, hstands⟩, -, candidates, hburies, rfl, hsource⟩ := hevict
  -- A candidate is resident, so it was in neither ghost list.
  have hresident : ∀ c ∈ candidates, d.get? c.1.1 ≠ none := by
    intro c hc hnone
    have hget := hsource c hc
    obtain ⟨h1, h2⟩ := h.stands.none_of_none hnone
    split_ifs at hget
    · cases h1.symm.trans hget
    · cases h2.symm.trans hget
  refine ⟨hstands, fun k hk => ?_, fun k hk1 hk2 => ?_, hbounded, ?_⟩
  · rw [Option.getD_some, get?_eraseAll]
    have hevicted : ∀ {b : Bool}, (∃ c ∈ candidates, c.2 = b ∧ c.1.1 = k) →
        k ∈ (candidates.map fst).map fst := by
      rintro b ⟨c, hc, -, rfl⟩
      exact mem_map_of_mem (mem_map_of_mem hc)
    obtain (hk | hk) | (hk | hk) := hk.imp (hburies.b1 k) (hburies.b2 k)
    · rw [h.ghosts k (.inl hk), ite_self]
    · rw [if_pos (hevicted hk)]
    · rw [h.ghosts k (.inr hk), ite_self]
    · rw [if_pos (hevicted hk)]
  · obtain hk1 | ⟨c1, hc1, hfrom1, rfl⟩ := hburies.b1 k hk1
    · obtain hk2 | ⟨c2, hc2, -, rfl⟩ := hburies.b2 k hk2
      · exact h.apart k hk1 hk2
      · exact hresident c2 hc2 (h.ghosts _ (.inl hk1))
    · obtain hk2 | ⟨c2, hc2, hfrom2, heq⟩ := hburies.b2 _ hk2
      · exact hresident c1 hc1 (h.ghosts _ (.inr hk2))
      · -- A candidate of each table, which have no key in common.
        have hget1 := hsource c1 hc1
        have hget2 := hsource c2 hc2
        rw [hfrom1] at hget1
        rw [hfrom2, heq] at hget2
        obtain hnone | hnone := h.stands.disjoint c1.1.1
        · cases hnone.symm.trans hget1
        · cases hnone.symm.trans hget2
  · rw [TargetInRange, hburies.config.1, hburies.config.2]
    exact h.target

/-- What holds of the lists of a policy with the given residents, and of a call of `evict`. -/
structure Sound (p : ARCCachePolicy F) (d : Dict OffloadKey ChunkStatus) : Prop where
  disjoint : [p.t1.keys, p.t2.keys, p.b1, p.b2].Pairwise List.Disjoint
  resident : ∀ k, k ∈ p.t1.keys ∨ k ∈ p.t2.keys ↔ k ∈ d.keys
  bounded : p.b1.length ≤ p.cacheCapacity ∧ p.b2.length ≤ p.cacheCapacity
  target : p.TargetInRange
  evict : ∀ n protectedKeys, match p.evict n protectedKeys with
    | (some l, _) => Evicts n protectedKeys d l ∧ n ≤ d.entries.countP (idle protectedKeys)
    | (none, p') => d.entries.countP (idle protectedKeys) < n ∧ p' = p

private theorem Kept.sound (h : p.Kept d) : p.Sound d := by
  have hresident : ∀ k, k ∈ p.t1.keys ∨ k ∈ p.t2.keys ↔ k ∈ d.keys := by
    intro k
    rw [← not_iff_not, not_or, ← get?_eq_none, ← get?_eq_none, ← get?_eq_none, ← h.stands.get_eq,
      Option.or_eq_none_iff]
  have hghosts : ∀ k, k ∈ p.b1 ∨ k ∈ p.b2 → k ∉ p.t1.keys ∧ k ∉ p.t2.keys := by
    intro k hk
    rw [← not_or, hresident]
    exact get?_eq_none.mp (h.ghosts k hk)
  refine ⟨?_, hresident, h.bounded, h.target, fun n protectedKeys => ?_⟩
  · simp only [pairwise_cons, mem_cons, not_mem_nil, forall_eq_or_imp, IsEmpty.forall_iff, implies_true, Pairwise.nil, and_true]
    refine ⟨⟨fun k hk1 hk2 => ?_, fun k hk hb => ?_, fun k hk hb => ?_⟩,
      ⟨fun k hk hb => ?_, fun k hk hb => ?_⟩, h.apart⟩
    · exact (h.stands.disjoint k).elim (fun hnone => get?_eq_none.mp hnone hk1)
        fun hnone => get?_eq_none.mp hnone hk2
    · exact (hghosts k (.inl hb)).1 hk
    · exact (hghosts k (.inr hb)).1 hk
    · exact (hghosts k (.inl hb)).2 hk
    · exact (hghosts k (.inr hb)).2 hk
  · have hevict := h.stands.evict n protectedKeys
    generalize p.evict n protectedKeys = out at hevict ⊢
    obtain ⟨_ | l, p'⟩ := out
    · exact hevict.symm
    · exact ⟨hevict.1.1, hevict.2.1⟩

variable [LawfulFloatOps F]

open LawfulFloatOps

/-- A ghost hit keeps the target in range. -/
protected theorem Kept.adaptToGhostHit (h : p.Kept d) (key : OffloadKey) :
    (p.adaptToGhostHit key).2.Kept d := by
  obtain ⟨hnonneg, hle⟩ := h.target
  have hdelta : ∀ x : F, FloatOps.ofNat 0 ≤ FloatOps.max (FloatOps.ofNat 1) x := by
    intro x
    rw [max_eq]
    exact (ofNat_le (Nat.zero_le 1)).trans (le_max_left _ _)
  have hstands : (p.adaptToGhostHit key).2.Stands d := h.stands.adaptToGhostHit
  rw [adaptToGhostHit] at hstands ⊢
  split_ifs at hstands ⊢ with h1 h2
  · refine h.step hstands (subperm_moved h1) (.refl _) (fun _ _ => id) rfl ?_
    dsimp only
    rw [min_eq]
    exact ⟨le_min (add_nonneg hnonneg (hdelta _)) (ofNat_le (Nat.zero_le _)), min_le_right _ _⟩
  · refine h.step hstands (.refl _) (subperm_moved h2) (fun _ _ => id) rfl ?_
    dsimp only
    rw [max_eq _ _]
    exact ⟨le_max_right _ _, max_le ((sub_le (hdelta _)).trans hle) (ofNat_le (Nat.zero_le _))⟩
  · exact h

/-- Any history keeps the lists apart and bounded. -/
theorem History.kept (h : History p d) : p.Kept d := by
  have hempty : ∀ p : ARCCachePolicy F, p.clear.Kept ∅ := fun p => ⟨⟨fun _ => .inl rfl, fun _ => rfl⟩,
    fun _ _ => rfl, nofun, ⟨Nat.zero_le _, Nat.zero_le _⟩, le_rfl, ofNat_le (Nat.zero_le _)⟩
  induction h with
  | new cacheCapacity => exact hempty (CachePolicy.new _)
  | insert _ hnew chunk ih => exact ih.insert hnew chunk
  | put _ hchunk _ ih => exact ih.put hchunk
  | remove _ key ih => exact ih.remove key
  | onStoreMiss _ keys ih =>
    exact foldlRecOn (motive := (Kept · _)) _ _ ih fun p hp key _ => hp.adaptToGhostHit key
  | onRequestFinished _ _ insertionOnlyKeys reusedKeys _ ih =>
    exact foldlRecOn (motive := (Kept · _)) _ _ ih fun p hp key _ =>
      hp.finishKey _ _ key
  | evict _ n protectedKeys ih => exact ih.evict n _
  | clear _ _ => exact hempty _

/-- The lists and the target after any history, and what `evict` does then. -/
theorem sound_of_history (h : History p d) : p.Sound d := h.kept.sound

end ARCCachePolicy

/-- Exact arithmetic. -/
instance : FloatOps ℚ where
  ofNat := Nat.cast
  add := (· + ·)
  sub := (· - ·)
  div := (· / ·)
  max := max
  min := min
  toInt x := if 0 ≤ x then x.floor else x.ceil

instance : LawfulFloatOps ℚ where
  ofNat_le := Nat.cast_le.mpr
  max_eq _ _ := rfl
  min_eq _ _ := rfl
  add_nonneg := add_nonneg
  sub_le := sub_le_self _

namespace ARCCachePolicy

/-- Three chunks, of which the second is read. -/
def threeChunks : ARCCachePolicy ℚ :=
  ((((CachePolicy.new 3 : ARCCachePolicy ℚ).insert [1] ⟨0, 7⟩).insert [2] ⟨0, 8⟩).insert [3] ⟨0, 9⟩).put [2]
    (.withRef ⟨0, 8⟩ 1)

/-- The first of the three chunks is protected, so the third is evicted; then it is stored again. -/
def storedAgain : ARCCachePolicy ℚ :=
  ((threeChunks.evict 1 [[1]]).2.onStoreMiss [[3]]).insert [3] ⟨0, 9⟩

/-- The evicted chunk leaves a ghost. The ghost is hit when the chunk is stored again, which raises the
target. Then there is one chunk to evict, so two cannot be. -/
theorem sound_storedAgain :
    (threeChunks.evict 1 [[1]]).2.b1 = [[3]] ∧ storedAgain.b1 = [] ∧ storedAgain.targetT1Size = 1 ∧
      (storedAgain.evict 2 [[1]]).1 = none ∧ ∃ d, storedAgain.Sound d := by
  have hthree : History threeChunks _ :=
    .put (.insert (.insert (.insert (.new 3) rfl ⟨0, 7⟩) rfl ⟨0, 8⟩) rfl ⟨0, 9⟩) rfl 1
  have hagain : History storedAgain _ :=
    .insert (.onStoreMiss (.evict hthree 1 [[1]]) [[3]]) (by decide +kernel) ⟨0, 9⟩
  exact ⟨by decide +kernel, by decide +kernel, by decide +kernel, by decide +kernel, _,
    sound_of_history hagain⟩

end ARCCachePolicy

end Sonar.Offload
