import Mathlib.Algebra.Order.BigOperators.Group.List
import Sonar.Core.HybridNecessity

/-!
# EAGLE drops in the hybrid search

A group that uses EAGLE matches one unit past the hit and drops it, so at the length the search
returns that unit has to be cached. The search keeps the indices whose drop was made and forgets
them when a lookup without a drop lowers the candidate, but not when a lookup with one does.

`EaglePeeked` says that the unit after the hit is cached for every group that uses EAGLE. Full
attention comes first and keeps its unit at all shorter lengths, so the property holds for all pool
contents, hashes and bounds just when at most one sliding window uses EAGLE: with two of them, the
drop of the second can lower the candidate below the length at which the first was verified.
-/

namespace Sonar

open Lib List SpecGroup Nat SlidingWindowManager Option SearchState
open Nat (mul_le_mul_right succ_mul zero_add)

/-- A sliding window that uses EAGLE. -/
def SpecGroup.dropsWindow (g : SpecGroup) : Bool :=
  match g.kind with
  | .slidingWindow _ => g.useEagle
  | _ => false

private theorem SpecGroup.dropsWindow_iff {g : SpecGroup} :
    g.dropsWindow = true ↔ (∃ w, g.kind = .slidingWindow w) ∧ g.useEagle = true := by
  rw [dropsWindow]
  rcases hkind : g.kind with _ | w | k | _ <;> simp

/-- No two groups are sliding windows that use EAGLE. -/
def OneWindowDrops (gs : List SpecGroup) : Prop :=
  gs.Pairwise fun g g' => ¬(g.dropsWindow = true ∧ g'.dropsWindow = true)

instance (gs : List SpecGroup) : Decidable (OneWindowDrops gs) :=
  inferInstanceAs (Decidable (gs.Pairwise _))

private theorem OneWindowDrops.eq_of_getElem? {gs : List SpecGroup} (h : OneWindowDrops gs) {i j : ℕ}
    {g g' : SpecGroup} (hi : gs[i]? = some g) (hj : gs[j]? = some g')
    (hg : g.dropsWindow = true) (hg' : g'.dropsWindow = true) : i = j := by
  obtain ⟨hi', rfl⟩ := List.getElem?_eq_some_iff.mp hi
  obtain ⟨hj', rfl⟩ := List.getElem?_eq_some_iff.mp hj
  rw [OneWindowDrops, pairwise_iff_getElem] at h
  rcases lt_trichotomy i j with hlt | heq | hgt
  · exact absurd ⟨hg, hg'⟩ (h i j hi' hj' hlt)
  · exact heq
  · exact absurd ⟨hg', hg⟩ (h j i hj' hi' hgt)

namespace HybridKVCacheCoordinator

variable {c : HybridKVCacheCoordinator} {n : ℕ} {pool : BlockPool n} {hashes : List BlockHash}
  {g w : SpecGroup} {gs : List SpecGroup} {a idx curr curr' : ℕ} {s s' : SearchState n}

/-- At a positive hit, the unit after it is cached for every group that uses EAGLE. -/
def EaglePeeked (c : HybridKVCacheCoordinator) (pool : BlockPool n) (hashes : List BlockHash)
    (maxCacheHitLength : ℕ) : Prop :=
  ∀ hit, c.findLongestCacheHit pool hashes maxCacheHitLength = .ok hit → 0 < hit.hitLength →
    ∀ g ∈ c.attentionGroups, g.useEagle = true →
      g.PeekCached pool hashes c.cacheHitAlignmentTokens hit.hitLength

/-! ### Verified indices -/

private theorem full_lt {j : ℕ} (hj : c.attentionGroups[j]? = some g) (hfull : g.kind = .fullAttention)
    (ha : c.attentionGroups[a]? = some w) (hw : w.kind ≠ .fullAttention) : j < a := by
  obtain ⟨hj', rfl⟩ := List.getElem?_eq_some_iff.mp hj
  obtain ⟨ha', rfl⟩ := List.getElem?_eq_some_iff.mp ha
  rcases lt_trichotomy j a with hlt | rfl | hgt
  · exact hlt
  · exact absurd hfull hw
  · exact absurd (pairwise_iff_getElem.mp c.full_first a j ha' hj' hgt hfull) hw

/-- A visit that does not lower the candidate forgets no index, and verifies its own. -/
private theorem visit_verified (h : c.visit pool hashes idx g curr s = .ok (curr', s'))
    (hge : curr ≤ curr') : (∀ j ∈ s.eagleVerified, j ∈ s'.eagleVerified) ∧
      (g.kind ≠ .fullAttention → g.useEagle = true → idx ∈ s'.eagleVerified) := by
  rcases visit_ok h with ⟨hkind, rfl, -⟩ | ⟨-, rows, -, -, hverified⟩
  · exact ⟨fun _ hj => hj, absurd hkind⟩
  · rw [hverified, if_neg (not_lt.mpr hge)]
    split_ifs with hdrop
    · exact ⟨fun _ hj => mem_cons_of_mem _ hj, fun _ _ => mem_cons_self⟩
    · refine ⟨fun _ hj => hj, fun _ heagle => ?_⟩
      simpa [dropEagleBlock, heagle] using hdrop

private theorem visitAll_verified [c.ChunkedSupported] (hinv : c.Inv pool hashes curr s)
    (hpool : pool.hashBlockSize = c.hashBlockSize) (hfrom : c.From gs idx)
    (h : c.visitAll pool hashes gs idx curr s = .ok (curr, s')) :
    (∀ j ∈ s.eagleVerified, j ∈ s'.eagleVerified) ∧ ∀ (k : ℕ) (g : SpecGroup),
      gs[k]? = some g → g.kind ≠ .fullAttention → g.useEagle = true →
        idx + k ∈ s'.eagleVerified := by
  induction gs generalizing idx s with
  | nil =>
    cases h
    exact ⟨fun _ hj => hj, fun k g hk => by simp at hk⟩
  | cons g0 gs ih =>
    obtain ⟨curr1, s1, hvisit, hrest⟩ := visitAll_cons h
    obtain ⟨hle, hinv1⟩ := hinv.visit hpool hfrom.head hvisit
    obtain ⟨hle', -⟩ := hinv1.visitAll hpool hfrom.tail hrest
    obtain rfl : curr1 = curr := le_antisymm hle hle'
    obtain ⟨hkeep, hown⟩ := visit_verified hvisit le_rfl
    obtain ⟨hkeep', hown'⟩ := ih hinv1 hfrom.tail hrest
    refine ⟨fun j hj => hkeep' j (hkeep j hj), fun k g hk hne heagle => ?_⟩
    rcases k with _ | k
    · obtain rfl : g0 = g := some.inj hk
      exact hkeep' idx (hown hne heagle)
    · rw [← succ_add_eq_add_succ]
      exact hown' k g hk hne heagle

/-- A visited group has a recorded hit. -/
private theorem visit_seen (h : c.visit pool hashes idx g curr s = .ok (curr', s'))
    (hseen : ∀ j < idx, s.hits j ≠ none) : ∀ j < idx + 1, s'.hits j ≠ none := by
  obtain ⟨hother, hit, hown⟩ := visit_hits h
  intro j hj
  by_cases hidx : j = idx
  · rw [hidx, hown]
    exact some_ne_none hit
  · rw [hother j hidx]
    exact hseen j (by omega)

private theorem visitAll_seen (h : c.visitAll pool hashes gs idx curr s = .ok (curr', s'))
    (hseen : ∀ j < idx, s.hits j ≠ none) : ∀ j < idx + gs.length, s'.hits j ≠ none := by
  induction gs generalizing idx curr s with
  | nil =>
    cases h
    exact hseen
  | cons g gs ih =>
    obtain ⟨curr1, s1, hvisit, hrest⟩ := visitAll_cons h
    intro j hj
    refine ih hrest (visit_seen hvisit hseen) j ?_
    rw [length_cons] at hj
    omega

/-! ### One sliding window that drops -/

/-- What holds between visits of the sliding window `w` with index `a`: it is looked up after full
attention, and if it is verified, it is so at the candidate. -/
structure Verified (c : HybridKVCacheCoordinator) (pool : BlockPool n) (hashes : List BlockHash)
    (a : ℕ) (w : SpecGroup) (curr : ℕ) (s : SearchState n) : Prop where
  full_seen : ∀ j g, c.attentionGroups[j]? = some g → g.kind = .fullAttention →
    s.hits j = none → s.hits a = none
  peek : a ∈ s.eagleVerified → 0 < curr → w.PeekCached pool hashes c.cacheHitAlignmentTokens curr

section

variable [c.ChunkedSupported] (hpool : pool.hashBlockSize = c.hashBlockSize)

include hpool

section

variable (hmamba : ∀ g ∈ c.attentionGroups, g.useEagle = true → g.kind ≠ .mamba)

include hmamba

private theorem Verified.visit (hverified : c.Verified pool hashes a w curr s)
    (hinv : c.Inv pool hashes curr s)
    (hone : OneWindowDrops c.attentionGroups) (ha : c.attentionGroups[a]? = some w)
    (hw : w.dropsWindow = true) (hget : c.attentionGroups[idx]? = some g)
    (hseen : ∀ j < idx, s.hits j ≠ none)
    (h : c.visit pool hashes idx g curr s = .ok (curr', s')) :
    c.Verified pool hashes a w curr' s' := by
  have hg := mem_of_getElem? hget
  have hfit : g.Fits pool.hashBlockSize c.cacheHitAlignmentTokens := hpool ▸ fits hg
  obtain ⟨⟨windowSize, hwkind⟩, -⟩ := dropsWindow_iff.mp hw
  have hwne : w.kind ≠ .fullAttention := by simp [hwkind]
  rcases visit_ok h with ⟨hkind, rfl, hit, hhit, rfl⟩ | ⟨hnone, rows, hfind, hhits, heq⟩
  · rw [min_eq_left (hinv.full idx g hit hget hkind hhit).2]
    exact hverified
  obtain ⟨hbounded, -⟩ := findLongestCacheHit_returned hfit useEagle_of_drop hfind
  obtain ⟨hle, -⟩ := lookup_le hpool hg hbounded
  refine ⟨fun j g' hj hfull hunseen => ?_, fun hmem hpos => ?_⟩
  · rw [hhits] at hunseen ⊢
    have hidx : j ≠ idx := by
      rintro rfl
      rw [Function.update_self] at hunseen
      cases hunseen
    rw [Function.update_of_ne hidx] at hunseen
    -- the window is not the group visited: full attention has not been
    have hidx' : a ≠ idx := by
      rintro rfl
      exact hseen j (full_lt hj hfull ha hwne) hunseen
    rw [Function.update_of_ne hidx']
    exact hverified.full_seen j g' hj hfull hunseen
  · rw [heq] at hmem
    split_ifs at hmem with hdrop hshrunk
    · by_cases hidx : a = idx
      · subst hidx
        obtain rfl : g = w := some.inj (hget.symm.trans ha)
        exact (hbounded.peek hdrop (by simp [hwkind]) hpos).2
      · -- another group that drops is full attention, and the window has not been looked up
        have hmem' : a ∈ s.eagleVerified := (mem_cons.mp hmem).resolve_left hidx
        have heagle := useEagle_of_drop hdrop
        rcases hkind : g.kind with _ | v | k | _
        · exact absurd hmem' (hinv.unseen a (hverified.full_seen idx g hget hkind (hnone hkind)))
        · have hdrops := dropsWindow_iff.mpr ⟨⟨v, hkind⟩, heagle⟩
          exact absurd (hone.eq_of_getElem? ha hget hw hdrops) hidx
        · rw [(hfit.chunked k hkind).2.2] at heagle
          cases heagle
        · exact absurd hkind (hmamba g hg heagle)
    · cases hmem
    · obtain rfl : curr' = curr := le_antisymm hle (not_lt.mp hshrunk)
      exact hverified.peek hmem hpos

private theorem Verified.visitAll (hverified : c.Verified pool hashes a w curr s)
    (hinv : c.Inv pool hashes curr s)
    (hone : OneWindowDrops c.attentionGroups) (ha : c.attentionGroups[a]? = some w)
    (hw : w.dropsWindow = true) (hfrom : c.From gs idx) (hseen : ∀ j < idx, s.hits j ≠ none)
    (h : c.visitAll pool hashes gs idx curr s = .ok (curr', s')) :
    c.Verified pool hashes a w curr' s' := by
  induction gs generalizing idx curr s with
  | nil =>
    cases h
    exact hverified
  | cons g gs ih =>
    obtain ⟨curr1, s1, hvisit, hrest⟩ := visitAll_cons h
    have hverified1 := hverified.visit hpool hmamba hinv hone ha hw hfrom.head hseen hvisit
    exact ih hverified1 (hinv.visit hpool hfrom.head hvisit).2 hfrom.tail
      (visit_seen hvisit hseen) hrest

end

/-- Every sliding window that drops is verified at most at the candidate. -/
def AllVerified (c : HybridKVCacheCoordinator) (pool : BlockPool n) (hashes : List BlockHash)
    (curr : ℕ) (s : SearchState n) : Prop :=
  ∀ a w, c.attentionGroups[a]? = some w → w.dropsWindow = true → c.Verified pool hashes a w curr s

/-- The last group of a pass from the initial state is verified at what the pass returns. -/
private theorem visitAll_two_verified {f x : SpecGroup} (hgroups : c.attentionGroups = [f, x])
    (h : c.visitAll pool hashes c.attentionGroups 0 curr initialState = .ok (curr', s'))
    (hne : x.kind ≠ .fullAttention) (heagle : x.useEagle = true) : 1 ∈ s'.eagleVerified := by
  have hfrom : c.From [f, x] 0 := hgroups
  rw [hgroups] at h
  obtain ⟨curr1, s1, hvisit, hrest⟩ := visitAll_cons h
  obtain ⟨curr2, s2, hvisit', hnil⟩ := visitAll_cons hrest
  cases hnil
  have hinv1 := ((inv_initialState c pool hashes curr).visit hpool hfrom.head hvisit).2
  have hunseen : 1 ∉ s1.eagleVerified := by
    refine hinv1.unseen 1 ?_
    rw [(visit_hits hvisit).1 1 one_ne_zero]
    rfl
  have hdrop : s1.dropEagleBlock x 1 = true := by
    simp [dropEagleBlock, heagle, hunseen]
  rcases visit_ok hvisit' with ⟨hkind, -⟩ | ⟨-, rows, -, -, hverified⟩
  · exact absurd hkind hne
  · rw [hverified, if_pos hdrop]
    exact mem_cons_self

/-- With at most one sliding window that uses EAGLE, the unit after a hit is cached. -/
private theorem eaglePeeked_of_oneWindowDrops
    (hmamba : ∀ g ∈ c.attentionGroups, g.useEagle = true → g.kind ≠ .mamba)
    (hone : OneWindowDrops c.attentionGroups) {maxCacheHitLength : ℕ} :
    c.EaglePeeked pool hashes maxCacheHitLength := by
  intro hit hfind hpos g hg heagle
  rw [findLongestCacheHit] at hfind
  split at hfind
  · cases hfind
  next r s' hsearch =>
  obtain rfl := Except.ok.inj hfind
  have hpass : ∀ b t b' t', c.Inv pool hashes b t ∧ c.AllVerified pool hashes b t →
      c.visitAll pool hashes c.attentionGroups 0 b t = .ok (b', t') →
      b' ≤ b ∧ c.Inv pool hashes b' t' ∧ c.AllVerified pool hashes b' t' := by
    rintro b t b' t' ⟨hinv, hall⟩ h
    obtain ⟨hle, hinv'⟩ := hinv.visitAll hpool c.from_zero h
    refine ⟨hle, hinv', fun a w ha hw => ?_⟩
    exact (hall a w ha hw).visitAll hpool hmamba hinv hone ha hw c.from_zero (by simp) h
  have hinit : ∀ b, c.Inv pool hashes b initialState ∧ c.AllVerified pool hashes b initialState :=
    fun b => ⟨inv_initialState c pool hashes b, fun _ _ _ _ =>
      ⟨fun _ _ _ _ _ => rfl, fun hmem => (not_mem_nil hmem).elim⟩⟩
  obtain ⟨idx, hget⟩ := mem_iff_getElem?.mp hg
  -- the last pass: where it started, and that it verified the group
  obtain ⟨b, t, hinv, hlast, hown⟩ : ∃ b t, (c.Inv pool hashes b t ∧ c.AllVerified pool hashes b t) ∧
      c.visitAll pool hashes _ 0 b t = .ok (r, s') ∧
      (g.kind ≠ .fullAttention → idx ∈ s'.eagleVerified) := by
    obtain ⟨-, ⟨t, hinv, hlast⟩ | ⟨hsimple, hlast⟩⟩ := descend_sound hsearch hpass (hinit _)
    · refine ⟨r, t, hinv, hlast, fun hne => ?_⟩
      have := (visitAll_verified hinv.1 hpool c.from_zero hlast).2 idx g hget hne heagle
      rwa [zero_add] at this
    · refine ⟨_, _, hinit _, hlast, fun hne => ?_⟩
      rw [isSimpleHybrid] at hsimple
      split at hsimple
      · next f x hgroups =>
        rw [beq_iff_eq] at hsimple
        rw [hgroups] at hget
        rcases idx with _ | _ | idx
        · obtain rfl : f = g := some.inj hget
          exact absurd hsimple hne
        · obtain rfl : x = g := some.inj hget
          exact visitAll_two_verified hpool hgroups hlast hne heagle
        · simp at hget
      · cases hsimple
  obtain ⟨-, hinv', hall'⟩ := hpass b t r s' hinv hlast
  have hfit : g.Fits pool.hashBlockSize c.cacheHitAlignmentTokens := hpool ▸ fits hg
  rcases hkind : g.kind with _ | v | k | _
  · have hlt : idx < 0 + c.attentionGroups.length := by
      rw [zero_add]
      exact (List.getElem?_eq_some_iff.mp hget).1
    obtain ⟨hit, hhit⟩ := ne_none_iff_exists'.mp
      (visitAll_seen hlast (by simp) idx hlt)
    obtain ⟨hishit, hle⟩ := hinv'.full idx g hit hget hkind hhit
    rw [heagle] at hishit
    exact hishit.peek hfit hle hpos (hinv.1.dvd_of_pass hpool hlast)
  · have hdrops := dropsWindow_iff.mpr ⟨⟨v, hkind⟩, heagle⟩
    exact (hall' idx g hget hdrops).peek (hown (by simp [hkind])) hpos
  · rw [(hfit.chunked k hkind).2.2] at heagle
    cases heagle
  · exact absurd hkind (hmamba g hg heagle)

end

/-! ### Two sliding windows that drop -/

/-- A pass over two stretches of groups is the one pass after the other. -/
private theorem visitAll_append {gs' : List SpecGroup} :
    c.visitAll pool hashes (gs ++ gs') idx curr s = match c.visitAll pool hashes gs idx curr s with
      | .error e => .error e
      | .ok (curr, s) => c.visitAll pool hashes gs' (idx + gs.length) curr s := by
  induction gs generalizing idx curr s with
  | nil => rfl
  | cons g gs ih =>
    rw [cons_append, visitAll, visitAll]
    rcases c.visit pool hashes idx g curr s with e | ⟨curr1, s1⟩
    · rfl
    · dsimp only
      rw [ih, length_cons, succ_add_eq_add_succ]

private theorem visitAll_hits_of_ge (h : c.visitAll pool hashes gs idx curr s = .ok (curr', s')) {j : ℕ}
    (hj : idx + gs.length ≤ j) : s'.hits j = s.hits j := by
  induction gs generalizing idx curr s with
  | nil =>
    cases h
    rfl
  | cons g gs ih =>
    obtain ⟨curr1, s1, hvisit, hrest⟩ := visitAll_cons h
    rw [length_cons] at hj
    rw [ih hrest (by omega), (visit_hits hvisit).1 j (by omega)]

/-- A lookup of the coordinator that accepts the candidate. -/
def Accepts (c : HybridKVCacheCoordinator) (pool : BlockPool n) (hashes : List BlockHash)
    (g : SpecGroup) (dropEagleBlock : Bool) (curr : ℕ) : Prop :=
  ∃ rows, g.findLongestCacheHit pool hashes (c.maxLengthFor hashes g dropEagleBlock curr)
    dropEagleBlock c.cacheHitAlignmentTokens = .ok (rows, curr)

/-- A group that accepts the candidate leaves it as it is. -/
private theorem visit_accepts (hinv : c.Inv pool hashes curr s) (hget : c.attentionGroups[idx]? = some g)
    (haccept : c.Accepts pool hashes g (s.dropEagleBlock g idx) curr) :
    ∃ s', c.visit pool hashes idx g curr s = .ok (curr, s') := by
  by_cases hseen : g.kind = .fullAttention ∧ s.hits idx ≠ none
  · obtain ⟨hkind, hne⟩ := hseen
    obtain ⟨hit, hhit⟩ := ne_none_iff_exists'.mp hne
    refine ⟨s, ?_⟩
    rw [visit]
    simp [hkind, hhit, min_eq_left (hinv.full idx g hit hget hkind hhit).2]
  · obtain ⟨rows, hfind⟩ := haccept
    exact visit_of_lookup (fun hkind => not_not.mp fun hne => hseen ⟨hkind, hne⟩) hfind

private theorem visitAll_accepts [c.ChunkedSupported] (gs : List SpecGroup) (idx : ℕ) (hinv : c.Inv pool hashes curr s)
    (hpool : pool.hashBlockSize = c.hashBlockSize)
    (hfrom : ∀ k g, gs[k]? = some g → c.attentionGroups[idx + k]? = some g)
    (haccept : ∀ k g, gs[k]? = some g → ∀ drop : Bool,
      (drop = true → g.useEagle = true ∧ idx + k ∉ s.eagleVerified) →
      c.Accepts pool hashes g drop curr) :
    ∃ s', c.visitAll pool hashes gs idx curr s = .ok (curr, s') ∧ c.Inv pool hashes curr s' ∧
      (∀ j ∈ s.eagleVerified, j ∈ s'.eagleVerified) ∧ ∀ (k : ℕ) (g : SpecGroup),
        gs[k]? = some g → g.dropsWindow = true → idx + k ∈ s'.eagleVerified := by
  induction gs generalizing idx s with
  | nil => exact ⟨s, rfl, hinv, fun _ hj => hj, fun k g hk => by simp at hk⟩
  | cons g0 gs ih =>
    have hget : c.attentionGroups[idx]? = some g0 := hfrom 0 g0 rfl
    obtain ⟨s1, hvisit⟩ := visit_accepts hinv hget (haccept 0 g0 rfl _
      (by simp [dropEagleBlock]))
    obtain ⟨-, hinv1⟩ := hinv.visit hpool hget hvisit
    obtain ⟨hkeep, hown⟩ := visit_verified hvisit le_rfl
    obtain ⟨s', hrest, hinv', hkeep', hown'⟩ := ih _ hinv1
      (fun k g hk => by
        rw [succ_add_eq_add_succ]
        exact hfrom (k + 1) g hk)
      (fun k g hk drop hdrop => haccept (k + 1) g hk drop fun htrue => by
        obtain ⟨heagle, hnot⟩ := hdrop htrue
        rw [succ_add_eq_add_succ] at hnot
        exact ⟨heagle, fun hmem => hnot (hkeep _ hmem)⟩)
    refine ⟨s', by rw [visitAll, hvisit]; exact hrest, hinv', fun j hj => hkeep' j (hkeep j hj),
      fun k g hk hdrops => ?_⟩
    rcases k with _ | k
    · obtain rfl : g0 = g := some.inj hk
      obtain ⟨⟨v, hkind⟩, heagle⟩ := dropsWindow_iff.mp hdrops
      exact hkeep' idx (hown (by simp [hkind]) heagle)
    · rw [← succ_add_eq_add_succ]
      exact hown' k g hk hdrops

/-- Different groups have different ids. -/
private theorem groupIds_disjoint {i j id : ℕ} (hi : c.attentionGroups[i]? = some g)
    (hj : c.attentionGroups[j]? = some w) (hij : i ≠ j) (hid : id ∈ g.groupIds) :
    id ∉ w.groupIds := by
  obtain ⟨hi', rfl⟩ := List.getElem?_eq_some_iff.mp hi
  obtain ⟨hj', rfl⟩ := List.getElem?_eq_some_iff.mp hj
  have hpairwise := pairwise_iff_getElem.mp (nodup_flatMap.mp c.groupIds_nodup).2
  intro hid'
  rcases lt_or_gt_of_ne hij with hlt | hgt
  · exact hpairwise i j hi' hj' hlt hid hid'
  · exact hpairwise j i hj' hi' hgt hid' hid

/-- The tokens a sliding window needs below a hit and dropped after it. -/
def windowSpan (g : SpecGroup) : ℕ :=
  match g.kind with
  | .slidingWindow windowSize => (windowBlocks windowSize g.blockSize + 1) * g.blockSize
  | _ => 0

private theorem windowSpan_eq {v : ℕ} (hkind : g.kind = .slidingWindow v) :
    windowSpan g = (windowBlocks v g.blockSize + 1) * g.blockSize := by
  rw [windowSpan, hkind]

/-- A pool that holds every prefix of the table but one unit after `L` for the sliding window `a`,
and all that is longer for `b`. -/
def shrinkPool (c : HybridKVCacheCoordinator) (a b : SpecGroup) (L : ℕ) : BlockPool 2 :=
  tablePool c.hashBlockSize fun id numTokens =>
    if id ∈ a.groupIds then decide (numTokens ≠ L + a.blockSize)
    else if id ∈ b.groupIds then decide (numTokens ≤ L + b.blockSize)
    else true

/-- Two sliding windows `a` and `b` that drop, a length `L` at which every window fits, and as many
hashes as lookups at `2 * L` need. -/
structure Shrinks (c : HybridKVCacheCoordinator) (a b : SpecGroup) (i j L count : ℕ) : Prop where
  first : c.attentionGroups[i]? = some a
  second : c.attentionGroups[j]? = some b
  lt : i < j
  first_drops : a.dropsWindow = true
  second_drops : b.dropsWindow = true
  aligned : c.cacheHitAlignmentTokens ∣ L
  pos : 0 < L
  span_le : ∀ g ∈ c.attentionGroups, windowSpan g ≤ L
  room : count * c.hashBlockSize = 2 * L + c.cacheHitAlignmentTokens

namespace Shrinks

variable {b : SpecGroup} {i j L count : ℕ}

section

variable (h : c.Shrinks w b i j L count)

include h

private theorem unit_le (hcurr : curr ≤ 2 * L) (g : SpecGroup) :
    curr + g.unit c.cacheHitAlignmentTokens ≤ (tableHashes count).length * c.hashBlockSize := by
  rw [length_tableHashes, h.room]
  exact Nat.add_le_add hcurr (min_le_left _ _)

variable [c.ChunkedSupported]

/-- The other groups hold all prefixes, and accept what is aligned. -/
private theorem accepts_other {k : ℕ} (hk : c.attentionGroups[k]? = some g) (hki : k ≠ i) (hkj : k ≠ j)
    (hcurr : c.cacheHitAlignmentTokens ∣ curr) (hge : L ≤ curr) (hle : curr ≤ 2 * L)
    {drop : Bool} (hdrop : drop = true → g.useEagle = true) :
    c.Accepts (c.shrinkPool w b L) (tableHashes count) g drop curr := by
  have hg := mem_of_getElem? hk
  have hall : g.AllCached (c.shrinkPool w b L) (tableHashes count) := by
    refine allCached_tablePool hg fun id hid numTokens => ?_
    rw [if_neg (groupIds_disjoint hk h.first hki hid),
      if_neg (groupIds_disjoint hk h.second hkj hid)]
  rw [Accepts, maxLengthFor_eq hg (h.unit_le hle g)]
  have hfit : g.Fits (c.shrinkPool w b L).hashBlockSize c.cacheHitAlignmentTokens := fits hg
  refine findLongestCacheHit_accepts hfit hall hcurr (h.unit_le hle g)
    (h.pos.trans_le hge) (fun v hkind => ?_) hdrop
  have hspan := h.span_le g hg
  rw [windowSpan_eq hkind] at hspan
  exact hspan.trans hge

private theorem block_le (hg : g ∈ c.attentionGroups) {v k m : ℕ}
    (hkind : g.kind = .slidingWindow v) (hk : k * g.blockSize ≤ 2 * L) (hm : m ≤ k) :
    (m + 1) * g.blockSize ≤ count * c.hashBlockSize := by
  have hfit : g.Fits (c.shrinkPool w b L).hashBlockSize c.cacheHitAlignmentTokens := fits hg
  have hroom := h.unit_le hk g
  rw [(coarse hkind hfit).2, ← succ_mul, length_tableHashes] at hroom
  exact (mul_le_mul_right _ (succ_le_succ hm)).trans hroom

/-- A block of a window is held if the pool has it for every id of the group, or for none. -/
private theorem cachedAt_block (hg : g ∈ c.attentionGroups) {v k m : ℕ}
    (hkind : g.kind = .slidingWindow v) (hk : k * g.blockSize ≤ 2 * L) (hm : m ≤ k)
    {cached : ℕ → ℕ → Bool} {held : Prop}
    (hheld : ∀ id ∈ g.groupIds, cached id ((m + 1) * g.blockSize) = true ↔ held) :
    (tablePool c.hashBlockSize cached).cachedAt (tableHashes count) g.groupIds
      ((m + 1) * g.blockSize) ≠ none ↔ held := by
  have hfit := fits hg
  rw [cachedAt_tablePool_iff c.hashBlockSize_pos (c.groupIds_lt g hg) (hfit.dvd.mul_left _)
    (mul_pos (succ_pos m) hfit.block_pos) (h.block_le hg hkind hk hm)]
  obtain ⟨id, hid⟩ := exists_mem_of_ne_nil _ (c.groupIds_ne_nil g hg)
  exact ⟨fun hall => (hheld id hid).mp (hall id hid), fun hq id hid => (hheld id hid).mpr hq⟩

private theorem cachedAt_first {v k m : ℕ} (hkind : w.kind = .slidingWindow v)
    (hk : k * w.blockSize ≤ 2 * L) (hm : m ≤ k) :
    (c.shrinkPool w b L).cachedAt (tableHashes count) w.groupIds ((m + 1) * w.blockSize) ≠ none ↔
      (m + 1) * w.blockSize ≠ L + w.blockSize := by
  refine h.cachedAt_block (mem_of_getElem? h.first) hkind hk hm fun id hid => ?_
  rw [if_pos hid, decide_eq_true_iff]

private theorem cachedAt_second {v k m : ℕ} (hkind : b.kind = .slidingWindow v)
    (hk : k * b.blockSize ≤ 2 * L) (hm : m ≤ k) :
    (c.shrinkPool w b L).cachedAt (tableHashes count) b.groupIds ((m + 1) * b.blockSize) ≠ none ↔
      (m + 1) * b.blockSize ≤ L + b.blockSize := by
  refine h.cachedAt_block (mem_of_getElem? h.second) hkind hk hm fun id hid => ?_
  rw [if_neg (groupIds_disjoint h.second h.first h.lt.ne' hid), if_pos hid, decide_eq_true_iff]

/-- A sliding window accepts a length below which its window is cached. -/
private theorem accepts_window (hg : g ∈ c.attentionGroups) {v k : ℕ}
    (hkind : g.kind = .slidingWindow v) (hk : k * g.blockSize = curr)
    (hcurr : c.cacheHitAlignmentTokens ∣ curr) (hge : L ≤ curr) (hle : curr ≤ 2 * L)
    {drop : Bool}
    (hrun : ∀ m, k ≤ m + windowBlocks v g.blockSize → (m < k ∨ m = k ∧ drop = true) →
      (c.shrinkPool w b L).cachedAt (tableHashes count) g.groupIds ((m + 1) * g.blockSize) ≠ none) :
    c.Accepts (c.shrinkPool w b L) (tableHashes count) g drop curr := by
  have hfit : g.Fits (c.shrinkPool w b L).hashBlockSize c.cacheHitAlignmentTokens := fits hg
  have hroom := h.unit_le hle g
  rw [(coarse hkind hfit).2, ← hk, ← succ_mul] at hroom
  have hspan := h.span_le g hg
  rw [windowSpan_eq hkind] at hspan
  have hblocks : windowBlocks v g.blockSize + 1 ≤ k :=
    le_of_mul_le_mul_right ((hspan.trans hge).trans hk.ge) hfit.block_pos
  obtain ⟨rows, hfind⟩ := findLongestCacheHit_accepts hfit hkind
    (hk ▸ hcurr) hroom hblocks hrun
  refine ⟨rows, ?_⟩
  have hne : (AttentionKind.slidingWindow v != .mamba) = true := rfl
  rw [maxLengthFor_eq hg (h.unit_le hle g), lookLength,
    SpecGroup.findLongestCacheHit, hkind]
  simp only [hne, Bool.and_true]
  rwa [hk] at hfind

end

private theorem exists_blocks [c.ChunkedSupported] (hg : g ∈ c.attentionGroups) {v : ℕ} (hkind : g.kind = .slidingWindow v)
    (hcurr : c.cacheHitAlignmentTokens ∣ curr) : ∃ k, k * g.blockSize = curr := by
  have hfit : g.Fits (c.onlyPool g).hashBlockSize c.cacheHitAlignmentTokens := fits hg
  obtain ⟨-, hunitA, -⟩ := FullAttentionManager.unit_dvd hfit
  rw [(coarse hkind hfit).2] at hunitA
  exact ⟨curr / g.blockSize, Nat.div_mul_cancel (hunitA.trans hcurr)⟩

section

variable [c.ChunkedSupported] (h : c.Shrinks w b i j L count)

include h

/-- The first window finds the candidate, with or without its last block dropped. -/
private theorem accepts_first {drop : Bool} :
    c.Accepts (c.shrinkPool w b L) (tableHashes count) w drop (2 * L) := by
  have hmem := mem_of_getElem? h.first
  obtain ⟨⟨v, hkind⟩, -⟩ := dropsWindow_iff.mp h.first_drops
  have hfit := fits hmem
  obtain ⟨k, hk⟩ := exists_blocks hmem hkind (h.aligned.mul_left 2)
  refine h.accepts_window hmem hkind hk (h.aligned.mul_left 2) (by omega) le_rfl fun m hm hmk => ?_
  rw [h.cachedAt_first hkind hk.le (by omega)]
  -- the window is shorter than `L`, so it ends above `L`
  intro heq
  have hspan := h.span_le w hmem
  rw [windowSpan_eq hkind, succ_mul] at hspan
  have hmul : k * w.blockSize ≤ (m + windowBlocks v w.blockSize) * w.blockSize :=
    mul_le_mul_right _ hm
  rw [succ_mul] at heq
  rw [add_mul] at hmul
  have := hfit.block_pos
  omega

/-- The first window accepts the shorter length, if it does not look at the unit after it. -/
private theorem accepts_first_short : c.Accepts (c.shrinkPool w b L) (tableHashes count) w false L := by
  have hmem := mem_of_getElem? h.first
  obtain ⟨⟨v, hkind⟩, -⟩ := dropsWindow_iff.mp h.first_drops
  have hfit := fits hmem
  obtain ⟨k, hk⟩ := exists_blocks hmem hkind h.aligned
  refine h.accepts_window hmem hkind hk h.aligned le_rfl (by omega) fun m _ hmk => ?_
  have hlt : m < k := by simpa using hmk
  rw [h.cachedAt_first hkind (by omega) hlt.le]
  have hle : (m + 1) * w.blockSize ≤ k * w.blockSize := mul_le_mul_right _ hlt
  intro heq
  have := hfit.block_pos
  omega

private theorem accepts_second_short : c.Accepts (c.shrinkPool w b L) (tableHashes count) b false L := by
  have hmem := mem_of_getElem? h.second
  obtain ⟨⟨v, hkind⟩, -⟩ := dropsWindow_iff.mp h.second_drops
  obtain ⟨k, hk⟩ := exists_blocks hmem hkind h.aligned
  refine h.accepts_window hmem hkind hk h.aligned le_rfl (by omega) fun m _ hmk => ?_
  have hlt : m < k := by simpa using hmk
  rw [h.cachedAt_second hkind (by omega) hlt.le]
  have hle : (m + 1) * b.blockSize ≤ k * b.blockSize := mul_le_mul_right _ hlt
  exact (hle.trans hk.le).trans (le_add_right _ _)

/-- The second window lowers the longer length to the shorter one by a lookup that drops. -/
private theorem lookup_second : ∃ rows, b.findLongestCacheHit (c.shrinkPool w b L) (tableHashes count)
      (c.maxLengthFor (tableHashes count) b true (2 * L)) true c.cacheHitAlignmentTokens =
        .ok (rows, L) := by
  have hmem := mem_of_getElem? h.second
  obtain ⟨⟨v, hkind⟩, -⟩ := dropsWindow_iff.mp h.second_drops
  have hfit : b.Fits (c.shrinkPool w b L).hashBlockSize c.cacheHitAlignmentTokens := fits hmem
  obtain ⟨k, hk⟩ := exists_blocks hmem hkind h.aligned
  have hunit := (coarse hkind hfit).2
  have hmax : c.maxLengthFor (tableHashes count) b true (2 * L) = (2 * k + 1) * b.blockSize := by
    have hne : (AttentionKind.slidingWindow v != .mamba) = true := rfl
    rw [maxLengthFor_eq hmem (h.unit_le le_rfl b), lookLength, hkind, hne,
      Bool.and_true, if_pos rfl, hunit, succ_mul (2 * k), mul_assoc, hk]
  have hlast : (2 * k + 1) * b.blockSize / b.blockSize = 2 * k + 1 :=
    Nat.mul_div_cancel _ hfit.block_pos
  have hspan := h.span_le b hmem
  rw [windowSpan_eq hkind, ← hk] at hspan
  have hblocks : windowBlocks v b.blockSize + 1 ≤ k :=
    le_of_mul_le_mul_right hspan hfit.block_pos
  have htwo : 2 * k * b.blockSize ≤ 2 * L := by rw [mul_assoc, hk]
  have hcached : ∀ m ≤ 2 * k, (c.shrinkPool w b L).cachedAt (tableHashes count) b.groupIds
      ((m + 1) * b.blockSize) ≠ none ↔ (m + 1) * b.blockSize ≤ (k + 1) * b.blockSize := by
    intro m hm
    rw [h.cachedAt_second hkind htwo hm, succ_mul k, hk]
  obtain ⟨rows, hfind⟩ : ∃ rows, SlidingWindowManager.findLongestCacheHit _
      _ ((2 * k + 1) * b.blockSize) b v true _ =
        .ok (rows, (if true then k + 1 - 1 else k + 1) * b.blockSize) := by
    refine findLongestCacheHit_complete hfit hkind ?_ (by omega) (by omega) ?_
      (fun m hm _ => (hcached m (by omega)).mpr (mul_le_mul_right _ hm)) fun m hm hm' => ?_
    · rw [hlast, length_tableHashes]
      exact h.block_le hmem hkind htwo le_rfl
    · rw [if_pos rfl, Nat.add_sub_cancel, hk]
      exact h.aligned
    · by_contra hne
      have := le_of_mul_le_mul_right ((hcached m (by omega)).mp hne) hfit.block_pos
      omega
  rw [if_pos rfl, Nat.add_sub_cancel, hk] at hfind
  rw [hmax, SpecGroup.findLongestCacheHit, hkind]
  exact ⟨rows, hfind⟩

/-- The first pass: the first window is verified at the longer length, then the second window
lowers it. -/
private theorem first_pass :
    ∃ s', c.visitAll (c.shrinkPool w b L) (tableHashes count) c.attentionGroups 0 (2 * L)
        initialState = .ok (L, s') ∧ c.Inv (c.shrinkPool w b L) (tableHashes count) L s' ∧
      i ∈ s'.eagleVerified ∧ j ∈ s'.eagleVerified := by
  have hpool : (c.shrinkPool w b L).hashBlockSize = c.hashBlockSize := rfl
  obtain ⟨hj, hgetj⟩ := List.getElem?_eq_some_iff.mp h.second
  have hsplit : c.attentionGroups =
      c.attentionGroups.take j ++ b :: c.attentionGroups.drop (j + 1) := by
    rw [← hgetj, cons_getElem_drop_succ, take_append_drop]
  have hlength : (c.attentionGroups.take j).length = j := length_take_of_le hj.le
  have hdvd : c.cacheHitAlignmentTokens ∣ 2 * L := h.aligned.mul_left 2
  -- the groups before the second window accept the longer length
  have htake : ∀ k g, (c.attentionGroups.take j)[k]? = some g →
      k < j ∧ c.attentionGroups[k]? = some g := by
    intro k g hk
    rw [getElem?_take] at hk
    split_ifs at hk with hlt
    exact ⟨hlt, hk⟩
  obtain ⟨s1, hpass1, hinv1, -, hown1⟩ := visitAll_accepts
    _ 0 (inv_initialState c _ (tableHashes count) (2 * L)) hpool
    (fun k g hk => by
      rw [zero_add]
      exact (htake k g hk).2)
    (fun k g hk drop hdrop => by
      obtain ⟨hlt, hget⟩ := htake k g hk
      by_cases hki : k = i
      · subst hki
        obtain rfl : w = g := some.inj (h.first.symm.trans hget)
        exact h.accepts_first
      · exact h.accepts_other hget hki hlt.ne hdvd (by omega) le_rfl fun htrue => (hdrop htrue).1)
  have hi1 : i ∈ s1.eagleVerified := by
    have := hown1 i w (by rw [getElem?_take, if_pos h.lt]; exact h.first) h.first_drops
    rwa [zero_add] at this
  -- the second window drops
  obtain ⟨⟨v, hkind⟩, heagle⟩ := dropsWindow_iff.mp h.second_drops
  have hdrop : s1.dropEagleBlock b j = true := by
    have hunseen : j ∉ s1.eagleVerified := by
      refine hinv1.unseen j ?_
      rw [visitAll_hits_of_ge hpass1 (by rw [hlength, zero_add])]
      rfl
    simp [dropEagleBlock, heagle, hunseen]
  obtain ⟨rows, hfind⟩ := h.lookup_second
  rw [← hdrop] at hfind
  obtain ⟨s2, hvisit⟩ := visit_of_lookup (fun hfull => by rw [hkind] at hfull; cases hfull) hfind
  obtain ⟨-, hinv2⟩ := hinv1.visit hpool h.second hvisit
  have hverified : s2.eagleVerified = j :: s1.eagleVerified := by
    rcases visit_ok hvisit with ⟨hfull, -⟩ | ⟨-, -, -, -, heq⟩
    · rw [hkind] at hfull
      cases hfull
    · rw [heq, if_pos hdrop]
  -- the groups after it accept the shorter length
  have hdropGet : ∀ k g, (c.attentionGroups.drop (j + 1))[k]? = some g →
      c.attentionGroups[j + 1 + k]? = some g := fun k g hk => by rwa [getElem?_drop] at hk
  obtain ⟨s3, hpass3, hinv3, hkeep3, -⟩ := visitAll_accepts
    _ (j + 1) hinv2 hpool hdropGet
    (fun k g hk drop hdrop => by
      have hlt := h.lt
      exact h.accepts_other (hdropGet k g hk) (by omega) (by omega) h.aligned le_rfl (by omega)
        fun htrue => (hdrop htrue).1)
  refine ⟨s3, ?_, hinv3, hkeep3 i ?_, hkeep3 j ?_⟩
  · rw [hsplit, visitAll_append, hpass1]
    dsimp only
    rw [hlength, zero_add, visitAll, hvisit]
    exact hpass3
  · rw [hverified]
    exact mem_cons_of_mem _ hi1
  · rw [hverified]
    exact mem_cons_self

/-- The second pass: neither window looks at the unit after the shorter length. -/
private theorem second_pass {s : SearchState 2}
    (hinv : c.Inv (c.shrinkPool w b L) (tableHashes count) L s) (hi : i ∈ s.eagleVerified)
    (hj : j ∈ s.eagleVerified) :
    ∃ s', c.visitAll (c.shrinkPool w b L) (tableHashes count) c.attentionGroups 0 L s =
      .ok (L, s') := by
  obtain ⟨s', hpass, -⟩ := visitAll_accepts _ 0 hinv rfl
    (fun k g hk => by rwa [zero_add]) fun k g hk drop hdrop => by
      rw [zero_add] at hdrop
      have hfalse : k ∈ s.eagleVerified → drop = false := fun hmem => by
        rw [← Bool.not_eq_true]
        exact fun htrue => (hdrop htrue).2 hmem
      by_cases hki : k = i
      · subst hki
        obtain rfl : w = g := some.inj (h.first.symm.trans hk)
        rw [hfalse hi]
        exact h.accepts_first_short
      · by_cases hkj : k = j
        · subst hkj
          obtain rfl : b = g := some.inj (h.second.symm.trans hk)
          rw [hfalse hj]
          exact h.accepts_second_short
        · exact h.accepts_other hk hki hkj h.aligned le_rfl (by omega)
            fun htrue => (hdrop htrue).1
  exact ⟨s', hpass⟩

private theorem search :
    ∃ hit, c.findLongestCacheHit (c.shrinkPool w b L) (tableHashes count) (2 * L) = .ok hit ∧
      hit.hitLength = L := by
  obtain ⟨s1, hpass1, hinv1, hi, hj⟩ := h.first_pass
  obtain ⟨s2, hpass2⟩ := h.second_pass hinv1 hi hj
  have hsimple : c.isSimpleHybrid = false := by
    rw [isSimpleHybrid]
    split
    · next f x hgroups =>
      obtain ⟨⟨v, hkind⟩, -⟩ := dropsWindow_iff.mp h.first_drops
      have hfirst := h.first
      have hsecond := h.second
      have hlt := h.lt
      rw [hgroups] at hfirst hsecond
      -- the first window is the first of two groups
      obtain ⟨hj', -⟩ := List.getElem?_eq_some_iff.mp hsecond
      obtain rfl : i = 0 := by
        rw [length_cons, length_cons, length_nil] at hj'
        omega
      obtain rfl : f = w := some.inj hfirst
      simp [hkind]
    · rfl
  have hpos := h.pos
  have hsearch : descend (c.visitAll (c.shrinkPool w b L) (tableHashes count) c.attentionGroups 0)
      c.isSimpleHybrid (2 * L) initialState = .ok (L, s2) := by
    rw [descend, hpass1, hsimple]
    dsimp only
    rw [if_neg (by omega), if_neg Bool.false_ne_true, descend, hpass2]
    dsimp only
    rw [if_pos le_rfl]
  rw [findLongestCacheHit, hsearch]
  exact ⟨_, rfl, rfl⟩

/-- The unit after it is not cached for the first window. -/
private theorem not_eaglePeeked : ¬c.EaglePeeked (c.shrinkPool w b L) (tableHashes count) (2 * L) := by
  intro hpeeked
  obtain ⟨hit, hfind, hlength⟩ := h.search
  have hmem := mem_of_getElem? h.first
  obtain ⟨⟨v, hkind⟩, heagle⟩ := dropsWindow_iff.mp h.first_drops
  have hfit : w.Fits (c.shrinkPool w b L).hashBlockSize c.cacheHitAlignmentTokens := fits hmem
  obtain ⟨k, hk⟩ := exists_blocks hmem hkind h.aligned
  obtain ⟨numTokens, hge, hle, hcached⟩ := hpeeked hit hfind (hlength ▸ h.pos) w hmem heagle
  rw [hlength, (coarse hkind hfit).2] at hge
  rw [hlength, ← hk, Nat.mul_div_cancel _ hfit.block_pos] at hle
  obtain rfl : numTokens = (k + 1) * w.blockSize := by
    refine le_antisymm hle ?_
    rw [succ_mul, hk]
    exact hge
  refine (h.cachedAt_first hkind (by omega) le_rfl).mp hcached ?_
  rw [succ_mul, hk]

end

end Shrinks

/-- Two sliding windows that drop can always be set up so. -/
private theorem exists_shrinks [c.ChunkedSupported] (hone : ¬OneWindowDrops c.attentionGroups) :
    ∃ a b i j L count, c.Shrinks a b i j L count := by
  rw [OneWindowDrops, pairwise_iff_getElem] at hone
  push Not at hone
  obtain ⟨i, j, hi, hj, hlt, ha, hb⟩ := hone
  have hfit := fits (getElem_mem hi)
  have hdvd : c.hashBlockSize ∣ c.cacheHitAlignmentTokens := by
    rcases hfit.align with halign | ⟨heq, -⟩
    · exact hfit.dvd.trans halign
    · rw [heq]
  set L := c.cacheHitAlignmentTokens * ((c.attentionGroups.map windowSpan).sum + 1)
  have hLdvd : c.cacheHitAlignmentTokens ∣ L := dvd_mul_right _ _
  refine ⟨_, _, i, j, L, (2 * L + c.cacheHitAlignmentTokens) / c.hashBlockSize,
    getElem?_eq_getElem hi, getElem?_eq_getElem hj, hlt, ha, hb, hLdvd,
    mul_pos hfit.align_pos (succ_pos _), fun g hg => ?_, Nat.div_mul_cancel ?_⟩
  · have hsum : windowSpan g ≤ (c.attentionGroups.map windowSpan).sum :=
      le_sum_of_mem (mem_map_of_mem hg)
    exact (hsum.trans (le_succ _)).trans (Nat.le_mul_of_pos_left _ hfit.align_pos)
  · exact Nat.dvd_add (hdvd.trans (hLdvd.mul_left 2)) hdvd

/-- **When EAGLE groups are verified at the hit.** If Mamba does not use EAGLE, the unit after
every positive hit is cached for every group that does, for all pool contents, hashes and bounds,
just when at most one sliding window uses EAGLE, or the search never returns as chunked local
attention is not supported. -/
theorem eaglePeeked_iff (c : HybridKVCacheCoordinator)
    (hmamba : ∀ g ∈ c.attentionGroups, g.useEagle = true → g.kind ≠ .mamba) :
    (∀ (n : ℕ) (pool : BlockPool n) (hashes : List BlockHash) (maxCacheHitLength : ℕ),
      pool.hashBlockSize = c.hashBlockSize → c.EaglePeeked pool hashes maxCacheHitLength) ↔
    (c.ChunkedSupported → OneWindowDrops c.attentionGroups) := by
  constructor
  · intro hall hsupported
    by_contra hone
    obtain ⟨a, b, i, j, L, count, hshrinks⟩ := exists_shrinks hone
    exact hshrinks.not_eaglePeeked (hall _ _ _ _ rfl)
  · intro hone n pool hashes maxCacheHitLength hpool hit hfind
    have hsupported := chunkedSupported_of_ok hfind
    exact eaglePeeked_of_oneWindowDrops hpool hmamba (hone hsupported) hit hfind

/-- Two sliding windows of five and nine tokens in blocks of four, both using EAGLE. -/
def twoWindows : HybridKVCacheCoordinator where
  hashBlockSize := 4
  schedulerBlockSize := 4
  enablePartialHashHits := false
  attentionGroups := [⟨.slidingWindow 5, 4, [0], true⟩, ⟨.slidingWindow 9, 4, [1], true⟩]
  hashBlockSize_pos := windowsFirst.hashBlockSize_pos
  schedulerBlockSize_pos := windowsFirst.schedulerBlockSize_pos
  attentionGroups_ne_nil := by decide
  hashBlockSize_dvd := by decide
  blockSize_dvd := by decide
  partial_hits := by decide
  full_first := by simp
  groupIds_ne_nil := by decide
  groupIds_nodup := by decide
  groupIds_lt := by decide
  chunkSize_pos := by simp

instance : twoWindows.ChunkedSupported := ⟨by simp [twoWindows]⟩

/-- Seven hashes. The first window holds all prefixes but 16 tokens, the second those up to 16. The
first is verified at 24, the second lowers the hit to 12 by its drop, and 12 is returned although
the block after it is missing for the first window. -/
theorem not_eaglePeeked_twoWindows : ¬twoWindows.EaglePeeked
      (twoWindows.shrinkPool ⟨.slidingWindow 5, 4, [0], true⟩ ⟨.slidingWindow 9, 4, [1], true⟩ 12)
      (tableHashes 7) 24 := by
  have hshrinks : twoWindows.Shrinks ⟨.slidingWindow 5, 4, [0], true⟩
      ⟨.slidingWindow 9, 4, [1], true⟩ 0 1 12 7 :=
    ⟨rfl, rfl, by decide, rfl, rfl, by decide, by decide, by decide, rfl⟩
  exact hshrinks.not_eaglePeeked

/-- Mamba does not use EAGLE in `twoWindows`, so the equivalence applies to it. -/
theorem eaglePeeked_iff_twoWindows :
    ¬∀ (n : ℕ) (pool : BlockPool n) (hashes : List BlockHash) (maxCacheHitLength : ℕ),
      pool.hashBlockSize = twoWindows.hashBlockSize →
        twoWindows.EaglePeeked pool hashes maxCacheHitLength := by
  rw [eaglePeeked_iff _ (by decide)]
  intro hone
  exact absurd (hone inferInstance) (by decide)

end HybridKVCacheCoordinator

end Sonar
