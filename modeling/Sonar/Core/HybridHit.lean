import Mathlib.Algebra.Ring.Parity
import Sonar.Core.HybridCoordinator

/-!
# Hits of the hybrid coordinator

`HitOk` says that the search returns an aligned length within the bound at which every group can
resume with the rows it returned. It holds for all pool contents, hashes and bounds just when the
groups of the coordinator meet three conditions:

* `ChunkedSupported`: what the lookup of chunked local attention asserts;
* `boundedByHashes`: the first lookup that could run past the hashes of the request is one that
  stops at them;
* `onePassSuffices`: a model of full attention and chunked local attention is searched in one pass,
  so a miss must not move the hit into an earlier chunk.

This file proves that the conditions are enough.
-/

namespace Sonar

open Lib List SearchState

namespace HybridKVCacheCoordinator

variable {c : HybridKVCacheCoordinator} {n : ℕ} {pool : BlockPool n} {hashes : List BlockHash}
  {g : SpecGroup} {gs : List SpecGroup} {idx curr curr' : ℕ} {s s' : SearchState n}

/-! ### Passes -/

/-- The groups `gs` are those of the coordinator from index `idx` on. -/
def From (c : HybridKVCacheCoordinator) (gs : List SpecGroup) (idx : ℕ) : Prop :=
  c.attentionGroups.drop idx = gs

/-- The group that is next. -/
theorem From.head (h : c.From (g :: gs) idx) : c.attentionGroups[idx]? = some g := by
  rw [← head?_drop, h]
  rfl

/-- The groups after it. -/
theorem From.tail (h : c.From (g :: gs) idx) : c.From gs (idx + 1) := by
  rw [From, ← tail_drop, h]
  rfl

/-- A pass starts at the first group. -/
theorem from_zero (c : HybridKVCacheCoordinator) : c.From c.attentionGroups 0 := rfl

/-- A visit keeps the hits of other groups, and leaves one for its own. -/
theorem visit_hits (h : c.visit pool hashes idx g curr s = .ok (curr', s')) :
    (∀ j ≠ idx, s'.hits j = s.hits j) ∧ ∃ hit, s'.hits idx = some hit := by
  rcases visit_ok h with ⟨-, rfl, hit, hhit, -⟩ | ⟨-, rows, -, hhits, -⟩
  · exact ⟨fun _ _ => rfl, hit, hhit⟩
  · rw [hhits]
    exact ⟨fun j hj => Function.update_of_ne hj _ _, _, Function.update_self ..⟩

/-- A pass is the visit of a group, then the rest. -/
theorem visitAll_cons (h : c.visitAll pool hashes (g :: gs) idx curr s = .ok (curr', s')) :
    ∃ curr1 s1, c.visit pool hashes idx g curr s = .ok (curr1, s1) ∧
      c.visitAll pool hashes gs (idx + 1) curr1 s1 = .ok (curr', s') := by
  rw [visitAll] at h
  split at h
  · cases h
  · next curr1 s1 hvisit => exact ⟨curr1, s1, hvisit, h⟩

private theorem visitAll_hits_of_lt (h : c.visitAll pool hashes gs idx curr s = .ok (curr', s')) {j : ℕ}
    (hj : j < idx) : s'.hits j = s.hits j := by
  induction gs generalizing idx curr s with
  | nil =>
    cases h
    rfl
  | cons g gs ih =>
    obtain ⟨curr1, s1, hvisit, hrest⟩ := visitAll_cons h
    rw [ih hrest (by omega), (visit_hits hvisit).1 j (by omega)]

section

variable [c.ChunkedSupported] (hpool : pool.hashBlockSize = c.hashBlockSize)

include hpool

/-- A whole pass shortens the hit, or keeps it. -/
theorem Inv.visitAll (hinv : c.Inv pool hashes curr s) (hfrom : c.From gs idx)
    (h : c.visitAll pool hashes gs idx curr s = .ok (curr', s')) :
    curr' ≤ curr ∧ c.Inv pool hashes curr' s' := by
  induction gs generalizing idx curr s with
  | nil =>
    cases h
    exact ⟨le_rfl, hinv⟩
  | cons g gs ih =>
    obtain ⟨curr1, s1, hvisit, hrest⟩ := visitAll_cons h
    obtain ⟨hle, hinv1⟩ := hinv.visit hpool hfrom.head hvisit
    obtain ⟨hle', hinv'⟩ := ih hinv1 hfrom.tail hrest
    exact ⟨hle'.trans hle, hinv'⟩

/-- The rows of full attention, cut to the candidate, are usable there. -/
private theorem Inv.usable_full (hinv : c.Inv pool hashes curr s) (hget : c.attentionGroups[idx]? = some g)
    (hkind : g.kind = .fullAttention) {hit : GroupHit n} (hhit : s.hits idx = some hit) :
    g.Usable pool hashes (finalRows s curr g idx) curr := by
  obtain ⟨hcut, hle⟩ := hinv.full idx g hit hget hkind hhit
  have hfit : g.Fits pool.hashBlockSize c.cacheHitAlignmentTokens :=
    hpool ▸ fits (mem_of_getElem? hget)
  rw [finalRows, hhit]
  simp only [hkind]
  exact hcut.usable hkind hfit.block_pos hle

/-- A visit that looks a candidate up, and what its rows are good for. -/
private theorem visit_usable (hget : c.attentionGroups[idx]? = some g)
    (h : c.visit pool hashes idx g curr s = .ok (curr', s')) (hne : g.kind ≠ .fullAttention)
    (hchunk : ∀ k, g.kind = .chunkedLocalAttention k → curr / k * k ≤ curr' ∨ k ∣ curr') :
    g.Usable pool hashes (finalRows s' curr' g idx) curr' := by
  have hfit : g.Fits pool.hashBlockSize c.cacheHitAlignmentTokens :=
    hpool ▸ fits (mem_of_getElem? hget)
  rcases visit_ok h with ⟨hkind, -⟩ | ⟨-, rows, hfind, hhits, -⟩
  · exact absurd hkind hne
  obtain ⟨-, hreturned⟩ := findLongestCacheHit_returned hfit useEagle_of_drop hfind
  have hrows : finalRows s' curr' g idx = rows := by
    rw [finalRows, hhits, Function.update_self]
    exact if_neg hne
  rw [hrows]
  refine hreturned.usable hne fun k hkind => ?_
  -- chunked local attention does not drop, so it looked up the candidate itself
  have hdrop : s.dropEagleBlock g idx = false := by
    rw [dropEagleBlock, (hfit.chunked k hkind).2.2, Bool.false_and]
  rw [hdrop]
  exact hchunk k hkind

/-- A pass that returns the candidate it was given leaves usable rows for every group. -/
private theorem visitAll_usable (hinv : c.Inv pool hashes curr s) (hfrom : c.From gs idx)
    (h : c.visitAll pool hashes gs idx curr s = .ok (curr, s')) {k : ℕ}
    (hk : gs[k]? = some g) : g.Usable pool hashes (finalRows s' curr g (idx + k)) curr := by
  induction gs generalizing idx s k with
  | nil => simp at hk
  | cons g0 gs ih =>
    obtain ⟨curr1, s1, hvisit, hrest⟩ := visitAll_cons h
    obtain ⟨hle, hinv1⟩ := hinv.visit hpool hfrom.head hvisit
    obtain ⟨hle', hinv'⟩ := hinv1.visitAll hpool hfrom.tail hrest
    obtain rfl : curr1 = curr := le_antisymm hle hle'
    rcases k with _ | k
    · obtain rfl : g0 = g := Option.some.inj hk
      have hframe : s'.hits idx = s1.hits idx := visitAll_hits_of_lt hrest (Nat.lt_succ_self idx)
      obtain ⟨-, hit, hhit⟩ := visit_hits hvisit
      by_cases hkind : g0.kind = .fullAttention
      · exact hinv'.usable_full hpool hfrom.head hkind (hframe.trans hhit)
      · have husable := visit_usable hpool hfrom.head hvisit hkind fun k _ =>
          .inl (Nat.div_mul_le_self curr1 k)
        rwa [finalRows, ← hframe] at husable
    · rw [← Nat.succ_add_eq_add_succ]
      exact ih hinv1 hfrom.tail hrest hk

end

/-! ### Within the hashes of the request -/

/-- Whether the first lookup that could run past the hashes of the request stops at them: full
attention and fine-grained Mamba do, and a sliding window that looks ahead for EAGLE. Chunked local
attention is no danger, nor a bound, if no block reaches across the start of a chunk. -/
def boundedByHashes (alignmentTokens : ℕ) : List SpecGroup → Bool
  | [] => true
  | g :: gs =>
    match g.kind with
    | .fullAttention => true
    | .slidingWindow _ => g.useEagle
    | .chunkedLocalAttention chunkSize =>
      decide (chunkSize ∣ g.blockSize) && boundedByHashes alignmentTokens gs
    | .mamba => g.fineGrained alignmentTokens

/-- A visit that looks the candidate up returns what the lookup returns. -/
theorem visit_of_lookup (hnone : g.kind = .fullAttention → s.hits idx = none)
    {rows : List (Row n)} (hfind : g.findLongestCacheHit pool hashes
      (c.maxLengthFor hashes g (s.dropEagleBlock g idx) curr) (s.dropEagleBlock g idx)
      c.cacheHitAlignmentTokens = .ok (rows, curr')) :
    ∃ s', c.visit pool hashes idx g curr s = .ok (curr', s') := by
  rw [visit]
  split
  · next hit hkind hhit =>
    rw [hnone hkind] at hhit
    cases hhit
  · dsimp only
    rw [hfind]
    exact ⟨_, rfl⟩

section

variable (hpool : pool.hashBlockSize = c.hashBlockSize)

include hpool

/-- How far a group looks: no further than the candidate, or than the hashes. -/
private theorem maxLengthFor_le {drop : Bool}
    (h : drop = true ∧ g.kind ≠ .mamba ∨ curr ≤ hashes.length * pool.hashBlockSize) :
    c.maxLengthFor hashes g drop curr ≤ hashes.length * pool.hashBlockSize := by
  rw [maxLengthFor, hpool]
  split_ifs with hdrop
  · exact min_le_right _ _
  · rcases h with ⟨rfl, hne⟩ | hle
    · exact absurd (by simpa using hne) hdrop
    · exact hpool ▸ hle

variable [c.ChunkedSupported]

/-- A visit does not raise if the candidate is within the hashes or the search is bounded by them,
and one of the two is true after it. -/
theorem visit_total (hinv : c.Inv pool hashes curr s) (hget : c.attentionGroups[idx]? = some g)
    (hbound : boundedByHashes c.cacheHitAlignmentTokens (g :: gs) = true ∨
      curr ≤ hashes.length * pool.hashBlockSize) :
    ∃ curr' s', c.visit pool hashes idx g curr s = .ok (curr', s') ∧
      (boundedByHashes c.cacheHitAlignmentTokens gs = true ∨
        curr' ≤ hashes.length * pool.hashBlockSize) := by
  have hg := mem_of_getElem? hget
  have hfit : g.Fits pool.hashBlockSize c.cacheHitAlignmentTokens := hpool ▸ fits hg
  by_cases hseen : g.kind = .fullAttention ∧ s.hits idx ≠ none
  · obtain ⟨hkind, hne⟩ := hseen
    obtain ⟨hit, hhit⟩ := Option.ne_none_iff_exists'.mp hne
    refine ⟨min curr _, s, ?_, .inr ((min_le_right _ _).trans
      (hinv.full idx g hit hget hkind hhit).1.le_hashes)⟩
    rw [visit]
    simp [hkind, hhit]
  have hnone : g.kind = .fullAttention → s.hits idx = none := fun hkind =>
    not_not.mp fun hne => hseen ⟨hkind, hne⟩
  -- a sliding window that uses EAGLE has dropped, within the hashes, or does so now
  have hwindow : ∀ w, g.kind = .slidingWindow w →
      c.maxLengthFor hashes g (s.dropEagleBlock g idx) curr ≤
        hashes.length * pool.hashBlockSize := by
    intro w hkind
    refine maxLengthFor_le hpool ?_
    rcases hbound with hbound | hle
    · rw [boundedByHashes, hkind] at hbound
      by_cases hmem : idx ∈ s.eagleVerified
      · exact .inr (hinv.verified_le (ne_nil_of_mem hmem))
      · refine .inl ⟨?_, by rw [hkind]; exact AttentionKind.noConfusion⟩
        simpa [dropEagleBlock, hmem] using hbound
    · exact .inr hle
  have hwithin : curr ≤ hashes.length * pool.hashBlockSize →
      c.maxLengthFor hashes g (s.dropEagleBlock g idx) curr ≤
        hashes.length * pool.hashBlockSize := fun hle => maxLengthFor_le hpool (.inr hle)
  have hraise : c.maxLengthFor hashes g (s.dropEagleBlock g idx) curr ≤
        hashes.length * pool.hashBlockSize ∨ g.kind = .fullAttention ∨
      (∃ k, g.kind = .chunkedLocalAttention k ∧ k ∣ g.blockSize) ∨
      g.kind = .mamba ∧ g.fineGrained c.cacheHitAlignmentTokens = true := by
    rcases hbound with hbound | hle
    · rw [boundedByHashes] at hbound
      rcases hkind : g.kind with _ | w | k | _ <;> rw [hkind] at hbound
      · exact .inr (.inl rfl)
      · exact .inl (hwindow w hkind)
      · exact .inr (.inr (.inl ⟨k, rfl, of_decide_eq_true (Bool.and_eq_true_iff.mp hbound).1⟩))
      · exact .inr (.inr (.inr ⟨rfl, hbound⟩))
    · exact .inl (hwithin hle)
  obtain ⟨rows, curr', hfind⟩ := findLongestCacheHit_total hfit useEagle_of_drop hraise
  obtain ⟨s', hvisit⟩ := visit_of_lookup hnone hfind
  obtain ⟨hbounded, hreturned⟩ := findLongestCacheHit_returned hfit useEagle_of_drop hfind
  refine ⟨curr', s', hvisit, ?_⟩
  rw [SpecGroup.Returned] at hreturned
  rcases hkind : g.kind with _ | w | k | _ <;> rw [hkind] at hreturned
  · exact .inr hreturned.le_hashes
  · exact .inr (hbounded.le.trans (hwindow w hkind))
  · rcases hbound with hbound | hle
    · rw [boundedByHashes, hkind] at hbound
      exact .inl (Bool.and_eq_true_iff.mp hbound).2
    · exact .inr (hbounded.le.trans (hwithin hle))
  · exact .inr hreturned.2

private theorem visitAll_total (hinv : c.Inv pool hashes curr s) (hfrom : c.From gs idx)
    (hbound : boundedByHashes c.cacheHitAlignmentTokens gs = true ∨
      curr ≤ hashes.length * pool.hashBlockSize) :
    ∃ curr' s', c.visitAll pool hashes gs idx curr s = .ok (curr', s') := by
  induction gs generalizing idx curr s with
  | nil => exact ⟨_, _, rfl⟩
  | cons g gs ih =>
    obtain ⟨curr1, s1, hvisit, hbound1⟩ := visit_total hpool hinv hfrom.head hbound
    obtain ⟨-, hinv1⟩ := hinv.visit hpool hfrom.head hvisit
    rw [visitAll, hvisit]
    exact ih hinv1 hfrom.tail hbound1

end

/-! ### One pass over two groups -/

/-- Whether one pass is enough for full attention and chunked local attention: a miss leaves the
hit in the chunk it was looked up for, or at the start of a chunk. -/
def onePassSuffices : List SpecGroup → Bool
  | [f, g] =>
    match f.kind, g.kind with
    | .fullAttention, .chunkedLocalAttention chunkSize =>
      decide (g.blockSize ∣ chunkSize ∨ chunkSize < g.blockSize ∧ chunkSize ∣ 2 * g.blockSize)
    | _, _ => true
  | _ => true

/-- A miss in the block in which a chunk starts, before that start: the block starts a chunk. -/
private theorem chunk_dvd {b k l r : ℕ} (hb : 0 < b) (hk : 0 < k) (hl : b ∣ l) (hr : b ∣ r)
    (hge : l / k * k / b * b ≤ r) (hlt : r < l / k * k)
    (hfit : b ∣ k ∨ k < b ∧ k ∣ 2 * b) : k ∣ r := by
  rcases hfit with hdvd | ⟨hkb, hdvd⟩
  · rw [Nat.div_mul_cancel (hdvd.mul_left _)] at hge
    omega
  obtain ⟨m, rfl⟩ := exists_eq_mul_left_of_dvd hl
  obtain ⟨q, rfl⟩ := exists_eq_mul_left_of_dvd hr
  have hmod : m * b / k * k + m * b % k = m * b := Nat.div_add_mod' (m * b) k
  have hrem : m * b % k < k := Nat.mod_lt _ hk
  -- the chunk starts in the block before the last one
  have hqm : q < m := Nat.lt_of_mul_lt_mul_right (a := b) (by omega)
  have hstart : m - 1 ≤ m * b / k * k / b := by
    rw [Nat.le_div_iff_mul_le hb, Nat.sub_mul]
    omega
  have hq : q = m - 1 := by
    have : m * b / k * k / b ≤ q := le_of_mul_le_mul_right hge hb
    omega
  have heven : ∀ i, k ∣ 2 * i * b := by
    intro i
    rw [mul_comm 2 i, mul_assoc]
    exact hdvd.mul_left i
  rcases Nat.even_or_odd' m with ⟨i, hi | hi⟩
  · -- an even number of blocks is a whole number of chunks
    have hzero : m * b % k = 0 := Nat.mod_eq_zero_of_dvd (hi ▸ heven i)
    have hblocks : m * b / k * k = m * b := by omega
    rw [hblocks, Nat.mul_div_cancel _ hb] at hge
    omega
  · have hq' : q = 2 * i := by omega
    exact hq' ▸ heven i

section

variable [c.ChunkedSupported] (hpool : pool.hashBlockSize = c.hashBlockSize)

include hpool

/-- A visit of chunked local attention returns no less than the block in which its chunk starts. -/
theorem visit_chunk_ge (hget : c.attentionGroups[idx]? = some g) {k : ℕ}
    (hkind : g.kind = .chunkedLocalAttention k)
    (h : c.visit pool hashes idx g curr s = .ok (curr', s')) :
    curr / k * k / g.blockSize * g.blockSize ≤ curr' ∧ c.cacheHitAlignmentTokens ∣ curr' := by
  have hfit : g.Fits pool.hashBlockSize c.cacheHitAlignmentTokens :=
    hpool ▸ fits (mem_of_getElem? hget)
  rcases visit_ok h with ⟨hfull, -⟩ | ⟨-, rows, hfind, -, -⟩
  · rw [hkind] at hfull
    cases hfull
  obtain ⟨hbounded, hreturned⟩ := findLongestCacheHit_returned hfit useEagle_of_drop hfind
  have hdrop : s.dropEagleBlock g idx = false := by
    rw [dropEagleBlock, (hfit.chunked k hkind).2.2, Bool.false_and]
  rw [SpecGroup.Returned, hkind] at hreturned
  have hge := hreturned.1
  rw [hdrop] at hge
  exact ⟨hge, hbounded.aligned⟩

/-- After one pass over full attention and one other group, both have usable rows. -/
private theorem visitAll_usable_two {f : SpecGroup}
    (hgroups : c.attentionGroups = [f, g]) (hf : f.kind = .fullAttention)
    (hfit : onePassSuffices c.attentionGroups = true)
    (h : c.visitAll pool hashes c.attentionGroups 0 curr initialState = .ok (curr', s')) {i : ℕ}
    {x : SpecGroup} (hi : c.attentionGroups[i]? = some x) :
    x.Usable pool hashes (finalRows s' curr' x i) curr' := by
  have hinv := inv_initialState c pool hashes curr
  have hfrom : c.From [f, g] 0 := hgroups
  have h' := h
  rw [hgroups] at h'
  obtain ⟨curr1, s1, hvisit1, hrest⟩ := visitAll_cons h'
  obtain ⟨-, hinv1⟩ := hinv.visit hpool hfrom.head hvisit1
  obtain ⟨curr2, s2, hvisit2, hlast⟩ := visitAll_cons hrest
  obtain ⟨rfl, rfl⟩ := Prod.mk.inj (Except.ok.inj hlast)
  obtain ⟨-, hinv2⟩ := hinv1.visit hpool hfrom.tail.head hvisit2
  obtain ⟨hframe, hit2, hhit2⟩ := visit_hits hvisit2
  obtain ⟨-, hit1, hhit1⟩ := visit_hits hvisit1
  have haligned : c.cacheHitAlignmentTokens ∣ curr1 := hinv1.aligned.resolve_left fun hnone => by
      rw [hnone 0] at hhit1
      cases hhit1
  rw [hgroups] at hi
  rcases i with _ | _ | i
  · obtain rfl : f = x := Option.some.inj hi
    exact hinv2.usable_full hpool hfrom.head hf ((hframe 0 (by omega)).trans hhit1)
  · obtain rfl : g = x := Option.some.inj hi
    have hget := hfrom.tail.head
    by_cases hg : g.kind = .fullAttention
    · exact hinv2.usable_full hpool hget hg hhit2
    refine visit_usable hpool hget hvisit2 hg fun k hkind => ?_
    obtain ⟨hge, hdvd⟩ := visit_chunk_ge hpool hget hkind hvisit2
    have hchunk := (fits (mem_of_getElem? hget)).chunked k hkind
    have hpos := (fits (mem_of_getElem? hget)).block_pos
    rw [hgroups, onePassSuffices, hf, hkind] at hfit
    rcases lt_or_ge curr2 (curr1 / k * k) with hlt | hle
    · exact .inr (chunk_dvd hpos hchunk.2.1 (hchunk.1 ▸ haligned) (hchunk.1 ▸ hdvd) hge hlt
        (of_decide_eq_true hfit))
    · exact .inl hle
  · simp at hi

/-! ### The search -/

/-- The search returns an aligned length within its bound, with usable rows for every group. -/
def HitOk (c : HybridKVCacheCoordinator) (pool : BlockPool n) (hashes : List BlockHash)
    (maxCacheHitLength : ℕ) : Prop :=
  ∃ hit, c.findLongestCacheHit pool hashes maxCacheHitLength = .ok hit ∧
    hit.hitLength ≤ maxCacheHitLength ∧ c.cacheHitAlignmentTokens ∣ hit.hitLength ∧
    ∀ (idx : ℕ) (g : SpecGroup), c.attentionGroups[idx]? = some g →
      ∃ rows, hit.rows[idx]? = some rows ∧ g.Usable pool hashes rows hit.hitLength

/-- A pass leaves a hit for the first group, so its candidate is aligned. -/
theorem Inv.dvd_of_pass (hinv : c.Inv pool hashes curr s)
    (h : c.visitAll pool hashes c.attentionGroups 0 curr s = .ok (curr', s')) :
    c.cacheHitAlignmentTokens ∣ curr' := by
  obtain ⟨-, hinv'⟩ := hinv.visitAll hpool c.from_zero h
  obtain ⟨g, gs, hgroups⟩ := exists_cons_of_ne_nil c.attentionGroups_ne_nil
  rw [hgroups] at h
  obtain ⟨curr1, s1, hvisit, hrest⟩ := visitAll_cons h
  obtain ⟨-, hit, hhit⟩ := visit_hits hvisit
  refine hinv'.aligned.resolve_left fun hnone => ?_
  rw [← visitAll_hits_of_lt hrest one_pos, hnone 0] at hhit
  cases hhit

private theorem search_sound {bound r : ℕ}
    (h : descend (c.visitAll pool hashes c.attentionGroups 0) c.isSimpleHybrid bound initialState =
      .ok (r, s')) : r ≤ bound ∧ ((∃ t, c.Inv pool hashes r t ∧
        c.visitAll pool hashes c.attentionGroups 0 r t = .ok (r, s')) ∨ c.isSimpleHybrid = true ∧
        c.visitAll pool hashes c.attentionGroups 0 bound initialState = .ok (r, s')) :=
  descend_sound h (fun _ _ _ _ hinv hpass => hinv.visitAll hpool c.from_zero hpass)
    (inv_initialState c pool hashes bound)

/-- A coordinator whose search is bounded by the hashes, and which does not stop too early, finds
usable hits. -/
theorem hitOk_of_conditions
    (hbound : boundedByHashes c.cacheHitAlignmentTokens c.attentionGroups = true)
    (hfit : onePassSuffices c.attentionGroups = true) {maxCacheHitLength : ℕ} :
    c.HitOk pool hashes maxCacheHitLength := by
  obtain ⟨r, s', hsearch⟩ : ∃ r s', descend (c.visitAll pool hashes c.attentionGroups 0)
      c.isSimpleHybrid maxCacheHitLength _ = .ok (r, s') := by
    refine descend_total (fun b t hinv => ?_) (inv_initialState c pool hashes _)
    obtain ⟨curr', t', hpass⟩ := visitAll_total hpool hinv c.from_zero (.inl hbound)
    exact ⟨curr', t', hpass, (hinv.visitAll hpool c.from_zero hpass).2⟩
  obtain ⟨hle, hend⟩ := search_sound hpool hsearch
  have husable : c.cacheHitAlignmentTokens ∣ r ∧ ∀ idx (g : SpecGroup), c.attentionGroups[idx]? = some g →
      g.Usable pool hashes (finalRows s' r g idx) r := by
    rcases hend with ⟨t, hinv, hpass⟩ | ⟨hsimple, hpass⟩
    · refine ⟨hinv.dvd_of_pass hpool hpass, fun idx g hget => ?_⟩
      have := visitAll_usable hpool hinv c.from_zero hpass hget
      rwa [zero_add] at this
    · refine ⟨(inv_initialState c pool hashes _).dvd_of_pass hpool hpass, fun idx g hget => ?_⟩
      obtain ⟨f, x, hgroups, hf⟩ : ∃ f x, c.attentionGroups = [f, x] ∧ f.kind = .fullAttention := by
        rw [isSimpleHybrid] at hsimple
        split at hsimple
        · next f x hgroups => exact ⟨f, x, hgroups, by simpa using hsimple⟩
        · cases hsimple
      exact visitAll_usable_two hpool hgroups hf hfit hpass hget
  refine ⟨_, by rw [findLongestCacheHit, hsearch], hle, husable.1, fun idx g hget => ?_⟩
  refine ⟨finalRows s' r g idx, ?_, husable.2 idx g hget⟩
  simp [hget]

end

end HybridKVCacheCoordinator

end Sonar
