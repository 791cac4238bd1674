import Sonar.Core.LookupComplete

/-!
# When the hybrid search finds usable hits

The conditions of `HybridHit` are also necessary: a coordinator that fails one of them can be given
a pool, hashes and a bound for which the search raises or returns a hit that a group cannot use.
One that fails `ChunkedSupported` raises in every search.
-/

namespace Sonar

open Lib List ChunkedLocalAttentionManager

namespace HybridKVCacheCoordinator

variable {c : HybridKVCacheCoordinator} {n : ℕ} {pool : BlockPool n} {hashes : List BlockHash}
  {g : SpecGroup} {gs : List SpecGroup} {idx curr curr' : ℕ} {s s' : SearchState n}

/-- A visit raises what its lookup raises. -/
private theorem visit_raises (hne : g.kind ≠ .fullAttention) {e : PyError}
    (hfind : g.findLongestCacheHit pool hashes
      (c.maxLengthFor hashes g (s.dropEagleBlock g idx) curr) (s.dropEagleBlock g idx)
      c.cacheHitAlignmentTokens = .error e) : c.visit pool hashes idx g curr s = .error e := by
  rw [visit]
  split
  · next hkind _ => exact absurd hkind hne
  · dsimp only
    rw [hfind]

/-! ### Unsupported chunked local attention -/

/-- A visit verifies no index but its own. -/
private theorem visit_eagleVerified (h : c.visit pool hashes idx g curr s = .ok (curr', s')) {j : ℕ}
    (hj : j ∈ s'.eagleVerified) : j = idx ∨ j ∈ s.eagleVerified := by
  rcases visit_ok h with ⟨-, rfl, -⟩ | ⟨-, rows, -, -, hverified⟩
  · exact .inr hj
  · rw [hverified] at hj
    split_ifs at hj
    · exact mem_cons.mp hj
    · cases hj
    · exact .inr hj

/-- The first pass comes to every group, and none drops before it is visited, so it raises at a
group of chunked local attention that uses EAGLE or has blocks off the alignment. -/
private theorem visitAll_unsupported (hverified : ∀ j ∈ s.eagleVerified, j < idx) (hg : g ∈ gs) {k : ℕ}
    (hkind : g.kind = .chunkedLocalAttention k)
    (hnot : ¬(g.useEagle = false ∧ g.blockSize = c.cacheHitAlignmentTokens)) :
    ∃ e, c.visitAll pool hashes gs idx curr s = .error e := by
  induction gs generalizing idx curr s with
  | nil => cases hg
  | cons g0 gs ih =>
    rw [visitAll]
    rcases mem_cons.mp hg with rfl | hg
    · have hdrop : s.dropEagleBlock g idx = g.useEagle := by
        have hidx : idx ∉ s.eagleVerified := fun hmem => lt_irrefl idx (hverified idx hmem)
        simp [SearchState.dropEagleBlock, hidx]
      have hassert : g.useEagle = true ∨ g.blockSize ≠ c.cacheHitAlignmentTokens := by
        rwa [not_and_or, Bool.not_eq_false] at hnot
      rw [visit_raises (e := .assertionError) (by simp [hkind])]
      · exact ⟨_, rfl⟩
      · rw [hdrop, SpecGroup.findLongestCacheHit, hkind]
        exact if_pos hassert
    · rcases hvisit : c.visit pool hashes idx g0 curr s with e | ⟨curr1, s1⟩
      · exact ⟨e, rfl⟩
      · refine ih (fun j hj => ?_) hg
        rcases visit_eagleVerified hvisit hj with rfl | hj
        · exact Nat.lt_succ_self j
        · exact (hverified j hj).trans (Nat.lt_succ_self idx)

/-- A search that returns shows that chunked local attention is supported. -/
theorem chunkedSupported_of_ok {maxCacheHitLength : ℕ} {hit : CacheHit n}
    (h : c.findLongestCacheHit pool hashes maxCacheHitLength = .ok hit) : c.ChunkedSupported := by
  refine ⟨fun g hg k hkind => ?_⟩
  by_contra hnot
  have hnone : ∀ j ∈ (initialState : SearchState n).eagleVerified, j < 0 := fun _ hj => by cases hj
  obtain ⟨e, hpass⟩ : ∃ e, c.visitAll pool hashes c.attentionGroups 0 maxCacheHitLength
      initialState = .error e := visitAll_unsupported hnone hg hkind hnot
  rw [findLongestCacheHit, descend, hpass] at h
  cases h

/-! ### Past the hashes of the request -/

/-- Lookups beyond the hashes that raise. -/
private theorem findLongestCacheHit_raises {A k : ℕ} (h : g.Fits pool.hashBlockSize A)
    (hk : 0 < k) (hA : A = k * g.blockSize) (hkind : (∃ w, g.kind = .slidingWindow w) ∨
      (∃ c, g.kind = .chunkedLocalAttention c ∧ ¬c ∣ g.blockSize) ∨
      g.kind = .mamba ∧ g.fineGrained A = false) {drop : Bool}
    (hdrop : drop = true → g.kind = .mamba) :
    g.findLongestCacheHit pool [] A drop A = .error .indexError := by
  have hcoarse : g.fineGrained A = false := by
    rcases h.coarse_or_fine with ⟨hcoarse, -⟩ | ⟨-, -, -, hlt, -, -⟩
    · exact hcoarse
    · rw [hA] at hlt
      exact absurd (Nat.le_mul_of_pos_left _ hk) (not_le.mpr hlt)
  have hraise : ∀ view, IsView pool [] g.blockSize view → ∀ i,
      pool.probe view g.groupIds i = .error .indexError := by
    intro view hview i
    refine hview.probe_of_lt h.dvd h.hash_pos ?_
    rw [length_nil, zero_mul]
    exact mul_pos (Nat.succ_pos i) h.block_pos
  obtain ⟨view, hresolve, hview⟩ := viewHashes_coarse [] h hcoarse
  have hprobe := hraise view hview
  have hdiv : A / g.blockSize = k := by rw [hA, Nat.mul_div_cancel _ h.block_pos]
  obtain ⟨m, rfl⟩ := Nat.exists_eq_add_one_of_ne_zero hk.ne'
  rw [SpecGroup.findLongestCacheHit]
  rcases hkind with ⟨w, hkind⟩ | ⟨chunkSize, hkind, hdvd⟩ | ⟨hkind, -⟩
  · simp [hkind, SlidingWindowManager.findLongestCacheHit, hresolve, hdiv, runDown, hprobe]
  · have hfalse : drop = false := by
      rw [← Bool.not_eq_true]
      intro htrue
      rw [hdrop htrue] at hkind
      cases hkind
    subst hfalse
    obtain ⟨hblock, -, -⟩ := h.chunked _ hkind
    -- the only block reaches across the start of the last chunk, so it is looked up
    have hstart : startBlock chunkSize g.blockSize A = 0 := by
      refine Nat.div_eq_of_lt ?_
      rw [← hblock]
      refine lt_of_le_of_ne (Nat.div_mul_le_self _ _) fun heq => hdvd ?_
      exact ⟨g.blockSize / chunkSize, by rw [mul_comm]; exact heq.symm⟩
    obtain ⟨view', hview', hfind⟩ := findLongestCacheHit_eq h hkind [] A
    simp [hkind, hfind, hstart, hdiv, runUp, hraise view' hview']
  · simp [hkind, MambaManager.findLongestCacheHit, hresolve, hcoarse, hdiv, findDown, hprobe]

section

variable [c.ChunkedSupported] (hpool : pool.hashBlockSize = c.hashBlockSize)

include hpool

/-- Chunked local attention whose blocks do not reach across chunks lets the bound pass. -/
private theorem visit_transparent (hinv : c.Inv pool hashes c.cacheHitAlignmentTokens s)
    (hget : c.attentionGroups[idx]? = some g) {k : ℕ} (hkind : g.kind = .chunkedLocalAttention k)
    (hdvd : k ∣ g.blockSize) : ∃ s', c.visit pool hashes idx g c.cacheHitAlignmentTokens s =
        .ok (c.cacheHitAlignmentTokens, s') ∧ s'.eagleVerified = s.eagleVerified := by
  have hfit := fits (mem_of_getElem? hget)
  obtain ⟨hblock, -, heagle⟩ := hfit.chunked k hkind
  have hbound : boundedByHashes c.cacheHitAlignmentTokens [g] = true := by
    simp [boundedByHashes, hkind, hdvd]
  obtain ⟨curr', s', hvisit, -⟩ := visit_total hpool hinv hget (.inl hbound)
  obtain ⟨hle, -⟩ := hinv.visit hpool hget hvisit
  obtain ⟨hge, -⟩ := visit_chunk_ge hpool hget hkind hvisit
  have hstart : c.cacheHitAlignmentTokens / k * k / g.blockSize =
      c.cacheHitAlignmentTokens / g.blockSize :=
    startBlock_eq hdvd
  rw [hstart, hblock, Nat.div_self hfit.align_pos, one_mul] at hge
  obtain rfl : c.cacheHitAlignmentTokens = curr' := le_antisymm hge hle
  refine ⟨s', hvisit, ?_⟩
  rcases visit_ok hvisit with ⟨-, rfl, -⟩ | ⟨-, -, -, -, hverified⟩
  · rfl
  · rw [hverified, SearchState.dropEagleBlock, heagle, Bool.false_and, if_neg Bool.false_ne_true,
      if_neg (lt_irrefl _)]

/-- Without hashes, a pass of a search that is not bounded by them raises. -/
private theorem visitAll_raises (hfrom : c.From gs idx)
    (hinv : c.Inv pool [] c.cacheHitAlignmentTokens s) (hverified : s.eagleVerified = [])
    (hbound : boundedByHashes c.cacheHitAlignmentTokens gs = false) :
    c.visitAll pool [] gs idx c.cacheHitAlignmentTokens s = .error .indexError := by
  induction gs generalizing idx s with
  | nil => cases hbound
  | cons g gs ih =>
    have hget := hfrom.head
    have hfit : g.Fits pool.hashBlockSize c.cacheHitAlignmentTokens :=
      hpool ▸ fits (mem_of_getElem? hget)
    rw [boundedByHashes] at hbound
    -- a group that is not transparent raises at once
    have hraise : ((∃ w, g.kind = .slidingWindow w) ∧ g.useEagle = false ∨
        (∃ k, g.kind = .chunkedLocalAttention k ∧ ¬k ∣ g.blockSize) ∨
        g.kind = .mamba ∧ g.fineGrained c.cacheHitAlignmentTokens = false) →
        c.visitAll pool [] (g :: gs) idx c.cacheHitAlignmentTokens s = .error .indexError := by
      intro hkind
      obtain ⟨hne, hcoarse, hdrop⟩ : g.kind ≠ .fullAttention ∧
          g.fineGrained _ = false ∧
          (s.dropEagleBlock g idx = true → g.kind = .mamba) := by
        rcases hkind with ⟨⟨w, hkind⟩, heagle⟩ | ⟨k, hkind, -⟩ | ⟨hkind, hcoarse⟩
        · refine ⟨by simp [hkind], (SlidingWindowManager.coarse hkind hfit).1, fun hdrop => ?_⟩
          rw [SearchState.useEagle_of_drop hdrop] at heagle
          cases heagle
        · refine ⟨by simp [hkind], ?_, fun hdrop => ?_⟩
          · simp [SpecGroup.fineGrained, (hfit.chunked k hkind).1]
          · have := SearchState.useEagle_of_drop hdrop
            rw [(hfit.chunked k hkind).2.2] at this
            cases this
        · exact ⟨by simp [hkind], hcoarse, fun _ => hkind⟩
      have hmax : c.maxLengthFor [] g (s.dropEagleBlock g idx) c.cacheHitAlignmentTokens =
          c.cacheHitAlignmentTokens := by
        rw [maxLengthFor, if_neg]
        rw [Bool.and_eq_true, not_and]
        intro htrue
        simp [hdrop htrue]
      obtain ⟨k, hk⟩ : g.blockSize ∣ c.cacheHitAlignmentTokens := by
        rcases hfit.coarse_or_fine with ⟨-, hdvd, -⟩ | ⟨hfine, -⟩
        · exact hdvd
        · rw [hcoarse] at hfine
          cases hfine
      have hkpos : 0 < k := Nat.pos_of_mul_pos_left (hk ▸ hfit.align_pos)
      rw [visitAll, visit_raises hne]
      rw [hmax]
      refine findLongestCacheHit_raises hfit hkpos (hk.trans (mul_comm _ _)) ?_ hdrop
      exact hkind.imp_left And.left
    rcases hkind : g.kind with _ | w | k | _ <;> rw [hkind] at hbound
    · cases hbound
    · exact hraise (.inl ⟨⟨w, hkind⟩, hbound⟩)
    · by_cases hdvd : k ∣ g.blockSize
      · obtain ⟨s', hvisit, hsame⟩ := visit_transparent hpool hinv hget hkind hdvd
        rw [visitAll, hvisit]
        refine ih hfrom.tail (hinv.visit hpool hget hvisit).2 (hsame.trans hverified) ?_
        simpa [hdvd] using hbound
      · exact hraise (.inr (.inl ⟨k, hkind, hdvd⟩))
    · exact hraise (.inr (.inr ⟨hkind, hbound⟩))

private theorem search_raises
    (hbound : boundedByHashes c.cacheHitAlignmentTokens c.attentionGroups = false) :
    c.findLongestCacheHit pool [] c.cacheHitAlignmentTokens = .error .indexError := by
  rw [findLongestCacheHit, descend, visitAll_raises hpool c.from_zero
    (inv_initialState c pool [] _) rfl hbound]

end

/-! ### Into an earlier chunk -/

/-- How far a group looks, when the hashes reach further. -/
theorem maxLengthFor_eq [c.ChunkedSupported] (hg : g ∈ c.attentionGroups) {drop : Bool}
    (hroom : curr + g.unit c.cacheHitAlignmentTokens ≤ hashes.length * c.hashBlockSize) :
    c.maxLengthFor hashes g drop curr = g.lookLength c.cacheHitAlignmentTokens curr drop := by
  rw [maxLengthFor, SpecGroup.lookLength, eagleProofMargin_eq hg]
  split_ifs
  · exact min_eq_left hroom
  · rfl

/-- A number of blocks such that a chunk starts inside a block that does not start a chunk. -/
private theorem exists_chunk_start {b k : ℕ} (hb : 0 < b) (hk : 0 < k)
    (hfit : ¬(b ∣ k ∨ k < b ∧ k ∣ 2 * b)) :
    ∃ m, 0 < m * b / k * k / b ∧ ¬k ∣ m * b / k * k / b * b := by
  rw [not_or, not_and] at hfit
  obtain ⟨hdvd, hdvd'⟩ := hfit
  rcases lt_trichotomy k b with hlt | rfl | hgt
  · -- two blocks: the last chunk starts in the second of them
    refine ⟨2, ?_⟩
    have hmod : 2 * b / k * k + 2 * b % k = 2 * b := Nat.div_add_mod' (2 * b) k
    have hrem : 2 * b % k < k := Nat.mod_lt _ hk
    have hstart : 2 * b / k * k / b = 1 := Nat.div_eq_of_lt_le (by omega) (by omega)
    rw [hstart, one_mul]
    exact ⟨one_pos, fun h => hdvd' hlt (h.mul_left 2)⟩
  · exact absurd dvd_rfl hdvd
  · -- the blocks that contain the first chunk: the second chunk starts in the last of them
    refine ⟨k / b + 1, ?_⟩
    have hmod : k / b * b + k % b = k := Nat.div_add_mod' k b
    have hrem : k % b < b := Nat.mod_lt _ hb
    have hone : (k / b + 1) * b / k = 1 := by
      refine Nat.div_eq_of_lt_le ?_ ?_ <;> rw [Nat.succ_mul (k / b) b] <;> omega
    rw [hone, one_mul]
    have hpos : 0 < k / b := Nat.div_pos hgt.le hb
    refine ⟨hpos, fun h => ?_⟩
    have := Nat.le_of_dvd (mul_pos hpos hb) h
    omega

/-- A group that holds every prefix of the table accepts an aligned length. -/
theorem allCached_tablePool (hg : g ∈ c.attentionGroups) {cached : ℕ → ℕ → Bool} {count : ℕ}
    (hcached : ∀ id ∈ g.groupIds, ∀ numTokens, cached id numTokens = true) :
    g.AllCached (tablePool c.hashBlockSize cached) (tableHashes count) := by
  intro numTokens hdvd hpos hle
  rw [length_tableHashes] at hle
  exact (cachedAt_tablePool_iff c.hashBlockSize_pos (c.groupIds_lt g hg) hdvd hpos hle).mpr
    fun id hid => hcached id hid _

/-- Chunked local attention that misses at once returns the start of the block its chunk starts
in. -/
private theorem chunked_miss {A k L : ℕ} (h : g.Fits pool.hashBlockSize A)
    (hkind : g.kind = .chunkedLocalAttention k)
    (hnone : ∀ numTokens, pool.cachedAt hashes g.groupIds numTokens = none)
    (hmax : L ≤ hashes.length * pool.hashBlockSize) :
    ∃ rows, g.findLongestCacheHit pool hashes L false A =
      .ok (rows, L / k * k / g.blockSize * g.blockSize) := by
  obtain ⟨view, hview, hfind⟩ := findLongestCacheHit_eq h hkind hashes L
  set start := startBlock k g.blockSize L
  have hrun : runUp (pool.probe view g.groupIds) (L / g.blockSize - start) start = .ok [] := by
    rcases hcount : L / g.blockSize - start with _ | count
    · rfl
    · have hle : (start + 1) * g.blockSize ≤ hashes.length * pool.hashBlockSize := by
        refine le_trans ?_ ((Nat.div_mul_le_self L g.blockSize).trans hmax)
        exact Nat.mul_le_mul_right _ (by omega)
      rw [runUp, hview.probe_of_le h.dvd h.hash_pos h.block_pos hle, hnone]
  rw [hrun] at hfind
  rw [SpecGroup.findLongestCacheHit, hkind]
  exact ⟨_, hfind⟩

/-- A pool that holds every prefix of the table for the groups of `f`, and nothing else. -/
def onlyPool (c : HybridKVCacheCoordinator) (f : SpecGroup) : BlockPool 2 :=
  tablePool c.hashBlockSize fun id _ => decide (id ∈ f.groupIds)

section OnePass

variable {f : SpecGroup} {k m count : ℕ}

section

variable (hgroups : c.attentionGroups = [f, g])

include hgroups

private theorem cachedAt_onlyPool (numTokens : ℕ) :
    (c.onlyPool f).cachedAt (tableHashes count) g.groupIds numTokens = none := by
  have hgmem : g ∈ c.attentionGroups := by simp [hgroups]
  obtain ⟨id, hid⟩ := exists_mem_of_ne_nil _ (c.groupIds_ne_nil g hgmem)
  refine cachedAt_tablePool_eq_none c.hashBlockSize_pos (c.groupIds_lt g hgmem) hid ?_
  have hnodup := c.groupIds_nodup
  simp only [hgroups, flatMap_cons, flatMap_nil, append_nil] at hnodup
  rw [decide_eq_false_iff_not]
  intro hf'
  exact (nodup_append.mp hnodup).2.2 id hf' id hid rfl

/-- With full attention cached and nothing for chunked local attention, one pass ends at the start
of the block in which the last chunk starts. -/
private theorem visitAll_chunk_miss [c.ChunkedSupported] (hf : f.kind = .fullAttention)
    (hkind : g.kind = .chunkedLocalAttention k) (hm : 0 < m)
    (hcount : count * c.hashBlockSize = (m + 1) * g.blockSize) :
    ∃ s, c.visitAll (c.onlyPool f) (tableHashes count) c.attentionGroups 0 (m * g.blockSize)
      initialState = .ok (m * g.blockSize / k * k / g.blockSize * g.blockSize, s) := by
  have hfmem : f ∈ c.attentionGroups := by simp [hgroups]
  have hgmem : g ∈ c.attentionGroups := by simp [hgroups]
  have hffit : f.Fits (c.onlyPool f).hashBlockSize c.cacheHitAlignmentTokens := fits hfmem
  have hgfit : g.Fits (c.onlyPool f).hashBlockSize c.cacheHitAlignmentTokens := fits hgmem
  obtain ⟨hblock, -, heagle⟩ := hgfit.chunked k hkind
  have hall : f.AllCached (c.onlyPool f) (tableHashes count) :=
    allCached_tablePool hfmem fun id hid _ => decide_eq_true hid
  set L := m * g.blockSize
  have hroom : L + f.unit c.cacheHitAlignmentTokens ≤ (tableHashes count).length *
      c.hashBlockSize := by
    rw [length_tableHashes, hcount, Nat.succ_mul]
    exact Nat.add_le_add_left ((min_le_left _ _).trans hblock.ge) _
  -- full attention accepts the bound
  have hdrop1 : (initialState : SearchState 2).dropEagleBlock f 0 = true → f.useEagle = true :=
    SearchState.useEagle_of_drop
  obtain ⟨rows1, hfind1⟩ := SpecGroup.findLongestCacheHit_accepts hffit hall
    (hblock ▸ dvd_mul_left _ _) hroom (mul_pos hm hgfit.block_pos)
    (fun w hw => by rw [hf] at hw; cases hw) hdrop1
  rw [← maxLengthFor_eq hfmem hroom] at hfind1
  obtain ⟨s1, hvisit1⟩ := visit_of_lookup (fun _ => rfl) hfind1
  -- chunked local attention misses the block its chunk starts in
  have hdrop2 : s1.dropEagleBlock g 1 = false := by
    rw [SearchState.dropEagleBlock, heagle, Bool.false_and]
  obtain ⟨rows2, hfind2⟩ := chunked_miss hgfit hkind (cachedAt_onlyPool hgroups)
    ((Nat.le_add_right _ _).trans hroom)
  have hlookup2 : g.findLongestCacheHit (c.onlyPool f) (tableHashes count)
      (c.maxLengthFor (tableHashes count) g (s1.dropEagleBlock g 1) L) (s1.dropEagleBlock g 1)
      c.cacheHitAlignmentTokens = .ok (rows2, L / k * k / g.blockSize * g.blockSize) := by
    rw [hdrop2]
    exact hfind2
  obtain ⟨s2, hvisit2⟩ := visit_of_lookup (fun hfull => by rw [hkind] at hfull; cases hfull)
    hlookup2
  refine ⟨s2, ?_⟩
  rw [hgroups, visitAll, hvisit1]
  dsimp only
  rw [visitAll, hvisit2]
  rfl

/-- If that is inside a chunk, the hit is not usable: nothing of the chunk is cached. -/
private theorem not_hitOk_chunk_miss [c.ChunkedSupported] (hf : f.kind = .fullAttention)
    (hkind : g.kind = .chunkedLocalAttention k)
    (hcount : count * c.hashBlockSize = (m + 1) * g.blockSize)
    (hstart : 0 < m * g.blockSize / k * k / g.blockSize)
    (hndvd : ¬k ∣ m * g.blockSize / k * k / g.blockSize * g.blockSize) :
    ¬c.HitOk (c.onlyPool f) (tableHashes count) (m * g.blockSize) := by
  have hm : 0 < m := by
    refine pos_of_ne_zero fun hzero => ?_
    rw [hzero, zero_mul, Nat.zero_div, zero_mul, Nat.zero_div] at hstart
    exact lt_irrefl 0 hstart
  have hgfit := fits (c := c) (g := g) (by simp [hgroups])
  obtain ⟨s, hpass⟩ := visitAll_chunk_miss hgroups hf hkind hm hcount
  set r := m * g.blockSize / k * k / g.blockSize * g.blockSize
  have hrL : r ≤ m * g.blockSize := (Nat.div_mul_le_self _ _).trans (Nat.div_mul_le_self _ _)
  have hsearch : descend (c.visitAll (c.onlyPool f) (tableHashes count) c.attentionGroups 0)
      c.isSimpleHybrid (m * g.blockSize) initialState = .ok (r, s) := by
    have hsimple : c.isSimpleHybrid = true := by simp [isSimpleHybrid, hgroups, hf]
    rw [descend, hpass, hsimple]
    dsimp only
    split_ifs with hle htrue
    · rw [le_antisymm hrL hle]
    · rfl
    · exact absurd rfl htrue
  rintro ⟨hit, hfind, -, -, husable⟩
  rw [findLongestCacheHit, hsearch] at hfind
  obtain rfl := Except.ok.inj hfind
  obtain ⟨rows, -, husable⟩ := husable 1 g (by simp [hgroups])
  -- the last position of the hit is in a chunk that has begun
  have hrpos : 0 < r := mul_pos hstart hgfit.block_pos
  have hneeds : g.kind.Needs r (r - 1) := by
    rw [hkind]
    have hle := Nat.div_mul_le_self r k
    have hne : r / k * k ≠ r := fun heq => hndvd ⟨r / k, by rw [mul_comm]; exact heq.symm⟩
    exact Nat.le_sub_one_of_lt (lt_of_le_of_ne hle hne)
  obtain ⟨row, numTokens, -, -, -, hcached⟩ :=
    husable.covers (r - 1) (Nat.sub_lt hrpos one_pos) hneeds
  rw [cachedAt_onlyPool hgroups _] at hcached
  cases hcached

end

end OnePass

private theorem exists_not_hitOk_of_not_onePassSuffices [c.ChunkedSupported]
    (hfit : onePassSuffices c.attentionGroups = false) :
    ∃ (pool : BlockPool 2) (hashes : List BlockHash) (maxCacheHitLength : ℕ),
      pool.hashBlockSize = c.hashBlockSize ∧ ¬c.HitOk pool hashes maxCacheHitLength := by
  obtain ⟨f, g, k, hgroups, hf, hkind, hfit'⟩ : ∃ f g k, c.attentionGroups = [f, g] ∧
      f.kind = .fullAttention ∧ g.kind = .chunkedLocalAttention k ∧
      ¬(g.blockSize ∣ k ∨ k < g.blockSize ∧ k ∣ 2 * g.blockSize) := by
    unfold onePassSuffices at hfit
    split at hfit
    · next f g hgroups =>
      split at hfit
      · next k hf hkind => exact ⟨f, g, k, hgroups, hf, hkind, of_decide_eq_false hfit⟩
      · cases hfit
    · cases hfit
  have hgfit := fits (c := c) (g := g) (by simp [hgroups])
  obtain ⟨m, hstart, hndvd⟩ := exists_chunk_start hgfit.block_pos (hgfit.chunked k hkind).2.1 hfit'
  have hcount : (m + 1) * g.blockSize / c.hashBlockSize * c.hashBlockSize =
      (m + 1) * g.blockSize := Nat.div_mul_cancel (hgfit.dvd.mul_left _)
  exact ⟨c.onlyPool f, _, _, rfl, not_hitOk_chunk_miss hgroups hf hkind hcount hstart hndvd⟩

/-- **When hits are usable.** The search returns a usable hit for all pool contents, hashes and
bounds just when its chunked local attention is supported, it is bounded by the hashes of the
request and it does not stop too early. -/
theorem hitOk_iff (c : HybridKVCacheCoordinator) :
    (∀ (n : ℕ) (pool : BlockPool n) (hashes : List BlockHash) (maxCacheHitLength : ℕ),
      pool.hashBlockSize = c.hashBlockSize → c.HitOk pool hashes maxCacheHitLength) ↔
    c.ChunkedSupported ∧ boundedByHashes c.cacheHitAlignmentTokens c.attentionGroups = true ∧
      onePassSuffices c.attentionGroups = true := by
  constructor
  · intro hall
    have hpool : (c.onlyPool ⟨.mamba, 0, [], false⟩).hashBlockSize = c.hashBlockSize := rfl
    have hsupported : c.ChunkedSupported := by
      obtain ⟨hit, hfind, -⟩ := hall _ _ [] 0 hpool
      exact chunkedSupported_of_ok hfind
    refine ⟨hsupported, ?_, ?_⟩
    · by_contra hbound
      rw [Bool.not_eq_true] at hbound
      obtain ⟨hit, hfind, -⟩ : c.HitOk _ [] _ := hall _ _ _ _ hpool
      rw [search_raises hpool hbound] at hfind
      cases hfind
    · by_contra hfit
      rw [Bool.not_eq_true] at hfit
      obtain ⟨pool, hashes, maxCacheHitLength, hpool, hnot⟩ :=
        exists_not_hitOk_of_not_onePassSuffices hfit
      exact hnot (hall _ pool hashes _ hpool)
  · rintro ⟨hsupported, hbound, hfit⟩ n pool hashes maxCacheHitLength hpool
    exact hitOk_of_conditions hpool hbound hfit

/-- Two sliding windows of eight and sixteen tokens, in blocks of four. -/
def windowsFirst : HybridKVCacheCoordinator where
  hashBlockSize := 4
  schedulerBlockSize := 4
  enablePartialHashHits := false
  attentionGroups := [⟨.slidingWindow 8, 4, [0], false⟩, ⟨.slidingWindow 16, 4, [1], false⟩]
  hashBlockSize_pos := by decide
  schedulerBlockSize_pos := by decide
  attentionGroups_ne_nil := by decide
  hashBlockSize_dvd := by decide
  blockSize_dvd := by decide
  partial_hits := by decide
  full_first := by simp
  groupIds_ne_nil := by decide
  groupIds_nodup := by decide
  groupIds_lt := by decide
  chunkSize_pos := by simp

instance : windowsFirst.ChunkedSupported := ⟨by simp [windowsFirst]⟩

/-- The hasher of such a model with two lookahead tokens. -/
def lookaheadOfTwo (cachingHashFn : PyVal → BlockHash) (sha256 : List UInt8 → List UInt8) :
    BlockHasher where
  hashBlockSize := 4
  cachingHashFn := cachingHashFn
  numHashLookaheadTokens := 2
  sha256 := sha256
  hashBlockSize_pos := windowsFirst.hashBlockSize_pos

/-- A prompt of five tokens. Its first block is not hashed, as the two tokens after it are not all
there, but a hit of four tokens is allowed, and the first window indexes the empty list. -/
theorem not_hitOk_windowsFirst :
    ∃ request : Request, (∀ cachingHashFn sha256, Request.fromEngineCoreRequest
        { promptTokenIds := some [1, 2, 3, 4, 5] } (some (lookaheadOfTwo cachingHashFn sha256))
        .none = some request) ∧
      windowsFirst.findLongestCacheHit (windowsFirst.onlyPool ⟨.slidingWindow 8, 4, [0], false⟩)
        request.blockHashes (request.numTokens - 1) = .error .indexError ∧
      ¬windowsFirst.HitOk (windowsFirst.onlyPool ⟨.slidingWindow 8, 4, [0], false⟩)
        request.blockHashes (request.numTokens - 1) := by
  have hraise : windowsFirst.findLongestCacheHit
      (windowsFirst.onlyPool ⟨.slidingWindow 8, 4, [0], false⟩) [] 4 = .error .indexError :=
    search_raises (c := windowsFirst) rfl rfl
  refine ⟨_, fun _ _ => rfl, hraise, ?_⟩
  rintro ⟨hit, hfind, -⟩
  cases hraise.symm.trans hfind

end HybridKVCacheCoordinator

end Sonar
