import Sonar.Core.LookupComplete
import Sonar.Request.Isolation

/-!
# Cache hits share a prefix

A block hash depends on all the blocks before, so a lookup only returns blocks of requests that begin
in the same way.
-/

namespace Sonar

open List BlockHasher

/-- **A hit never serves another prefix.** If each cached row was filled for a request with its hash,
the row a full-attention hit has for a position was filled for a request with the same salt and the
same tokens up to it. An empty salt is hashed as none, so no request may have one. -/
theorem hit_prefix_eq {n : ℕ} {pool : BlockPool n} {g : SpecGroup} {hasher : BlockHasher}
    {request : Request} {filled : Row n → Request → Prop} {A maxLength length : ℕ} {drop : Bool}
    {rows : List (Row n)} (hc : hasher.CollisionFree)
    (hsize : pool.hashBlockSize = hasher.hashBlockSize) (hfit : g.Fits pool.hashBlockSize A)
    (hkind : g.kind = .fullAttention) (hsalt : request.cacheSalt ≠ some "")
    (hfilled : ∀ h ∈ hasher.hashList request, ∀ row, pool.getCachedBlock h g.groupIds = some row →
      ∃ r, filled row r ∧ r.cacheSalt ≠ some "" ∧ h ∈ hasher.hashList r)
    (hhit : FullAttentionManager.findLongestCacheHit pool (hasher.hashList request) maxLength g drop
      A = .ok (rows, length)) {t : ℕ} (ht : t < length) :
    ∃ row r, rows[t / g.blockSize]? = some row ∧ filled row r ∧ r.cacheSalt = request.cacheSalt ∧
      r.allTokenIds.take (t + 1) = request.allTokenIds.take (t + 1) := by
  obtain ⟨_, _, heq, hspec, -⟩ :=
    FullAttentionManager.findLongestCacheHit_spec hfit (hasher.hashList request) maxLength drop
  obtain ⟨rfl, rfl⟩ := Prod.mk.inj (Except.ok.inj (heq.symm.trans hhit))
  obtain ⟨row, numTokens, hrow, hlt, -, hcached⟩ :=
    (hspec.usable hkind hfit.block_pos le_rfl).covers t ht (hkind ▸ trivial)
  rw [BlockPool.cachedAt] at hcached
  split_ifs at hcached with haligned
  obtain ⟨h, hhash, hget⟩ := Option.bind_eq_some_iff.mp hcached
  obtain ⟨r, hr, hsalt', hmem⟩ := hfilled h (mem_of_getElem? hhash) row hget
  obtain ⟨j, hj⟩ := mem_iff_getElem?.mp hmem
  obtain ⟨rfl, hcontent⟩ := contents_eq_of_hash_eq hc hj hhash
  have hwindow := fun k hk => window_eq_of_content_eq (hcontent k hk)
  obtain ⟨-, -, hkeys⟩ := parts_eq_of_windowExtraKeys_eq (hwindow 0 (Nat.zero_le _)).1
  rw [zero_mul] at hkeys
  refine ⟨row, r, ?_, hr, salt_eq_of_keys_eq hsalt' hsalt hkeys, ?_⟩
  · rw [getElem?_take] at hrow
    exact (Option.ite_none_right_eq_some.mp hrow).2
  · -- the block that was found ends behind the position
    have htake := congrArg (take (t + 1)) (take_eq_of_windows_eq fun k hk => (hwindow k hk).2)
    have hle : t + 1 ≤ hasher.windowEnd (numTokens / pool.hashBlockSize - 1) := by
      rw [hsize] at haligned ⊢
      rw [windowEnd, Nat.sub_one_mul, Nat.div_mul_cancel (Nat.dvd_of_mod_eq_zero haligned.1)]
      omega
    rwa [take_take, take_take, min_eq_left hle] at htake

/-- A request that comes twice. -/
theorem hit_prefix_eq_twice : let request : Request := { allTokenIds := [1, 2, 3] }
    ∃ row r, ([[1]] : List (Row 2))[1 / 2]? = some row ∧ r = request ∧ r.cacheSalt = none ∧
      r.allTokenIds.take 2 = [1, 2] :=
  @hit_prefix_eq 2 (tablePool 2 fun _ _ => true) ⟨.fullAttention, 2, [0], false⟩ unaryHasher _
    (fun _ r => r = _) 2 2 2 false _ unaryHasher_collisionFree rfl
    ⟨Nat.two_pos, Nat.two_pos, Nat.two_pos, dvd_rfl, .inl dvd_rfl, by simp⟩ rfl (by decide)
    (fun _ hmem _ _ => ⟨_, rfl, by decide, hmem⟩) rfl 1 Nat.one_lt_two

end Sonar
