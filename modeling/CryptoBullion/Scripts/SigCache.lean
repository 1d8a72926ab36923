import CryptoBullion.Model.SignatureHash
/-!
# The signature cache is transparent

Whatever was checked before, every entry of the cache is a signature that
verifies: entries come in after a verification and eviction only takes
away. So a hit answers what verifying would, whichever entries are left.
The eviction loop ends because each turn takes an entry out, and there is
one as long as the loop goes on.
-/

namespace CryptoBullion

variable {setValid setValid' : Finset SigData} {k : SigData} {randomHash : ℕ → Uint256}
variable {nMaxCacheSize : ℤ} {cache cache' : CSignatureCache} {fuel : ℕ}

namespace CSignatureCache

/-! ## Eviction -/

/-- **An entry is found to evict** as long as there is one. -/
theorem victim_mem {h : Uint256} (hne : setValid.Nonempty) :
    ∃ k ∈ setValid, victim h setValid = some k := by
  unfold victim
  simp only
  split_ifs with habove
  · exact ⟨_, Finset.mem_of_mem_filter _ (Finset.min'_mem _ habove), rfl⟩
  · exact ⟨_, Finset.min'_mem _ hne, rfl⟩

/-- **The loop ends** within as many turns as there are entries, with no more
than the limit allows. -/
theorem evictLoop_eq (hlimit : 0 ≤ nMaxCacheSize) (randomHash : ℕ → Uint256)
    (hfuel : setValid.card ≤ fuel) :
    ∃ setValid' ⊆ setValid, evictLoop nMaxCacheSize fuel randomHash setValid = some setValid' ∧
      (setValid'.card : ℤ) ≤ nMaxCacheSize := by
  induction fuel generalizing setValid randomHash with
  | zero =>
    refine ⟨setValid, subset_rfl, ?_, by omega⟩
    rw [evictLoop, if_neg (by omega)]
  | succ fuel ih =>
    rw [evictLoop]
    by_cases hmore : nMaxCacheSize < setValid.card
    swap
    · exact ⟨setValid, subset_rfl, if_neg hmore, not_lt.1 hmore⟩
    -- there is an entry, since there are more than the limit
    have hne : setValid.Nonempty := Finset.card_pos.1 (by omega)
    obtain ⟨k, hk, hvictim⟩ := victim_mem (h := randomHash 0) hne
    have hcard : (setValid.erase k).card ≤ fuel := by
      rw [Finset.card_erase_of_mem hk]
      omega
    obtain ⟨setValid', hsub, hloop, hle⟩ := ih (fun n => randomHash (n + 1)) hcard
    refine ⟨setValid', hsub.trans (Finset.erase_subset k setValid), ?_, hle⟩
    rw [if_pos hmore, hvictim]
    exact hloop

/-- **`Set` ends**: nothing is stored under a limit of zero or less, and
otherwise the entry joins what eviction has left. -/
theorem set_eq (nMaxCacheSize : ℤ) (randomHash : ℕ → Uint256) (k : SigData) (cache : CSignatureCache) :
    (nMaxCacheSize ≤ 0 ∧ cache.set nMaxCacheSize randomHash k = some cache) ∨
      0 < nMaxCacheSize ∧ ∃ kept ⊆ cache.setValid, (kept.card : ℤ) ≤ nMaxCacheSize ∧
        cache.set nMaxCacheSize randomHash k = some ⟨insert k kept⟩ := by
  unfold set
  by_cases hlimit : nMaxCacheSize ≤ 0
  · exact .inl ⟨hlimit, if_pos hlimit⟩
  · obtain ⟨kept, hsub, hloop, hle⟩ :=
      evictLoop_eq (not_le.1 hlimit).le randomHash (le_refl cache.setValid.card)
    refine .inr ⟨not_le.1 hlimit, kept, hsub, hle, ?_⟩
    rw [if_neg hlimit, hloop]
    rfl

end CSignatureCache

variable [P : Platform]

/-! ## A call -/

/-- Every entry is a signature that verifies. -/
def CSignatureCache.Valid (cache : CSignatureCache) : Prop := ∀ k ∈ cache.setValid, k.verifies = true

/-- What a call leaves in the cache: what was there, or the entry it has
verified with what eviction has left, within the limit. -/
def CheckSigCall.Leaves (c : CheckSigCall) (cache cache' : CSignatureCache) : Prop :=
  cache' = cache ∨ ∃ k, ∃ kept ⊆ cache.setValid, cache' = ⟨insert k kept⟩ ∧ k.verifies = true ∧
    0 < c.nMaxCacheSize ∧ (cache'.setValid.card : ℤ) ≤ max c.nMaxCacheSize 0 + 1

/-- **A call answers what it would without a cache**, and ends. -/
theorem CheckSigCall.run_eq {c : CheckSigCall} (hcache : cache.Valid) :
    ∃ cache', c.run cache = some (c.uncached, cache') ∧ c.Leaves cache cache' := by
  unfold CheckSigCall.run CheckSigCall.uncached checkSig
  rcases hk : sigDataOf c.txTo c.nIn c.nHashType c.vchSig c.vchPubKey c.scriptCode with _ | k
  · exact ⟨cache, rfl, .inl rfl⟩
  simp only
  by_cases hget : cache.get k = true
  · -- a hit: the entry was verified when it came in
    have hverifies : k.verifies = true := hcache k (by simpa [CSignatureCache.get] using hget)
    rw [if_pos hget, hverifies]
    exact ⟨cache, rfl, .inl rfl⟩
  rw [if_neg hget]
  by_cases hverifies : k.verifies = true
  swap
  · rw [Bool.not_eq_true] at hverifies
    rw [hverifies]
    exact ⟨cache, rfl, .inl rfl⟩
  rw [hverifies]
  simp only [Bool.not_true, Bool.false_eq_true, if_false]
  rcases CSignatureCache.set_eq c.nMaxCacheSize c.randomHash k cache with
    ⟨-, hset⟩ | ⟨hpos, kept, hsub, hle, hset⟩
  · exact ⟨cache, by rw [hset]; rfl, .inl rfl⟩
  · refine ⟨⟨insert k kept⟩, by rw [hset]; rfl, .inr ⟨k, kept, hsub, rfl, hverifies, hpos, ?_⟩⟩
    have hcard := Finset.card_insert_le k kept
    have hmax := le_max_left c.nMaxCacheSize 0
    show ((insert k kept).card : ℤ) ≤ _
    omega

/-- What a call leaves is valid again. -/
theorem CheckSigCall.Leaves.valid {c : CheckSigCall} (h : c.Leaves cache cache') (hcache : cache.Valid) :
    cache'.Valid := by
  rcases h with rfl | ⟨k, kept, hsub, rfl, hverifies, -, -⟩
  · exact hcache
  · intro k' hk'
    rcases Finset.mem_insert.1 hk' with rfl | hk'
    · exact hverifies
    · exact hcache k' (hsub hk')

/-! ## A run -/

/-- The caches of a run, one after another, each left by its call. -/
def LeavesAll : List CheckSigCall → CSignatureCache → List CSignatureCache → Prop
  | [], _, [] => True
  | c :: cs, cache, cache' :: caches => c.Leaves cache cache' ∧ LeavesAll cs cache' caches
  | _, _, _ => False

theorem runAll_eq {cs : List CheckSigCall} (hcache : cache.Valid) :
    ∃ answers, CheckSigCall.runAll cs cache = some answers ∧
      answers.map Prod.fst = cs.map CheckSigCall.uncached ∧
        LeavesAll cs cache (answers.map Prod.snd) := by
  induction cs generalizing cache with
  | nil => exact ⟨[], rfl, rfl, trivial⟩
  | cons c cs ih =>
    obtain ⟨cache', hrun, hleaves⟩ := c.run_eq hcache
    obtain ⟨answers, hall, hfst, hsnd⟩ := ih (hleaves.valid hcache)
    refine ⟨(c.uncached, cache') :: answers, ?_, ?_, hleaves, hsnd⟩
    · rw [CheckSigCall.runAll, hrun]
      show (CheckSigCall.runAll cs cache' >>= fun rest => some ((c.uncached, cache') :: rest)) = _
      rw [hall]
      rfl
    · rw [List.map_cons, List.map_cons, hfst]

/-- **The signature cache is transparent.** In every run of calls, with any
limits and any random hashes, every loop ends, every call answers what it
would without a cache, and a call that stores an entry leaves no more than
its limit and one. -/
theorem checkSig_transparent (cs : List CheckSigCall) :
    ∃ answers, CheckSigCall.runAll cs .empty = some answers ∧
      answers.map Prod.fst = cs.map CheckSigCall.uncached ∧
        LeavesAll cs .empty (answers.map Prod.snd) :=
  runAll_eq fun _ h => absurd h (Finset.notMem_empty _)

end CryptoBullion
