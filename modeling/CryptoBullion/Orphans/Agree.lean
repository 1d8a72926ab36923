import CryptoBullion.Orphans.Frame
/-!
# The store of orphan blocks

The orphans are kept twice, by hash and by parent, and their proofs of
stake a third time, in a set. Both maps stay in step as long as no
`AcceptBlock` of an orphan throws. The set does not: two orphans may share
a proof of stake, and it forgets it with the first of them that leaves.
-/

namespace CryptoBullion

variable [P : Platform]

/-- **What the store should be**: the same blocks in both maps, each once
and under the right hashes, and the proofs of stake of those that have
one. -/
structure FullNode.OrphansAgree (s : FullNode) : Prop where
  mem_iff : ∀ (h : Uint256) (b : CBlock), s.orphans.mapOrphanBlocks[h]? = some b ↔
    h = b.getHash ∧ (b.hashPrevBlock, b) ∈ s.orphans.mapOrphanBlocksByPrev
  keyed : ∀ p ∈ s.orphans.mapOrphanBlocksByPrev, p.1 = p.2.hashPrevBlock
  once : s.orphans.mapOrphanBlocksByPrev.Nodup
  stakes : ∀ st, st ∈ s.setStakeSeenOrphan ↔ ∃ (h : Uint256) (b : CBlock),
    s.orphans.mapOrphanBlocks[h]? = some b ∧ b.isProofOfStake = true ∧ b.getProofOfStake = st

/-! ## What is kept -/

/-- The first map has the blocks of `L`, which have different hashes. -/
structure FullNode.Keeps (s : FullNode) (L : List CBlock) : Prop where
  mem_iff : ∀ (h : Uint256) (b : CBlock),
    s.orphans.mapOrphanBlocks[h]? = some b ↔ b ∈ L ∧ b.getHash = h
  nodup : (L.map CBlock.getHash).Nodup

/-- The set has their proofs of stake. -/
def FullNode.KeepsStakes (s : FullNode) (L : List CBlock) : Prop :=
  ∀ st, st ∈ s.setStakeSeenOrphan ↔ ∃ b ∈ L, b.isProofOfStake = true ∧ b.getProofOfStake = st

/-- No other block of `L` has the proof of stake of `b`. -/
def HoldsAlone (L : List CBlock) (b : CBlock) : Prop :=
  ∀ c ∈ L, b.isProofOfStake = true → c.isProofOfStake = true →
    b.getProofOfStake = c.getProofOfStake → b = c

/-- The blocks of the second map. -/
def FullNode.orphanBlocks (s : FullNode) : List CBlock := s.orphans.mapOrphanBlocksByPrev.map (·.2)

variable {s s' s₀ : FullNode} {b c block : CBlock} {l L L' : List CBlock} {hash hashPrev : Uint256}
variable {q acc : List Uint256} {pfrom : Bool}

omit [P : Platform] in
/-- A proof of stake has a coin. -/
theorem CBlock.getProofOfStake_ne_null (h : b.isProofOfStake = true) :
    b.getProofOfStake ≠ (COutPoint.null, 0) := by
  rw [getProofOfStake, if_pos h]
  unfold isProofOfStake at h
  split at h
  · rename_i cb tx txs hvtx
    rw [hvtx]
    unfold CTransaction.isCoinStake at h
    split at h
    · rename_i i is o o' os hvin hvout
      simp only [List.getElem?_cons_succ, List.getElem?_cons_zero, Option.bind_some, hvin,
        List.head?_cons, Option.map_some, Option.getD_some, ne_eq, Prod.mk.injEq, not_and]
      intro hnull
      simp [hnull, COutPoint.null, COutPoint.isNull] at h
    · exact absurd h (by simp)
  · exact absurd h (by simp)

namespace FullNode

theorem Keeps.perm (h : s.Keeps L) (hp : L.Perm L') : s.Keeps L' where
  mem_iff k b := by rw [h.mem_iff, hp.mem_iff]
  nodup := (hp.map _).nodup_iff.1 h.nodup

omit [P : Platform] in
theorem KeepsStakes.perm (h : s.KeepsStakes L) (hp : L.Perm L') : s.KeepsStakes L' := by
  intro st
  rw [h st]
  simp only [hp.mem_iff]

/-- The first map is all that counts. -/
theorem Keeps.congr (h : s.Keeps L)
    (hmap : s'.orphans.mapOrphanBlocks = s.orphans.mapOrphanBlocks) : s'.Keeps L :=
  ⟨fun k b => by rw [hmap, h.mem_iff], h.nodup⟩

omit [P : Platform] in
theorem KeepsStakes.congr (h : s.KeepsStakes L)
    (hset : s'.setStakeSeenOrphan = s.setStakeSeenOrphan) : s'.KeepsStakes L :=
  fun st => by rw [hset, h st]

/-- **Forgetting a block.** -/
theorem Keeps.forgotten (h : s.Keeps (b :: L)) : (forgotten b s).Keeps L where
  mem_iff k c := by
    have hne : ∀ c ∈ L, c.getHash ≠ b.getHash := by
      intro c hc heq
      have hnot := (List.nodup_cons.1 h.nodup).1
      exact hnot (heq ▸ List.mem_map_of_mem hc)
    simp only [CryptoBullion.forgotten, Std.ExtTreeMap.getElem?_erase, Std.compare_eq_iff_eq]
    split_ifs with hk
    · subst hk
      constructor
      · simp
      · rintro ⟨hc, heq⟩
        exact absurd heq (hne c hc)
    · rw [h.mem_iff]
      constructor
      · rintro ⟨hc, rfl⟩
        rcases List.mem_cons.1 hc with rfl | hc
        · exact absurd rfl hk
        · exact ⟨hc, rfl⟩
      · rintro ⟨hc, rfl⟩
        exact ⟨List.mem_cons_of_mem _ hc, rfl⟩
  nodup := (List.nodup_cons.1 h.nodup).2

/-- **Forgetting its proof of stake** leaves the others', where no other has
the same. -/
theorem KeepsStakes.forgotten (h : s.KeepsStakes (b :: L)) (halone : HoldsAlone L b)
    (hnot : b ∉ L) : (forgotten b s).KeepsStakes L := by
  intro st
  simp only [CryptoBullion.forgotten, Finset.mem_erase, h st, List.mem_cons, exists_eq_or_imp]
  constructor
  · rintro ⟨hne, ⟨-, rfl⟩ | hst⟩
    · exact absurd rfl hne
    · exact hst
  · rintro ⟨c, hc, hpos, rfl⟩
    refine ⟨fun heq => ?_, .inr ⟨c, hc, hpos, rfl⟩⟩
    by_cases hb : b.isProofOfStake = true
    · exact hnot (halone c hc hb hpos heq.symm ▸ hc)
    · -- a block without one has the null stake, which no other has
      rw [CBlock.getProofOfStake, if_pos hpos] at heq
      have hnull : b.getProofOfStake = (COutPoint.null, 0) := by
        rw [CBlock.getProofOfStake, if_neg hb]
      rw [hnull] at heq
      refine CBlock.getProofOfStake_ne_null hpos ?_
      rw [CBlock.getProofOfStake, if_pos hpos, heq]

/-- **Keeping one more.** -/
theorem Keeps.insert (h : s.Keeps L) (hnew : s.orphans.mapOrphanBlocks[b.getHash]? = none)
    (hmap : s'.orphans.mapOrphanBlocks = s.orphans.mapOrphanBlocks.insertIfNew b.getHash b) :
    s'.Keeps (b :: L) where
  mem_iff k c := by
    have hnot : b.getHash ∉ s.orphans.mapOrphanBlocks := fun hmem => by
      rw [← Std.ExtTreeMap.isSome_getElem?_iff_mem, hnew] at hmem
      exact absurd hmem (by simp)
    rw [hmap]
    simp only [Std.ExtTreeMap.getElem?_insertIfNew, Std.compare_eq_iff_eq, List.mem_cons]
    split_ifs with hk
    · obtain ⟨rfl, -⟩ := hk
      constructor
      · rintro ⟨⟩
        exact ⟨.inl rfl, rfl⟩
      · rintro ⟨rfl | hc, heq⟩
        · rfl
        · have hmem := (h.mem_iff _ c).2 ⟨hc, heq⟩
          rw [hnew] at hmem
          exact absurd hmem (by simp)
    · rw [h.mem_iff]
      constructor
      · exact fun hc => ⟨.inr hc.1, hc.2⟩
      · rintro ⟨rfl | hc, rfl⟩
        · exact absurd ⟨rfl, hnot⟩ hk
        · exact ⟨hc, rfl⟩
  nodup := by
    refine List.nodup_cons.2 ⟨fun hmem => ?_, h.nodup⟩
    obtain ⟨c, hc, heq⟩ := List.mem_map.1 hmem
    have hmem' := (h.mem_iff _ c).2 ⟨hc, heq⟩
    rw [hnew] at hmem'
    exact absurd hmem' (by simp)

/-! ## The inner loop -/

theorem Keeps.tryOrphanBlock {fAccepted : Bool} (h : s.Keeps (b :: L))
    (htry : tryOrphanBlock b s = (.ok fAccepted, s')) : s'.Keeps L := by
  obtain ⟨r, s₁, ha, hcases⟩ := tryOrphanBlock_cases htry
  have h₁ : (noted b r s₁).Keeps (b :: L) := h.congr (beside_acceptBlock.of_eq ha).mapOrphanBlocks
  rcases hcases with ⟨-, -, rfl⟩ | ⟨-, -, rfl⟩ | ⟨f, -, -, hr, -⟩
  · exact h₁.forgotten
  · exact h₁.forgotten
  · exact absurd hr (by simp)

theorem KeepsStakes.tryOrphanBlock {fAccepted : Bool} (h : s.KeepsStakes (b :: L))
    (halone : HoldsAlone L b) (hnot : b ∉ L)
    (htry : CryptoBullion.tryOrphanBlock b s = (.ok fAccepted, s')) : s'.KeepsStakes L := by
  obtain ⟨r, s₁, ha, hcases⟩ := tryOrphanBlock_cases htry
  have h₁ : (noted b r s₁).KeepsStakes (b :: L) :=
    h.congr (beside_acceptBlock.of_eq ha).setStakeSeenOrphan
  rcases hcases with ⟨-, -, rfl⟩ | ⟨-, -, rfl⟩ | ⟨f, -, -, hr, -⟩
  · exact h₁.forgotten halone hnot
  · exact h₁.forgotten halone hnot
  · exact absurd hr (by simp)

/-- **All that were tried are gone.** -/
theorem Keeps.tryOrphanBlocks (h : s.Keeps (l ++ L))
    (htry : tryOrphanBlocks l s = (.ok acc, s')) : s'.Keeps L :=
  tryOrphanBlocks_rule (fun l _ s => s.Keeps (l ++ L))
    (fun _ _ _ _ _ _ hI hstep => hI.tryOrphanBlock hstep) [] h htry

/-- **And so are their proofs of stake**, which nobody else has. -/
theorem KeepsStakes.tryOrphanBlocks (h : s.KeepsStakes (l ++ L)) (hnodup : (l ++ L).Nodup)
    (halone : ∀ b ∈ l, HoldsAlone (l ++ L) b)
    (htry : CryptoBullion.tryOrphanBlocks l s = (.ok acc, s')) : s'.KeepsStakes L := by
  refine (tryOrphanBlocks_rule (fun l _ s => s.KeepsStakes (l ++ L) ∧ (l ++ L).Nodup ∧
    ∀ b ∈ l, HoldsAlone (l ++ L) b) ?_ [] ⟨h, hnodup, halone⟩ htry).1
  rintro b l - s s' fAccepted ⟨hs, hnodup, halone⟩ hstep
  rw [List.cons_append, List.nodup_cons] at hnodup
  refine ⟨hs.tryOrphanBlock (fun c hc => ?_) hnodup.1 hstep, hnodup.2, fun c hc d hd => ?_⟩
  · exact halone b List.mem_cons_self c (List.mem_cons_of_mem _ hc)
  · exact halone c (List.mem_cons_of_mem _ hc) d (List.mem_cons_of_mem _ hd)

end FullNode

/-- What is accepted was tried. -/
theorem mem_of_tryOrphanBlocks (htry : tryOrphanBlocks l s = (.ok acc, s')) :
    ∀ h ∈ acc, ∃ b ∈ l, b.getHash = h := by
  refine (tryOrphanBlocks_rule (fun l' acc _ => l' ⊆ l ∧ ∀ h ∈ acc, ∃ b ∈ l, b.getHash = h) ?_
    [] ⟨List.Subset.refl l, by simp⟩ htry).2
  rintro b l' acc - - fAccepted ⟨hsub, hacc⟩ -
  refine ⟨fun c hc => hsub (List.mem_cons_of_mem _ hc), fun h hh => ?_⟩
  rcases List.mem_append.1 hh with hh | hh
  · exact hacc h hh
  · cases fAccepted
    · exact absurd hh (by simp)
    · exact ⟨b, hsub List.mem_cons_self, (List.mem_singleton.1 hh).symm⟩

/-! ## The queue -/

/-- Orphans that wait for `root`, or for one that does, and so on. -/
inductive Descends (byPrev : List (Uint256 × CBlock)) (root : Uint256) : CBlock → Prop
  | child {b : CBlock} (h : (root, b) ∈ byPrev) : Descends byPrev root b
  | step {b c : CBlock} (hc : Descends byPrev root c) (h : (c.getHash, b) ∈ byPrev) :
      Descends byPrev root b

/-- Both maps have the same blocks. -/
structure FullNode.InStep (s : FullNode) : Prop where
  keeps : s.Keeps s.orphanBlocks
  keyed : ∀ p ∈ s.orphans.mapOrphanBlocksByPrev, p.1 = p.2.hashPrevBlock

omit [P : Platform] in
/-- What is waiting, and the rest. -/
theorem FullNode.perm_orphanBlocks : s.orphanBlocks.Perm
    (s.orphans.waiting hashPrev ++ (dropKey hashPrev s).orphanBlocks) := by
  unfold orphanBlocks OrphanBlocks.waiting dropKey
  rw [← List.map_append]
  refine List.Perm.map _ (List.Perm.symm ?_)
  have hperm := List.filter_append_perm (fun p : Uint256 × CBlock => decide (p.1 = hashPrev))
    s.orphans.mapOrphanBlocksByPrev
  convert hperm using 3
  simp

/-- **One turn of the queue** keeps the maps in step. -/
theorem FullNode.InStep.turn (h : s.InStep)
    (htry : tryOrphanBlocks (s.orphans.waiting hashPrev) s = (.ok acc, s')) :
    (dropKey hashPrev s').InStep := by
  have hsame := (noting_tryOrphanBlocks.of_eq htry).mapOrphanBlocksByPrev
  have hkeeps := (h.keeps.perm perm_orphanBlocks).tryOrphanBlocks htry
  refine ⟨?_, fun p hp => h.keyed p ?_⟩
  · have heq : (dropKey hashPrev s').orphanBlocks = (dropKey hashPrev s).orphanBlocks := by
      simp only [FullNode.orphanBlocks, dropKey, hsame]
    rw [heq]
    exact hkeeps.congr rfl
  · rw [← hsame]
    exact (List.mem_filter.1 hp).1

/-- No orphan that descends from the block shares its proof of stake. -/
def StakesApart (s : FullNode) (block : CBlock) : Prop :=
  ∀ b, Descends s.orphans.mapOrphanBlocksByPrev block.getHash b → HoldsAlone s.orphanBlocks b

/-- What the queue keeps, of what the call began with: what is on it leads
to descendants of the block only. -/
structure FullNode.Followed (s s₀ : FullNode) (root : Uint256) (q : List Uint256) : Prop where
  inStep : s.InStep
  sub : s.orphans.mapOrphanBlocksByPrev ⊆ s₀.orphans.mapOrphanBlocksByPrev
  queue : ∀ h ∈ q, h = root ∨ ∃ b, Descends s₀.orphans.mapOrphanBlocksByPrev root b ∧ b.getHash = h

/-- Who waits for what is on the queue descends from the block. -/
theorem FullNode.Followed.descends {root : Uint256} (h : s.Followed s₀ root q)
    (hq : hashPrev ∈ q) (hb : b ∈ s.orphans.waiting hashPrev) :
    Descends s₀.orphans.mapOrphanBlocksByPrev root b := by
  obtain ⟨p, hp, rfl⟩ := List.mem_map.1 hb
  obtain ⟨hp, hkey⟩ := List.mem_filter.1 hp
  have hmem : (hashPrev, p.2) ∈ s₀.orphans.mapOrphanBlocksByPrev := by
    rw [← of_decide_eq_true hkey]
    exact h.sub hp
  rcases h.queue hashPrev hq with rfl | ⟨c, hc, rfl⟩
  · exact .child hmem
  · exact .step hc hmem

theorem FullNode.Followed.turn {root : Uint256} (h : s.Followed s₀ root (hashPrev :: q))
    (htry : tryOrphanBlocks (s.orphans.waiting hashPrev) s = (.ok acc, s')) :
    (dropKey hashPrev s').Followed s₀ root (q ++ acc) where
  inStep := h.inStep.turn htry
  sub p hp := by
    refine h.sub ?_
    rw [← (noting_tryOrphanBlocks.of_eq htry).mapOrphanBlocksByPrev]
    exact (List.mem_filter.1 hp).1
  queue k hk := by
    rcases List.mem_append.1 hk with hk | hk
    · exact h.queue k (List.mem_cons_of_mem _ hk)
    · obtain ⟨b, hb, rfl⟩ := mem_of_tryOrphanBlocks htry k hk
      exact .inr ⟨b, h.descends List.mem_cons_self hb, rfl⟩

/-- **One turn keeps the set exact**, where nobody who descends from the
block shares its proof of stake. -/
theorem FullNode.KeepsStakes.turn {root : Uint256} (h : s.KeepsStakes s.orphanBlocks)
    (hf : s.Followed s₀ root (hashPrev :: q))
    (hapart : ∀ b, Descends s₀.orphans.mapOrphanBlocksByPrev root b → HoldsAlone s₀.orphanBlocks b)
    (htry : CryptoBullion.tryOrphanBlocks (s.orphans.waiting hashPrev) s = (.ok acc, s')) :
    (dropKey hashPrev s').KeepsStakes (dropKey hashPrev s').orphanBlocks := by
  have hsame := (noting_tryOrphanBlocks.of_eq htry).mapOrphanBlocksByPrev
  have heq : (dropKey hashPrev s').orphanBlocks = (dropKey hashPrev s).orphanBlocks := by
    simp only [FullNode.orphanBlocks, dropKey, hsame]
  have hperm : s.orphanBlocks.Perm
      (s.orphans.waiting hashPrev ++ (dropKey hashPrev s).orphanBlocks) := perm_orphanBlocks
  rw [heq]
  refine ((h.perm hperm).tryOrphanBlocks ?_ (fun b hb c hc => ?_) htry).congr rfl
  · exact hperm.nodup_iff.1 (List.Nodup.of_map _ hf.inStep.keeps.nodup)
  · refine hapart b (hf.descends List.mem_cons_self hb) c ?_
    exact List.map_subset _ hf.sub (hperm.mem_iff.2 hc)

/-! ## One call -/

/-- No `AcceptBlock` of an orphan throws. -/
def OrphansReturn (s : FullNode) (pfrom : Bool) (block : CBlock) : Prop :=
  ∀ a ∈ (processBlock pfrom block s).2.attempts, a.hash ≠ block.getHash →
    ∀ f, a.result = .error f → f.returnsFalse = true

theorem FullNode.InStep.congr (h : s.InStep)
    (hmap : s'.orphans.mapOrphanBlocks = s.orphans.mapOrphanBlocks)
    (hprev : s'.orphans.mapOrphanBlocksByPrev = s.orphans.mapOrphanBlocksByPrev) : s'.InStep where
  keeps := by
    rw [FullNode.orphanBlocks, hprev]
    exact h.keeps.congr hmap
  keyed := hprev ▸ h.keyed

/-- The hash of a stored orphan is not the new block's. -/
theorem FullNode.InStep.hash_ne (h : s.InStep) (hnew : s.orphans.mapOrphanBlocks[hash]? = none)
    {p : Uint256 × CBlock} (hp : p ∈ s.orphans.mapOrphanBlocksByPrev) : p.2.getHash ≠ hash := by
  rintro rfl
  have hmem := (h.keeps.mem_iff _ p.2).2 ⟨List.mem_map_of_mem hp, rfl⟩
  rw [hnew] at hmem
  exact absurd hmem (by simp)

/-- **A queue that is worked off** has been worked off without a throw. -/
theorem workQueue_ok_of_returns {root : Uint256} {fuel : ℕ} {r : Except Failure Unit}
    (h : s.InStep) (hnew : s.orphans.mapOrphanBlocks[root]? = none)
    (hrun : workQueue fuel q s = (r, s')) (hcrash : ∀ f, r = .error f → f.isCrash = false)
    (hret : ∀ a ∈ s'.attempts, a.hash ≠ root → ∀ f, a.result = .error f → f.returnsFalse = true) :
    r = .ok () := by
  rcases r with f | ⟨⟩
  · rcases workQueue_eq_error hrun with hcr | ⟨p, hp, a, ha, hhash, hres, hf⟩
    · exact absurd (hcrash f rfl) (by simp [hcr])
    · have := hret a ha (hhash ▸ h.hash_ne hnew hp) f hres
      rw [hf] at this
      exact absurd this (by simp)
  · rfl

/-- **`ProcessBlock` keeps the store**: the maps in step, and the set exact
where no proof of stake of a descendant is shared. -/
theorem FullNode.InStep.processBlock (h : s.InStep) (hret : OrphansReturn s pfrom block)
    (hcrash : ∀ f, (processBlock pfrom block s).1 = .error f → f.isCrash = false) :
    (CryptoBullion.processBlock pfrom block s).2.InStep ∧
      (StakesApart s block → s.KeepsStakes s.orphanBlocks →
        (CryptoBullion.processBlock pfrom block s).2.KeepsStakes
          (CryptoBullion.processBlock pfrom block s).2.orphanBlocks) := by
  unfold OrphansReturn at hret
  rcases hrun : CryptoBullion.processBlock pfrom block s with ⟨r, s'⟩
  rw [hrun] at hret hcrash
  obtain ⟨s₁, hchecked, hcases⟩ := processBlock_cases hrun
  have h₁ : s₁.InStep := h.congr (by rw [hchecked.orphans]) (by rw [hchecked.orphans])
  have hprev₁ : s₁.orphans.mapOrphanBlocksByPrev = s.orphans.mapOrphanBlocksByPrev := by
    rw [hchecked.orphans]
  have hstakes₁ : s.KeepsStakes s.orphanBlocks → s₁.KeepsStakes s.orphanBlocks :=
    fun hs => hs.congr hchecked.setStakeSeenOrphan
  -- where nothing of the store moves
  have hsame : s'.orphans.mapOrphanBlocks = s₁.orphans.mapOrphanBlocks →
      s'.orphans.mapOrphanBlocksByPrev = s₁.orphans.mapOrphanBlocksByPrev →
      s'.setStakeSeenOrphan = s₁.setStakeSeenOrphan → s'.InStep ∧
        (StakesApart s block → s.KeepsStakes s.orphanBlocks → s'.KeepsStakes s'.orphanBlocks) := by
    intro hmap hprev hset
    refine ⟨h₁.congr hmap hprev, fun _ hs => ?_⟩
    have heq : s'.orphanBlocks = s.orphanBlocks := by
      rw [FullNode.orphanBlocks, hprev, hprev₁, FullNode.orphanBlocks]
    rw [heq]
    exact (hstakes₁ hs).congr hset
  rcases hcases with ⟨f, -, rfl⟩ | ⟨hnew, ⟨-, hrun₁⟩ | ⟨-, hrun₁⟩⟩
  · exact hsame rfl rfl rfl
  · obtain ⟨r₁, s₂, hacc, ⟨f, -, rfl⟩ | ⟨-, hqueue⟩⟩ := acceptAndFollow_cases hrun₁
    · have hb := beside_acceptBlock.of_eq hacc
      exact hsame hb.mapOrphanBlocks hb.mapOrphanBlocksByPrev hb.setStakeSeenOrphan
    · have hb := beside_acceptBlock.of_eq hacc
      have h₂ : (noted block r₁ s₂).InStep :=
        h₁.congr hb.mapOrphanBlocks hb.mapOrphanBlocksByPrev
      have hnew₂ : (noted block r₁ s₂).orphans.mapOrphanBlocks[block.getHash]? = none := by
        rw [← hnew, ← hchecked.orphans]
        exact congrArg (·[block.getHash]?) hb.mapOrphanBlocks
      obtain rfl := workQueue_ok_of_returns h₂ hnew₂ hqueue hcrash hret
      have hprev₂ : (noted block r₁ s₂).orphans.mapOrphanBlocksByPrev =
          s.orphans.mapOrphanBlocksByPrev := hb.mapOrphanBlocksByPrev.trans hprev₁
      have hend := workQueue_rule (fun q s₃ => s₃.Followed s block.getHash q ∧
          (StakesApart s block → s.KeepsStakes s.orphanBlocks → s₃.KeepsStakes s₃.orphanBlocks))
        (fun hashPrev rest s₃ s₄ accepted hJ htry => ⟨hJ.1.turn htry, fun hapart hs =>
          (hJ.2 hapart hs).turn hJ.1 hapart htry⟩) ⟨⟨h₂, hprev₂ ▸ List.Subset.refl _, ?_⟩, ?_⟩ hqueue
      · exact ⟨hend.1.inStep, hend.2⟩
      · intro k hk
        exact .inl (List.mem_singleton.1 hk)
      · intro _ hs
        have heq : (noted block r₁ s₂).orphanBlocks = s.orphanBlocks := by
          rw [FullNode.orphanBlocks, hprev₂, FullNode.orphanBlocks]
        rw [heq]
        exact (hstakes₁ hs).congr hb.setStakeSeenOrphan
  · rcases keepOrphanBlock_cases hrun₁ with ⟨f, -, rfl⟩ | ⟨rfl, -⟩
    · exact hsame rfl rfl rfl
    · have hnew₁ : s₁.orphans.mapOrphanBlocks[block.getHash]? = none := by
        rw [hchecked.orphans, hnew]
      have hperm : (shelved block s₁).orphanBlocks.Perm (block :: s₁.orphanBlocks) := by
        rw [FullNode.orphanBlocks, shelved, List.map_append]
        exact List.perm_append_singleton _ _
      refine ⟨⟨(h₁.keeps.insert hnew₁ rfl).perm hperm.symm, ?_⟩, fun _ hs => ?_⟩
      · intro p hp
        rcases List.mem_append.1 hp with hp | hp
        · exact h₁.keyed p hp
        · rw [List.mem_singleton.1 hp]
      · refine FullNode.KeepsStakes.perm (fun st => ?_) hperm.symm
        have heq : s₁.orphanBlocks = s.orphanBlocks := by
          rw [FullNode.orphanBlocks, hprev₁, FullNode.orphanBlocks]
        simp only [List.mem_cons, exists_eq_or_imp, heq]
        rw [← hstakes₁ hs st]
        unfold shelved
        dsimp only
        split_ifs with hpos
        · simp [Finset.mem_insert, hpos, eq_comm]
        · simp [hpos]

/-! ## Runs -/

/-- **A run of `ProcessBlock` calls**, each of which meets `ok`, with
anything in between that leaves the orphans and the index alone. It begins
with no orphans, as every process does. -/
inductive OrphanRun (ok : FullNode → Bool → CBlock → Prop) : FullNode → Prop
  /-- nothing is kept over a restart -/
  | start {s : FullNode} (hmap : s.orphans.mapOrphanBlocks = ∅)
      (hprev : s.orphans.mapOrphanBlocksByPrev = []) (hset : s.setStakeSeenOrphan = ∅) :
      OrphanRun ok s
  /-- what else the node does -/
  | other {s s' : FullNode} (hrun : OrphanRun ok s)
      (hmap : s'.orphans.mapOrphanBlocks = s.orphans.mapOrphanBlocks)
      (hprev : s'.orphans.mapOrphanBlocksByPrev = s.orphans.mapOrphanBlocksByPrev)
      (hset : s'.setStakeSeenOrphan = s.setStakeSeenOrphan)
      (hindex : ∀ h, h ∈ s'.node.mapBlockIndex ↔ h ∈ s.node.mapBlockIndex) : OrphanRun ok s'
  /-- a call that does not end the process -/
  | process {s : FullNode} (hrun : OrphanRun ok s) (pfrom : Bool) (block : CBlock)
      (hok : ok s pfrom block)
      (hcrash : ∀ f, (processBlock pfrom block s).1 = .error f → f.isCrash = false) :
      OrphanRun ok (processBlock pfrom block s).2

variable {ok : FullNode → Bool → CBlock → Prop}

/-- **The maps are in step all through a run** in which no `AcceptBlock` of
an orphan throws. -/
theorem OrphanRun.inStep (hok : ∀ s pfrom block, ok s pfrom block → OrphansReturn s pfrom block)
    (h : OrphanRun ok s) : s.InStep := by
  induction h with
  | start hmap hprev hset =>
    refine ⟨⟨fun k b => ?_, ?_⟩, ?_⟩
    · rw [hmap, FullNode.orphanBlocks, hprev]
      simp
    · rw [FullNode.orphanBlocks, hprev]
      exact List.nodup_nil
    · rw [hprev]
      simp
  | other hrun hmap hprev hset hindex ih => exact ih.congr hmap hprev
  | process hrun pfrom block hcall hcrash ih => exact (ih.processBlock (hok _ _ _ hcall) hcrash).1

/-- **And the set is exact** where no shared stake is forgotten. -/
theorem OrphanRun.keepsStakes
    (hok : ∀ s pfrom block, ok s pfrom block → OrphansReturn s pfrom block ∧ StakesApart s block)
    (h : OrphanRun ok s) : s.KeepsStakes s.orphanBlocks := by
  induction h with
  | start hmap hprev hset =>
    intro st
    rw [hset, FullNode.orphanBlocks, hprev]
    simp
  | other hrun hmap hprev hset hindex ih =>
    rw [FullNode.orphanBlocks, hprev]
    exact ih.congr hset
  | process hrun pfrom block hcall hcrash ih =>
    have hin := hrun.inStep fun s pfrom block hc => (hok s pfrom block hc).1
    exact (hin.processBlock (hok _ _ _ hcall).1 hcrash).2 (hok _ _ _ hcall).2 ih

/-- Both together are all that is asked of the store. -/
theorem FullNode.InStep.orphansAgree (h : s.InStep) (hs : s.KeepsStakes s.orphanBlocks) :
    s.OrphansAgree where
  mem_iff k b := by
    rw [h.keeps.mem_iff]
    constructor
    · rintro ⟨hb, rfl⟩
      obtain ⟨p, hp, rfl⟩ := List.mem_map.1 hb
      exact ⟨rfl, h.keyed p hp ▸ hp⟩
    · rintro ⟨rfl, hb⟩
      exact ⟨List.mem_map.2 ⟨_, hb, rfl⟩, rfl⟩
  keyed := h.keyed
  once := List.Nodup.of_map _ (List.Nodup.of_map _ h.keeps.nodup)
  stakes st := by
    rw [hs st]
    constructor
    · rintro ⟨b, hb, hst⟩
      exact ⟨b.getHash, b, (h.keeps.mem_iff _ b).2 ⟨hb, rfl⟩, hst⟩
    · rintro ⟨k, b, hb, hst⟩
      exact ⟨b, ((h.keeps.mem_iff k b).1 hb).1, hst⟩

namespace SharedStake

/-- A coinbase of one output, in a block of its own. -/
def funding : CTransaction where
  nVersion := 1
  nTime := 100
  vin := [{ prevout := COutPoint.null, scriptSig := [0, 0], nSequence := uintMax }]
  vout := [⟨10 * coin, [1]⟩]
  nLockTime := 0

def fundingBlock : CBlock where
  nVersion := 1
  hashPrevBlock := 0
  hashMerkleRoot := 0
  nTime := 100
  nBits := 0x1e0fffff
  nNonce := 1
  vtx := [funding]
  vchBlockSig := []

/-- The block of the coin, and the tip a month later. -/
def node : NodeState :=
  { NodeState.blank fun _ => ⟨3000001, true, fun _ _ => true⟩ with
    mapBlockIndex :=
      (({} : Map Uint256 CBlockIndex).insert 1
        { CBlockIndex.null with
          nTime := 100
          pnext := some 2
          fGeneratedStakeModifier := true }).insert 2
        { CBlockIndex.null with
          pprev := some 1
          nHeight := 1584000
          nTime := 2990000
          fGeneratedStakeModifier := true
          nMoneySupply := 1000000 * coin }
    pindexBest := some 2
    hashBestChain := 2
    nBestHeight := 1584000
    bnBestChainTrust := 2 ^ 64
    txdb :=
      { committed := Std.ExtTreeMap.insert ∅ (.tx 100)
          (.txIndex (CTxIndex.fresh ⟨1, 0, fundingBlock.firstTxOffset⟩ 2))
        activeBatch := none }
    blockFiles := [⟨1, 0, fundingBlock⟩] }

def start : FullNode where
  node := node
  orphans := ⟨∅, [], 0⟩
  setStakeSeenOrphan := ∅
  hashSyncCheckpoint := 0
  hashInvalidCheckpoint := 0
  hashSyncCheckpointOnDisk := none
  fNoSyncCheckpoints := false
  attempts := []

/-- What stakes the coin. -/
def stake : CTransaction where
  nVersion := 1
  nTime := 3000000
  vin := [{ prevout := ⟨100, 0⟩, scriptSig := [], nSequence := uintMax }]
  vout := [CTxOut.empty, ⟨10 * coin, [1]⟩]
  nLockTime := 0

/-- A block that does, one for every nonce. -/
def staked (hashPrev : Uint256) (nNonce : ℕ) : CBlock where
  nVersion := 3
  hashPrevBlock := hashPrev
  hashMerkleRoot := 0
  nTime := 3000000
  nBits := 0x1e0fffff
  nNonce := nNonce
  vtx := [{ funding with nTime := 2999999, vout := [CTxOut.empty] }, stake]
  vchBlockSig := [0]

/-- A block that was mined. -/
def mined (hashPrev : Uint256) (nNonce : ℕ) : CBlock where
  nVersion := 3
  hashPrevBlock := hashPrev
  hashMerkleRoot := 3000000
  nTime := 3000000
  nBits := 520159231
  nNonce := nNonce
  vtx := [{ funding with
    nTime := 3000000
    vin := [⟨COutPoint.null, pushInt64 1 ++ [0, 0], uintMax⟩] }]
  vchBlockSig := [0]

/-- A call with one of them. -/
def after (s : FullNode) (block : CBlock) : FullNode :=
  (processBlock (P := Platform.toy) true block s).2

/-- A holder of the stake waits for block 10. -/
def s₁ : FullNode := after start (staked 10 11)

/-- A block waits for block 12. -/
def s₂ : FullNode := after s₁ (mined 12 13)

/-- So block 12 may hold the stake as well. -/
def s₃ : FullNode := after s₂ (staked 20 12)

/-- Block 10 comes. -/
def s₄ : FullNode := after s₃ (mined 1 10)

omit [P : Platform] in
/-- A call that returned, whatever it was asked. -/
theorem run_after {ok : FullNode → Bool → CBlock → Prop} {s : FullNode} {block : CBlock}
    (hrun : OrphanRun (P := Platform.toy) ok s) (hok : ok s true block)
    (hret : (processBlock (P := Platform.toy) true block s).1 = .ok ()) :
    OrphanRun (P := Platform.toy) ok (after s block) :=
  .process (P := Platform.toy) hrun true block hok fun f hf => by simp [hret] at hf

omit [P : Platform] in
theorem run_start {ok : FullNode → Bool → CBlock → Prop} :
    OrphanRun (P := Platform.toy) ok start :=
  .start (P := Platform.toy) rfl rfl rfl

omit [P : Platform] in
/-- Where every attempt is noted as returned. -/
theorem orphansReturn_of_all {s : FullNode} {block : CBlock}
    (h : (after s block).attempts.all (fun a => match a.result with
      | .ok () => true
      | .error f => f.returnsFalse) = true) :
    OrphansReturn (P := Platform.toy) s true block := by
  intro a ha _ f hf
  have hret := List.all_eq_true.1 h a ha
  simp only [hf] at hret
  exact hret

end SharedStake

end CryptoBullion
