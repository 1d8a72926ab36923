import CryptoBullion.Orphans.Agree
/-!
# Orphans whose parent has come

An orphan is kept until its parent is in the index, and is taken out when
the parent is accepted. A block gets into the index before it is accepted,
though: when it cannot become the best of the chains, it stays there and
`AcceptBlock` fails, and whoever waits for it waits for ever.
-/

namespace CryptoBullion

variable [P : Platform]

omit [P : Platform] in
/-- **No orphan waits for a block that is there.** -/
def FullNode.NoneStranded (s : FullNode) : Prop :=
  ∀ (h : Uint256) (b : CBlock), s.orphans.mapOrphanBlocks[h]? = some b →
    b.hashPrevBlock ∉ s.node.mapBlockIndex

/-- An attempt that strands nobody: if `AcceptBlock` failed, the block is
not in the index, or no orphan of `byPrev` waits for it. And an orphan's
did not throw. -/
def Attempt.StrandsNone (root : Uint256) (byPrev : List (Uint256 × CBlock)) (a : Attempt) : Prop :=
  ∀ f, a.result = .error f → (a.hash ≠ root → f.returnsFalse = true) ∧
    (a.fIndexed = true → ∀ p ∈ byPrev, p.1 ≠ a.hash)

/-- Nor does any attempt of a call. -/
def StrandsNone (s : FullNode) (pfrom : Bool) (block : CBlock) : Prop :=
  ∀ a ∈ (processBlock pfrom block s).2.attempts,
    a.StrandsNone block.getHash s.orphans.mapOrphanBlocksByPrev

/-- What the queue keeps: a block that is in the index and that an orphan
waits for is on it. -/
def FullNode.QueueCovers (s : FullNode) (q : List Uint256) : Prop :=
  ∀ p ∈ s.orphans.mapOrphanBlocksByPrev, p.1 ∈ s.node.mapBlockIndex → p.1 ∈ q

variable {s s' s₀ : FullNode} {b block : CBlock} {l : List CBlock} {root hashPrev : Uint256}
variable {q acc : List Uint256} {pfrom : Bool} {byPrev : List (Uint256 × CBlock)}

/-- With the maps in step, the second one tells. -/
theorem FullNode.InStep.noneStranded_iff (h : s.InStep) :
    s.NoneStranded ↔ s.QueueCovers [] := by
  constructor
  · intro hnone p hp hmem
    have hkept := (h.keeps.mem_iff _ p.2).2 ⟨List.mem_map_of_mem hp, rfl⟩
    exact absurd (h.keyed p hp ▸ hmem) (hnone _ _ hkept)
  · intro hcov k b hb hmem
    obtain ⟨p, hp, rfl⟩ := List.mem_map.1 ((h.keeps.mem_iff k b).1 hb).1
    exact absurd (hcov p hp (h.keyed p hp ▸ hmem)) (by simp)

/-! ## The queue -/

/-- What the inner loop has put into the index was accepted, or nobody
waits for it. -/
theorem grown_tryOrphanBlocks (htry : tryOrphanBlocks l s = (.ok acc, s'))
    (hnone : ∀ a ∈ s'.attempts, a.StrandsNone root byPrev) :
    ∀ h ∈ s'.node.mapBlockIndex, h ∈ s.node.mapBlockIndex ∨ h ∈ acc ∨ ∀ p ∈ byPrev, p.1 ≠ h := by
  have hrule := tryOrphanBlocks_rule (fun _ acc s₁ =>
    (∀ a ∈ s₁.attempts, a.StrandsNone root byPrev) → ∀ h ∈ s₁.node.mapBlockIndex,
      h ∈ s.node.mapBlockIndex ∨ h ∈ acc ∨ ∀ p ∈ byPrev, p.1 ≠ h)
    ?_ [] (fun _ h hh => .inl hh) htry
  · exact hrule hnone
  rintro b l acc s₁ s₂ fAccepted hI hstep hnone h hh
  obtain ⟨r, s₃, ha, hcases⟩ := tryOrphanBlock_cases hstep
  have hb : Beside b.getHash s₁ s₃ := beside_acceptBlock.of_eq ha
  -- where the block was forgotten, the index is what `AcceptBlock` left
  have hcover : s₂ = forgotten b (noted b r s₃) → (r = .ok () → fAccepted = true) →
      h ∈ s.node.mapBlockIndex ∨ h ∈ acc ++ (if fAccepted then [b.getHash] else []) ∨
        ∀ p ∈ byPrev, p.1 ≠ h := by
    rintro rfl hok
    have hbefore : ∀ a ∈ s₁.attempts, a.StrandsNone root byPrev := fun a ha =>
      hnone a (List.mem_cons_of_mem _ (hb.attempts ▸ ha))
    rcases hb.only h hh with rfl | hh
    · rcases r with f | ⟨⟨⟩⟩
      · have hfail := hnone ⟨b.getHash, .error f, s₃.node.mapBlockIndex.contains b.getHash⟩
          List.mem_cons_self f rfl
        exact .inr (.inr (hfail.2 (Std.ExtTreeMap.mem_iff_contains.1 hh)))
      · rw [hok rfl]
        exact .inr (.inl (List.mem_append_right _ (List.mem_singleton.2 rfl)))
    · rcases hI hbefore h hh with hold | hacc | hfree
      · exact .inl hold
      · exact .inr (.inl (List.mem_append_left _ hacc))
      · exact .inr (.inr hfree)
  rcases hcases with ⟨-, hr, hs₂⟩ | ⟨⟨f, hf, -⟩, hr, hs₂⟩ | ⟨f, -, -, hr, -⟩
  · exact hcover hs₂ fun _ => Except.ok.inj hr
  · exact hcover hs₂ fun hok => absurd (hf.symm.trans hok) (by simp)
  · exact absurd hr (by simp)

/-- **One turn**: what is new in the index, and waited for, is new on the
queue. -/
theorem FullNode.QueueCovers.turn (h : s.QueueCovers (hashPrev :: q))
    (hsub : s.orphans.mapOrphanBlocksByPrev ⊆ byPrev)
    (htry : tryOrphanBlocks (s.orphans.waiting hashPrev) s = (.ok acc, s'))
    (hnone : ∀ a ∈ s'.attempts, a.StrandsNone root byPrev) :
    (dropKey hashPrev s').QueueCovers (q ++ acc) := by
  intro p hp hmem
  obtain ⟨hp, hne⟩ := List.mem_filter.1 hp
  rw [(noting_tryOrphanBlocks.of_eq htry).mapOrphanBlocksByPrev] at hp
  rcases grown_tryOrphanBlocks htry hnone p.1 hmem with hold | hacc | hfree
  · refine List.mem_append_left _ ?_
    rcases List.mem_cons.1 (h p hp hold) with heq | hq
    · exact absurd heq (of_decide_eq_true hne)
    · exact hq
  · exact List.mem_append_right _ hacc
  · exact absurd rfl (hfree p (hsub hp))

/-- **All of the queue.** -/
theorem noneStranded_workQueue {fuel : ℕ} (hin : s.InStep) (h : s.QueueCovers q)
    (hrun : workQueue fuel q s = (.ok (), s'))
    (hnone : ∀ a ∈ s'.attempts, a.StrandsNone root s.orphans.mapOrphanBlocksByPrev) :
    s'.NoneStranded := by
  have hend := workQueue_rule (fun q s₁ => s₁.InStep ∧
      s₁.orphans.mapOrphanBlocksByPrev ⊆ s.orphans.mapOrphanBlocksByPrev ∧
      ((∀ a ∈ s₁.attempts, a.StrandsNone root s.orphans.mapOrphanBlocksByPrev) → s₁.QueueCovers q))
    ?_ ⟨hin, List.Subset.refl _, fun _ => h⟩ hrun
  · exact hend.1.noneStranded_iff.2 (hend.2.2 hnone)
  rintro hashPrev rest s₁ s₂ accepted ⟨hin, hsub, hcov⟩ htry
  have hnoting := noting_tryOrphanBlocks.of_eq htry
  refine ⟨hin.turn htry, fun p hp => ?_, fun hnone => ?_⟩
  · refine hsub ?_
    rw [← hnoting.mapOrphanBlocksByPrev]
    exact (List.mem_filter.1 hp).1
  · have hbefore : ∀ a ∈ s₁.attempts, a.StrandsNone root s.orphans.mapOrphanBlocksByPrev :=
      fun a ha => hnone a (hnoting.attempts.subset ha)
    exact (hcov hbefore).turn hsub htry hnone

/-! ## One call -/

theorem StrandsNone.orphansReturn (h : StrandsNone s pfrom block) : OrphansReturn s pfrom block :=
  fun a ha hne f hf => (h a ha f hf).1 hne

/-- **A call that strands nobody leaves nobody stranded.** -/
theorem FullNode.NoneStranded.processBlock (h : s.NoneStranded) (hin : s.InStep)
    (hnone : StrandsNone s pfrom block)
    (hcrash : ∀ f, (processBlock pfrom block s).1 = .error f → f.isCrash = false) :
    (CryptoBullion.processBlock pfrom block s).2.NoneStranded := by
  have hret := hnone.orphansReturn
  unfold StrandsNone at hnone
  unfold OrphansReturn at hret
  rcases hrun : CryptoBullion.processBlock pfrom block s with ⟨r, s'⟩
  rw [hrun] at hnone hcrash hret
  obtain ⟨s₁, hchecked, hcases⟩ := processBlock_cases hrun
  have hin₁ : s₁.InStep := hin.congr (by rw [hchecked.orphans]) (by rw [hchecked.orphans])
  have hcov₁ : s₁.QueueCovers [] := by
    intro p hp hmem
    rw [hchecked.orphans] at hp
    rw [hchecked.mapBlockIndex] at hmem
    exact hin.noneStranded_iff.1 h p hp hmem
  rcases hcases with ⟨f, -, rfl⟩ | ⟨hnew, ⟨-, hrun₁⟩ | ⟨hparent, hrun₁⟩⟩
  · exact hin₁.noneStranded_iff.2 hcov₁
  · obtain ⟨r₁, s₂, hacc, hcases⟩ := acceptAndFollow_cases hrun₁
    have hb := beside_acceptBlock.of_eq hacc
    have hin₂ : (noted block r₁ s₂).InStep := hin₁.congr hb.mapOrphanBlocks hb.mapOrphanBlocksByPrev
    have hprev₂ : (noted block r₁ s₂).orphans.mapOrphanBlocksByPrev =
        s.orphans.mapOrphanBlocksByPrev := by
      rw [← hchecked.orphans]
      exact hb.mapOrphanBlocksByPrev
    -- only the block itself can be new in the index
    have hcov₂ : (noted block r₁ s₂).QueueCovers [block.getHash] := by
      intro p hp hmem
      rcases hb.only p.1 hmem with heq | hold
      · exact List.mem_singleton.2 heq
      · rw [hprev₂, ← hchecked.orphans] at hp
        exact absurd (hcov₁ p hp hold) (by simp)
    rcases hcases with ⟨f, rfl, rfl⟩ | ⟨-, hqueue⟩
    · refine hin₂.noneStranded_iff.2 fun p hp hmem => ?_
      have hself := List.mem_singleton.1 (hcov₂ p hp hmem)
      have hfail := hnone ⟨block.getHash, .error f, s₂.node.mapBlockIndex.contains block.getHash⟩
        List.mem_cons_self f rfl
      rw [hprev₂] at hp
      exact absurd hself (hfail.2 (Std.ExtTreeMap.mem_iff_contains.1 (hself ▸ hmem)) p hp)
    · have hnew₂ : (noted block r₁ s₂).orphans.mapOrphanBlocks[block.getHash]? = none := by
        rw [← hnew, ← hchecked.orphans]
        exact congrArg (·[block.getHash]?) hb.mapOrphanBlocks
      obtain rfl := workQueue_ok_of_returns hin₂ hnew₂ hqueue hcrash hret
      rw [← hprev₂] at hnone
      exact noneStranded_workQueue hin₂ hcov₂ hqueue hnone
  · have hin' : s'.InStep := by
      have hreturn : OrphansReturn s pfrom block := by
        unfold OrphansReturn
        rwa [hrun]
      have hends : ∀ f, (CryptoBullion.processBlock pfrom block s).1 = .error f → f.isCrash = false := by
        rwa [hrun]
      have hkept := (hin.processBlock hreturn hends).1
      rwa [hrun] at hkept
    rcases keepOrphanBlock_cases hrun₁ with ⟨f, -, rfl⟩ | ⟨rfl, -⟩
    · exact hin₁.noneStranded_iff.2 hcov₁
    · refine hin'.noneStranded_iff.2 fun p hp hmem => ?_
      rcases List.mem_append.1 hp with hp | hp
      · exact hcov₁ p hp hmem
      · rw [List.mem_singleton.1 hp] at hmem
        exact absurd (hchecked.mapBlockIndex ▸ hmem) hparent

namespace StrandedChild

open SharedStake (funding after run_after)

/-- A node that has the first block. -/
def node : NodeState :=
  { NodeState.blank fun _ => ⟨3000001, true, fun _ _ => true⟩ with
    mapBlockIndex := (∅ : Map Uint256 CBlockIndex).insert 1
      { CBlockIndex.null with nTime := 100, fGeneratedStakeModifier := true }
    pindexGenesisBlock := some 1
    pindexBest := some 1
    hashBestChain := 1
    nBestHeight := 0 }

def start : FullNode := { SharedStake.start with node := node }

/-- A mined block of its coinbase alone. -/
def mined (nTime : ℕ) (hashPrev : Uint256) (nHeight : ℤ) (nNonce : ℕ) : CBlock :=
  { SharedStake.mined hashPrev nNonce with
    hashMerkleRoot := BitVec.ofNat 256 nTime
    nTime := nTime
    vtx := [{ funding with
      nTime := nTime
      vin := [⟨COutPoint.null, pushInt64 nHeight ++ [0, 0], uintMax⟩] }] }

/-- Spends an output that does not exist. -/
def baseless : CTransaction where
  nVersion := 1
  nTime := 2999999
  vin := [{ prevout := ⟨77, 0⟩, scriptSig := [], nSequence := uintMax }]
  vout := [⟨coin, [1]⟩]
  nLockTime := 0

/-- The first block after the one there is. -/
def first : CBlock := mined 3000000 1 1 10

/-- The same with that transaction in it. -/
def flawed : CBlock := { first with hashMerkleRoot := 0, vtx := first.vtx ++ [baseless] }

/-- Its child, which comes before it. -/
def child : CBlock := mined 3000060 10 2 11

/-- The child waits. -/
def waiting : FullNode := after start child

/-- A child whose target is not the one it should have. -/
def stray : CBlock := { child with nBits := 503970127 }

omit [P : Platform] in
/-- Where every attempt is noted as a success, or left nothing in the index. -/
theorem strandsNone_of_all {s : FullNode} {block : CBlock}
    (h : (after s block).attempts.all (fun a => match a.result with
      | .ok () => true
      | .error f => f.returnsFalse && !a.fIndexed) = true) :
    StrandsNone (P := Platform.toy) s true block := by
  intro a ha f hf
  have hret := List.all_eq_true.1 h a ha
  simp only [hf, Bool.and_eq_true, Bool.not_eq_true'] at hret
  exact ⟨fun _ => hret.1, fun hindexed => absurd hindexed (by simp [hret.2])⟩

end StrandedChild

end CryptoBullion
