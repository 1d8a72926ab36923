import CryptoBullion.Chain.Trust
/-!
# Adding a block is two steps of a run

`AddToBlockIndex` gives a stored block its entry and, if it has the most
trust now, calls `SetBestChain` in the same breath. A node that only ever
adds blocks so goes through states of the run of steps in which the two
happen apart, and what holds in every such run holds of it.
-/

namespace CryptoBullion

open NodeState

variable [P : Platform]

variable {s s₁ : NodeState} {block : CBlock} {nFile nBlockPos : ℕ} {b : StoredBlock}

/-- **What `AddToBlockIndex` has done when the entry is written**: the batch
is closed and the entry points at the block. -/
theorem of_indexBlock_eq_ok (hclosed : s.txdb.activeBatch = none)
    (h : indexBlock block nFile nBlockPos s = (.ok (), s₁)) :
    s₁.txdb.activeBatch = none ∧ s₁.blockFiles = s.blockFiles ∧ block.getHash ∈ s₁.mapBlockIndex ∧
      (s₁.entry block.getHash).nFile = nFile ∧ (s₁.entry block.getHash).nBlockPos = nBlockPos := by
  have hend : s₁.txdb.activeBatch = none := by
    rw [indexBlock, Step.get_bind] at h
    obtain ⟨i, -, h₁⟩ := Step.lift_bind_eq_ok.1 h
    rw [Step.modify_bind] at h₁
    obtain ⟨_, s₂, -, h₂⟩ := Step.bind_eq_ok.1 h₁
    rw [onTxDb_modify_bind] at h₂
    obtain ⟨-, rfl⟩ := of_txnCommit_eq_ok (Step.mapError_eq_ok.1 h₂)
    rfl
  rcases of_indexBlock block nFile nBlockPos hclosed with ⟨f, heq⟩ | ⟨i, hi, -, heq⟩
  · rw [h] at heq
    exact absurd heq (by simp)
  obtain ⟨-, hfile, hpos, -⟩ := of_makeEntry_eq_ok hi
  rw [h] at heq
  change s₁ = _ at heq
  have hentry : s₁.entry block.getHash = i := by
    rw [heq]
    exact entry_insertEntry.trans (if_pos rfl)
  refine ⟨hend, by rw [heq]; rfl, ?_, by rw [hentry, hfile], by rw [hentry, hpos]⟩
  rw [heq]
  exact mem_insertEntry.2 (.inl rfl)

/-- **`AddToBlockIndex` is an `index` step, and a `best` step after it** where
the block has the most trust. -/
theorem reachable_addToBlockIndex (hr : Reachable s) (hb : b ∈ s.blockFiles)
    (hp : b.block.hashPrevBlock ∈ s.mapBlockIndex)
    (hrun : ∀ f, (addToBlockIndex b.block b.nFile b.nBlockPos s).1 = .error f → f.isCrash = false) :
    Reachable (addToBlockIndex b.block b.nFile b.nBlockPos s).2 := by
  have hindexed := Reachable.step hr (.index b hb hp)
  rcases hi : indexBlock b.block b.nFile b.nBlockPos s with ⟨f | u, s₁⟩
  · -- no entry, and so no call
    rw [closeTxDb, hi] at hindexed
    rw [addToBlockIndex, closeTxDb, Step.bind_of_error hi]
    exact hindexed
  obtain ⟨hclosed, hfiles, hmem, hfile, hpos⟩ := of_indexBlock_eq_ok (closed_of_reachable hr) hi
  have habort : ({ s₁ with txdb := s₁.txdb.abort } : NodeState) = s₁ := by
    rw [Store.abort, ← hclosed]
  rw [closeTxDb, hi] at hindexed
  dsimp only at hindexed
  rw [habort] at hindexed
  rw [addToBlockIndex_of_indexed hi] at hrun ⊢
  split_ifs at hrun ⊢ with htrust
  · have hst : s₁.Stores b.block.getHash b.block := by
      refine ⟨hmem, ?_⟩
      rw [hfile, hpos, hfiles]
      exact hb
    refine Reachable.step hindexed (.best b.block b.block.getHash hst fun f hf => ?_)
    by_contra hcrash
    have hout := hrun (f.orElse .quiet) (by rw [closeTxDb, Step.mapError_apply, hf]; rfl)
    rw [Failure.isCrash_orElse (by simpa using hcrash)] at hout
    exact absurd hout (by simp)
  · rw [closeTxDb]
    show Reachable { s₁ with txdb := s₁.txdb.abort }
    rwa [habort]

/-- **A node that only adds blocks** goes through states of a run. -/
theorem reachable_of_addRun (h : AddRun s) : Reachable s := by
  induction h with
  | start h =>
    obtain ⟨_, b, hs, hfiles, happ, hb, hhash, hrun⟩ := h
    exact .genesis b hs hfiles happ hb hhash hrun
  | step _ hs ih =>
    cases hs with
    | write b hb => exact ih.step (.write b hb)
    | add b hb hp _ _ hrun => exact reachable_addToBlockIndex ih hb hp hrun
    | other h => exact ih.step (.other h)

end CryptoBullion
