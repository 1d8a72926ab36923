import CryptoBullion.Chain.Tentative
/-!
# Attempts that fail

A call of `SetBestChain` that returns `false` has not moved the chain.
Everything before a commit is tentative, a commit that fails drops the
batch, and `InvalidChainFound` writes one record outside it; no path that
returns `false` goes on after a commit that succeeded. `Unmoved` is what
is left of `Tentative` once the batch is gone.
-/

namespace CryptoBullion

/-- The chain has not moved: of the database only the record of the
largest invalid trust may differ, of the entries only the supply fields. -/
structure Unmoved (s s' : NodeState) : Prop where
  entry : ∀ h : Uint256, (s'.mapBlockIndex[h]?).map CBlockIndex.sansSupply =
    (s.mapBlockIndex[h]?).map CBlockIndex.sansSupply
  committed : ∀ k : DbKey, k ≠ .bnBestInvalidTrust →
    s'.txdb.committed[k]? = s.txdb.committed[k]?
  rest : s' = { s with
    mapBlockIndex := s'.mapBlockIndex
    txdb := s'.txdb
    wallets := s'.wallets
    outside := s'.outside
    bnBestInvalidTrust := s'.bnBestInvalidTrust
    trace := s'.trace }
  smooth : Smooth s s'

namespace Unmoved

variable {s s' s'' : NodeState} {h : Uint256}

instance : Std.Refl Unmoved := ⟨fun _ => ⟨fun _ => rfl, fun _ _ => rfl, rfl, Smooth.of_eq rfl⟩⟩

instance : IsTrans NodeState Unmoved where
  trans s s' s'' h₁ h₂ := by
    refine ⟨fun h => (h₂.entry h).trans (h₁.entry h),
      fun k hk => (h₂.committed k hk).trans (h₁.committed k hk), ?_,
      IsTrans.trans _ _ _ h₁.smooth h₂.smooth⟩
    rw [h₂.rest, h₁.rest]

theorem sameTree (hu : Unmoved s s') : SameTree s s' := by
  refine ⟨fun h => ?_, by rw [hu.rest], hu.smooth.trace⟩
  have := congrArg (Option.map CBlockIndex.settled) (hu.entry h)
  simpa only [Option.map_map, Function.comp_def, CBlockIndex.settled_sansSupply] using this

theorem pnext (hu : Unmoved s s') : s'.pnext = s.pnext := by
  funext h
  have hi : (s'.entry h).sansSupply = (s.entry h).sansSupply := by
    rw [NodeState.entry, NodeState.entry, ← Option.getD_map CBlockIndex.sansSupply,
      ← Option.getD_map CBlockIndex.sansSupply, hu.entry]
  exact (congrArg CBlockIndex.pnext hi :)

theorem pindexBest (hu : Unmoved s s') : s'.pindexBest = s.pindexBest := by rw [hu.rest]
theorem hashBestChain (hu : Unmoved s s') : s'.hashBestChain = s.hashBestChain := by rw [hu.rest]
theorem nBestHeight (hu : Unmoved s s') : s'.nBestHeight = s.nBestHeight := by rw [hu.rest]
theorem mempool (hu : Unmoved s s') : s'.mempool = s.mempool := by rw [hu.rest]
theorem bnBestChainTrust (hu : Unmoved s s') : s'.bnBestChainTrust = s.bnBestChainTrust := by
  rw [hu.rest]
theorem pindexGenesisBlock (hu : Unmoved s s') :
    s'.pindexGenesisBlock = s.pindexGenesisBlock := by
  rw [hu.rest]

end Unmoved

/-- **Trying things out inside a batch does not move the chain.** -/
theorem Tentative.unmoved {s s' : NodeState} (ht : Tentative s s')
    (hb : s.txdb.activeBatch.isSome) : Unmoved s s' :=
  ⟨ht.entry, fun _ _ => by rw [(ht.txdb hb).2], by rw [ht.rest], ht.smooth⟩

/-! ## Database transactions -/

section Database

open Step (Preserves)

variable {α : Type} {s s' : NodeState} {pindex : Uint256} {msg : String} {f : Failure}

/-- The batch can be opened when none is, and then it is empty. -/
theorem of_txnBegin_eq_ok (h : txnBegin s = (.ok (), s')) :
    s.txdb.activeBatch = none ∧ s' = { s with txdb := s.txdb.begin } := by
  rw [txnBegin, Step.get_bind] at h
  rcases hb : s.txdb.activeBatch with _ | ws <;> simp only [hb] at h
  · rw [onTxDb_modify_apply, Prod.mk.injEq] at h
    exact ⟨rfl, h.2.symm⟩
  · simp at h

theorem txnBegin_of_none (h : s.txdb.activeBatch = none) :
    txnBegin s = (.ok (), { s with txdb := s.txdb.begin }) := by
  rw [txnBegin, Step.get_bind]
  simp only [h]
  rfl

/-- Opening a second one fails an assertion. -/
theorem isCrash_txnBegin (h : txnBegin s = (.error f, s')) : f.isCrash = true := by
  rw [txnBegin, Step.get_bind] at h
  rcases hb : s.txdb.activeBatch with _ | ws <;> simp only [hb] at h
  · simp at h
  · obtain ⟨⟨⟩, -⟩ := Prod.mk.inj h
    rfl

theorem unmoved_txnAbort : Preserves Unmoved txnAbort :=
  fun _ => ⟨fun _ => rfl, fun _ _ => rfl, rfl, Smooth.of_eq rfl⟩

/-- A commit that succeeds carries the batch out. -/
theorem of_txnCommit_eq_ok (h : txnCommit msg s = (.ok (), s')) :
    s.ask.1.fDbOk = true ∧ s' = { s.ask.2 with txdb := s.txdb.commit } := by
  rw [txnCommit, askOutside_bind] at h
  split at h
  · rename_i hok
    rw [onTxDb_modify_apply, Prod.mk.injEq] at h
    exact ⟨hok, h.2.symm⟩
  · rw [txnAbort, onTxDb_modify_bind] at h
    simp at h

/-- A commit that fails has dropped the batch and nothing else. -/
theorem of_txnCommit_eq_error (h : txnCommit msg s = (.error f, s')) :
    f = .error msg ∧ s' = { s.ask.2 with txdb := s.txdb.abort } := by
  rw [txnCommit, askOutside_bind] at h
  split at h
  · simp at h
  · rw [txnAbort, onTxDb_modify_bind] at h
    obtain ⟨⟨⟩, rfl⟩ := Prod.mk.inj h
    exact ⟨rfl, rfl⟩

/-- Either way the database holds, under each key, what it held or what the
batch read. -/
theorem txnCommit_snd (msg : String) (s : NodeState) : ∃ txdb, (txnCommit msg s).2 = { s.ask.2 with txdb := txdb } ∧
    ∀ k, txdb.committed[k]? = s.txdb.committed[k]? ∨ txdb.committed[k]? = s.txdb.read k := by
  rcases h : txnCommit msg s with ⟨f | u, s'⟩
  · obtain ⟨-, rfl⟩ := of_txnCommit_eq_error h
    exact ⟨_, rfl, fun _ => .inl rfl⟩
  · obtain ⟨-, rfl⟩ := of_txnCommit_eq_ok h
    exact ⟨_, rfl, fun _ => .inr Store.committed_commit⟩

theorem unmoved_txnCommit (h : txnCommit msg s = (.error f, s')) : Unmoved s s' := by
  obtain ⟨-, rfl⟩ := of_txnCommit_eq_error h
  exact ⟨fun _ => rfl, fun _ _ => rfl, rfl, Smooth.of_eq rfl⟩

theorem unmoved_invalidChainFound (pindex : Uint256) :
    Preserves Unmoved (invalidChainFound pindex) := by
  refine Preserves.bind Preserves.get fun s => ?_
  split
  · refine Preserves.bind (Preserves.modify fun s => ⟨fun _ => rfl, fun _ _ => rfl, rfl, Smooth.of_eq rfl⟩) fun _ =>
      Preserves.bind (fun s => ⟨fun _ => rfl, fun _ _ => rfl, rfl, Smooth.of_eq rfl⟩) fun ans => ?_
    split
    · refine fun s => ⟨fun _ => rfl, fun k hk => ?_, rfl, Smooth.of_eq rfl⟩
      exact Store.getElem?_apply.trans (if_neg hk.symm)
    · exact Preserves.pure
  · exact Preserves.pure

end Database

/-! ## The paths that fail -/

section Paths

variable [P : Platform]
variable {s s' : NodeState} {block : CBlock} {pindex pindexNew : Uint256} {f g : Failure}
variable {x : Step NodeState Failure Unit} {vDisconnect vConnect : List Uint256}

/-- Handing transactions to the pool never fails. -/
theorem forEach_acceptToMemoryPool_ne_error :
    ∀ {txs : List CTransaction} {s : NodeState},
      Step.forEach acceptToMemoryPool txs s ≠ (.error f, s')
  | [], s, h => by simp at h
  | tx :: txs, s, h => by
    rw [Step.forEach_cons, acceptToMemoryPool, Step.modify_bind] at h
    exact forEach_acceptToMemoryPool_ne_error h

/-- Up to its commit `Reorganize` is tentative, and after it nothing
fails. -/
theorem unmoved_switchBranch (hb : s.txdb.activeBatch.isSome)
    (h : switchBranch pindexNew vDisconnect vConnect s = (.error f, s')) : Unmoved s s' := by
  have hdis := preserves_disconnectAll (l := vDisconnect)
  have hcon := preserves_connectAll (l := vConnect)
  have hwr : ∀ s, Tentative s
      { s with txdb := CTxDB.writeHashBestChain s.txdb pindexNew } :=
    preserves_onTxDb (x := Step.modify (CTxDB.writeHashBestChain · pindexNew)) staysOpen_write
  rw [switchBranch, Step.bind_eq_error] at h
  rcases h with h | ⟨disconnected, s₁, h₁, h⟩
  · have := hdis s
    rw [h] at this
    exact this.unmoved hb
  replace hdis := hdis s
  rw [h₁] at hdis
  rw [Step.bind_eq_error] at h
  rcases h with h | ⟨connected, s₂, h₂, h⟩
  · have := hcon s₁
    rw [h] at this
    exact (IsTrans.trans _ _ _ hdis this).unmoved hb
  replace hcon := hcon s₁
  rw [h₂] at hcon
  rw [onTxDb_modify_bind, Step.bind_eq_error] at h
  rcases h with h | ⟨_, s₃, -, h⟩
  · exact IsTrans.trans _ _ _ ((IsTrans.trans _ _ _ hdis (IsTrans.trans _ _ _ hcon (hwr s₂))).unmoved hb)
      (unmoved_txnCommit h)
  rw [Step.modify_bind, Step.bind_eq_error] at h
  rcases h with h | ⟨_, s₄, -, h⟩
  · exact absurd h forEach_acceptToMemoryPool_ne_error
  · simp at h

/-- **A reorganisation that fails has not moved the chain.** -/
theorem unmoved_reorganize (hb : s.txdb.activeBatch.isSome)
    (h : reorganize pindexNew s = (.error f, s')) : Unmoved s s' := by
  rw [reorganize, Step.get_bind] at h
  rcases hbest : s.pindexBest with _ | best <;> simp only [hbest] at h
  · obtain ⟨-, rfl⟩ := Prod.mk.inj h
    exact Std.Refl.refl s
  rcases Step.lift_bind_eq_error.1 h with ⟨-, rfl⟩ | ⟨pfork, -, h⟩
  · exact Std.Refl.refl s
  rcases Step.lift_bind_eq_error.1 h with ⟨-, rfl⟩ | ⟨vDisconnect, -, h⟩
  · exact Std.Refl.refl s
  rcases Step.lift_bind_eq_error.1 h with ⟨-, rfl⟩ | ⟨vConnect, -, h⟩
  · exact Std.Refl.refl s
  exact unmoved_switchBranch hb h

omit [P : Platform] in
/-- Giving up on a block adds the record of its trust. -/
theorem unmoved_orInvalid (hx : ∀ {f s'}, x s = (.error f, s') → Unmoved s s')
    (h : orInvalid pindexNew g x s = (.error f, s')) : Unmoved s s' := by
  rw [orInvalid, Step.attempt_bind] at h
  rcases hxs : x s with ⟨e | u, s₁⟩ <;> simp only [hxs] at h
  · split at h
    · rw [txnAbort, onTxDb_modify_bind, Step.bind_eq_error] at h
      have hab : Unmoved s { s₁ with txdb := s₁.txdb.abort } :=
        IsTrans.trans _ _ _ (hx hxs) (unmoved_txnAbort s₁)
      have hinv := unmoved_invalidChainFound pindexNew { s₁ with txdb := s₁.txdb.abort }
      rcases h with h | ⟨_, s₂, h₁, h⟩
      · rw [h] at hinv
        exact IsTrans.trans _ _ _ hab hinv
      · rw [h₁] at hinv
        obtain ⟨-, rfl⟩ := Prod.mk.inj h
        exact IsTrans.trans _ _ _ hab hinv
    · obtain ⟨-, rfl⟩ := Prod.mk.inj h
      exact hx hxs
  · simp at h

omit [P : Platform] in
/-- What `orInvalid` lets through has succeeded. -/
theorem of_orInvalid_eq_ok (h : orInvalid pindexNew g x s = (.ok (), s')) : x s = (.ok (), s') := by
  rw [orInvalid, Step.attempt_bind] at h
  rcases hxs : x s with ⟨e | u, s₁⟩ <;> simp only [hxs] at h
  · split at h
    · rw [Step.bind_eq_ok] at h
      obtain ⟨_, s₂, -, h⟩ := h
      rw [Step.bind_eq_ok] at h
      obtain ⟨_, s₃, -, h⟩ := h
      simp at h
    · simp at h
  · exact h

/-- The extension of a chain by one block, up to its commit. -/
theorem tentative_extend (block : CBlock) (pindexNew : Uint256) : Step.Preserves Tentative (do
    logged (.connect pindexNew) (connectBlock block pindexNew)
    onTxDb (Step.modify (CTxDB.writeHashBestChain · block.getHash))) :=
  Step.Preserves.bind (preserves_logged (by simp) preserves_connectBlock)
    fun _ => preserves_onTxDb staysOpen_write

/-- **An extension that fails has not moved the chain**: the one thing it
can stumble on after its commit is a null pointer. -/
theorem unmoved_setBestChainInner (hb : s.txdb.activeBatch.isSome)
    (h : setBestChainInner block pindexNew s = (.error f, s')) (hf : f.isCrash = false) :
    Unmoved s s' := by
  rw [setBestChainInner, Step.bind_eq_error] at h
  rcases h with h | ⟨_, s₁, h₁, h⟩
  · refine unmoved_orInvalid (fun {e s₂} hx => ?_) h
    have := tentative_extend block pindexNew s
    rw [hx] at this
    exact this.unmoved hb
  have hs₁ : Unmoved s s₁ := by
    have := tentative_extend block pindexNew s
    rw [of_orInvalid_eq_ok h₁] at this
    exact this.unmoved hb
  rw [Step.bind_eq_error] at h
  rcases h with h | ⟨_, s₂, -, h⟩
  · exact IsTrans.trans _ _ _ hs₁ (unmoved_txnCommit h)
  rw [Step.get_bind] at h
  rcases hp : s₂.pprev pindexNew with _ | prev <;> simp only [hp] at h
  · rw [Step.fail_bind] at h
    obtain ⟨⟨⟩, -⟩ := Prod.mk.inj h
    simp [Failure.isCrash] at hf
  · simp at h

/-- Connecting the postponed blocks fails with an exception or a crash,
never with `false`, and the block it failed on is noted. -/
theorem of_connectPostponed_eq_error :
    ∀ {l : List Uint256} {s : NodeState}, connectPostponed l s = (.error f, s') →
      f.returnsFalse = false ∧ ∃ h, .postponedFailed h ∈ s'.trace
  | [], s, h => by simp [connectPostponed] at h
  | pindex :: rest, s, h => by
    rw [connectPostponed, Step.attempt_bind] at h
    rcases hx : connectNext pindex s with ⟨e | u, s₁⟩ <;> simp only [hx] at h
    · rw [Step.modify_bind] at h
      split_ifs at h with hf
      · simp at h
      · obtain ⟨⟨⟩, rfl⟩ := Prod.mk.inj h
        exact ⟨by simpa using hf, pindex, List.mem_cons_self⟩
    · exact of_connectPostponed_eq_error h

/-- **A switch that fails has not moved the chain**, unless it failed on a
postponed block. -/
theorem unmoved_switchChain (hb : s.txdb.activeBatch.isSome)
    (h : switchChain pindexNew s = (.error f, s')) :
    Unmoved s s' ∨ (f.returnsFalse = false ∧ ∃ h, .postponedFailed h ∈ s'.trace) := by
  rw [switchChain, Step.get_bind] at h
  rcases hbest : s.pindexBest with _ | best <;> simp only [hbest] at h
  · obtain ⟨-, rfl⟩ := Prod.mk.inj h
    exact .inl (Std.Refl.refl s)
  rcases Step.lift_bind_eq_error.1 h with ⟨-, rfl⟩ | ⟨r, -, h⟩
  · exact .inl (Std.Refl.refl s)
  rcases Step.bind_eq_error.1 h with h | ⟨_, s₁, -, h⟩
  · exact .inl (unmoved_orInvalid (fun hx => unmoved_reorganize hb hx) h)
  · exact .inr (of_connectPostponed_eq_error h)

omit [P : Platform] in
/-- The genesis block's own path writes one record and commits. -/
theorem unmoved_startChain {hash : Uint256} (hb : s.txdb.activeBatch.isSome)
    (h : startChain hash pindexNew s = (.error f, s')) : Unmoved s s' := by
  have hwr : Tentative s { s with txdb := CTxDB.writeHashBestChain s.txdb hash } :=
    preserves_onTxDb (x := Step.modify (CTxDB.writeHashBestChain · hash)) staysOpen_write s
  rw [startChain, onTxDb_modify_bind] at h
  rcases Step.bind_eq_error.1 h with h | ⟨_, s₁, -, h⟩
  · exact IsTrans.trans _ _ _ (hwr.unmoved hb) (unmoved_txnCommit h)
  · simp at h

/-- **How `SetBestChain` fails**: before its batch, or on one of its three
paths. -/
theorem of_setBestChain_eq_error (h : setBestChain block pindexNew s = (.error f, s')) :
    txnBegin s = (.error f, s') ∨
      ∃ s₁ f', s₁ = { s with txdb := s.txdb.begin } ∧ (f.returnsFalse → f'.returnsFalse) ∧
        (f'.isCrash → f.isCrash) ∧ (startChain block.getHash pindexNew s₁ = (.error f', s') ∨
          setBestChainInner block pindexNew s₁ = (.error f', s') ∨
          switchChain pindexNew s₁ = (.error f', s')) := by
  rw [setBestChain, Step.bind_eq_error] at h
  rcases h with h | ⟨_, s₁, h₁, h⟩
  · exact .inl h
  obtain ⟨-, hs₁⟩ := of_txnBegin_eq_ok h₁
  right
  rw [Step.get_bind] at h
  have hlast : ∀ {s : NodeState}, (Step.modify (newBest block.getHash pindexNew) :
      Step NodeState Failure Unit) s ≠ (.error f, s') := by simp
  split_ifs at h
  · rcases Step.bind_eq_error.1 h with h | ⟨_, s₂, -, h⟩
    · exact ⟨s₁, f, hs₁, id, id, .inl h⟩
    · exact absurd h hlast
  · rcases Step.bind_eq_error.1 h with h | ⟨_, s₂, -, h⟩
    · obtain ⟨f', h', rfl⟩ := Step.mapError_eq_error.1 h
      exact ⟨s₁, f', hs₁, Failure.returnsFalse_of_orElse, Failure.isCrash_orElse, .inr (.inl h')⟩
    · exact absurd h hlast
  · rcases Step.bind_eq_error.1 h with h | ⟨_, s₂, -, h⟩
    · exact ⟨s₁, f, hs₁, id, id, .inr (.inr h)⟩
    · exact absurd h hlast

/-- **A call of `SetBestChain` that fails has not moved the chain**, unless
an exception or a crash left it on a postponed block. -/
theorem unmoved_setBestChain (h : setBestChain block pindexNew s = (.error f, s'))
    (hf : f.isCrash = false) :
    Unmoved s s' ∨ (f.returnsFalse = false ∧ ∃ h, .postponedFailed h ∈ s'.trace) := by
  rcases of_setBestChain_eq_error h with h | ⟨s₁, f', rfl, hfalse, hcrash, h⟩
  · rw [isCrash_txnBegin h] at hf
    simp at hf
  have hs : Unmoved s { s with txdb := s.txdb.begin } :=
    ⟨fun _ => rfl, fun _ _ => rfl, rfl, Smooth.of_eq rfl⟩
  have hf' : f'.isCrash = false := by
    by_contra hc
    rw [hcrash (by simpa using hc)] at hf
    simp at hf
  rcases h with h | h | h
  · exact .inl (IsTrans.trans _ _ _ hs (unmoved_startChain rfl h))
  · exact .inl (IsTrans.trans _ _ _ hs (unmoved_setBestChainInner rfl h hf'))
  · rcases unmoved_switchChain rfl h with hu | ⟨hnot, hlog⟩
    · exact .inl (IsTrans.trans _ _ _ hs hu)
    · exact .inr ⟨by_contra fun hr => by simp [hfalse (by simpa using hr)] at hnot, hlog⟩

/-- **A call of `SetBestChain` that returns `false` leaves the chain as it
was**: the committed database but for the record of the largest invalid
trust, the best block and its globals, every link and the pool. -/
theorem setBestChain_false_leaves_chain (h : setBestChain block pindexNew s = (.error f, s'))
    (hf : f.returnsFalse) :
    (∀ k : DbKey, k ≠ .bnBestInvalidTrust → s'.txdb.committed[k]? = s.txdb.committed[k]?) ∧
      s'.pindexBest = s.pindexBest ∧ s'.hashBestChain = s.hashBestChain ∧
      s'.nBestHeight = s.nBestHeight ∧ s'.bnBestChainTrust = s.bnBestChainTrust ∧
      (∀ h : Uint256, s'.pnext h = s.pnext h) ∧
      s'.mempool.mapTx = s.mempool.mapTx ∧ s'.mempool.mapNextTx = s.mempool.mapNextTx := by
  have hu : Unmoved s s' := by
    rcases unmoved_setBestChain h (Failure.isCrash_of_returnsFalse hf) with hu | ⟨hnot, -⟩
    · exact hu
    · simp [hf] at hnot
  exact ⟨hu.committed, hu.pindexBest, hu.hashBestChain, hu.nBestHeight, hu.bnBestChainTrust,
    fun _ => by rw [hu.pnext], by rw [hu.mempool], by rw [hu.mempool]⟩

end Paths

/-- A tip whose child is to be added and has no transactions. -/
def lonelyTip : NodeState :=
  { NodeState.blank fun _ => ⟨0, true, fun _ _ => true⟩ with
    mapBlockIndex :=
      (({} : Map Uint256 CBlockIndex).insert 1 CBlockIndex.null).insert 2
        { CBlockIndex.null with pprev := some 1, nHeight := 1, bnChainTrust := 1 }
    pindexGenesisBlock := some 1
    pindexBest := some 1
    hashBestChain := 1 }

/-- The child. -/
def emptyBlock : CBlock where
  nVersion := 1
  hashPrevBlock := 1
  hashMerkleRoot := 0
  nTime := 0
  nBits := 0
  nNonce := 2
  vtx := []
  vchBlockSig := []

/-- The child is refused, and the tip is where it was. -/
theorem setBestChain_emptyBlock :
    let s' := (setBestChain (P := Platform.toy) emptyBlock 2 lonelyTip).2
    (∀ k : DbKey, k ≠ .bnBestInvalidTrust →
        s'.txdb.committed[k]? = lonelyTip.txdb.committed[k]?) ∧
      s'.pindexBest = some 1 ∧ s'.hashBestChain = 1 ∧ s'.nBestHeight = -1 ∧
      s'.bnBestChainTrust = 0 ∧ (∀ h : Uint256, s'.pnext h = lonelyTip.pnext h) ∧
      s'.mempool.mapTx = ∅ ∧ s'.mempool.mapNextTx = ∅ := by
  have hfalse : (setBestChain (P := Platform.toy) emptyBlock 2 lonelyTip).1 =
      .error (.error "SetBestChain() : SetBestChainInner failed") := by
    decide +kernel
  exact setBestChain_false_leaves_chain (P := Platform.toy) (Prod.ext hfalse rfl) rfl

end CryptoBullion
