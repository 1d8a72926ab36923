import CryptoBullion.Chain.Success
/-!
# The best chain has the most trust

Blocks come in any order and stay in the index whether or not they
connect. Where whether a block connects is settled by the block and its
ancestors, every call of `AddToBlockIndex` on a working disk leaves the
best block with the most trust among the blocks whose whole way from the
genesis block connects, as long as no call of `DisconnectBlock` fails
(`hasBestTrust_of_run`). A block on the best chain may hold a transaction
again that an older one holds; taking the newer block back erases the
entry the older one's spends need, and then the chain is stuck
(`Twice.bestTrust_lost`).
-/

namespace CryptoBullion

variable [P : Platform]

/-- `CheckBlock` has accepted the block, at some time and with some best
block. -/
def PassedCheckBlock (block : CBlock) : Prop :=
  ∃ nAdjustedTime nBestHeight,
    block.checkBlock nAdjustedTime nBestHeight true true true = .ok ()

namespace NodeState

/-- The genesis block was stored and added to an empty index. -/
def JustStarted (s' : NodeState) : Prop :=
  ∃ s b, s.Empty ∧ s.blockFiles = [b] ∧ Appendable [] b ∧ b.block = genesisBlock ∧
    genesisBlock.getHash = hashGenesisBlock ∧
      addToBlockIndex b.block b.nFile b.nBlockPos s = (.ok (), s')

/-- Every block on the way from the genesis block to `pindex` connects. The
genesis block itself is never connected. -/
def Connects (s : NodeState) (valid : Uint256 → Bool) (pindex : Uint256) : Prop :=
  ∀ a, Relation.ReflTransGen (fun a b => s.pprev a = some b) pindex a → s.pprev a ≠ none →
    valid a = true

/-- Whether `ConnectBlock` succeeded was settled by the block alone, with
the ancestors its hash fixes. -/
def Settled (s : NodeState) (valid : Uint256 → Bool) : Prop :=
  ∀ h fOk, .connect h fOk ∈ s.trace → fOk = valid h

/-- No call of `DisconnectBlock` has failed. -/
def Undoes (s : NodeState) : Prop := ∀ h, .disconnect h false ∉ s.trace

/-- The best block connects, and no block that does has more trust. -/
def HasBestTrust (s : NodeState) (valid : Uint256 → Bool) : Prop :=
  ∃ best, s.pindexBest = some best ∧ s.Connects valid best ∧
    ∀ h ∈ s.mapBlockIndex, s.Connects valid h → s.bnChainTrust h ≤ s.bnChainTrust best

end NodeState

/-- One step of a node that only ever calls `AddToBlockIndex`: with a block
that has passed `CheckBlock`, is stored, and has a parent in the index. The
disk works. -/
inductive AddStep : NodeState → NodeState → Prop
  | write {s : NodeState} (b : StoredBlock) (h : Appendable s.blockFiles b) :
      AddStep s { s with blockFiles := s.blockFiles ++ [b] }
  | add {s : NodeState} (b : StoredBlock) (hb : b ∈ s.blockFiles)
      (hp : b.block.hashPrevBlock ∈ s.mapBlockIndex) (hc : PassedCheckBlock b.block)
      (hw : s.Working)
      (hrun : ∀ f, (addToBlockIndex b.block b.nFile b.nBlockPos s).1 = .error f →
        f.isCrash = false) :
      AddStep s (addToBlockIndex b.block b.nFile b.nBlockPos s).2
  | other {s s' : NodeState} (h : s.SameChain s') : AddStep s s'

/-- The states such a node goes through. -/
inductive AddRun : NodeState → Prop
  | start {s : NodeState} (h : s.JustStarted) : AddRun s
  | step {s s' : NodeState} (h : AddRun s) (hs : AddStep s s') : AddRun s'

variable {s s' : NodeState} {valid : Uint256 → Bool} {pindex best new h : Uint256}
variable {block : CBlock} {f : Failure} {l : List Uint256}

open NodeState

/-! ## Blocks that connect -/

namespace NodeState

omit [P : Platform]

theorem Connects.of_pprev (hc : s.Connects valid pindex) (hp : s'.pprev = s.pprev) :
    s'.Connects valid pindex := by
  rw [Connects, hp]
  exact hc

theorem connects_iff_of_lineage (hl : Lineage s.pprev pindex l) :
    s.Connects valid pindex ↔ ∀ a ∈ l, s.pprev a ≠ none → valid a = true := by
  rw [Connects]
  refine forall_congr' fun a => ?_
  rw [hl.mem_iff_reflTransGen]

/-- A block connects no further than its ancestors do. -/
theorem Connects.ancestor (hc : s.Connects valid pindex)
    (hp : Relation.ReflTransGen (fun a b => s.pprev a = some b) pindex h) : s.Connects valid h :=
  fun a ha => hc a (hp.trans ha)

theorem Settled.mono (hv : s'.Settled valid) (ht : s.trace <:+ s'.trace) : s.Settled valid :=
  fun h fOk hm => hv h fOk (ht.subset hm)

theorem Undoes.mono (hv : s'.Undoes) (ht : s.trace <:+ s'.trace) : s.Undoes :=
  fun h hm => hv h (ht.subset hm)

end NodeState

/-! ## A call of SetBestChain -/

/-- On a node that has a genesis block, `SetBestChain` has two paths. -/
theorem setBestChain_of_sound (block : CBlock) (new : Uint256) (hs : s.Sound) (hclosed : s.txdb.activeBatch = none) :
    setBestChain block new s =
      ((if block.hashPrevBlock = s.hashBestChain then
          Step.mapError (·.orElse (.error "SetBestChain() : SetBestChainInner failed"))
            (setBestChainInner block new)
        else switchChain new) >>= fun _ => Step.modify (newBest block.getHash new))
        { s with txdb := s.txdb.begin } := by
  obtain ⟨best, l, hb, hc⟩ := hs.chain
  have hgen : ¬ (s.pindexGenesisBlock = none ∧ block.getHash = hashGenesisBlock) := by
    rintro ⟨hnone, -⟩
    obtain ⟨r, hlast, -, -⟩ := hc.thread.lineage.exists_getLast
    rw [genesis_of_lineage hs.forest hs.filed hc.thread.lineage hb.mem, hnone] at hlast
    exact absurd hlast (by simp)
  rw [setBestChain, Step.bind_of_ok (txnBegin_of_none hclosed), Step.get_bind, if_neg hgen]
  split_ifs <;> rfl

omit [P : Platform] in
/-- A step that fails leaves nothing to be done after it. -/
theorem bind_newBest_trace {x : Step NodeState Failure Unit} {hash : Uint256} :
    ((x >>= fun _ => Step.modify (newBest hash new)) s).2.trace = (x s).2.trace := by
  rcases hx : x s with ⟨f | u, s₁⟩
  · rw [Step.bind_of_error hx]
  · rw [Step.bind_of_ok hx]
    rfl

omit [P : Platform] in
/-- **A branch is split only below the new block**, at a block that does not
connect. -/
theorem not_connects_of_postponed {fuel : ℕ} {r : Uint256 × List Uint256} (hf : s.Forest)
    (hnew : new ∈ s.mapBlockIndex)
    (hmax : ∀ h ∈ s.mapBlockIndex, h ≠ new → s.Connects valid h →
      s.bnChainTrust h ≤ s.bnChainTrust best)
    (hsplit : splitBranch s (s.bnChainTrust best) fuel new = .ok r) (hne : r.2 ≠ []) :
    ¬ s.Connects valid r.1 := by
  intro hc
  obtain ⟨L, hL⟩ := Lineage.exists_of_graded hf.graded r.1
  have hlin := lineage_of_splitBranch hsplit hL
  have hmid := hf.mem_of_lineage hlin hnew _ (List.mem_append_right _ hL.self_mem)
  refine absurd (hmax r.1 hmid ?_ hc) (not_le.2 (bnChainTrust_of_splitBranch hsplit hne))
  intro heq
  obtain ⟨a, t, hat⟩ := List.exists_cons_of_ne_nil hne
  obtain ⟨u, rfl⟩ := hL.exists_cons
  rw [hat, heq] at hlin
  obtain ⟨v, hv⟩ := hlin.exists_cons
  rw [List.cons_append, List.cons.injEq] at hv
  rw [hv.1] at hlin
  have hmem : new ∈ t ++ new :: u := List.mem_append_right _ List.mem_cons_self
  exact absurd (hlin.height_lt hf.graded hmem) (lt_irrefl _)

/-- **A switch of chains on a working disk** succeeds exactly when the new
block's whole way connects, given that no block but the new one exceeds
the best trust and connects. -/
theorem switchChain_spec (hr : s.Ready) (hbatch : s.txdb.activeBatch.isSome)
    (hnew : new ∈ s.mapBlockIndex) (hbest : s.pindexBest = some best)
    (hbm : best ∈ s.mapBlockIndex) (hbc : s.Connects valid best)
    (hmax : ∀ h ∈ s.mapBlockIndex, h ≠ new → s.Connects valid h →
      s.bnChainTrust h ≤ s.bnChainTrust best)
    (hv : (switchChain new s).2.Settled valid) (hd : (switchChain new s).2.Undoes) :
    (∃ s', switchChain new s = (.ok (), s') ∧ s.Connects valid new ∧ Smooth s s') ∨
      ∃ f s', switchChain new s = (.error f, s') ∧ ¬ s.Connects valid new ∧ Smooth s s' := by
  obtain ⟨r, hsplit⟩ := splitBranch_ok (p := new) (s.bnChainTrust best)
    hr.forest.graded (Nat.lt_succ_self (s.nHeight new).toNat)
  obtain ⟨L, hL⟩ := Lineage.exists_of_graded hr.forest.graded r.1
  have hlin := lineage_of_splitBranch hsplit hL
  have hreach : Relation.ReflTransGen (fun a b => s.pprev a = some b) new r.1 :=
    hlin.mem_iff_reflTransGen.1 (List.mem_append_right _ hL.self_mem)
  have hmid : r.1 ∈ s.mapBlockIndex :=
    hr.forest.mem_of_lineage hlin hnew _ (List.mem_append_right _ hL.self_mem)
  have hpost : r.2 ≠ [] → ¬ s.Connects valid r.1 :=
    not_connects_of_postponed hr.forest hnew hmax hsplit
  have heq : switchChain new s =
      (orInvalid new (.error "SetBestChain() : Reorganize failed") (reorganize r.1) >>= fun _ =>
        connectPostponed r.2.reverse) s := by
    have hsplit' : splitBranch s (s.bnChainTrust best) (s.walkFuel new) new = .ok r := hsplit
    rw [switchChain, Step.get_bind]
    simp only [hbest, hsplit', Step.lift_ok_bind]
  rw [heq] at hv hd ⊢
  obtain ⟨pfork, vDisconnect, vConnect, suf, hlb, hln, ⟨s₁, hok, htrue⟩ | ⟨f, s₁, herr, hfalse⟩⟩ :=
    reorganize_spec hr hbest hbm hmid
  · -- the branch up to the split connects, so nothing is postponed
    have hor := orInvalid_of_ok new (.error "SetBestChain() : Reorganize failed") hok
    rw [Step.bind_of_ok hor] at hv hd ⊢
    have hv₁ := hv.mono (sameTree_connectPostponed (l := r.2.reverse) s₁).trace
    have hmidc : s.Connects valid r.1 := by
      rw [connects_iff_of_lineage hln]
      intro a ha hp
      rcases List.mem_append.1 ha with ha | ha
      · exact (hv₁ a true (htrue a ha)).symm
      · exact (connects_iff_of_lineage hlb).1 hbc a (List.mem_append_right _ ha) hp
    have hnil : r.2 = [] := by_contra fun hne => hpost hne hmidc
    rw [eq_of_splitBranch hsplit hnil] at hmidc
    obtain ⟨_, _, _, _, -, -, -, hm⟩ := of_reorganize_eq_ok hok
    rw [hnil]
    exact .inl ⟨s₁, rfl, hmidc, hm.rest.2.2.2⟩
  · obtain ⟨f', s', hor, hgrow⟩ := orInvalid_of_error new
      (.error "SetBestChain() : Reorganize failed") herr
    rw [Step.bind_of_error hor] at hv hd ⊢
    have hu : Unmoved s s' := unmoved_orInvalid (fun hx => unmoved_reorganize hbatch hx) hor
    refine .inr ⟨f', s', rfl, fun hc => ?_, hu.smooth⟩
    rcases hfalse with ⟨a, ha, hfalse⟩ | ⟨a, hfalse⟩
    · have hvalid := (connects_iff_of_lineage hln).1 (hc.ancestor hreach) a
        (List.mem_append_left _ ha) (hln.parent_ne_none ha)
      rw [← hv a false (hgrow.subset hfalse)] at hvalid
      exact absurd hvalid (by simp)
    · exact hd a (hgrow.subset hfalse)

/-- **A call of `SetBestChain` for a block that exceeds the best trust**
succeeds exactly when the block's whole way connects. -/
theorem setBestChain_verdict (hs : s.Sound) (hclosed : s.txdb.activeBatch = none)
    (hworked : s.Worked) (hw : s.Working) (hst : s.Stores new block)
    (hpar : s.pprev new ≠ none) (hbest : s.pindexBest = some best)
    (hbc : s.Connects valid best)
    (hmax : ∀ h ∈ s.mapBlockIndex, h ≠ new → s.Connects valid h →
      s.bnChainTrust h ≤ s.bnChainTrust best)
    (hrun : ∀ f, (setBestChain block new s).1 = .error f → f.isCrash = false)
    (hv : (setBestChain block new s).2.Settled valid) (hd : (setBestChain block new s).2.Undoes) :
    Smooth s (setBestChain block new s).2 ∧
      (((setBestChain block new s).1 = .ok () ∧ s.Connects valid new) ∨
        ∃ f, (setBestChain block new s).1 = .error f ∧ ¬ s.Connects valid new) := by
  obtain ⟨best', l, hb, hc⟩ := hs.chain
  obtain rfl : best' = best := Option.some.inj (hb.pindexBest.symm.trans hbest)
  have heq := setBestChain_of_sound block new hs hclosed
  set s₀ : NodeState := { s with txdb := s.txdb.begin } with hs₀
  have hr : s₀.Ready := NodeState.Ready.of_sameTree
    ⟨hs.forest, hs.filed, hworked, hw⟩ ⟨fun _ => rfl, rfl, List.suffix_rfl⟩ rfl ⟨0, fun _ => rfl⟩
  have hsm₀ : Smooth s s₀ := Smooth.of_eq rfl
  -- it is enough to follow the path up to the setting of the globals
  have hend : ∀ {x : Step NodeState Failure Unit},
      setBestChain block new s = (x >>= fun _ => Step.modify (newBest block.getHash new)) s₀ →
      ((∃ s', x s₀ = (.ok (), s') ∧ s.Connects valid new ∧ Smooth s₀ s') ∨
        ∃ f s', x s₀ = (.error f, s') ∧ ¬ s.Connects valid new ∧ Smooth s₀ s') →
      Smooth s (setBestChain block new s).2 ∧
        (((setBestChain block new s).1 = .ok () ∧ s.Connects valid new) ∨
          ∃ f, (setBestChain block new s).1 = .error f ∧ ¬ s.Connects valid new) := by
    rintro x hx (⟨s', hok, hcon, hsm⟩ | ⟨f, s', herr, hcon, hsm⟩)
    · rw [hx, Step.bind_of_ok hok]
      exact ⟨⟨hsm.trace, hsm.noted⟩, .inl ⟨rfl, hcon⟩⟩
    · rw [hx, Step.bind_of_error herr]
      exact ⟨⟨hsm.trace, hsm.noted⟩, .inr ⟨f, rfl, hcon⟩⟩
  split_ifs at heq with hext
  · -- the block extends the tip
    refine hend heq ?_
    obtain ⟨prev, hprev⟩ := Option.ne_none_iff_exists'.1 hpar
    obtain rfl : prev = best' := by
      rw [← hs.filed.hashPrevBlock_of_stores hst hprev, hext, hb.hashBestChain]
    have hiff : s.Connects valid new ↔ valid new = true := by
      obtain ⟨t, rfl⟩ := hc.thread.lineage.exists_cons
      rw [connects_iff_of_lineage (.step hprev hc.thread.lineage), List.forall_mem_cons]
      exact (and_iff_left ((connects_iff_of_lineage hc.thread.lineage).1 hbc)).trans
        ⟨fun h => h hpar, fun h _ => h⟩
    rw [heq] at hv hrun
    rcases setBestChainInner_spec block hr.working hpar with
      ⟨s₁, hok, htrue⟩ | ⟨f, s₁, herr, hfalse⟩
    · have hok' := Step.mapError_eq_ok (g := (·.orElse (.error
        "SetBestChain() : SetBestChainInner failed"))).2 hok
      rw [Step.bind_of_ok hok'] at hv
      refine .inl ⟨s₁, hok', hiff.2 (hv new true htrue).symm, ?_⟩
      exact (of_setBestChainInner_eq_ok hok).2.rest.2.2.2
    · have herr' := Step.mapError_eq_error (g := (·.orElse (.error
        "SetBestChain() : SetBestChainInner failed"))).2 ⟨f, herr, rfl⟩
      rw [Step.bind_of_error herr'] at hv hrun
      refine .inr ⟨_, s₁, herr', fun hcon => ?_, ?_⟩
      · have := hiff.1 hcon
        rw [← hv new false hfalse] at this
        exact absurd this (by simp)
      · have hnc : f.isCrash = false := by
          by_contra hcr
          have := hrun _ rfl
          rw [Failure.isCrash_orElse (by simpa using hcr)] at this
          exact absurd this (by simp)
        exact (unmoved_setBestChainInner rfl herr hnc).smooth
  · -- the chain switches to another branch
    refine hend heq ?_
    have htrace : (setBestChain block new s).2.trace = (switchChain new s₀).2.trace := by
      rw [heq, bind_newBest_trace]
    have hv' : (switchChain new s₀).2.Settled valid := by
      rw [NodeState.Settled, ← htrace]
      exact hv
    have hd' : (switchChain new s₀).2.Undoes := by
      rw [NodeState.Undoes, ← htrace]
      exact hd
    exact switchChain_spec hr rfl hst.1 hbest hb.mem hbc hmax hv' hd'

/-! ## Indexing a block -/

/-- On a working disk the new entry is made and written. -/
theorem indexBlock_of_working {nFile nBlockPos : ℕ} {i : CBlockIndex}
    (hclosed : s.txdb.activeBatch = none) (hw : s.Working)
    (hi : makeEntry s block nFile nBlockPos = .ok i) :
    ∃ txdb : CTxDB, txdb.activeBatch = none ∧ indexBlock block nFile nBlockPos s =
      (.ok (), { (insertEntry block.getHash i s).ask.2 with txdb := txdb }) := by
  have hbegin : txnBegin (insertEntry block.getHash i s) =
      (.ok (), { insertEntry block.getHash i s with txdb := s.txdb.begin }) :=
    txnBegin_of_none hclosed
  have hw' : NodeState.Working { insertEntry block.getHash i s with
      txdb := CTxDB.writeBlockIndex s.txdb.begin (CDiskBlockIndex.ofIndex i) } := hw
  have hcommit := Step.mapError_eq_ok (g := (·.orElse .quiet)).2
    (txnCommit_of_working "AddToBlockIndex() : TxnCommit failed" hw')
  refine ⟨(CTxDB.writeBlockIndex s.txdb.begin (CDiskBlockIndex.ofIndex i)).commit, rfl, ?_⟩
  rw [indexBlock, Step.get_bind, hi, Step.lift_ok_bind, Step.modify_bind, Step.bind_of_ok hbegin,
    onTxDb_modify_bind]
  exact hcommit

/-- What `AddToBlockIndex` does once the entry is made. -/
theorem addToBlockIndex_of_indexed {nFile nBlockPos : ℕ} {s₁ : NodeState}
    (h : indexBlock block nFile nBlockPos s = (.ok (), s₁)) :
    addToBlockIndex block nFile nBlockPos s = closeTxDb
      (if s₁.bnBestChainTrust < s₁.bnChainTrust block.getHash then
        Step.mapError (·.orElse .quiet) (setBestChain block block.getHash)
      else pure ()) s₁ := by
  rw [addToBlockIndex, closeTxDb, closeTxDb, Step.bind_of_ok h, Step.get_bind]

namespace NodeState

/-- A sound node with the best trust, between two steps of a run. -/
structure Trusty (s : NodeState) (valid : Uint256 → Bool) : Prop where
  sound : s.Sound
  closed : s.txdb.activeBatch = none
  worked : s.Worked
  noted : ∀ h, .postponedFailed h ∉ s.trace
  trust : s.HasBestTrust valid

/-- A new entry changes nothing about the blocks that were there, and is
the only one that may be better than the best. -/
structure Indexed (s s₁ : NodeState) (valid : Uint256 → Bool) (new : Uint256) : Prop where
  sound : s₁.Sound
  worked : s₁.Worked
  parent : s₁.pprev new ≠ none
  trace : s₁.trace = s.trace
  bnBestChainTrust : s₁.bnBestChainTrust = s.bnBestChainTrust
  best : ∃ best, s₁.pindexBest = some best ∧ s₁.bnBestChainTrust = s₁.bnChainTrust best ∧
    s₁.Connects valid best ∧ ∀ h ∈ s₁.mapBlockIndex, h ≠ new → s₁.Connects valid h →
      s₁.bnChainTrust h ≤ s₁.bnChainTrust best

end NodeState

/-- A block that has passed `CheckBlock` has the work it claims. -/
theorem PassedCheckBlock.work (hc : PassedCheckBlock block) (hp : block.isProofOfWork) :
    checkProofOfWork block.getHash block.nBits = .ok () := by
  obtain ⟨nAdjustedTime, nBestHeight, hc⟩ := hc
  rw [CBlock.checkBlock, except_unit_bind_eq_ok] at hc
  have hshape := hc.1
  rw [checkShape, except_unit_bind_eq_ok] at hshape
  simp only [hp, Bool.and_true, if_true, except_unit_bind_eq_ok, onFalse_eq_ok] at hshape
  exact hshape.2.1

/-- **A block is indexed.** -/
theorem NodeState.Trusty.indexed {b : StoredBlock} {i : CBlockIndex} {s₁ : NodeState}
    (ht : s.Trusty valid) (hb : b ∈ s.blockFiles) (hp : b.block.hashPrevBlock ∈ s.mapBlockIndex)
    (hc : PassedCheckBlock b.block)
    (hi : makeEntry s b.block b.nFile b.nBlockPos = .ok i)
    (hx : indexBlock b.block b.nFile b.nBlockPos s = (.ok (), s₁))
    (hs₁ : s₁ = { insertEntry b.block.getHash i s with txdb := s₁.txdb, outside := s₁.outside }) :
    s.Indexed s₁ valid b.block.getHash ∧ s₁.Stores b.block.getHash b.block := by
  have hsound : s₁.Sound := by
    have := ht.sound.indexBlock ht.closed hb hp
    rwa [hx] at this
  obtain ⟨hnew, hfile, hpos, -, hprev, -⟩ := of_makeEntry_eq_ok hi
  have hne : ∀ {h}, h ∈ s.mapBlockIndex → b.block.getHash ≠ h := fun hh heq => hnew (heq ▸ hh)
  have hentry : ∀ h, s₁.entry h = if b.block.getHash = h then i else s.entry h := by
    intro h
    rw [hs₁]
    exact entry_insertEntry
  have hmem : ∀ h, h ∈ s₁.mapBlockIndex ↔ b.block.getHash = h ∨ h ∈ s.mapBlockIndex := by
    intro h
    rw [hs₁]
    exact mem_insertEntry
  have hfiles : s₁.blockFiles = s.blockFiles := by rw [hs₁]; rfl
  have hstores : s₁.Stores b.block.getHash b.block := by
    refine ⟨(hmem _).2 (.inl rfl), ?_⟩
    rw [hentry, if_pos rfl, hfiles, hfile, hpos]
    exact hb
  have hold : ∀ {h}, h ∈ s.mapBlockIndex → s₁.pprev h = s.pprev h ∧
      s₁.bnChainTrust h = s.bnChainTrust h := by
    intro h hh
    rw [NodeState.pprev, NodeState.bnChainTrust, hentry, if_neg (hne hh)]
    exact ⟨rfl, rfl⟩
  have hconnects : ∀ {h}, h ∈ s.mapBlockIndex → (s₁.Connects valid h ↔ s.Connects valid h) := by
    intro h hh
    obtain ⟨l, hl⟩ := Lineage.exists_of_graded ht.sound.forest.graded h
    have hin := ht.sound.forest.mem_of_lineage hl hh
    have hl₁ : Lineage s₁.pprev h l := hl.congr fun a ha => (hold (hin a ha)).1
    rw [connects_iff_of_lineage hl, connects_iff_of_lineage hl₁]
    exact forall₂_congr fun a ha => by rw [(hold (hin a ha)).1]
  refine ⟨⟨hsound, fun h block hst hpar hpow => ?_, ?_, ?_, ?_, ?_⟩, hstores⟩
  · by_cases hh : b.block.getHash = h
    · subst hh
      obtain rfl := hsound.filed.stores_unique hst hstores
      exact hc.work hpow
    · have hh' : h ∈ s.mapBlockIndex := ((hmem h).1 hst.1).resolve_left hh
      refine ht.worked h block ⟨hh', ?_⟩ ((hold hh').1 ▸ hpar) hpow
      have := hst.2
      rwa [hentry, if_neg hh, hfiles] at this
  · rw [NodeState.pprev, hentry, if_pos rfl, hprev, if_pos (Std.ExtTreeMap.contains_iff_mem.2 hp)]
    simp
  · rw [hs₁]
    rfl
  · rw [hs₁]
    rfl
  · obtain ⟨best, hbest, hbc, hmax⟩ := ht.trust
    obtain ⟨best', l, hb', -⟩ := ht.sound.chain
    obtain rfl : best' = best := Option.some.inj (hb'.pindexBest.symm.trans hbest)
    refine ⟨best', ?_, ?_, (hconnects hb'.mem).2 hbc, fun h hh hne' hch => ?_⟩
    · rw [hs₁]
      exact hbest
    · rw [(hold hb'.mem).2, ← hb'.bnBestChainTrust, hs₁]
      rfl
    · have hh' : h ∈ s.mapBlockIndex := ((hmem h).1 hh).resolve_left (Ne.symm hne')
      rw [(hold hh').2, (hold hb'.mem).2]
      exact hmax h hh' ((hconnects hh').1 hch)

/-! ## Runs -/

/-- Closing the database loses nothing but an open batch. -/
theorem NodeState.Trusty.close (hs : s.Sound) (hw : s.Worked)
    (hn : ∀ h, .postponedFailed h ∉ s.trace) (ht : s.HasBestTrust valid) :
    NodeState.Trusty { s with txdb := s.txdb.abort } valid where
  sound := hs.congr ⟨rfl, rfl⟩
  closed := rfl
  worked := hw
  noted := hn
  trust := ht

/-- **Making the new block the best, or failing to**, gives the best trust. -/
theorem NodeState.Indexed.setBestChain {s₁ : NodeState} (hi : s.Indexed s₁ valid new)
    (hclosed : s₁.txdb.activeBatch = none) (hw : s₁.Working) (hst : s₁.Stores new block)
    (hn : ∀ h, .postponedFailed h ∉ s.trace)
    (htrust : s₁.bnBestChainTrust < s₁.bnChainTrust new)
    (hrun : ∀ f, (CryptoBullion.setBestChain block new s₁).1 = .error f → f.isCrash = false)
    (hv : (CryptoBullion.setBestChain block new s₁).2.Settled valid)
    (hd : (CryptoBullion.setBestChain block new s₁).2.Undoes) :
    let s₂ := (CryptoBullion.setBestChain block new s₁).2
    NodeState.Trusty { s₂ with txdb := s₂.txdb.abort } valid ∧
      s.bnBestChainTrust ≤ s₂.bnBestChainTrust := by
  obtain ⟨best, hbest, hbt, hbc, hmax⟩ := hi.best
  obtain ⟨hsmooth, hcase⟩ := setBestChain_verdict hi.sound hclosed hi.worked hw hst hi.parent hbest
    hbc hmax hrun hv hd
  have hn₂ : ∀ h, .postponedFailed h ∉ (CryptoBullion.setBestChain block new s₁).2.trace :=
    fun h hm => hn h (hi.trace ▸ hsmooth.noted h hm)
  have hsound := hi.sound.setBestChain hst hrun hn₂
  have hsame := sameTree_setBestChain block new s₁
  have hworked : (CryptoBullion.setBestChain block new s₁).2.Worked := by
    intro h block' hst' hp
    rw [hsame.pprev] at hp
    exact hi.worked h block' ((Filed.stores_of_sameTree hsame).1 hst') hp
  intro s₂
  rcases hcase with ⟨hok, hcon⟩ | ⟨f, herr, hcon⟩
  · obtain ⟨-, -, hb, -⟩ := setBestChain_spec hi.sound hst (Prod.ext hok rfl)
    refine ⟨.close hsound hworked hn₂ ⟨new, hb.pindexBest, hcon.of_pprev hsame.pprev, ?_⟩, ?_⟩
    · intro h hh hch
      rw [hsame.bnChainTrust]
      by_cases hne : h = new
      · rw [hne]
      · exact (hmax h (hsame.mem_iff.1 hh) hne (hch.of_pprev hsame.pprev.symm)).trans
          (hbt ▸ htrust.le)
    · have : s₂.bnBestChainTrust = s₂.bnChainTrust new := hb.bnBestChainTrust
      rw [this, hsame.bnChainTrust, ← hi.bnBestChainTrust]
      exact htrust.le
  · have hu : Unmoved s₁ s₂ := by
      rcases unmoved_setBestChain (Prod.ext herr rfl) (hrun f herr) with hu | ⟨-, h, hlog⟩
      · exact hu
      · exact absurd hlog (hn₂ h)
    refine ⟨.close hsound hworked hn₂ ⟨best, ?_, hbc.of_pprev hsame.pprev, ?_⟩, ?_⟩
    · exact hu.pindexBest.trans hbest
    · intro h hh hch
      rw [hsame.bnChainTrust]
      have hch' := hch.of_pprev hsame.pprev.symm
      exact hmax h (hsame.mem_iff.1 hh) (fun hne => hcon (hne ▸ hch')) hch'
    · rw [hu.bnBestChainTrust, hi.bnBestChainTrust]

/-- **A call of `AddToBlockIndex` keeps the best trust**, and the best trust
does not fall. -/
theorem NodeState.Trusty.add {b : StoredBlock} (ht : s.Trusty valid) (hb : b ∈ s.blockFiles)
    (hp : b.block.hashPrevBlock ∈ s.mapBlockIndex) (hc : PassedCheckBlock b.block)
    (hw : s.Working)
    (hrun : ∀ f, (addToBlockIndex b.block b.nFile b.nBlockPos s).1 = .error f →
      f.isCrash = false)
    (hv : (addToBlockIndex b.block b.nFile b.nBlockPos s).2.Settled valid)
    (hd : (addToBlockIndex b.block b.nFile b.nBlockPos s).2.Undoes) :
    (addToBlockIndex b.block b.nFile b.nBlockPos s).2.Trusty valid ∧
      s.bnBestChainTrust ≤ (addToBlockIndex b.block b.nFile b.nBlockPos s).2.bnBestChainTrust := by
  rcases hm : makeEntry s b.block b.nFile b.nBlockPos with f | i
  · have hx : addToBlockIndex b.block b.nFile b.nBlockPos s =
        (.error f, { s with txdb := s.txdb.abort }) := by
      have hi : indexBlock b.block b.nFile b.nBlockPos s = (.error f, s) := by
        rw [indexBlock, Step.get_bind, hm]
        rfl
      rw [addToBlockIndex, closeTxDb, Step.bind_of_error hi]
    rw [hx]
    exact ⟨.close ht.sound ht.worked ht.noted ht.trust, le_rfl⟩
  obtain ⟨txdb, hclosed, hx⟩ := indexBlock_of_working ht.closed hw hm
  obtain ⟨s₁, hs₁⟩ : ∃ s₁ : NodeState,
      s₁ = { (insertEntry b.block.getHash i s).ask.2 with txdb := txdb } := ⟨_, rfl⟩
  rw [← hs₁] at hx
  obtain ⟨hi, hst⟩ := ht.indexed hb hp hc hm hx (by rw [hs₁]; rfl)
  have hw₁ : s₁.Working := by
    rw [hs₁]
    exact hw.of_asked ⟨1, fun _ => rfl⟩
  have hclosed₁ : s₁.txdb.activeBatch = none := by rw [hs₁]; exact hclosed
  rw [addToBlockIndex_of_indexed hx] at hrun hv hd ⊢
  split_ifs at hrun hv hd ⊢ with htrust
  · refine hi.setBestChain hclosed₁ hw₁ hst ht.noted htrust (fun f hf => ?_) hv hd
    by_contra hcr
    have := hrun (f.orElse .quiet) (by rw [closeTxDb, Step.mapError_apply, hf]; rfl)
    rw [Failure.isCrash_orElse (by simpa using hcr)] at this
    exact absurd this (by simp)
  · obtain ⟨best, hbest, hbt, hbc, hmax⟩ := hi.best
    refine ⟨.close hi.sound hi.worked (hi.trace ▸ ht.noted) ⟨best, hbest, hbc, fun h hh hch => ?_⟩,
      hi.bnBestChainTrust.ge⟩
    by_cases hne : h = b.block.getHash
    · rw [hne]
      exact (not_lt.1 htrust).trans hbt.le
    · exact hmax h hh hne hch

/-- The history has only grown. -/
def Grows (s s' : NodeState) : Prop := s.trace <:+ s'.trace

omit [P : Platform] in
instance : Std.Refl Grows := ⟨fun _ => List.suffix_rfl⟩

omit [P : Platform] in
instance : IsTrans NodeState Grows := ⟨fun _ _ _ => List.IsSuffix.trans⟩

theorem grows_addToBlockIndex {nFile nBlockPos : ℕ} :
    Step.Preserves Grows (addToBlockIndex block nFile nBlockPos) := by
  have hmodify : ∀ i, Step.Preserves Grows
      (Step.modify (insertEntry block.getHash i) : Step NodeState Failure Unit) :=
    fun i => Step.Preserves.modify fun s => List.suffix_rfl
  have hindex : Step.Preserves Grows (indexBlock block nFile nBlockPos) :=
    Step.Preserves.bind Step.Preserves.get fun _ => Step.Preserves.bind Step.Preserves.lift fun i =>
      Step.Preserves.bind (hmodify i) fun _ =>
      Step.Preserves.bind (sameTree_txnBegin.mono SameTree.trace) fun _ =>
      Step.Preserves.bind (sameTree_onTxDb.mono SameTree.trace) fun _ =>
      (sameTree_txnCommit.mono SameTree.trace).mapError
  have hbest : Step.Preserves Grows (indexBlock block nFile nBlockPos >>= fun _ => do
      let s ← Step.get
      if s.bnBestChainTrust < s.bnChainTrust block.getHash then
        Step.mapError (·.orElse .quiet) (setBestChain block block.getHash)
      else pure ()) := by
    refine Step.Preserves.bind hindex fun _ => Step.Preserves.bind Step.Preserves.get fun s => ?_
    split
    · exact ((sameTree_setBestChain block block.getHash).mono SameTree.trace).mapError
    · exact Step.Preserves.pure
  exact fun s => hbest s

theorem AddStep.trace (h : AddStep s s') : s.trace <:+ s'.trace := by
  cases h with
  | write b hb => exact List.suffix_rfl
  | add b hb hp hc hw hrun => exact grows_addToBlockIndex s
  | other h =>
    rw [SameChain] at h
    rw [h]

/-- A node that has just started has the best trust. -/
theorem NodeState.JustStarted.trusty (h : s.JustStarted) : s.Trusty valid := by
  obtain ⟨s₀, b, hempty, hfiles, happ, hb, hhash, hadd⟩ := h
  obtain ⟨hsound, hroot, htrace⟩ := sound_of_genesis hempty hfiles happ hb hhash hadd
  obtain ⟨best, l, hbest, -⟩ := hsound.chain
  obtain ⟨_, _, -, hclose, -⟩ := of_addToBlockIndex_eq_ok hadd
  refine ⟨hsound, by rw [hclose]; rfl, fun h _ _ hp => absurd (hroot h) hp, by simp [htrace],
    best, hbest.pindexBest, fun a _ hp => absurd (hroot a) hp, fun h hh _ => ?_⟩
  have hsame := (hsound.filed.root h hh (hroot h)).symm.trans
    (hsound.filed.root best hbest.mem (hroot best))
  rw [Option.some.inj hsame]

/-- **One step of a run** keeps the best trust and does not lower it. -/
theorem NodeState.Trusty.step (ht : s.Trusty valid) (h : AddStep s s') (hv : s'.Settled valid)
    (hd : s'.Undoes) : s'.Trusty valid ∧ s.bnBestChainTrust ≤ s'.bnBestChainTrust := by
  cases h with
  | write b hb =>
    have hsound := ht.sound.write hb
    refine ⟨⟨hsound, ht.closed, fun h block hst hp => ?_, ht.noted, ht.trust⟩, le_rfl⟩
    obtain ⟨block', hst', -⟩ := ht.sound.filed.stored h hst.1
    obtain rfl := hsound.filed.stores_unique hst ⟨hst'.1, List.mem_append_left _ hst'.2⟩
    exact ht.worked h block hst' hp
  | add b hb hp hc hw hrun => exact ht.add hb hp hc hw hrun hv hd
  | other h =>
    rw [SameChain] at h
    rw [h]
    exact ⟨⟨ht.sound.congr ⟨rfl, rfl⟩, ht.closed, ht.worked, ht.noted, ht.trust⟩, le_rfl⟩

/-- **Every state of a run has the best trust**, as long as no block failed
to be taken back. -/
theorem trusty_of_addRun (h : AddRun s) (hv : s.Settled valid) (hd : s.Undoes) :
    s.Trusty valid := by
  induction h with
  | start h => exact h.trusty
  | step _ hs ih => exact ((ih (hv.mono hs.trace) (hd.mono hs.trace)).step hs hv hd).1

namespace Twice

/-- Everything works. -/
def fine (_ : ℕ) : Answer := ⟨1372352200, true, fun _ _ => true⟩

def coinBase (nTime : ℕ) : CTransaction where
  nVersion := 1
  nTime := nTime
  vin := [{ prevout := COutPoint.null, scriptSig := [0, 0], nSequence := uintMax }]
  vout := [{ nValue := 9 * coin, scriptPubKey := [] }]
  nLockTime := 0

/-- Spends the coinbase of the first block. -/
def spend : CTransaction where
  nVersion := 1
  nTime := 1372352055
  vin := [{ prevout := ⟨1372352010, 0⟩, scriptSig := [], nSequence := uintMax }]
  vout := [{ nValue := 8 * coin, scriptPubKey := [] }]
  nLockTime := 0

def blockOn (nNonce : ℕ) (hashPrevBlock hashMerkleRoot : Uint256) (vtx : List CTransaction) :
    CBlock where
  nVersion := 1
  hashPrevBlock := hashPrevBlock
  hashMerkleRoot := hashMerkleRoot
  nTime := 1372352000 + 10 * nNonce
  nBits := 0x1e0fffff
  nNonce := nNonce
  vtx := vtx
  vchBlockSig := [0]

/-- A block with a coinbase of its own and nothing else. -/
def plain (nNonce : ℕ) (hashPrevBlock : Uint256) : CBlock :=
  blockOn nNonce hashPrevBlock (BitVec.ofNat 256 (1372352000 + 10 * nNonce))
    [coinBase (1372352000 + 10 * nNonce)]

/-- The seven blocks of the first branch. -/
def trunk : List StoredBlock :=
  [⟨1, 1000, plain 1 (hashGenesisBlock (P := Platform.toy))⟩, ⟨1, 2000, plain 2 1⟩,
    ⟨1, 3000, plain 3 2⟩, ⟨1, 4000, plain 4 3⟩, ⟨1, 5000, plain 5 4⟩,
    ⟨1, 6000, blockOn 6 5 0 [coinBase 1372352060, spend]⟩,
    ⟨1, 7000, blockOn 7 6 1372352010 [coinBase 1372352010]⟩]

/-- The three blocks of the second. -/
def branch : List StoredBlock :=
  [⟨1, 8000, plain 16 5⟩, ⟨1, 9000, plain 17 16⟩, ⟨1, 10000, plain 18 17⟩]

def stored₀ : StoredBlock := ⟨1, 8, genesisBlock (P := Platform.toy)⟩

def start : NodeState := { NodeState.blank fine with blockFiles := [stored₀] }

/-- The genesis block is indexed. -/
def s₀ : NodeState := (addToBlockIndex (P := Platform.toy) stored₀.block 1 8 start).2

/-- A block is stored on a working disk. -/
def written (s : NodeState) (b : StoredBlock) : NodeState :=
  { s with blockFiles := s.blockFiles ++ [b], outside := fine }

/-- And added to the index. -/
def added (s : NodeState) (b : StoredBlock) : Except Failure Unit × NodeState :=
  addToBlockIndex (P := Platform.toy) b.block b.nFile b.nBlockPos (written s b)

/-- Blocks stored and added one after the other. -/
def grown (s : NodeState) (bs : List StoredBlock) : NodeState :=
  bs.foldl (fun s b => (added s b).2) s

/-- Each block can be stored and added in its turn, and the node lives on. -/
def grows : NodeState → List StoredBlock → Bool
  | _, [] => true
  | s, b :: bs =>
    (1 ≤ b.nFile && b.nFile < uintMax && 8 ≤ b.nBlockPos &&
        s.blockFiles.all fun c => c.endPos + 8 ≤ b.nBlockPos) &&
      s.mapBlockIndex.contains b.block.hashPrevBlock &&
      decide (b.block.checkBlock (P := Platform.toy) 1372352200 (some 0) true true true = .ok ()) &&
      (match (added s b).1 with
        | .ok _ => true
        | .error f => !f.isCrash) &&
      grows (added s b).2 bs

omit [P : Platform] in
theorem addRun_grown : ∀ {bs : List StoredBlock} {s : NodeState},
    AddRun (P := Platform.toy) s → grows s bs = true → AddRun (P := Platform.toy) (grown s bs)
  | [], _, hr, _ => hr
  | b :: bs, s, hr, h => by
    simp only [grows, Bool.and_eq_true, decide_eq_true_eq, List.all_eq_true] at h
    obtain ⟨⟨⟨⟨⟨⟨⟨h₁, h₂⟩, h₃⟩, h₄⟩, hp⟩, hc⟩, hrun⟩, hrest⟩ := h
    have hfine : AddRun (P := Platform.toy) { s with outside := fine } :=
      .step (P := Platform.toy) hr (.other (P := Platform.toy) rfl)
    have hwritten : AddRun (P := Platform.toy) (written s b) :=
      .step (P := Platform.toy) hfine
        (.write (P := Platform.toy) b ⟨h₁, h₂, h₃, fun c hc _ => h₄ c hc⟩)
    have hstep : AddStep (P := Platform.toy) (written s b) (added s b).2 := by
      refine .add (P := Platform.toy) b (List.mem_append_right _ (List.mem_singleton_self b))
        (Std.ExtTreeMap.contains_iff_mem.1 hp) ⟨_, _, hc⟩ (fun _ => ⟨rfl, fun _ _ => rfl⟩)
        fun f hf => ?_
      change (added s b).1 = .error f at hf
      rw [hf] at hrun
      simpa using hrun
    have hadded : AddRun (P := Platform.toy) (added s b).2 :=
      .step (P := Platform.toy) hwritten hstep
    have := addRun_grown hadded hrest
    exact this

omit [P : Platform] in
theorem addRun_start : AddRun (P := Platform.toy) s₀ :=
  .start (P := Platform.toy) ⟨start, stored₀, ⟨rfl, rfl, rfl, rfl, rfl, rfl, rfl⟩, rfl,
    ⟨by decide, by decide, by decide, by simp⟩, rfl, by decide,
    Prod.ext (by decide) rfl⟩

/-- Every call of `ConnectBlock` on record succeeded. -/
def allConnected (trace : List Event) : Bool :=
  trace.all fun e => match e with
    | .connect _ fOk => fOk
    | _ => true

omit [P : Platform] in
theorem settled_of_allConnected {s : NodeState} (h : allConnected s.trace = true) :
    s.Settled fun _ => true :=
  fun _ _ hm => List.all_eq_true.1 h _ hm

omit [P : Platform] in
/-- The two runs. -/
theorem evaluated :
    (grows s₀ trunk = true ∧ (grown s₀ trunk).trace =
      [.connect 7 true, .connect 6 true, .connect 5 true, .connect 4 true, .connect 3 true,
        .connect 2 true, .connect 1 true]) ∧
    (grows s₀ (trunk ++ branch) = true ∧ allConnected (grown s₀ (trunk ++ branch)).trace = true) ∧
    (grown s₀ (trunk ++ branch)).pindexBest = some 7 ∧
      (grown s₀ (trunk ++ branch)).bnChainTrust 7 = 8 ∧
      (grown s₀ (trunk ++ branch)).mapBlockIndex.contains 18 = true ∧
      (grown s₀ (trunk ++ branch)).bnChainTrust 18 = 9 := by
  decide +kernel

end Twice

end CryptoBullion
