import CryptoBullion.Chain.Agreement
import CryptoBullion.Chain.TxIndex
/-!
# The transaction index mirrors the main chain

Runs of `ConnectBlock`, `DisconnectBlock` and `Reorganize` from a node that
has just indexed the genesis block. A run carries the chain that is
connected, inside the open batch where there is one, and the chain that was
connected at the last commit. While no two blocks of the main chain share a
transaction's hash, the index is that of the chain's ledger at every step:
what the batch shows belongs to the one chain, what is committed to the
other. A failure drops the batch, and the index falls back with it.
-/

namespace CryptoBullion

variable [P : Platform]

open Ledger (indexOf)

namespace NodeState

/-- The blocks from a tip down to the genesis block, which is not among
them. -/
inductive Branch (s : NodeState) : Uint256 → List StoredBlock → Prop
  | genesis {g : Uint256} (h : s.pprev g = none) : Branch s g []
  | block {pindex prev : Uint256} {b : StoredBlock} {c : List StoredBlock}
      (hp : s.pprev pindex = some prev) (hb : s.StoredAt pindex b) (hc : Branch s prev c) :
      Branch s pindex (b :: c)

end NodeState

/-- No two blocks contain transactions with the same hash. -/
def DistinctTxs (c : List StoredBlock) : Prop :=
  c.Pairwise fun b b' => ∀ tx ∈ b.block.vtx, ∀ tx' ∈ b'.block.vtx, tx'.getHash ≠ tx.getHash

variable {s s' s₁ : NodeState} {pindex pfork tip best pindexNew prev : Uint256} {b b' : StoredBlock}
variable {c c' c₀ c₁ c₂ : List StoredBlock} {l : List Uint256} {fuel : ℕ} {block : CBlock}
variable {msg : String}

open NodeState

/-! ## Blocks at their places -/

omit [P : Platform] in
theorem NodeState.StoredAt.mem (hb : s.StoredAt pindex b) : b ∈ s.blockFiles := by
  obtain ⟨⟨-, hmem⟩, hfile, hpos⟩ := hb
  rwa [← hfile, ← hpos] at hmem

omit [P : Platform] in
theorem NodeState.StoredAt.of_sameTree (ht : SameTree s s') :
    s'.StoredAt pindex b ↔ s.StoredAt pindex b := by
  constructor
  · rintro ⟨hst, hfile, hpos⟩
    exact ⟨(Filed.stores_of_sameTree ht).1 hst, ht.nFile ▸ hfile, ht.nBlockPos ▸ hpos⟩
  · rintro ⟨hst, hfile, hpos⟩
    exact ⟨(Filed.stores_of_sameTree ht).2 hst, ht.nFile ▸ hfile, ht.nBlockPos ▸ hpos⟩

/-- An entry's file is a real one. -/
theorem NodeState.Filed.nFile_ne (hf : s.Filed) (hb : s.StoredAt pindex b) :
    (s.entry pindex).nFile ≠ uintMax := by
  rw [← hb.nFile]
  exact (hf.nFile_lt b hb.mem).ne

theorem NodeState.Filed.storedAt_unique (hf : s.Filed) (hb : s.StoredAt pindex b)
    (hb' : s.StoredAt pindex b') : b = b' :=
  hf.eq_of_pos hb.mem hb'.mem (hb.nFile.trans hb'.nFile.symm) (hb.nBlockPos.trans hb'.nBlockPos.symm)

/-- **A tip has one branch.** -/
theorem NodeState.Branch.unique (hf : s.Filed) (hc : s.Branch tip c) (hc' : s.Branch tip c') :
    c = c' := by
  induction hc generalizing c' with
  | genesis h =>
    cases hc' with
    | genesis _ => rfl
    | block hp _ _ =>
      rw [h] at hp
      exact absurd hp (by simp)
  | block hp hb _ ih =>
    cases hc' with
    | genesis h =>
      rw [h] at hp
      exact absurd hp (by simp)
    | block hp' hb' hc' =>
      rw [hp] at hp'
      obtain rfl := Option.some.inj hp'
      rw [hf.storedAt_unique hb hb', ih hc']

omit [P : Platform] in
/-- A walk down from a tip passes the newest blocks of its branch. -/
theorem NodeState.Branch.of_walkTo (hc : s.Branch pindex c) (h : walkTo s pfork fuel pindex = .ok l) :
    ∃ c₁ c₂, c = c₁ ++ c₂ ∧ List.Forall₂ s.StoredAt l c₁ ∧ s.Branch pfork c₂ := by
  induction fuel generalizing pindex l c with
  | zero => exact absurd h (by simp [walkTo])
  | succ fuel ih =>
    rw [walkTo] at h
    split_ifs at h with hp
    · obtain rfl := Except.ok.inj h
      exact ⟨[], c, rfl, .nil, hp ▸ hc⟩
    · cases hc with
      | genesis hnone => simp [hnone] at h
      | block hprev hb hc =>
        simp only [hprev] at h
        obtain ⟨rest, hrest, heq⟩ := except_bind_eq_ok.1 h
        obtain rfl := Except.ok.inj heq
        obtain ⟨c₁, c₂, rfl, hall, hc₂⟩ := ih hc hrest
        exact ⟨_, c₂, rfl, .cons hb hall, hc₂⟩

/-- **What is read back from an entry's place is the block there.** -/
theorem eq_of_readFromDisk (hf : s.Filed) (hb : s.StoredAt pindex b)
    (h : readFromDisk pindex msg s = (.ok block, s')) : block = b.block := by
  rw [readFromDisk, askOutside_bind, Step.get_bind] at h
  obtain ⟨hok, -⟩ := Step.lift_eq_ok.1 h
  rw [onFalse_eq_ok] at hok
  obtain ⟨block', hread, hok⟩ := except_bind_eq_ok.1 hok
  obtain ⟨-, hok⟩ := except_unit_bind_eq_ok.1 hok
  obtain rfl := Except.ok.inj hok
  rw [readBlock] at hread
  obtain ⟨-, hread⟩ := except_unit_bind_eq_ok.1 hread
  split at hread
  · exact absurd hread (by simp)
  rename_i d hd
  have hblock : d.block = block' := by
    dsimp only at hread
    split at hread
    · exact Except.ok.inj (except_unit_bind_eq_ok.1 hread).2
    · exact Except.ok.inj hread
  have hpos := List.find?_some hd
  simp only [Bool.and_eq_true, decide_eq_true_eq] at hpos
  rw [← hblock, hf.eq_of_pos (List.mem_of_find?_eq_some hd) hb.mem (hpos.1.trans hb.nFile.symm)
    (hpos.2.trans hb.nBlockPos.symm)]

/-! ## Along a branch -/

/-- The index of a chain's ledger, read through the open batch. -/
structure NodeState.Indexes (s : NodeState) (c : List StoredBlock) : Prop where
  sound : Ledger.Sound (ledgerOf c)
  index : s.txdb.index = indexOf (ledgerOf c)

omit [P : Platform] in
theorem NodeState.Filed.of_tentative [Platform] (hf : s.Filed) (ht : Tentative s s') : s'.Filed :=
  hf.of_sameTree ht.sameTree (by rw [ht.rest])

/-- **A block disconnected** is off the ledger. -/
theorem indexes_disconnectOne (hf : s.Filed) (hb : s.StoredAt pindex b)
    (h : disconnectOne pindex s = (.ok block, s')) (hi : s.Indexes (b :: c)) : s'.Indexes c := by
  obtain ⟨block', s₁, h₁, h⟩ := Step.bind_eq_ok.1 h
  obtain ⟨_, s₂, h₂, h⟩ := Step.bind_eq_ok.1 h
  obtain ⟨-, rfl⟩ := Prod.mk.inj h
  have hs₁ := readFromDisk_eq pindex "Reorganize() : ReadFromDisk for disconnect failed" s
  rw [h₁] at hs₁
  obtain rfl : s₁ = s.ask.2 := hs₁
  obtain rfl := eq_of_readFromDisk hf hb h₁
  obtain ⟨hok, rfl⟩ := Prod.mk.inj (Step.mapError_eq_ok.1 h₂)
  have hidx := index_disconnectBlock (s := s.ask.2) (Prod.ext hok rfl) hi.sound hi.index
  exact ⟨hi.sound.of_append, hidx⟩

/-- **A block connected** is on it. -/
theorem indexes_connectOne (hf : s.Filed) (hb : s.StoredAt pindex b)
    (h : connectOne pindex s = (.ok block, s')) (hi : s.Indexes c)
    (hd : ∀ b' ∈ c, ∀ tx ∈ b.block.vtx, ∀ tx' ∈ b'.block.vtx, tx'.getHash ≠ tx.getHash) :
    s'.Indexes (b :: c) := by
  obtain ⟨block', s₁, h₁, h⟩ := Step.bind_eq_ok.1 h
  obtain ⟨_, s₂, h₂, h⟩ := Step.bind_eq_ok.1 h
  obtain ⟨-, rfl⟩ := Prod.mk.inj h
  have hs₁ := readFromDisk_eq pindex "Reorganize() : ReadFromDisk for connect failed" s
  rw [h₁] at hs₁
  obtain rfl : s₁ = s.ask.2 := hs₁
  obtain rfl := eq_of_readFromDisk hf hb h₁
  obtain ⟨hok, rfl⟩ := Prod.mk.inj (Step.mapError_eq_ok.1 h₂)
  have hconn := sound_connectBlock (s := s.ask.2) (hf.nFile_ne hb) ⟨hb.stores, hb.nFile, hb.nBlockPos⟩
    (Prod.ext hok rfl : connectBlock b.block pindex s.ask.2 = (.ok (), _)) hi.sound hi.index
    fun tx htx b' hb' tx' htx' => hd b' hb' tx htx tx' htx'
  exact ⟨hconn.1, hconn.2⟩

/-- The first loop of `Reorganize` takes the blocks of the shorter branch
off the ledger. -/
theorem indexes_disconnectAll {blocks : List CBlock} (hf : s.Filed)
    (hl : List.Forall₂ s.StoredAt l c₁)
    (h : Step.collect disconnectOne l s = (.ok blocks, s')) (hi : s.Indexes (c₁ ++ c₂)) :
    s'.Indexes c₂ := by
  induction l generalizing s c₁ blocks with
  | nil =>
    cases hl
    obtain ⟨-, rfl⟩ := Prod.mk.inj h
    exact hi
  | cons pindex l ih =>
    cases hl with
    | cons hb hl =>
      obtain ⟨block, s₁, h₁, h⟩ := Step.bind_eq_ok.1 h
      obtain ⟨rest, s₂, h₂, h⟩ := Step.bind_eq_ok.1 h
      obtain ⟨-, rfl⟩ := Prod.mk.inj h
      have ht : Tentative s s₁ := preserves_disconnectOne.of_eq h₁
      exact ih (hf.of_tentative ht)
        (hl.imp fun _ _ hb => (StoredAt.of_sameTree ht.sameTree).2 hb) h₂
        (indexes_disconnectOne hf hb h₁ hi)

/-- The second loop puts those of the longer branch on it. -/
theorem indexes_connectAll {c₁ : List StoredBlock} {blocks : List CBlock} (hf : s.Filed)
    (hl : List.Forall₂ s.StoredAt l c₁) (hd : DistinctTxs (c₁.reverse ++ c₂))
    (h : Step.collect connectOne l s = (.ok blocks, s')) (hi : s.Indexes c₂) :
    s'.Indexes (c₁.reverse ++ c₂) := by
  induction l generalizing s c₁ c₂ blocks with
  | nil =>
    cases hl
    obtain ⟨-, rfl⟩ := Prod.mk.inj h
    exact hi
  | cons pindex l ih =>
    cases hl with
    | @cons _ b _ c₁ hb hl =>
      obtain ⟨block, s₁, h₁, h⟩ := Step.bind_eq_ok.1 h
      obtain ⟨rest, s₂, h₂, h⟩ := Step.bind_eq_ok.1 h
      obtain ⟨-, rfl⟩ := Prod.mk.inj h
      have ht : Tentative s s₁ := preserves_connectOne.of_eq h₁
      rw [List.reverse_cons, List.append_assoc, List.singleton_append] at hd ⊢
      have hnew : DistinctTxs (b :: c₂) := (List.pairwise_append.1 hd).2.1
      exact ih (hf.of_tentative ht)
        (hl.imp fun _ _ hb => (StoredAt.of_sameTree ht.sameTree).2 hb) hd h₂
        (indexes_connectOne hf hb h₁ hi (List.pairwise_cons.1 hnew).1)

/-- **A reorganisation that succeeds** leaves the index of the new tip's
branch, and nothing pending. -/
theorem indexes_reorganize (hf : s.Filed) (hbest : s.pindexBest = some best) (hc : s.Branch best c)
    (hc' : s.Branch pindexNew c') (hd : DistinctTxs c') (h : reorganize pindexNew s = (.ok (), s'))
    (hi : s.Indexes c) : s'.Indexes c' ∧ s'.txdb.activeBatch = none := by
  rw [reorganize, Step.get_bind] at h
  simp only [hbest] at h
  obtain ⟨pfork, -, h⟩ := Step.lift_bind_eq_ok.1 h
  obtain ⟨vDisconnect, hdis, h⟩ := Step.lift_bind_eq_ok.1 h
  obtain ⟨vConnect, hcon, h⟩ := Step.lift_bind_eq_ok.1 h
  -- both branches end in the blocks below the fork
  obtain ⟨c₁, c₂, rfl, hl₁, hc₂⟩ := hc.of_walkTo hdis
  obtain ⟨c₃, c₂', rfl, hl₃, hc₂'⟩ := hc'.of_walkTo hcon
  obtain rfl := hc₂.unique hf hc₂'
  rw [switchBranch] at h
  obtain ⟨disconnected, s₁, h₁, h⟩ := Step.bind_eq_ok.1 h
  obtain ⟨connected, s₂, h₂, h⟩ := Step.bind_eq_ok.1 h
  rw [onTxDb_modify_bind] at h
  obtain ⟨_, s₃, h₃, h⟩ := Step.bind_eq_ok.1 h
  rw [Step.modify_bind] at h
  obtain ⟨_, s₄, h₄, h⟩ := Step.bind_eq_ok.1 h
  obtain ⟨-, rfl⟩ := Prod.mk.inj h
  have ht : Tentative s s₁ := preserves_disconnectAll.of_eq h₁
  have hi₁ := indexes_disconnectAll hf hl₁ h₁ hi
  have hl₃' : List.Forall₂ s₁.StoredAt vConnect.reverse c₃.reverse :=
    (List.rel_reverse hl₃).imp fun _ _ hb => (StoredAt.of_sameTree ht.sameTree).2 hb
  have hi₂ := indexes_connectAll (hf.of_tentative ht) hl₃' (by rwa [List.reverse_reverse]) h₂ hi₁
  rw [List.reverse_reverse] at hi₂
  have htxdb : s₄.txdb = (s₂.txdb.writeHashBestChain pindexNew).commit := by
    obtain ⟨-, rfl⟩ := of_txnCommit_eq_ok h₃
    rw [forEach_acceptToMemoryPool h₄]
    show (relink vDisconnect vConnect.reverse _).txdb = _
    rw [relink_rest]
  refine ⟨⟨hi₂.sound, ?_⟩, by show s₄.txdb.activeBatch = none; rw [htxdb]; rfl⟩
  show s₄.txdb.index = _
  rw [htxdb, index_commit, ← hi₂.index]
  exact index_write (by simp)

/-! ## Runs -/

/-- A call of one of the three functions, on whatever arguments. -/
inductive IndexCall : Step NodeState Failure Unit → Prop
  | connect (block : CBlock) (pindex : Uint256) : IndexCall (connectBlock block pindex)
  | disconnect (block : CBlock) (pindex : Uint256) : IndexCall (disconnectBlock block pindex)
  | reorganize (pindexNew : Uint256) : IndexCall (reorganize pindexNew)

/-- **Runs of `ConnectBlock`, `DisconnectBlock` and `Reorganize`**, with the
chain that is connected and the chain that was at the last commit. -/
inductive IndexRun : NodeState → List StoredBlock → List StoredBlock → Prop
  /-- the genesis block stored and added to an empty index -/
  | genesis {s s' : NodeState} (b : StoredBlock) (hs : s.Empty) (hfiles : s.blockFiles = [b])
      (happ : Appendable [] b) (hb : b.block = genesisBlock)
      (hhash : genesisBlock.getHash = hashGenesisBlock)
      (h : addToBlockIndex b.block b.nFile b.nBlockPos s = (.ok (), s')) : IndexRun s' [] []
  /-- `TxnBegin` -/
  | start {s s' : NodeState} {c c₀ : List StoredBlock} (h : IndexRun s c c₀)
      (hrun : txnBegin s = (.ok (), s')) : IndexRun s' c c₀
  /-- `ConnectBlock` of a block on top of the connected chain -/
  | connect {s s' : NodeState} {pindex : Uint256} {b : StoredBlock} {c c₀ : List StoredBlock}
      (h : IndexRun s c c₀) (hopen : s.txdb.activeBatch.isSome) (hc : s.Branch pindex (b :: c))
      (hd : DistinctTxs (b :: c)) (hrun : connectBlock b.block pindex s = (.ok (), s')) :
      IndexRun s' (b :: c) c₀
  /-- `DisconnectBlock` of the block on top -/
  | disconnect {s s' : NodeState} {pindex : Uint256} {b : StoredBlock} {c c₀ : List StoredBlock}
      (h : IndexRun s (b :: c) c₀) (hopen : s.txdb.activeBatch.isSome)
      (hc : s.Branch pindex (b :: c)) (hrun : disconnectBlock b.block pindex s = (.ok (), s')) :
      IndexRun s' c c₀
  /-- `Reorganize` from the tip of the connected chain to another -/
  | reorganize {s s' : NodeState} {best pindexNew : Uint256} {c c' c₀ : List StoredBlock}
      (h : IndexRun s c c₀) (hopen : s.txdb.activeBatch.isSome) (hbest : s.pindexBest = some best)
      (hc : s.Branch best c) (hc' : s.Branch pindexNew c') (hd : DistinctTxs c')
      (hrun : reorganize pindexNew s = (.ok (), s')) : IndexRun s' c' c'
  /-- a call that fails, and `TxnAbort` after it -/
  | failed {s s' : NodeState} {c c₀ : List StoredBlock} {x : Step NodeState Failure Unit} {f : Failure}
      (h : IndexRun s c c₀) (hopen : s.txdb.activeBatch.isSome) (hx : IndexCall x)
      (hrun : x s = (.error f, s')) : IndexRun { s' with txdb := s'.txdb.abort } c₀ c₀
  /-- `TxnCommit` -/
  | commit {s s' : NodeState} {c c₀ : List StoredBlock} {msg : String} (h : IndexRun s c c₀)
      (hrun : txnCommit msg s = (.ok (), s')) : IndexRun s' c c
  /-- a `TxnCommit` that fails has aborted -/
  | commitFailed {s s' : NodeState} {c c₀ : List StoredBlock} {msg : String} {f : Failure}
      (h : IndexRun s c c₀) (hrun : txnCommit msg s = (.error f, s')) : IndexRun s' c₀ c₀
  /-- `TxnAbort` -/
  | abort {s : NodeState} {c c₀ : List StoredBlock} (h : IndexRun s c c₀) :
      IndexRun { s with txdb := s.txdb.abort } c₀ c₀
  /-- `WriteToDisk` of a block -/
  | write {s : NodeState} {c c₀ : List StoredBlock} (b : StoredBlock) (h : IndexRun s c c₀)
      (happ : Appendable s.blockFiles b) :
      IndexRun { s with blockFiles := s.blockFiles ++ [b] } c c₀
  /-- a stored block gets its entry -/
  | index {s : NodeState} {c c₀ : List StoredBlock} (b : StoredBlock) (h : IndexRun s c c₀)
      (hclosed : s.txdb.activeBatch = none) (hb : b ∈ s.blockFiles)
      (hp : b.block.hashPrevBlock ∈ s.mapBlockIndex) :
      IndexRun (closeTxDb (indexBlock b.block b.nFile b.nBlockPos) s).2 c c₀
  /-- everything that leaves the tree of blocks and the transactions' records
  alone: links, globals, pool, wallets, other records -/
  | other {s s' : NodeState} {c c₀ : List StoredBlock} (h : IndexRun s c c₀) (ht : SameTree s s')
      (hg : s'.pindexGenesisBlock = s.pindexGenesisBlock)
      (hread : ∀ hash, s'.txdb.readTxIndex hash = s.txdb.readTxIndex hash)
      (hcommitted : ∀ hash : Uint256, s'.txdb.committed[DbKey.tx hash]? =
        s.txdb.committed[DbKey.tx hash]?) : IndexRun s' c c₀

/-! ## What holds along a run -/

/-- The batch has the index of one chain, the database that of the other. -/
structure NodeState.Mirrored (s : NodeState) (c c₀ : List StoredBlock) : Prop where
  filed : s.Filed
  batch : s.Indexes c
  sound : Ledger.Sound (ledgerOf c₀)
  committed : CTxDB.index s.txdb.abort = indexOf (ledgerOf c₀)

omit [P : Platform] in
theorem index_abort_congr {txdb txdb' : CTxDB}
    (h : ∀ hash : Uint256, txdb'.committed[DbKey.tx hash]? = txdb.committed[DbKey.tx hash]?) :
    CTxDB.index txdb'.abort = CTxDB.index txdb.abort := by
  funext hash
  simp only [CTxDB.index, CTxDB.readTxIndex, Store.read_abort, h]

omit [P : Platform] in
theorem index_abort_of_closed {txdb : CTxDB} (h : txdb.activeBatch = none) :
    CTxDB.index txdb.abort = txdb.index := by
  funext hash
  simp only [CTxDB.index, CTxDB.readTxIndex, Store.read_abort, Store.read_eq_committed h]

namespace NodeState.Mirrored

/-- A tentative step keeps what is committed. -/
theorem of_tentative (hm : s.Mirrored c c₀) (hopen : s.txdb.activeBatch.isSome)
    (ht : Tentative s s') (hi : s'.Indexes c') : s'.Mirrored c' c₀ := by
  have hcommitted : s'.txdb.committed = s.txdb.committed := (ht.txdb hopen).2
  exact ⟨hm.filed.of_tentative ht, hi, hm.sound,
    (index_abort_congr fun hash => by rw [hcommitted]).trans hm.committed⟩

/-- When the batch is gone, both chains are the one committed. -/
theorem of_unmoved (hm : s.Mirrored c c₀) (hu : Unmoved s s') (hclosed : s'.txdb.activeBatch = none) :
    s'.Mirrored c₀ c₀ := by
  have hcommitted : CTxDB.index s'.txdb.abort = indexOf (ledgerOf c₀) := by
    rw [index_abort_congr fun hash => hu.committed (.tx hash) (by simp), hm.committed]
  exact ⟨hm.filed.of_sameTree hu.sameTree hu.pindexGenesisBlock,
    ⟨hm.sound, (index_abort_of_closed hclosed).symm.trans hcommitted⟩, hm.sound, hcommitted⟩

end NodeState.Mirrored

/-- **A call that fails has not moved the chain** once its batch is
dropped. -/
theorem IndexCall.unmoved {x : Step NodeState Failure Unit} {f : Failure} (hx : IndexCall x)
    (hopen : s.txdb.activeBatch.isSome) (h : x s = (.error f, s')) :
    Unmoved s { s' with txdb := s'.txdb.abort } := by
  have hs' : Unmoved s s' := by
    cases hx with
    | connect block pindex =>
      have ht : Tentative s s' := preserves_connectBlock.of_eq h
      exact ht.unmoved hopen
    | disconnect block pindex =>
      have ht : Tentative s s' := preserves_disconnectBlock.of_eq h
      exact ht.unmoved hopen
    | reorganize pindexNew => exact unmoved_reorganize hopen h
  exact IsTrans.trans _ _ _ hs' (unmoved_txnAbort s')

/-- The genesis block itself is not in the index. -/
theorem mirrored_of_genesis {b : StoredBlock} (hs : s.Empty) (hfiles : s.blockFiles = [b])
    (happ : Appendable [] b) (hb : b.block = genesisBlock)
    (hhash : genesisBlock.getHash = hashGenesisBlock)
    (h : addToBlockIndex b.block b.nFile b.nBlockPos s = (.ok (), s')) : s'.Mirrored [] [] := by
  have hfiled := (sound_of_genesis hs hfiles happ hb hhash h).1.filed
  obtain ⟨s₁, s₂, h₁, rfl, hbest⟩ := of_addToBlockIndex_eq_ok h
  rcases of_indexBlock b.block b.nFile b.nBlockPos hs.activeBatch with ⟨f, heq⟩ | ⟨i, -, hc, heq⟩
  · rw [h₁] at heq
    exact absurd heq (by simp)
  rw [h₁] at hc
  replace heq : s₁ = { insertEntry b.block.getHash i s with
      txdb := s₁.txdb, outside := s₁.outside } := by
    rwa [h₁] at heq
  have hnone₁ : ∀ hash : Uint256, s₁.txdb.committed[DbKey.tx hash]? = none := by
    intro hash
    rw [hc (.tx hash) (by simp), hs.committed]
    exact Std.ExtTreeMap.getElem?_empty
  have hnone : ∀ hash : Uint256, s₂.txdb.committed[DbKey.tx hash]? = none := by
    intro hash
    rcases hbest with ⟨-, hbest⟩ | ⟨-, rfl⟩
    · obtain ⟨-, s₃, rfl, ⟨-, -, hstart⟩ | ⟨hno, -⟩⟩ := of_setBestChain_eq_ok hbest
      · obtain rfl := of_startChain_eq_ok hstart
        refine (Store.committed_commit.trans (Store.read_write_of_ne (by simp))).trans ?_
        rw [Store.read_begin]
        exact hnone₁ hash
      · have hgen : s₁.pindexGenesisBlock = none := by
          rw [heq]
          exact hs.pindexGenesisBlock
        exact absurd ⟨hgen, by rw [hb, hhash]⟩ hno
    · exact hnone₁ hash
  have hindex : CTxDB.index s₂.txdb.abort = indexOf (ledgerOf []) := by
    funext hash
    simp only [CTxDB.index, CTxDB.readTxIndex, Store.read_abort, hnone]
    rfl
  exact ⟨hfiled, ⟨.nil, hindex⟩, .nil, hindex⟩

/-- **Every state of a run is mirrored.** -/
theorem mirrored_of_run (h : IndexRun s c c₀) : s.Mirrored c c₀ := by
  induction h with
  | genesis b hs hfiles happ hb hhash h => exact mirrored_of_genesis hs hfiles happ hb hhash h
  | start _ hrun ih =>
    obtain ⟨hnone, rfl⟩ := of_txnBegin_eq_ok hrun
    exact ⟨ih.filed.of_sameTree ⟨fun _ => rfl, rfl, List.suffix_rfl⟩ rfl,
      ⟨ih.batch.sound, (index_abort_of_closed hnone).trans ih.batch.index⟩, ih.sound, ih.committed⟩
  | @connect s s' pindex b c c₀ _ hopen hc hd hrun ih =>
    have ht : Tentative s s' := preserves_connectBlock.of_eq hrun
    cases hc with
    | block _ hb _ =>
      obtain ⟨hs, hi⟩ := sound_connectBlock (ih.filed.nFile_ne hb) hb hrun ih.batch.sound ih.batch.index
        fun tx htx b' hb' tx' htx' => (List.pairwise_cons.1 hd).1 b' hb' tx htx tx' htx'
      exact ih.of_tentative hopen ht ⟨hs, hi⟩
  | @disconnect s s' pindex b c c₀ _ hopen _ hrun ih =>
    have ht : Tentative s s' := preserves_disconnectBlock.of_eq hrun
    exact ih.of_tentative hopen ht
      ⟨ih.batch.sound.of_append, index_disconnectBlock hrun ih.batch.sound ih.batch.index⟩
  | @reorganize s s' best pindexNew c c' c₀ _ hopen hbest hc hc' hd hrun ih =>
    obtain ⟨hi, hclosed⟩ := indexes_reorganize ih.filed hbest hc hc' hd hrun ih.batch
    obtain ⟨_, _, _, _, -, -, -, hm⟩ := of_reorganize_eq_ok hrun
    exact ⟨ih.filed.of_sameTree hm.sameTree hm.rest.2.1, hi, hi.sound,
      (index_abort_of_closed hclosed).trans hi.index⟩
  | failed _ hopen hx hrun ih => exact ih.of_unmoved (hx.unmoved hopen hrun) rfl
  | commit _ hrun ih =>
    obtain ⟨-, rfl⟩ := of_txnCommit_eq_ok hrun
    have hi := index_commit.trans ih.batch.index
    exact ⟨ih.filed.of_sameTree ⟨fun _ => rfl, rfl, List.suffix_rfl⟩ rfl, ⟨ih.batch.sound, hi⟩,
      ih.batch.sound, (index_abort_of_closed rfl).trans hi⟩
  | commitFailed _ hrun ih =>
    have hu := unmoved_txnCommit hrun
    obtain ⟨-, rfl⟩ := of_txnCommit_eq_error hrun
    exact ih.of_unmoved hu rfl
  | abort _ ih => exact ih.of_unmoved (unmoved_txnAbort _) rfl
  | write b _ happ ih =>
    exact ⟨ih.filed.write happ, ⟨ih.batch.sound, ih.batch.index⟩, ih.sound, ih.committed⟩
  | @index s c c₀ b _ hclosed hb hp ih =>
    have hcommitted : ∀ hash : Uint256,
        (closeTxDb (indexBlock b.block b.nFile b.nBlockPos) s).2.txdb.committed[DbKey.tx hash]? =
          s.txdb.committed[DbKey.tx hash]? ∧
        (closeTxDb (indexBlock b.block b.nFile b.nBlockPos) s).2.Filed := by
      intro hash
      unfold closeTxDb
      rcases of_indexBlock b.block b.nFile b.nBlockPos hclosed with ⟨f, heq⟩ | ⟨i, hi, hc, heq⟩
      · rw [heq]
        exact ⟨rfl, ih.filed.of_sameTree ⟨fun _ => rfl, rfl, List.suffix_rfl⟩ rfl⟩
      · refine ⟨hc (.tx hash) (by simp), ?_⟩
        rw [heq]
        exact (ih.filed.index hb hp hi).of_sameTree ⟨fun _ => rfl, rfl, List.suffix_rfl⟩ rfl
    have hindex := (index_abort_congr fun hash => (hcommitted hash).1).trans ih.committed
    have hback : indexOf (ledgerOf c₀) = indexOf (ledgerOf c) :=
      ih.committed.symm.trans ((index_abort_of_closed hclosed).trans ih.batch.index)
    exact ⟨(hcommitted 0).2, ⟨ih.batch.sound, hindex.trans hback⟩, ih.sound, hindex⟩
  | @other s s' c c₀ _ ht hg hread hcommitted ih =>
    refine ⟨ih.filed.of_sameTree ht hg, ⟨ih.batch.sound, ?_⟩, ih.sound,
      (index_abort_congr hcommitted).trans ih.committed⟩
    rw [← ih.batch.index]
    funext hash
    rw [CTxDB.index, CTxDB.index, hread]

/-! ## The mirror -/

/-- The transactions of a chain of blocks. -/
def txsOf (c : List StoredBlock) : List CTransaction := c.flatMap (·.block.vtx)

/-- **The index mirrors a chain**: an entry for each of its transactions and
no other, a slot for each output, filled exactly where a transaction of the
chain spends it; and no output is spent twice. -/
structure Mirrors (txdb : CTxDB) (c : List StoredBlock) : Prop where
  entry_iff : ∀ hash, (txdb.readTxIndex hash).isSome ↔ ∃ tx ∈ txsOf c, tx.getHash = hash
  slots : ∀ tx ∈ txsOf c, ∀ i, txdb.readTxIndex tx.getHash = some i →
    i.vSpent.length = tx.vout.length
  spent_iff : ∀ tx ∈ txsOf c, ∀ i, txdb.readTxIndex tx.getHash = some i →
    ∀ (n : ℕ) (p : CDiskTxPos), i.vSpent[n]? = some p →
      (p.isNull = false ↔ ∃ u ∈ txsOf c, (⟨tx.getHash, n⟩ : COutPoint) ∈ u.spends)
  once : ((txsOf c).flatMap CTransaction.spends).Nodup

omit [P : Platform] in
theorem COutPoint.key_injective : Function.Injective COutPoint.key := by
  rintro ⟨h, n⟩ ⟨h', n'⟩ heq
  obtain ⟨rfl, rfl⟩ := Prod.mk.inj heq
  rfl

/-- A chain's transactions are those of its ledger. -/
theorem exists_mem_txsOf {f : Uint256 → List (Uint256 × ℕ) → List CTxOut → Prop} :
    (∃ t ∈ ledgerOf c, f t.id t.ins t.outs) ↔
      ∃ tx ∈ txsOf c, f tx.getHash (tx.spends.map COutPoint.key) tx.vout := by
  constructor
  · rintro ⟨t, ht, hf⟩
    obtain ⟨b, hb, p, hp, rfl⟩ := mem_ledgerOf.1 ht
    refine ⟨p.2, List.mem_flatMap.2 ⟨b, hb, ?_⟩, hf⟩
    rw [← b.map_snd_txs]
    exact List.mem_map_of_mem hp
  · rintro ⟨tx, htx, hf⟩
    obtain ⟨b, hb, htx⟩ := List.mem_flatMap.1 htx
    rw [← b.map_snd_txs] at htx
    obtain ⟨p, hp, rfl⟩ := List.mem_map.1 htx
    exact ⟨b.toLedger p, mem_ledgerOf.2 ⟨b, hb, p, hp, rfl⟩, hf⟩

/-- What a ledger spends is what the chain's transactions spend. -/
theorem perm_ins_ledgerOf :
    ((ledgerOf c).flatMap Ledger.Tx.ins).Perm (((txsOf c).flatMap CTransaction.spends).map COutPoint.key) := by
  induction c with
  | nil => exact List.Perm.refl _
  | cons b c ih =>
    rw [ledgerOf, txsOf, List.flatMap_cons, List.flatMap_cons, List.flatMap_append,
      List.flatMap_append, List.map_append]
    refine List.Perm.append ?_ ih
    rw [StoredBlock.ledger, ← b.map_snd_txs, List.map_flatMap, List.flatMap_map]
    refine ((List.reverse_perm _).flatMap_right _).trans ?_
    rw [List.flatMap_map]
    exact List.Perm.refl _

/-- **The index of a chain's ledger mirrors the chain.** -/
theorem mirrors_of_indexOf {txdb : CTxDB} (hs : Ledger.Sound (ledgerOf c))
    (hi : txdb.index = indexOf (ledgerOf c)) : Mirrors txdb c := by
  have hentry : ∀ {hash i}, txdb.readTxIndex hash = some i →
      indexOf (ledgerOf c) hash = some i.toEntry := by
    intro hash i h
    rw [← hi, CTxDB.index, h]
    rfl
  refine ⟨fun hash => ?_, fun tx htx i h => ?_, fun tx htx i h n p hp => ?_, ?_⟩
  · rw [← Option.isSome_map (f := CTxIndex.toEntry), ← CTxDB.index, hi, Ledger.isSome_indexOf]
    exact exists_mem_txsOf (f := fun id _ _ => id = hash)
  · obtain ⟨t, ht, hid, -, hout⟩ := (exists_mem_txsOf (f := fun id ins outs =>
      id = tx.getHash ∧ ins = tx.spends.map COutPoint.key ∧ outs = tx.vout)).2 ⟨tx, htx, rfl, rfl, rfl⟩
    obtain ⟨slots, hslots, hlen⟩ := hs.entry ht
    rw [hid, hentry h] at hslots
    have := congrArg (fun e => e.2.length) (Option.some.inj hslots)
    simpa [CTxIndex.toEntry, hlen, hout] using this
  · have hslot : i.toEntry.2[n]? = some (if p.isNull then none else some p) := by
      rw [CTxIndex.toEntry, List.getElem?_map, hp]
      rfl
    have hiff := hs.slot_iff (hentry h) hslot
    rw [exists_mem_txsOf (f := fun _ ins _ => (tx.getHash, n) ∈ ins)] at hiff
    have hmem : ∀ u : CTransaction, (tx.getHash, n) ∈ u.spends.map COutPoint.key ↔
        (⟨tx.getHash, n⟩ : COutPoint) ∈ u.spends :=
      fun u => List.mem_map_of_injective COutPoint.key_injective (a := ⟨tx.getHash, n⟩)
    simp only [hmem] at hiff
    rw [← hiff]
    rcases p.isNull <;> simp
  · exact (perm_ins_ledgerOf.nodup_iff.1 hs.nodup_ins).of_map _

/-- **In every run the transaction index mirrors the main chain**: what the
open batch shows mirrors the chain that is connected, what is committed the
chain of the last commit. And a block that is disconnected right after it
was connected leaves every entry as it was, null positions read alike. -/
theorem index_mirrors_chain (h : IndexRun s c c₀) :
    Mirrors s.txdb c ∧ Mirrors s.txdb.abort c₀ ∧
      ∀ (pindex : Uint256) (b : StoredBlock) (s₁ s₂ : NodeState), s.Branch pindex (b :: c) →
        DistinctTxs (b :: c) → connectBlock b.block pindex s = (.ok (), s₁) →
        disconnectBlock b.block pindex s₁ = (.ok (), s₂) →
        ∀ hash, (s₂.txdb.readTxIndex hash).map CTxIndex.toEntry =
          (s.txdb.readTxIndex hash).map CTxIndex.toEntry := by
  have hm := mirrored_of_run h
  refine ⟨mirrors_of_indexOf hm.batch.sound hm.batch.index, mirrors_of_indexOf hm.sound hm.committed, ?_⟩
  intro pindex b s₁ s₂ hc hd hconn hdis hash
  cases hc with
  | block _ hb _ =>
    obtain ⟨hs, hi⟩ := sound_connectBlock (hm.filed.nFile_ne hb) hb hconn hm.batch.sound hm.batch.index
      fun tx htx b' hb' tx' htx' => (List.pairwise_cons.1 hd).1 b' hb' tx htx tx' htx'
    exact congrFun ((index_disconnectBlock hdis hs hi).trans hm.batch.index.symm) hash

/-! ## A block connected and taken back -/

namespace OneBlock

/-- The first block is stored and indexed. -/
def indexed : NodeState :=
  (closeTxDb (indexBlock (P := Platform.toy) Apart.a 1 1000)
    { Apart.s₀ with blockFiles := Apart.s₀.blockFiles ++ [Apart.storedA] }).2

/-- A batch is open. -/
def opened : NodeState := (txnBegin indexed).2

/-- The block is connected in it. -/
def connected : NodeState := (connectBlock (P := Platform.toy) Apart.a 1 opened).2

/-- And disconnected again. -/
def disconnected : NodeState := (disconnectBlock (P := Platform.toy) Apart.a 1 connected).2

omit [P : Platform]

theorem branch : opened.Branch 1 [Apart.storedA] :=
  .block (show opened.pprev 1 = some (hashGenesisBlock (P := Platform.toy)) by decide +kernel)
    ⟨⟨by decide +kernel, by decide +kernel⟩, by decide +kernel, by decide +kernel⟩
    (.genesis (by decide +kernel))

theorem indexRun_opened : IndexRun (P := Platform.toy) opened [] [] := by
  have h₀ : IndexRun (P := Platform.toy) Apart.s₀ [] [] :=
    .genesis (P := Platform.toy) (s := Apart.start) Apart.stored₀ ⟨rfl, rfl, rfl, rfl, rfl, rfl, rfl⟩ rfl
      ⟨by decide, by decide, by decide, by simp⟩ rfl (by decide +kernel)
      (Prod.ext (by decide +kernel) rfl)
  have h₁ := IndexRun.write (P := Platform.toy) Apart.storedA h₀
    (Apart.appendable_of_le (by decide) (by decide) (by decide) (by decide +kernel))
  have h₂ : IndexRun (P := Platform.toy) indexed [] [] :=
    .index (P := Platform.toy) Apart.storedA h₁ (by decide +kernel) (by decide +kernel)
      (by decide +kernel)
  exact .start (P := Platform.toy) h₂ (Step.eq_of_fst_eq (by decide +kernel))

end OneBlock

omit [P : Platform] in
/-- The entry of the first block's coinbase comes and goes. -/
theorem index_mirrors_oneBlock :
    Mirrors (P := Platform.toy) OneBlock.connected.txdb [Apart.storedA] ∧
      Mirrors (P := Platform.toy) OneBlock.connected.txdb.abort [] ∧
      ∀ hash, (OneBlock.disconnected.txdb.readTxIndex hash).map CTxIndex.toEntry =
        (OneBlock.opened.txdb.readTxIndex hash).map CTxIndex.toEntry := by
  have hd : DistinctTxs (P := Platform.toy) [Apart.storedA] := List.pairwise_singleton _ _
  have hconn : connectBlock (P := Platform.toy) Apart.a 1 OneBlock.opened = (.ok (), OneBlock.connected) :=
    Step.eq_of_fst_eq (by decide +kernel)
  have hdis : disconnectBlock (P := Platform.toy) Apart.a 1 OneBlock.connected =
      (.ok (), OneBlock.disconnected) := Step.eq_of_fst_eq (by decide +kernel)
  have hrun : IndexRun (P := Platform.toy) OneBlock.connected [Apart.storedA] [] :=
    .connect (P := Platform.toy) OneBlock.indexRun_opened (by decide +kernel) OneBlock.branch hd hconn
  obtain ⟨h₁, h₂, -⟩ := index_mirrors_chain (P := Platform.toy) hrun
  exact ⟨h₁, h₂, (index_mirrors_chain (P := Platform.toy) OneBlock.indexRun_opened).2.2 1
    Apart.storedA _ _ OneBlock.branch hd hconn hdis⟩

end CryptoBullion
