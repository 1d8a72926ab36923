import CryptoBullion.Chain.Advance
/-!
# The index and the block files

The tree of blocks as a node keeps it: `Forest` for its shape, `Filed` for
its ties to the block files. Every entry is stored at its own place, under
its own hash and with its parent's hash in its header, and only the genesis
block has no parent. Storing a block, indexing one and everything
`SetBestChain` does keep all of it.
-/

namespace CryptoBullion

variable [P : Platform]

/-- Entries and block files belong together. -/
structure NodeState.Filed (s : NodeState) : Prop where
  nFile_pos : ∀ b ∈ s.blockFiles, 1 ≤ b.nFile
  nFile_lt : ∀ b ∈ s.blockFiles, b.nFile < uintMax
  frame : ∀ b ∈ s.blockFiles, 8 ≤ b.nBlockPos
  apart : s.blockFiles.Pairwise fun b c => c.nFile = b.nFile → b.endPos + 8 ≤ c.nBlockPos
  stored : ∀ h ∈ s.mapBlockIndex, ∃ block, s.Stores h block ∧ block.getHash = h ∧
    ∀ p, s.pprev h = some p → block.hashPrevBlock = p
  root : ∀ h ∈ s.mapBlockIndex, s.pprev h = none → s.pindexGenesisBlock = some h

variable {s s' : NodeState} {h : Uint256} {block block' : CBlock}

omit [P : Platform] in
theorem StoredBlock.nBlockPos_le_endPos {b : StoredBlock} : b.nBlockPos ≤ b.endPos :=
  Nat.le_add_right _ _

namespace NodeState.Filed

/-- **One block lies at one place.** -/
theorem eq_of_pos (hf : s.Filed) {b c : StoredBlock} (hb : b ∈ s.blockFiles)
    (hc : c ∈ s.blockFiles) (hfile : b.nFile = c.nFile) (hpos : b.nBlockPos = c.nBlockPos) :
    b = c := by
  have hsymm : Std.Symm fun b c : StoredBlock => ¬ (b.nFile = c.nFile ∧ b.nBlockPos = c.nBlockPos) :=
    ⟨fun _ _ h h' => h ⟨h'.1.symm, h'.2.symm⟩⟩
  have hpair : s.blockFiles.Pairwise fun b c => ¬ (b.nFile = c.nFile ∧ b.nBlockPos = c.nBlockPos) := by
    refine hf.apart.imp fun {b c} h h' => ?_
    have := h h'.1.symm
    have := StoredBlock.nBlockPos_le_endPos (b := b)
    omega
  by_contra hne
  exact hpair.forall hb hc hne ⟨hfile, hpos⟩

/-- **An entry points at one block.** -/
theorem stores_unique (hf : s.Filed) (h₁ : s.Stores h block) (h₂ : s.Stores h block') :
    block = block' :=
  congrArg StoredBlock.block (hf.eq_of_pos h₁.2 h₂.2 rfl rfl)

theorem getHash_of_stores (hf : s.Filed) (hs : s.Stores h block) : block.getHash = h := by
  obtain ⟨b, hb, hhash, -⟩ := hf.stored h hs.1
  rw [hf.stores_unique hs hb, hhash]

theorem hashPrevBlock_of_stores (hf : s.Filed) (hs : s.Stores h block) {p : Uint256}
    (hp : s.pprev h = some p) : block.hashPrevBlock = p := by
  obtain ⟨b, hb, -, hprev⟩ := hf.stored h hs.1
  rw [hf.stores_unique hs hb, hprev p hp]

omit [P : Platform] in
theorem stores_of_sameTree (ht : SameTree s s') : s'.Stores h block ↔ s.Stores h block := by
  rw [Stores, Stores, ht.mem_iff, ht.nFile, ht.nBlockPos, ht.blockFiles]

theorem of_sameTree (hf : s.Filed) (ht : SameTree s s')
    (hg : s'.pindexGenesisBlock = s.pindexGenesisBlock) : s'.Filed where
  nFile_pos := by rw [ht.blockFiles]; exact hf.nFile_pos
  nFile_lt := by rw [ht.blockFiles]; exact hf.nFile_lt
  frame := by rw [ht.blockFiles]; exact hf.frame
  apart := by rw [ht.blockFiles]; exact hf.apart
  stored h hh := by
    obtain ⟨block, hs, hhash, hprev⟩ := hf.stored h (ht.mem_iff.1 hh)
    rw [ht.pprev]
    exact ⟨block, (stores_of_sameTree ht).2 hs, hhash, hprev⟩
  root h hh hp := by
    rw [ht.pprev] at hp
    rw [hg, hf.root h (ht.mem_iff.1 hh) hp]

/-- Appending a block to a file keeps what is there. -/
theorem write (hf : s.Filed) {b : StoredBlock} (hb : Appendable s.blockFiles b) :
    NodeState.Filed { s with blockFiles := s.blockFiles ++ [b] } where
  nFile_pos c hc := by
    rcases List.mem_append.1 hc with hc | hc
    · exact hf.nFile_pos c hc
    · rw [List.mem_singleton.1 hc]
      exact hb.nFile_pos
  nFile_lt c hc := by
    rcases List.mem_append.1 hc with hc | hc
    · exact hf.nFile_lt c hc
    · rw [List.mem_singleton.1 hc]
      exact hb.nFile_lt
  frame c hc := by
    rcases List.mem_append.1 hc with hc | hc
    · exact hf.frame c hc
    · rw [List.mem_singleton.1 hc]
      exact hb.frame
  apart := by
    refine List.pairwise_append.2 ⟨hf.apart, List.pairwise_singleton _ _, fun c hc d hd hfile => ?_⟩
    rw [List.mem_singleton.1 hd] at hfile ⊢
    exact hb.behind c hc hfile.symm
  stored h hh := by
    obtain ⟨block, hs, hhash, hprev⟩ := hf.stored h hh
    exact ⟨block, ⟨hs.1, List.mem_append_left _ hs.2⟩, hhash, hprev⟩
  root := hf.root

end NodeState.Filed

/-! ## Indexing a block -/

/-- **What the new entry is**: at its place in the file, above the entry of
its parent where that is indexed, linked to nothing yet. -/
theorem of_makeEntry_eq_ok {nFile nBlockPos : ℕ} {i : CBlockIndex}
    (h : makeEntry s block nFile nBlockPos = .ok i) :
    block.getHash ∉ s.mapBlockIndex ∧ i.nFile = nFile ∧ i.nBlockPos = nBlockPos ∧ i.pnext = none ∧
      i.pprev = (if s.mapBlockIndex.contains block.hashPrevBlock then some block.hashPrevBlock
        else none) ∧
      i.nHeight = (i.pprev.map fun prev => s.nHeight prev + 1).getD 0 ∧
      i.bnChainTrust = (i.pprev.map s.bnChainTrust).getD 0 +
        getBlockTrust block.nBits block.isProofOfStake ∧
      i.nTime = block.nTime ∧ i.nBits = block.nBits := by
  simp only [makeEntry, except_bind_eq_ok, reject_eq_ok, exists_const] at h
  obtain ⟨hnew, i₀, hi₀, m, -, c, -, -, h⟩ := h
  obtain rfl := Except.ok.inj h
  have hmem : block.getHash ∉ s.mapBlockIndex := by
    rw [← Std.ExtTreeMap.contains_iff_mem]
    exact hnew
  rw [newEntry] at hi₀
  generalize (if s.mapBlockIndex.contains block.hashPrevBlock then some block.hashPrevBlock
    else none) = pprev at hi₀ ⊢
  split at hi₀
  · split at hi₀
    · exact absurd hi₀ (by simp)
    · obtain rfl := Except.ok.inj hi₀
      exact ⟨hmem, rfl, rfl, rfl, rfl, rfl, rfl, rfl, rfl⟩
  · obtain rfl := Except.ok.inj hi₀
    exact ⟨hmem, rfl, rfl, rfl, rfl, rfl, rfl, rfl, rfl⟩

section Insert

omit [P : Platform]

variable {hash : Uint256} {i : CBlockIndex}

theorem entry_insertEntry :
    (insertEntry hash i s).entry h = if hash = h then i else s.entry h := by
  rw [insertEntry, NodeState.entry, NodeState.entry, Std.ExtTreeMap.getElem?_insert]
  simp only [Std.compare_eq_iff_eq]
  split <;> rfl

theorem mem_insertEntry :
    h ∈ (insertEntry hash i s).mapBlockIndex ↔ hash = h ∨ h ∈ s.mapBlockIndex := by
  rw [insertEntry, Std.ExtTreeMap.mem_insert, Std.compare_eq_iff_eq]

theorem pprev_insertEntry :
    (insertEntry hash i s).pprev h = if hash = h then i.pprev else s.pprev h := by
  rw [NodeState.pprev, entry_insertEntry]
  split <;> rfl

theorem pnext_insertEntry :
    (insertEntry hash i s).pnext h = if hash = h then i.pnext else s.pnext h := by
  rw [NodeState.pnext, entry_insertEntry]
  split <;> rfl

theorem nHeight_insertEntry :
    (insertEntry hash i s).nHeight h = if hash = h then i.nHeight else s.nHeight h := by
  rw [NodeState.nHeight, entry_insertEntry]
  split <;> rfl

theorem bnChainTrust_insertEntry :
    (insertEntry hash i s).bnChainTrust h = if hash = h then i.bnChainTrust else s.bnChainTrust h := by
  rw [NodeState.bnChainTrust, entry_insertEntry]
  split <;> rfl

/-- A block not indexed has the entry of a null pointer. -/
theorem entry_of_not_mem (hh : h ∉ s.mapBlockIndex) : s.entry h = default := by
  rw [NodeState.entry, Std.ExtTreeMap.getElem?_eq_none hh]
  rfl

theorem pnext_of_not_mem (hh : h ∉ s.mapBlockIndex) : s.pnext h = none := by
  rw [NodeState.pnext, entry_of_not_mem hh]
  rfl

theorem mem_of_pprev {p : Uint256} (hp : s.pprev h = some p) : h ∈ s.mapBlockIndex := by
  by_contra hh
  rw [NodeState.pprev, entry_of_not_mem hh] at hp
  exact absurd hp (by simp [default, CBlockIndex.null])

end Insert

/-- **The tree stays a forest when a block is indexed.** -/
theorem NodeState.Forest.index {nFile nBlockPos : ℕ} {i : CBlockIndex} (hf : s.Forest)
    (hi : makeEntry s block nFile nBlockPos = .ok i) : (insertEntry block.getHash i s).Forest := by
  obtain ⟨hnew, -, -, -, hprev, hheight, -⟩ := of_makeEntry_eq_ok hi
  have hparent : ∀ {p}, i.pprev = some p → p ∈ s.mapBlockIndex ∧ i.nHeight = s.nHeight p + 1 := by
    intro p hp
    refine ⟨?_, by rw [hheight, hp]; rfl⟩
    rw [hprev] at hp
    split at hp
    · rename_i hc
      rw [← Option.some.inj hp, ← Std.ExtTreeMap.contains_iff_mem]
      exact hc
    · exact absurd hp (by simp)
  have hnonneg : 0 ≤ i.nHeight := by
    rcases hp : i.pprev with _ | p
    · rw [hheight, hp]
      rfl
    · rw [(hparent hp).2]
      have := hf.graded.nonneg p
      omega
  refine ⟨⟨fun h => ?_, fun {h p} hp => ?_⟩, fun {h p} hp => ?_⟩
  · rw [nHeight_insertEntry]
    split
    · exact hnonneg
    · exact hf.graded.nonneg h
  · rw [pprev_insertEntry] at hp
    rw [nHeight_insertEntry, nHeight_insertEntry]
    split at hp
    · have hmem := hparent hp
      have hne : block.getHash ≠ p := fun heq => hnew (heq ▸ hmem.1)
      rw [if_neg hne, if_pos ‹_›, hmem.2]
      omega
    · have hne : block.getHash ≠ p := fun heq => hnew (heq ▸ hf.parent_mem hp)
      rw [if_neg hne, if_neg ‹_›]
      exact hf.graded.lt hp
  · rw [pprev_insertEntry] at hp
    rw [mem_insertEntry]
    split at hp
    · exact .inr (hparent hp).1
    · exact .inr (hf.parent_mem hp)

/-- The new entry's place is where the block is stored. -/
theorem NodeState.Filed.index {b : StoredBlock} {i : CBlockIndex} (hf : s.Filed)
    (hb : b ∈ s.blockFiles) (hp : b.block.hashPrevBlock ∈ s.mapBlockIndex)
    (hi : makeEntry s b.block b.nFile b.nBlockPos = .ok i) :
    (insertEntry b.block.getHash i s).Filed := by
  obtain ⟨hnew, hfile, hpos, -, hprev, -⟩ := of_makeEntry_eq_ok hi
  rw [if_pos (Std.ExtTreeMap.contains_iff_mem.2 hp)] at hprev
  refine ⟨hf.nFile_pos, hf.nFile_lt, hf.frame, hf.apart, fun h hh => ?_, fun h hh hnone => ?_⟩
  · rcases mem_insertEntry.1 hh with rfl | hh
    · refine ⟨b.block, ⟨mem_insertEntry.2 (.inl rfl), ?_⟩, rfl, fun p hp => ?_⟩
      · rw [entry_insertEntry, if_pos rfl, hfile, hpos]
        exact hb
      · rw [pprev_insertEntry, if_pos rfl, hprev] at hp
        exact Option.some.inj hp
    · have hne : b.block.getHash ≠ h := fun heq => hnew (heq ▸ hh)
      obtain ⟨block, hs, hhash, hprev⟩ := hf.stored h hh
      refine ⟨block, ⟨mem_insertEntry.2 (.inr hh), ?_⟩, hhash, fun p hp => ?_⟩
      · rw [entry_insertEntry, if_neg hne]
        exact hs.2
      · rw [pprev_insertEntry, if_neg hne] at hp
        exact hprev p hp
  · rw [pprev_insertEntry] at hnone
    split at hnone
    · rw [hprev] at hnone
      exact absurd hnone (by simp)
    · rcases mem_insertEntry.1 hh with heq | hh
      · exact absurd heq ‹_›
      · exact hf.root h hh hnone

/-- **What `AddToBlockIndex` has done before it looks for a new best
chain**: nothing, or made the entry, whose record alone may have reached
the database. -/
theorem of_indexBlock (block : CBlock) (nFile nBlockPos : ℕ) (hs : s.txdb.activeBatch = none) :
    (∃ f, indexBlock block nFile nBlockPos s = (.error f, s)) ∨
      ∃ i, makeEntry s block nFile nBlockPos = .ok i ∧
        (∀ k : DbKey, (∀ h, k ≠ .blockindex h) →
          (indexBlock block nFile nBlockPos s).2.txdb.committed[k]? = s.txdb.committed[k]?) ∧
        (indexBlock block nFile nBlockPos s).2 =
          { insertEntry block.getHash i s with
            txdb := (indexBlock block nFile nBlockPos s).2.txdb
            outside := (indexBlock block nFile nBlockPos s).2.outside } := by
  rw [indexBlock, Step.get_bind]
  rcases hm : makeEntry s block nFile nBlockPos with f | i
  · exact .inl ⟨f, rfl⟩
  right
  refine ⟨i, rfl, ?_⟩
  have hbegin : txnBegin (insertEntry block.getHash i s) =
      (.ok (), { insertEntry block.getHash i s with txdb := s.txdb.begin }) :=
    txnBegin_of_none hs
  rw [Step.lift_ok_bind, Step.modify_bind, Step.bind_of_ok hbegin, onTxDb_modify_bind,
    Step.mapError_apply]
  obtain ⟨txdb, hcommit, hread⟩ := txnCommit_snd "AddToBlockIndex() : TxnCommit failed"
    { insertEntry block.getHash i s with
      txdb := CTxDB.writeBlockIndex s.txdb.begin (CDiskBlockIndex.ofIndex i) }
  refine ⟨fun k hk => ?_, ?_⟩
  · rw [hcommit]
    rcases hread k with hk' | hk'
    · exact hk'
    · rw [hk']
      have hne : DbKey.blockindex (CDiskBlockIndex.ofIndex i).getBlockHash ≠ k := (hk _).symm
      change (Store.write s.txdb.begin _).read k = _
      rw [Store.read_write_of_ne hne, Store.read_begin]
  · rw [hcommit]
    rfl

/-- **`AddToBlockIndex` that succeeds** has indexed the block and, where it
has the most trust, made it the best. -/
theorem of_addToBlockIndex_eq_ok {nFile nBlockPos : ℕ}
    (h : addToBlockIndex block nFile nBlockPos s = (.ok (), s')) :
    ∃ s₁ s₂, indexBlock block nFile nBlockPos s = (.ok (), s₁) ∧
      s' = { s₂ with txdb := s₂.txdb.abort } ∧
      (s₁.bnBestChainTrust < s₁.bnChainTrust block.getHash ∧
          setBestChain block block.getHash s₁ = (.ok (), s₂) ∨
        ¬ s₁.bnBestChainTrust < s₁.bnChainTrust block.getHash ∧ s₂ = s₁) := by
  rw [addToBlockIndex, closeTxDb] at h
  obtain ⟨hok, rfl⟩ := Prod.mk.inj h
  obtain ⟨_, s₁, h₁, h₂⟩ := Step.bind_eq_ok.1 (Prod.ext hok rfl)
  rw [Step.get_bind] at h₂
  refine ⟨s₁, _, h₁, rfl, ?_⟩
  split_ifs at h₂ with htrust
  · exact .inl ⟨htrust, Step.mapError_eq_ok.1 h₂⟩
  · exact .inr ⟨htrust, (Prod.mk.inj h₂).2.symm⟩

end CryptoBullion
