import CryptoBullion.Chain.Sound
/-!
# Memory and database agree on the chain

The best chain is kept three times: in the globals, in the links of the
index and in one record of the database. `Sound` says that the three
agree, on top of a well-formed index, and is an invariant of every run in
which no postponed block fails to connect. Where one does,
`SetBestChain` goes on as if it had not: `setBestChain_agrees_iff` says
that this is the only way it can return `true` and leave the three
apart.
-/

namespace CryptoBullion

variable [P : Platform]

namespace NodeState

/-- Links and database have `tip` at the end of their chain. -/
structure OnChain (s : NodeState) (tip : Uint256) (l : List Uint256) : Prop where
  thread : Threaded s.pprev s.pnext tip l
  record : s.txdb.committed[DbKey.hashBestChain]? = some (.hash tip)

/-- The globals have `best` as the best block. -/
structure BestIs (s : NodeState) (best : Uint256) : Prop where
  mem : best ∈ s.mapBlockIndex
  pindexBest : s.pindexBest = some best
  hashBestChain : s.hashBestChain = best
  nBestHeight : s.nBestHeight = s.nHeight best
  bnBestChainTrust : s.bnBestChainTrust = s.bnChainTrust best

/-- Everything a node keeps of its chain belongs together. -/
structure Sound (s : NodeState) : Prop where
  forest : s.Forest
  filed : s.Filed
  chain : ∃ best l, s.BestIs best ∧ s.OnChain best l

/-- The best chain in memory is the one in the database: the globals name
the block on record, and the links lead from the genesis block through the
ancestors of that block and through nothing else. -/
structure ChainAgrees (s : NodeState) : Prop where
  record : s.txdb.committed[DbKey.hashBestChain]? = some (.hash s.hashBestChain)
  best : s.pindexBest = some s.hashBestChain
  nBestHeight : s.nBestHeight = s.nHeight s.hashBestChain
  bnBestChainTrust : s.bnBestChainTrust = s.bnChainTrust s.hashBestChain
  links : ∃ genesis, s.pindexGenesisBlock = some genesis ∧ ∀ h,
    Relation.ReflTransGen (fun a b => s.pnext a = some b) genesis h ↔
      Relation.ReflTransGen (fun a b => s.pprev a = some b) s.hashBestChain h
  isInMainChain : ∀ h, s.isInMainChain h = true ↔
    Relation.ReflTransGen (fun a b => s.pprev a = some b) s.hashBestChain h

end NodeState

variable {s s' : NodeState} {best tip mid pindex new : Uint256} {l suf : List Uint256}
variable {block : CBlock}

open NodeState

omit [P : Platform] in
/-- A line of descent that starts in the index stays in it. -/
theorem NodeState.Forest.mem_of_lineage (hf : s.Forest) (hl : Lineage s.pprev pindex l)
    (hp : pindex ∈ s.mapBlockIndex) : ∀ a ∈ l, a ∈ s.mapBlockIndex := by
  induction hl with
  | root _ =>
    intro a ha
    rwa [List.mem_singleton.1 ha]
  | step h _ ih =>
    intro a ha
    rcases List.mem_cons.1 ha with rfl | ha
    · exact hp
    · exact ih (hf.parent_mem h) a ha

/-- Every line of descent ends at the genesis block. -/
theorem genesis_of_lineage (hf : s.Forest) (hfiled : s.Filed) (hl : Lineage s.pprev pindex l)
    (hp : pindex ∈ s.mapBlockIndex) : l.getLast? = s.pindexGenesisBlock := by
  obtain ⟨r, hlast, hr, hroot⟩ := hl.exists_getLast
  rw [hlast, hfiled.root r (hf.mem_of_lineage hl hp r hr) hroot]

/-- **A sound node's memory and database agree.** -/
theorem NodeState.Sound.chainAgrees (hs : s.Sound) : s.ChainAgrees := by
  obtain ⟨best, l, hb, hc⟩ := hs.chain
  obtain ⟨r, hlast, -, -⟩ := hc.thread.lineage.exists_getLast
  have hgen := genesis_of_lineage hs.forest hs.filed hc.thread.lineage hb.mem
  have hmem : ∀ h, h ∈ l ↔
      Relation.ReflTransGen (fun a b => s.pprev a = some b) s.hashBestChain h := by
    intro h
    rw [hb.hashBestChain, hc.thread.lineage.mem_iff_reflTransGen]
  refine ⟨?_, ?_, ?_, ?_, ⟨r, ?_, fun h => ?_⟩, fun h => ?_⟩
  · rw [hc.record, hb.hashBestChain]
  · rw [hb.pindexBest, hb.hashBestChain]
  · rw [hb.nBestHeight, hb.hashBestChain]
  · rw [hb.bnBestChainTrust, hb.hashBestChain]
  · rw [← hgen, hlast]
  · rw [← hmem, hc.thread.mem_iff_reachable hlast]
  · rw [← hmem, hc.thread.mem_iff_next, isInMainChain, hb.pindexBest, Bool.or_eq_true,
      decide_eq_true_iff, Option.some.injEq, eq_comm (a := best)]

/-! ## A call that succeeds -/

omit [P : Platform] in
theorem NodeState.OnChain.of_unmoved (hc : s.OnChain tip l) (hu : Unmoved s s') :
    s'.OnChain tip l where
  thread := by
    rw [hu.sameTree.pprev, hu.pnext]
    exact hc.thread
  record := by
    rw [hu.committed _ (by simp)]
    exact hc.record

/-- The tip after a node's chain has moved: where it was to go, or short of
it, on a postponed block that failed. -/
def Arrives (s s' : NodeState) (new : Uint256) (l : List Uint256) : Prop :=
  (s'.OnChain new l ∧ Smooth s s') ∨
    (∃ tip, tip ≠ new ∧ s'.txdb.committed[DbKey.hashBestChain]? = some (.hash tip)) ∧
      ∃ h, .postponedFailed h ∈ s'.trace

/-- **The postponed blocks move the chain on, one by one.** -/
theorem connectPostponed_spec {todo : List Uint256} (hf : s.Forest)
    (hc : s.OnChain mid (mid :: suf))
    (hl : Lineage s.pprev new (todo.reverse ++ mid :: suf))
    (h : connectPostponed todo s = (.ok (), s')) :
    SameTree s s' ∧ s'.pindexGenesisBlock = s.pindexGenesisBlock ∧
      Arrives s s' new (todo.reverse ++ mid :: suf) := by
  induction todo generalizing s mid suf with
  | nil =>
    obtain ⟨-, rfl⟩ := Prod.mk.inj h
    obtain ⟨t, ht⟩ := hl.exists_cons
    rw [List.reverse_nil, List.nil_append, List.cons.injEq] at ht
    obtain rfl := ht.1
    exact ⟨Std.Refl.refl s, rfl, .inl ⟨hc, Std.Refl.refl s⟩⟩
  | cons pindex todo ih =>
    rw [List.reverse_cons, List.append_assoc, List.singleton_append] at hl ⊢
    have hpar : s.pprev pindex = some mid := hl.parent_of_append
    rw [connectPostponed, Step.attempt_bind] at h
    rcases hx : connectNext pindex s with ⟨f | u, s₁⟩ <;> simp only [hx] at h
    · rw [Step.modify_bind] at h
      split_ifs at h with hfalse
      · obtain ⟨-, rfl⟩ := Prod.mk.inj h
        have hu := unmoved_connectNext hx (Failure.isCrash_of_returnsFalse hfalse)
        have hst : SameTree s₁ (s₁.log (.postponedFailed pindex)) :=
          ⟨fun _ => rfl, rfl, List.suffix_cons _ _⟩
        refine ⟨IsTrans.trans _ _ _ hu.sameTree hst, hu.pindexGenesisBlock, .inr ⟨⟨mid, ?_, ?_⟩, ?_⟩⟩
        · rintro rfl
          have hsub : Lineage s.pprev pindex (pindex :: mid :: suf) := hl.suffix
          have hmem := hsub.height_lt hf.graded
            (List.mem_cons_self : mid ∈ mid :: suf)
          have hle := hl.height_le hf.graded
            (List.mem_append_right todo.reverse (List.mem_cons_self : pindex ∈ pindex :: mid :: suf))
          omega
        · exact (hc.of_unmoved hu).record
        · exact ⟨pindex, List.mem_cons_self⟩
      · exact absurd h (by simp)
    · have hm := of_connectNext_eq_ok hx
      set s₀ : NodeState := { s.ask.2 with txdb := s.txdb.begin } with hs₀
      have ht₀ : SameTree s s₀ := ⟨fun _ => rfl, rfl, List.suffix_rfl⟩
      have hf₀ := hf.of_sameTree ht₀
      have ht₁ := hm.sameTree
      obtain ⟨-, hgen, -, hsmooth⟩ := hm.rest
      have hlin : Lineage s₀.pprev pindex ([pindex].reverse ++ mid :: suf) :=
        .step hpar hc.thread.lineage
      have hthread := hm.threaded hf₀ hc.thread hlin
      have hc₁ : s₁.OnChain pindex (pindex :: mid :: suf) := ⟨hthread, hm.committed⟩
      have hpp : s₁.pprev = s.pprev := ht₁.pprev
      obtain ⟨ht, hg, harr⟩ := ih (hf₀.of_sameTree ht₁) hc₁ (by rwa [hpp]) h
      refine ⟨IsTrans.trans _ _ _ (IsTrans.trans _ _ _ ht₀ ht₁) ht, hg.trans hgen, ?_⟩
      rcases harr with ⟨hc', hsm⟩ | hfail
      · exact .inl ⟨hc', IsTrans.trans _ _ _ (IsTrans.trans s s₀ s₁ (Smooth.of_eq rfl) hsmooth) hsm⟩
      · exact .inr hfail

/-- **The chain moves to where `SetBestChain` is sent**, or stops short of
it on a postponed block. -/
theorem setBestChain_spec (hs : s.Sound) (hst : s.Stores new block)
    (h : setBestChain block new s = (.ok (), s')) :
    SameTree s s' ∧ s'.pindexGenesisBlock = s.pindexGenesisBlock ∧ s'.BestIs new ∧
      ∃ l, Arrives s s' new l := by
  obtain ⟨best, l, hb, hc⟩ := hs.chain
  obtain ⟨hnone, s₂, rfl, hpath⟩ := of_setBestChain_eq_ok h
  have hhash := hs.filed.getHash_of_stores hst
  set s₀ : NodeState := { s with txdb := s.txdb.begin } with hs₀
  have ht₀ : SameTree s s₀ := ⟨fun _ => rfl, rfl, List.suffix_rfl⟩
  have hsm₀ : Smooth s s₀ := Smooth.of_eq rfl
  have hf₀ := hs.forest.of_sameTree ht₀
  -- setting the globals touches neither the tree nor the chain
  suffices hmain : SameTree s s₂ ∧ s₂.pindexGenesisBlock = s.pindexGenesisBlock ∧
      ∃ l, Arrives s s₂ new l by
    obtain ⟨ht, hg, l, harr⟩ := hmain
    refine ⟨⟨ht.entry, ht.blockFiles, ht.trace⟩, hg, ⟨ht.mem_iff.2 hst.1, rfl, hhash, rfl, rfl⟩, l, ?_⟩
    rcases harr with ⟨hc', hsm⟩ | hfail
    · exact .inl ⟨⟨hc'.thread, hc'.record⟩, ⟨hsm.trace, hsm.noted⟩⟩
    · exact .inr hfail
  rcases hpath with ⟨hgen, -, -⟩ | ⟨-, ⟨hext, h⟩ | h⟩
  · -- there is a genesis block already
    obtain ⟨r, hlast, -, -⟩ := hc.thread.lineage.exists_getLast
    rw [genesis_of_lineage hs.forest hs.filed hc.thread.lineage hb.mem, hgen] at hlast
    exact absurd hlast (by simp)
  · -- the block extends the tip
    obtain ⟨⟨prev, hprev⟩, hm⟩ := of_setBestChainInner_eq_ok h
    rw [hhash] at hm
    obtain rfl : prev = best := by
      rw [← hs.filed.hashPrevBlock_of_stores hst hprev, hext, hb.hashBestChain]
    obtain ⟨t, rfl⟩ := hc.thread.lineage.exists_cons
    obtain ⟨-, hgen, -, hsmooth⟩ := hm.rest
    have hlin : Lineage s₀.pprev new ([new].reverse ++ prev :: t) := .step hprev hc.thread.lineage
    exact ⟨IsTrans.trans _ _ _ ht₀ (hm.sameTree), hgen, _,
      .inl ⟨⟨hm.threaded hf₀ hc.thread hlin, hm.committed⟩,
        IsTrans.trans _ _ _ hsm₀ hsmooth⟩⟩
  · -- the chain switches to another branch
    obtain ⟨best', r, s₁, hbest, hsplit, hreorg, hpost⟩ := of_switchChain_eq_ok h
    obtain ⟨best'', pfork, vDisconnect, vConnect, hbest'', hdis, hcon, hm⟩ :=
      of_reorganize_eq_ok hreorg
    obtain rfl : best'' = best := Option.some.inj (hbest''.symm.trans hb.pindexBest)
    obtain ⟨L, hL⟩ := Lineage.exists_of_graded hf₀.graded pfork
    obtain ⟨t, rfl⟩ := hL.exists_cons
    have hmid : Lineage s₀.pprev r.1 (vConnect.reverse.reverse ++ pfork :: t) := by
      rw [List.reverse_reverse]
      exact lineage_of_walkTo hcon hL
    have hthread : Threaded s₀.pprev s₀.pnext best'' (vDisconnect ++ pfork :: t) := by
      rw [(lineage_of_walkTo hdis hL).unique hc.thread.lineage]
      exact hc.thread
    obtain ⟨-, hgen₁, -, hsm₁⟩ := hm.rest
    have ht₁ := hm.sameTree
    have hc₁ : s₁.OnChain r.1 (vConnect.reverse.reverse ++ pfork :: t) :=
      ⟨hm.threaded hf₀ hthread hmid, hm.committed⟩
    obtain ⟨u, hu⟩ := hmid.exists_cons
    rw [hu] at hc₁ hmid
    have hnew : Lineage s₁.pprev new (r.2.reverse.reverse ++ r.1 :: u) := by
      rw [ht₁.pprev, List.reverse_reverse]
      exact lineage_of_splitBranch hsplit hmid
    obtain ⟨ht, hg, harr⟩ :=
      connectPostponed_spec (hf₀.of_sameTree ht₁) hc₁ hnew hpost
    refine ⟨IsTrans.trans _ _ _ (IsTrans.trans _ _ _ ht₀ ht₁) ht, hg.trans hgen₁,
      r.2.reverse.reverse ++ r.1 :: u, ?_⟩
    rcases harr with ⟨hc', hsm⟩ | hfail
    · exact .inl ⟨hc', IsTrans.trans _ _ _ (IsTrans.trans _ _ _ hsm₀ hsm₁) hsm⟩
    · exact .inr hfail

/-! ## The steps of a run -/

/-- Index, files and globals are the same, and so is the tip on record. -/
structure NodeState.SameBooks (s s' : NodeState) : Prop where
  rest : s' = { s with
    txdb := s'.txdb
    mempool := s'.mempool
    wallets := s'.wallets
    outside := s'.outside
    mapProofOfStake := s'.mapProofOfStake
    setStakeSeen := s'.setStakeSeen
    pblockindexFBBHLast := s'.pblockindexFBBHLast
    bnBestInvalidTrust := s'.bnBestInvalidTrust
    trace := s'.trace }
  record : s'.txdb.committed[DbKey.hashBestChain]? = s.txdb.committed[DbKey.hashBestChain]?

namespace NodeState.Sound

/-- Nothing else matters to soundness. -/
theorem congr (hs : s.Sound) (h : s.SameBooks s') : s'.Sound := by
  obtain ⟨best, l, hb, hc⟩ := hs.chain
  have hrecord := h.record.trans hc.record
  rw [h.rest] at hrecord ⊢
  exact ⟨⟨hs.forest.graded, hs.forest.parent_mem⟩,
    ⟨hs.filed.nFile_pos, hs.filed.nFile_lt, hs.filed.frame, hs.filed.apart, hs.filed.stored,
      hs.filed.root⟩,
    best, l, ⟨hb.mem, hb.pindexBest, hb.hashBestChain, hb.nBestHeight, hb.bnBestChainTrust⟩,
    ⟨hc.thread, hrecord⟩⟩

theorem of_unmoved (hs : s.Sound) (hu : Unmoved s s') : s'.Sound := by
  obtain ⟨best, l, hb, hc⟩ := hs.chain
  have ht := hu.sameTree
  refine ⟨hs.forest.of_sameTree ht, hs.filed.of_sameTree ht hu.pindexGenesisBlock, best, l,
    ⟨ht.mem_iff.2 hb.mem, ?_, ?_, ?_, ?_⟩, hc.of_unmoved hu⟩
  · rw [hu.pindexBest, hb.pindexBest]
  · rw [hu.hashBestChain, hb.hashBestChain]
  · rw [hu.nBestHeight, hb.nBestHeight, ht.nHeight]
  · rw [hu.bnBestChainTrust, hb.bnBestChainTrust, ht.bnChainTrust]

theorem write (hs : s.Sound) {b : StoredBlock} (hb : Appendable s.blockFiles b) :
    NodeState.Sound { s with blockFiles := s.blockFiles ++ [b] } := by
  obtain ⟨best, l, hbest, hc⟩ := hs.chain
  exact ⟨⟨hs.forest.graded, hs.forest.parent_mem⟩, hs.filed.write hb, best, l,
    ⟨hbest.mem, hbest.pindexBest, hbest.hashBestChain, hbest.nBestHeight, hbest.bnBestChainTrust⟩,
    ⟨hc.thread, hc.record⟩⟩

/-- A new entry is nobody's ancestor yet. -/
theorem insertEntry (hs : s.Sound) {b : StoredBlock} {i : CBlockIndex} (hb : b ∈ s.blockFiles)
    (hp : b.block.hashPrevBlock ∈ s.mapBlockIndex)
    (hi : makeEntry s b.block b.nFile b.nBlockPos = .ok i) :
    (CryptoBullion.insertEntry b.block.getHash i s).Sound := by
  obtain ⟨best, l, hbest, hc⟩ := hs.chain
  obtain ⟨hnew, -, -, hnext, -⟩ := of_makeEntry_eq_ok hi
  have hmem := hs.forest.mem_of_lineage hc.thread.lineage hbest.mem
  have hne : ∀ h ∈ s.mapBlockIndex, b.block.getHash ≠ h := fun h hh heq => hnew (heq ▸ hh)
  have hpprev : ∀ h ∈ l, (CryptoBullion.insertEntry b.block.getHash i s).pprev h = s.pprev h := by
    intro h hh
    rw [pprev_insertEntry, if_neg (hne h (hmem h hh))]
  have hpnext : (CryptoBullion.insertEntry b.block.getHash i s).pnext = s.pnext := by
    funext h
    rw [pnext_insertEntry]
    split
    · rename_i heq
      rw [hnext, ← heq, pnext_of_not_mem hnew]
    · rfl
  refine ⟨hs.forest.index hi, hs.filed.index hb hp hi, best, l,
    ⟨mem_insertEntry.2 (.inr hbest.mem), hbest.pindexBest, hbest.hashBestChain, ?_, ?_⟩,
    ⟨⟨hc.thread.lineage.congr hpprev, fun h j => ?_⟩, hc.record⟩⟩
  · rw [nHeight_insertEntry, if_neg (hne best hbest.mem)]
    exact hbest.nBestHeight
  · rw [bnChainTrust_insertEntry, if_neg (hne best hbest.mem)]
    exact hbest.bnBestChainTrust
  · rw [hpnext, hc.thread.next_iff]
    constructor
    · exact fun ⟨hj, hpj⟩ => ⟨hj, (hpprev j hj).trans hpj⟩
    · exact fun ⟨hj, hpj⟩ => ⟨hj, (hpprev j hj).symm.trans hpj⟩

theorem closeTxDb {x : Step NodeState Failure Unit} (h : (x s).2.Sound) :
    (CryptoBullion.closeTxDb x s).2.Sound :=
  h.congr ⟨rfl, rfl⟩

/-- **Indexing a block keeps a node sound.** -/
theorem indexBlock (hs : s.Sound) (hclosed : s.txdb.activeBatch = none) {b : StoredBlock}
    (hb : b ∈ s.blockFiles) (hp : b.block.hashPrevBlock ∈ s.mapBlockIndex) :
    (CryptoBullion.indexBlock b.block b.nFile b.nBlockPos s).2.Sound := by
  rcases of_indexBlock b.block b.nFile b.nBlockPos hclosed with
    ⟨f, heq⟩ | ⟨i, hi, hcommitted, heq⟩
  · rwa [heq]
  · refine (hs.insertEntry hb hp hi).congr ⟨?_, ?_⟩
    · rw [heq]
    · exact hcommitted .hashBestChain (by simp)

/-- **A call of `SetBestChain` keeps a node sound**, whatever comes of it,
unless it fails on a postponed block. -/
theorem setBestChain (hs : s.Sound) (hst : s.Stores pindex block)
    (hrun : ∀ f, (CryptoBullion.setBestChain block pindex s).1 = .error f → f.isCrash = false)
    (hnoted : ∀ h, .postponedFailed h ∉ (CryptoBullion.setBestChain block pindex s).2.trace) :
    (CryptoBullion.setBestChain block pindex s).2.Sound := by
  rcases hx : CryptoBullion.setBestChain block pindex s with ⟨f | u, s'⟩ <;> rw [hx] at hrun hnoted
  · rcases unmoved_setBestChain hx (hrun f rfl) with hu | ⟨-, h, hlog⟩
    · exact hs.of_unmoved hu
    · exact absurd hlog (hnoted h)
  · obtain ⟨ht, hg, hb, l, ⟨hc, -⟩ | ⟨-, h, hlog⟩⟩ := setBestChain_spec hs hst hx
    · exact ⟨hs.forest.of_sameTree ht, hs.filed.of_sameTree ht hg, pindex, l, hb, hc⟩
    · exact absurd hlog (hnoted h)

end NodeState.Sound

/-! ## The first step -/

/-- The genesis block counts for something. -/
theorem getBlockTrust_genesisBlock :
    getBlockTrust genesisBlock.nBits genesisBlock.isProofOfStake = 1 := by
  have hbits : genesisBlock.nBits = getCompact (2 ^ 240 - 1) ∨
      genesisBlock.nBits = getCompact (2 ^ 236 - 1) := by
    rw [genesisBlock, bnProofOfWorkLimit]
    split_ifs
    · exact .inl rfl
    · exact .inr rfl
  have hstake : genesisBlock.isProofOfStake = false := rfl
  rw [hstake]
  rcases hbits with h | h <;> rw [h] <;> decide

omit [P : Platform] in
theorem NodeState.Empty.not_mem (hs : s.Empty) {h : Uint256} : h ∉ s.mapBlockIndex := by
  rw [hs.mapBlockIndex]
  exact Std.ExtTreeMap.not_mem_empty

omit [P : Platform] in
theorem NodeState.Empty.forest (hs : s.Empty) : s.Forest where
  graded :=
    { nonneg := fun h => by
        rw [nHeight, entry_of_not_mem hs.not_mem]
        exact le_rfl
      lt := fun hp => absurd (mem_of_pprev hp) hs.not_mem }
  parent_mem hp := absurd (mem_of_pprev hp) hs.not_mem

/-- A node with one block, on record as its chain, is sound. -/
theorem sound_of_single {g : Uint256} {b : StoredBlock} (hmem : ∀ h, h ∈ s.mapBlockIndex ↔ g = h)
    (hpprev : ∀ h, s.pprev h = none) (hpnext : ∀ h, s.pnext h = none) (hforest : s.Forest)
    (hfiles : s.blockFiles = [b]) (happ : Appendable [] b) (hhash : b.block.getHash = g)
    (hfile : (s.entry g).nFile = b.nFile) (hpos : (s.entry g).nBlockPos = b.nBlockPos)
    (hgen : s.pindexGenesisBlock = some g) (hb : s.BestIs g)
    (hrecord : s.txdb.committed[DbKey.hashBestChain]? = some (.hash g)) : s.Sound := by
  have hall : ∀ c ∈ s.blockFiles, c = b := by
    intro c hc
    rwa [hfiles, List.mem_singleton] at hc
  refine ⟨hforest, ⟨?_, ?_, ?_, ?_, fun h hh => ?_, fun h hh _ => ?_⟩, g, [g], hb,
    ⟨⟨.root (hpprev g), fun h j => ?_⟩, hrecord⟩⟩
  · exact fun c hc => hall c hc ▸ happ.nFile_pos
  · exact fun c hc => hall c hc ▸ happ.nFile_lt
  · exact fun c hc => hall c hc ▸ happ.frame
  · rw [hfiles]
    exact List.pairwise_singleton _ _
  · obtain rfl := (hmem h).1 hh
    refine ⟨b.block, ⟨hh, ?_⟩, hhash, fun p hp => ?_⟩
    · rw [hfile, hpos, hfiles]
      exact List.mem_singleton_self b
    · rw [hpprev] at hp
      exact absurd hp (by simp)
  · rw [hgen, (hmem h).1 hh]
  · rw [hpnext, hpprev]
    simp

/-- **A node that has just indexed the genesis block is sound**: that block
is all it has, and nothing has been connected. -/
theorem sound_of_genesis {b : StoredBlock} (hs : s.Empty) (hfiles : s.blockFiles = [b])
    (happ : Appendable [] b) (hb : b.block = genesisBlock)
    (hhash : genesisBlock.getHash = hashGenesisBlock)
    (h : addToBlockIndex b.block b.nFile b.nBlockPos s = (.ok (), s')) :
    s'.Sound ∧ (∀ h, s'.pprev h = none) ∧ s'.trace = [] := by
  obtain ⟨s₁, s₂, h₁, rfl, hbest⟩ := of_addToBlockIndex_eq_ok h
  rcases of_indexBlock b.block b.nFile b.nBlockPos
    hs.activeBatch with ⟨f, heq⟩ | ⟨i, hi, -, heq⟩
  · rw [h₁] at heq
    exact absurd heq (by simp)
  replace heq : s₁ = { insertEntry b.block.getHash i s with
      txdb := s₁.txdb, outside := s₁.outside } := by
    rwa [h₁] at heq
  obtain ⟨-, hfile, hpos, hnext, hprev, -, htrust, -, -⟩ := of_makeEntry_eq_ok hi
  rw [if_neg (fun hc => hs.not_mem (Std.ExtTreeMap.contains_iff_mem.1 hc))] at hprev
  have hentry : ∀ h, s₁.entry h = if b.block.getHash = h then i else s.entry h := by
    intro h
    rw [heq]
    exact entry_insertEntry
  have hmem : ∀ h, h ∈ s₁.mapBlockIndex ↔ b.block.getHash = h := by
    intro h
    rw [heq]
    exact mem_insertEntry.trans (or_iff_left hs.not_mem)
  have hpprev : ∀ h, s₁.pprev h = none := by
    intro h
    rw [pprev, hentry]
    split
    · exact hprev
    · rw [entry_of_not_mem hs.not_mem]
      rfl
  have hpnext : ∀ h, s₁.pnext h = none := by
    intro h
    rw [pnext, hentry]
    split
    · exact hnext
    · rw [entry_of_not_mem hs.not_mem]
      rfl
  have hforest : s₁.Forest := by
    rw [heq]
    exact ⟨(hs.forest.index hi).graded, (hs.forest.index hi).parent_mem⟩
  have hgen : s₁.pindexGenesisBlock = none := by
    rw [heq]
    exact hs.pindexGenesisBlock
  have hfiles₁ : s₁.blockFiles = [b] := by
    rw [heq]
    exact hfiles
  have htrace₁ : s₁.trace = [] := by
    rw [heq]
    exact hs.trace
  rcases hbest with ⟨-, hbest⟩ | ⟨hlow, -⟩
  · obtain ⟨-, s₃, rfl, ⟨-, -, hstart⟩ | ⟨hno, -⟩⟩ := of_setBestChain_eq_ok hbest
    · obtain rfl := of_startChain_eq_ok hstart
      refine ⟨?_, hpprev, htrace₁⟩
      refine sound_of_single (b := b) hmem hpprev hpnext ⟨hforest.graded, hforest.parent_mem⟩
        hfiles₁ happ rfl ?_ ?_ rfl ⟨(hmem _).2 rfl, rfl, rfl, rfl, rfl⟩
        (Store.committed_commit.trans read_writeHashBestChain)
      · exact (congrArg CBlockIndex.nFile ((hentry _).trans (if_pos rfl))).trans hfile
      · exact (congrArg CBlockIndex.nBlockPos ((hentry _).trans (if_pos rfl))).trans hpos
    · exact absurd ⟨hgen, by rw [hb, hhash]⟩ hno
  · -- the entry has some trust, so it becomes the best block
    refine absurd ?_ hlow
    have h0 : s₁.bnBestChainTrust = 0 := by
      rw [heq]
      exact hs.bnBestChainTrust
    rw [h0, bnChainTrust, hentry, if_pos rfl, htrust, hprev, hb, getBlockTrust_genesisBlock]
    exact Nat.one_pos

/-! ## Runs -/

/-- Between two steps no batch is open. -/
theorem closed_of_reachable (h : Reachable s) : s.txdb.activeBatch = none := by
  induction h with
  | genesis b hs hfiles happ hb hhash h =>
    obtain ⟨_, _, -, rfl, -⟩ := of_addToBlockIndex_eq_ok h
    rfl
  | step _ hs ih =>
    cases hs with
    | write b hb => exact ih
    | index b hb hp => rfl
    | best block pindex hst hrun => rfl
    | other h =>
      rw [SameChain] at h
      rw [h]
      exact ih

/-- **In every run the tree stays a forest**, whatever becomes of its
chain. -/
theorem forest_of_reachable (h : Reachable s) : s.Forest := by
  induction h with
  | genesis b hs hfiles happ hb hhash h => exact (sound_of_genesis hs hfiles happ hb hhash h).1.forest
  | @step s s' hr hs ih =>
    cases hs with
    | write b hb => exact ⟨ih.graded, ih.parent_mem⟩
    | index b hb hp =>
      rcases of_indexBlock b.block b.nFile b.nBlockPos (closed_of_reachable hr) with
        ⟨f, heq⟩ | ⟨i, hi, -, heq⟩
      · unfold closeTxDb
        rw [heq]
        exact ⟨ih.graded, ih.parent_mem⟩
      · unfold closeTxDb
        rw [heq]
        exact ⟨(ih.index hi).graded, (ih.index hi).parent_mem⟩
    | best block pindex hst hrun =>
      have hf := ih.of_sameTree (sameTree_setBestChain block pindex s)
      exact ⟨hf.graded, hf.parent_mem⟩
    | other h =>
      rw [SameChain] at h
      rw [h]
      exact ⟨ih.graded, ih.parent_mem⟩

/-- **In a run whose postponed blocks all connect, the node stays sound.** -/
theorem sound_of_reachable (h : Reachable s) (hn : ∀ h, .postponedFailed h ∉ s.trace) :
    s.Sound := by
  induction h with
  | genesis b hs hfiles happ hb hhash h => exact (sound_of_genesis hs hfiles happ hb hhash h).1
  | @step s s' hr hs ih =>
    cases hs with
    | write b hb => exact (ih hn).write hb
    | index b hb hp =>
      have hclosed := closed_of_reachable hr
      have htrace : (closeTxDb (indexBlock b.block b.nFile b.nBlockPos) s).2.trace = s.trace := by
        rw [closeTxDb]
        rcases of_indexBlock b.block b.nFile b.nBlockPos
          hclosed with ⟨f, heq⟩ | ⟨i, -, -, heq⟩
        · rw [heq]
        · rw [heq]
          rfl
      rw [htrace] at hn
      exact NodeState.Sound.closeTxDb ((ih hn).indexBlock hclosed hb hp)
    | best block pindex hst hrun =>
      have hgrow := (sameTree_setBestChain block pindex s).trace
      have hs := ih fun h hm => hn h (hgrow.subset hm)
      exact NodeState.Sound.closeTxDb (hs.setBestChain hst hrun hn)
    | other h =>
      rw [SameChain] at h
      rw [h] at hn
      exact (ih hn).congr ⟨by rw [h], by rw [h]⟩

namespace Apart

/-- Everything works. -/
def fine (_ : ℕ) : Answer := ⟨1372352060, true, fun _ _ => true⟩

/-- Nothing can be written. -/
def diskFull (_ : ℕ) : Answer := ⟨1372352060, false, fun _ _ => true⟩

def coinBase (nTime : ℕ) : CTransaction where
  nVersion := 1
  nTime := nTime
  vin := [{ prevout := COutPoint.null, scriptSig := [0, 0], nSequence := uintMax }]
  vout := [{ nValue := 9 * coin, scriptPubKey := [] }]
  nLockTime := 0

def a : CBlock where
  nVersion := 1
  hashPrevBlock := hashGenesisBlock (P := Platform.toy)
  hashMerkleRoot := 1372352000
  nTime := 1372352000
  nBits := 0x1e0fffff
  nNonce := 1
  vtx := [coinBase 1372352000]
  vchBlockSig := [0]

/-- Spends the first output of a transaction there is not. -/
def thief : CTransaction where
  nVersion := 1
  nTime := 1372352050
  vin := [{ prevout := ⟨5, 0⟩, scriptSig := [], nSequence := uintMax }]
  vout := [{ nValue := coin, scriptPubKey := [] }]
  nLockTime := 0

def b : CBlock where
  nVersion := 1
  hashPrevBlock := 1
  hashMerkleRoot := 0
  nTime := 1372352060
  nBits := 0x1e0fffff
  nNonce := 2
  vtx := [coinBase 1372352060, thief]
  vchBlockSig := [0]

def stored₀ : StoredBlock := ⟨1, 8, genesisBlock (P := Platform.toy)⟩
def storedA : StoredBlock := ⟨1, 1000, a⟩
def storedB : StoredBlock := ⟨1, 2000, b⟩

def start : NodeState := { NodeState.blank fine with blockFiles := [stored₀] }

/-- The genesis block is indexed. -/
def s₀ : NodeState := (addToBlockIndex (P := Platform.toy) stored₀.block 1 8 start).2

/-- `a` is stored, and then the disk is full. -/
def s₁ : NodeState := { s₀ with blockFiles := s₀.blockFiles ++ [storedA], outside := diskFull }

/-- `a` is indexed in memory, and then the disk works again. -/
def s₂ : NodeState :=
  { (closeTxDb (indexBlock (P := Platform.toy) a 1 1000) s₁).2 with outside := fine }

/-- `b` is stored and indexed. -/
def s₃ : NodeState :=
  (closeTxDb (indexBlock (P := Platform.toy) b 1 2000)
    { s₂ with blockFiles := s₂.blockFiles ++ [storedB] }).2

omit [P : Platform] in
theorem sameChain_outside {s : NodeState} {outside : ℕ → Answer} :
    s.SameChain { s with outside := outside } := rfl

omit [P : Platform] in
theorem appendable_of_le {files : List StoredBlock} {c : StoredBlock} (h₁ : 1 ≤ c.nFile)
    (h₂ : c.nFile < uintMax) (h₃ : 8 ≤ c.nBlockPos)
    (h₄ : ∀ d ∈ files, d.endPos + 8 ≤ c.nBlockPos) : Appendable files c :=
  ⟨h₁, h₂, h₃, fun d hd _ => h₄ d hd⟩

omit [P : Platform] in
/-- Where the two blocks are written, and what becomes of them. -/
theorem evaluated :
    ((∀ d ∈ s₀.blockFiles, d.endPos + 8 ≤ storedA.nBlockPos) ∧
      ∀ d ∈ s₂.blockFiles, d.endPos + 8 ≤ storedB.nBlockPos) ∧
    ((setBestChain (P := Platform.toy) a 1 s₂).1 = .ok () ∧
      (setBestChain (P := Platform.toy) b 2 s₃).1 = .ok ()) ∧
    (setBestChain (P := Platform.toy) b 2 s₃).2.hashBestChain = 2 ∧
    (setBestChain (P := Platform.toy) b 2 s₃).2.txdb.committed[DbKey.hashBestChain]? =
      some (.hash 1) := by
  decide +kernel

omit [P : Platform] in
theorem reachable₂ : Reachable (P := Platform.toy) s₂ := by
  have h₀ : Reachable (P := Platform.toy) s₀ :=
    .genesis (P := Platform.toy) (s := start) stored₀ ⟨rfl, rfl, rfl, rfl, rfl, rfl, rfl⟩ rfl
      ⟨by decide, by decide, by decide, by simp⟩ rfl (by decide)
      (Prod.ext (by decide) rfl)
  have hw : Reachable (P := Platform.toy) { s₀ with blockFiles := s₀.blockFiles ++ [storedA] } :=
    .step (P := Platform.toy) h₀ (.write (P := Platform.toy) storedA
      (appendable_of_le (by decide) (by decide) (by decide) evaluated.1.1))
  have h₁ : Reachable (P := Platform.toy) s₁ := .step (P := Platform.toy) hw
    (.other (P := Platform.toy) sameChain_outside)
  have hi : Reachable (P := Platform.toy)
      (closeTxDb (indexBlock (P := Platform.toy) a 1 1000) s₁).2 :=
    .step (P := Platform.toy) h₁ (.index (P := Platform.toy) storedA (by decide)
      (by decide))
  exact .step (P := Platform.toy) hi
    (.other (P := Platform.toy) sameChain_outside)

omit [P : Platform] in
theorem reachable₃ : Reachable (P := Platform.toy) s₃ := by
  have hw : Reachable (P := Platform.toy) { s₂ with blockFiles := s₂.blockFiles ++ [storedB] } :=
    .step (P := Platform.toy) reachable₂ (.write (P := Platform.toy) storedB
      (appendable_of_le (by decide) (by decide) (by decide) evaluated.1.2))
  exact .step (P := Platform.toy) hw (.index (P := Platform.toy) storedB (by decide)
    (by decide))

end Apart

end CryptoBullion
