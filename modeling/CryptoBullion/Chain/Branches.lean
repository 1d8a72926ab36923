import CryptoBullion.Chain.Lookup
import CryptoBullion.Chain.Mirror
/-!
# What is carried along the branches

`IndexRun` follows the index through calls one by one. Here it is followed
through the runs of a node. Something that is said of an index and of a
branch is carried if a block that connects on top of a branch, and a block
that is disconnected from its top, carry it over. Then it is carried through
reorganisations, through the postponed blocks and through the calls that
fail, and so it holds of the index and the main chain in every state of a run
in which no postponed block has failed.
-/

namespace CryptoBullion

open Ledger (Index)

open NodeState

variable [P : Platform]

variable {s s' s₁ : NodeState} {pindex best pindexNew prev g : Uint256} {b : StoredBlock}
variable {c c' c₁ c₂ c₃ : List StoredBlock} {l : List Uint256} {block : CBlock} {txdb : CTxDB}

omit [P : Platform] in
/-- A batch that has just been opened shows what is committed. -/
theorem index_begin (h : txdb.activeBatch = none) : CTxDB.index txdb.begin = txdb.index := by
  funext hash
  simp only [CTxDB.index, CTxDB.readTxIndex, Store.read_begin, Store.read_eq_committed h]

/-! ## The tree of blocks -/

/-- The tree of blocks is in order: its shape, its ties to the block files
and its heights. -/
structure NodeState.Planted (s : NodeState) : Prop where
  forest : s.Forest
  filed : s.Filed
  leveled : Leveled s.pprev s.nHeight

theorem NodeState.Planted.of_sameTree (hp : s.Planted) (ht : SameTree s s')
    (hg : s'.pindexGenesisBlock = s.pindexGenesisBlock) : s'.Planted :=
  ⟨hp.forest.of_sameTree ht, hp.filed.of_sameTree ht hg, hp.leveled.of_sameTree ht⟩

theorem NodeState.Planted.of_tentative (hp : s.Planted) (ht : Tentative s s') : s'.Planted :=
  hp.of_sameTree ht.sameTree (by rw [ht.rest])

/-- **In every run the tree is in order** as long as no postponed block has
failed. -/
theorem planted_of_reachable (h : Reachable s) (hn : ∀ h, .postponedFailed h ∉ s.trace) :
    s.Planted :=
  ⟨forest_of_reachable h, (sound_of_reachable h hn).filed, leveled_of_reachable h⟩

/-! ## Branches -/

omit [P : Platform] in
theorem NodeState.Branch.of_sameTree (hc : s.Branch pindex c) (ht : SameTree s s') :
    s'.Branch pindex c := by
  induction hc with
  | genesis h => exact .genesis (by rw [ht.pprev, h])
  | block hp hb _ ih => exact .block (by rw [ht.pprev, hp]) ((StoredAt.of_sameTree ht).2 hb) ih

omit [P : Platform] in
theorem NodeState.Branch.of_sameTree_symm (hc : s'.Branch pindex c) (ht : SameTree s s') :
    s.Branch pindex c := by
  induction hc with
  | genesis h => exact .genesis (by rw [← ht.pprev, h])
  | block hp hb _ ih => exact .block (by rw [← ht.pprev, hp]) ((StoredAt.of_sameTree ht).1 hb) ih

omit [P : Platform] in
/-- A block stored later does not lie on a branch. -/
theorem NodeState.Branch.write (hc : s.Branch pindex c) (b : StoredBlock) :
    NodeState.Branch { s with blockFiles := s.blockFiles ++ [b] } pindex c := by
  induction hc with
  | genesis h => exact .genesis h
  | block hp hb _ ih =>
    exact .block hp ⟨⟨hb.stores.1, List.mem_append_left _ hb.stores.2⟩, hb.nFile, hb.nBlockPos⟩ ih

/-- Neither does one indexed later. -/
theorem NodeState.Branch.insertEntry {i : CBlockIndex} {nFile nBlockPos : ℕ}
    (hc : s.Branch pindex c) (hf : s.Forest) (hm : pindex ∈ s.mapBlockIndex)
    (hi : makeEntry s block nFile nBlockPos = .ok i) :
    (CryptoBullion.insertEntry block.getHash i s).Branch pindex c := by
  obtain ⟨hnew, -⟩ := of_makeEntry_eq_ok hi
  have hne : ∀ {h}, h ∈ s.mapBlockIndex → block.getHash ≠ h := fun hh heq => hnew (heq ▸ hh)
  induction hc with
  | genesis h => exact .genesis (by rw [pprev_insertEntry, if_neg (hne hm), h])
  | block hp hb _ ih =>
    refine .block (by rw [pprev_insertEntry, if_neg (hne hm), hp])
      ⟨⟨mem_insertEntry.2 (.inr hm), ?_⟩, ?_, ?_⟩ (ih (hf.parent_mem hp))
    · rw [entry_insertEntry, if_neg (hne hm)]
      exact hb.stores.2
    · rw [entry_insertEntry, if_neg (hne hm), hb.nFile]
    · rw [entry_insertEntry, if_neg (hne hm), hb.nBlockPos]

/-- A child of a branch's tip makes it longer. -/
theorem NodeState.Planted.exists_push (hp : s.Planted) (hprev : s.pprev pindex = some prev)
    (hc : s.Branch prev c) : ∃ b, s.Branch pindex (b :: c) := by
  obtain ⟨block, hst, -⟩ := hp.filed.stored pindex (mem_of_pprev hprev)
  exact ⟨⟨_, _, block⟩, .block hprev ⟨hst, rfl, rfl⟩ hc⟩

/-- **A branch is as long as its tip is high.** -/
theorem NodeState.Planted.nHeight_eq (hp : s.Planted) (hc : s.Branch pindex c) :
    s.nHeight pindex = c.length := by
  induction hc with
  | genesis h => exact hp.leveled.root h
  | block h _ _ ih =>
    rw [hp.leveled.succ h, ih, List.length_cons]
    push_cast
    rfl

/-! ## What is carried -/

/-- **What block after block carries**: it holds of the empty index and no
blocks, and connecting and disconnecting a block carry it over. -/
structure Carried (I : Index Uint256 CDiskTxPos → List StoredBlock → Prop) : Prop where
  start : I (fun _ => none) []
  connect : ∀ {s s' : NodeState} {pindex : Uint256} {b : StoredBlock} {c : List StoredBlock},
    s.Planted → s.Branch pindex (b :: c) → I s.txdb.index c →
      connectBlock b.block pindex s = (.ok (), s') → I s'.txdb.index (b :: c)
  disconnect : ∀ {s s' : NodeState} {pindex : Uint256} {b : StoredBlock} {c : List StoredBlock},
    s.Planted → s.Branch pindex (b :: c) → I s.txdb.index (b :: c) →
      disconnectBlock b.block pindex s = (.ok (), s') → I s'.txdb.index c

namespace Carried

variable {I : Index Uint256 CDiskTxPos → List StoredBlock → Prop} (hI : Carried I)

include hI

theorem disconnectOne (hp : s.Planted) (hc : s.Branch pindex (b :: c))
    (h : CryptoBullion.disconnectOne pindex s = (.ok block, s')) (hi : I s.txdb.index (b :: c)) :
    I s'.txdb.index c := by
  obtain ⟨block', s₁, h₁, h⟩ := Step.bind_eq_ok.1 h
  obtain ⟨_, s₂, h₂, h⟩ := Step.bind_eq_ok.1 h
  obtain ⟨-, rfl⟩ := Prod.mk.inj h
  have hs₁ := readFromDisk_eq pindex "Reorganize() : ReadFromDisk for disconnect failed" s
  rw [h₁] at hs₁
  obtain rfl : s₁ = s.ask.2 := hs₁
  have ht : SameTree s s.ask.2 := ⟨fun _ => rfl, rfl, List.suffix_rfl⟩
  cases hc with
  | block hprev hb hc =>
    obtain rfl := eq_of_readFromDisk hp.filed hb h₁
    obtain ⟨hok, rfl⟩ := Prod.mk.inj (Step.mapError_eq_ok.1 h₂)
    have hrun : disconnectBlock b.block pindex s.ask.2 =
        (.ok (), (disconnectBlock b.block pindex s.ask.2).2) := Prod.ext hok rfl
    have hi' := hI.disconnect (s := s.ask.2) (hp.of_sameTree ht rfl)
      ((NodeState.Branch.block hprev hb hc).of_sameTree ht) hi hrun
    exact hi'

theorem connectOne (hp : s.Planted) (hc : s.Branch pindex (b :: c))
    (h : CryptoBullion.connectOne pindex s = (.ok block, s')) (hi : I s.txdb.index c) :
    I s'.txdb.index (b :: c) := by
  obtain ⟨block', s₁, h₁, h⟩ := Step.bind_eq_ok.1 h
  obtain ⟨_, s₂, h₂, h⟩ := Step.bind_eq_ok.1 h
  obtain ⟨-, rfl⟩ := Prod.mk.inj h
  have hs₁ := readFromDisk_eq pindex "Reorganize() : ReadFromDisk for connect failed" s
  rw [h₁] at hs₁
  obtain rfl : s₁ = s.ask.2 := hs₁
  have ht : SameTree s s.ask.2 := ⟨fun _ => rfl, rfl, List.suffix_rfl⟩
  cases hc with
  | block hprev hb hc =>
    obtain rfl := eq_of_readFromDisk hp.filed hb h₁
    obtain ⟨hok, rfl⟩ := Prod.mk.inj (Step.mapError_eq_ok.1 h₂)
    have hrun : connectBlock b.block pindex s.ask.2 =
        (.ok (), (connectBlock b.block pindex s.ask.2).2) := Prod.ext hok rfl
    have hi' := hI.connect (s := s.ask.2) (hp.of_sameTree ht rfl)
      ((NodeState.Branch.block hprev hb hc).of_sameTree ht) hi hrun
    exact hi'

/-- The first loop of `Reorganize`, down to the fork. The walk was made in an
earlier state with the same tree. -/
theorem disconnectAll {blocks : List CBlock} {pfork : Uint256} {fuel : ℕ} (hp : s₁.Planted)
    (ht : SameTree s s₁) (hc : s.Branch pindex c) (hw : walkTo s pfork fuel pindex = .ok l)
    (h : Step.collect CryptoBullion.disconnectOne l s₁ = (.ok blocks, s'))
    (hi : I s₁.txdb.index c) : ∃ c₂, s.Branch pfork c₂ ∧ I s'.txdb.index c₂ := by
  induction fuel generalizing pindex l c s₁ blocks with
  | zero => exact absurd hw (by simp [walkTo])
  | succ fuel ih =>
    rw [walkTo] at hw
    split_ifs at hw with heq
    · obtain rfl := Except.ok.inj hw
      obtain ⟨-, rfl⟩ := Prod.mk.inj h
      exact ⟨c, heq ▸ hc, hi⟩
    · cases hc with
      | genesis hnone => simp [hnone] at hw
      | block hprev hb hc =>
        simp only [hprev] at hw
        obtain ⟨rest, hrest, heq⟩ := except_bind_eq_ok.1 hw
        obtain rfl := Except.ok.inj heq
        obtain ⟨block, s₂, h₁, h⟩ := Step.bind_eq_ok.1 h
        obtain ⟨blocks, s₃, h₂, h⟩ := Step.bind_eq_ok.1 h
        obtain ⟨-, rfl⟩ := Prod.mk.inj h
        have htent : Tentative s₁ s₂ := preserves_disconnectOne.of_eq h₁
        have hbranch := (NodeState.Branch.block hprev hb hc).of_sameTree ht
        exact ih (hp.of_tentative htent) (IsTrans.trans _ _ _ ht htent.sameTree) hc hrest h₂
          (hI.disconnectOne hp hbranch h₁ hi)

/-- The second loop, up from the fork. -/
theorem connectAll {blocks : List CBlock} {mid : Uint256} {suf : List Uint256} (hp : s.Planted)
    (hl : Lineage s.pprev pindexNew (l.reverse ++ mid :: suf)) (hc : s.Branch mid c)
    (h : Step.collect CryptoBullion.connectOne l s = (.ok blocks, s')) (hi : I s.txdb.index c) :
    ∃ c', s.Branch pindexNew c' ∧ I s'.txdb.index c' := by
  induction l generalizing s mid suf c blocks with
  | nil =>
    obtain ⟨-, rfl⟩ := Prod.mk.inj h
    obtain ⟨t, ht⟩ := hl.exists_cons
    rw [List.reverse_nil, List.nil_append, List.cons.injEq] at ht
    obtain rfl := ht.1
    exact ⟨c, hc, hi⟩
  | cons pindex l ih =>
    rw [List.reverse_cons, List.append_assoc, List.singleton_append] at hl
    obtain ⟨b, hb⟩ := hp.exists_push hl.parent_of_append hc
    obtain ⟨block, s₁, h₁, h⟩ := Step.bind_eq_ok.1 h
    obtain ⟨blocks, s₂, h₂, h⟩ := Step.bind_eq_ok.1 h
    obtain ⟨-, rfl⟩ := Prod.mk.inj h
    have ht : Tentative s s₁ := preserves_connectOne.of_eq h₁
    have hl₁ : Lineage s₁.pprev pindexNew (l.reverse ++ pindex :: mid :: suf) := by
      rwa [ht.sameTree.pprev]
    obtain ⟨c', hc', hi'⟩ := ih (hp.of_tentative ht) hl₁ (hb.of_sameTree ht.sameTree) h₂
      (hI.connectOne hp hb h₁ hi)
    exact ⟨c', hc'.of_sameTree_symm ht.sameTree, hi'⟩

/-- **A reorganisation that succeeds** carries over to the branch of the new
tip. -/
theorem reorganize (hp : s.Planted) (hbest : s.pindexBest = some best) (hc : s.Branch best c)
    (h : CryptoBullion.reorganize pindexNew s = (.ok (), s')) (hi : I s.txdb.index c) :
    ∃ c', s'.Branch pindexNew c' ∧ I s'.txdb.index c' := by
  obtain ⟨_, _, _, _, -, -, -, hm⟩ := of_reorganize_eq_ok h
  have htree := hm.sameTree
  rw [CryptoBullion.reorganize, Step.get_bind] at h
  simp only [hbest] at h
  obtain ⟨pfork, -, h⟩ := Step.lift_bind_eq_ok.1 h
  obtain ⟨vDisconnect, hdis, h⟩ := Step.lift_bind_eq_ok.1 h
  obtain ⟨vConnect, hcon, h⟩ := Step.lift_bind_eq_ok.1 h
  rw [switchBranch] at h
  obtain ⟨disconnected, s₁, h₁, h⟩ := Step.bind_eq_ok.1 h
  obtain ⟨connected, s₂, h₂, h⟩ := Step.bind_eq_ok.1 h
  rw [onTxDb_modify_bind] at h
  obtain ⟨_, s₃, h₃, h⟩ := Step.bind_eq_ok.1 h
  rw [Step.modify_bind] at h
  obtain ⟨_, s₄, h₄, h⟩ := Step.bind_eq_ok.1 h
  obtain ⟨-, rfl⟩ := Prod.mk.inj h
  have ht : Tentative s s₁ := preserves_disconnectAll.of_eq h₁
  obtain ⟨c₂, hc₂, hi₁⟩ := hI.disconnectAll hp (Std.Refl.refl s) hc hdis h₁ hi
  obtain ⟨L, hL⟩ := Lineage.exists_of_graded hp.forest.graded pfork
  obtain ⟨t, rfl⟩ := hL.exists_cons
  have hlin : Lineage s₁.pprev pindexNew (vConnect.reverse.reverse ++ pfork :: t) := by
    rw [ht.sameTree.pprev, List.reverse_reverse]
    exact lineage_of_walkTo hcon hL
  obtain ⟨c', hc', hi₂⟩ := hI.connectAll (hp.of_tentative ht) hlin (hc₂.of_sameTree ht.sameTree) h₂ hi₁
  have htxdb : s₄.txdb = (s₂.txdb.writeHashBestChain pindexNew).commit := by
    obtain ⟨-, rfl⟩ := of_txnCommit_eq_ok h₃
    rw [forEach_acceptToMemoryPool h₄]
    show (relink vDisconnect vConnect.reverse _).txdb = _
    rw [relink_rest]
  refine ⟨c', (hc'.of_sameTree_symm ht.sameTree).of_sameTree htree, ?_⟩
  have hindex : s₄.txdb.index = s₂.txdb.index := by
    rw [htxdb, index_commit]
    exact index_write (by simp)
  show I s₄.txdb.index c'
  rw [hindex]
  exact hi₂

/-- **An extension that succeeds** carries over to the longer branch. -/
theorem setBestChainInner (hp : s.Planted) (hc : s.Branch pindexNew (b :: c))
    (h : CryptoBullion.setBestChainInner b.block pindexNew s = (.ok (), s'))
    (hi : I s.txdb.index c) : I s'.txdb.index (b :: c) := by
  rw [CryptoBullion.setBestChainInner] at h
  obtain ⟨_, s₁, h₁, hrest⟩ := Step.bind_eq_ok.1 h
  obtain ⟨_, s₂, h₂, h⟩ := Step.bind_eq_ok.1 hrest
  obtain ⟨_, s₀, hx, hw⟩ := Step.bind_eq_ok.1 (of_orInvalid_eq_ok h₁)
  obtain ⟨hok, hs₀⟩ := Prod.mk.inj hx
  have hi₁ : I s₀.txdb.index (b :: c) := by
    rw [← hs₀]
    have hrun : connectBlock b.block pindexNew s =
        (.ok (), (connectBlock b.block pindexNew s).2) := Prod.ext hok rfl
    have hi' := hI.connect hp hc hi hrun
    exact hi'
  obtain ⟨-, hs₁⟩ := Prod.mk.inj hw
  obtain ⟨-, hs₂⟩ := of_txnCommit_eq_ok h₂
  rw [Step.get_bind] at h
  have htxdb : s'.txdb = s₂.txdb := by
    rcases hprev : s₂.pprev pindexNew with _ | prev <;> simp only [hprev] at h
    · exact absurd h (by simp)
    rw [Step.modify_bind] at h
    obtain ⟨-, rfl⟩ := Prod.mk.inj h
    show (linkNext (some pindexNew) pindexNew s₂).txdb = _
    rw [linkNext_rest]
  have hindex : s'.txdb.index = s₀.txdb.index := by
    rw [htxdb, hs₂, ← hs₁]
    exact index_commit.trans (index_write (by simp))
  rwa [hindex]

/-- One postponed block. -/
theorem connectNext (hp : s.Planted) (hclosed : s.txdb.activeBatch = none)
    (hc : s.Branch pindex (b :: c)) (h : CryptoBullion.connectNext pindex s = (.ok (), s'))
    (hi : I s.txdb.index c) : I s'.txdb.index (b :: c) := by
  obtain ⟨block, s₁, h₁, hrest⟩ := Step.bind_eq_ok.1 h
  obtain ⟨_, s₂, h₂, h⟩ := Step.bind_eq_ok.1 hrest
  obtain ⟨-, hs₂⟩ := of_txnBegin_eq_ok h₂
  have hs₁ := readFromDisk_eq pindex "SetBestChain() : ReadFromDisk failed" s
  rw [h₁] at hs₁
  change s₁ = s.ask.2 at hs₁
  cases hc with
  | block hprev hb hc =>
    obtain rfl := eq_of_readFromDisk hp.filed hb h₁
    have ht : SameTree s s₂ := by
      rw [hs₂, hs₁]
      exact ⟨fun _ => rfl, rfl, List.suffix_rfl⟩
    have hg : s₂.pindexGenesisBlock = s.pindexGenesisBlock := by
      rw [hs₂, hs₁]
      rfl
    refine hI.setBestChainInner (hp.of_sameTree ht hg)
      ((NodeState.Branch.block hprev hb hc).of_sameTree ht) h ?_
    have hindex : s₂.txdb.index = s.txdb.index := by
      rw [hs₂, hs₁]
      exact index_begin hclosed
    rwa [hindex]

/-- **The postponed blocks** carry over one by one, if none of them fails. -/
theorem connectPostponed {mid : Uint256} {suf : List Uint256} (hp : s.Planted)
    (hclosed : s.txdb.activeBatch = none)
    (hl : Lineage s.pprev pindexNew (l.reverse ++ mid :: suf)) (hc : s.Branch mid c)
    (h : CryptoBullion.connectPostponed l s = (.ok (), s')) (hi : I s.txdb.index c)
    (hn : ∀ h, .postponedFailed h ∉ s'.trace) :
    s'.txdb.activeBatch = none ∧ ∃ c', s.Branch pindexNew c' ∧ I s'.txdb.index c' := by
  induction l generalizing s mid suf c with
  | nil =>
    obtain ⟨-, rfl⟩ := Prod.mk.inj h
    obtain ⟨t, ht⟩ := hl.exists_cons
    rw [List.reverse_nil, List.nil_append, List.cons.injEq] at ht
    obtain rfl := ht.1
    exact ⟨hclosed, c, hc, hi⟩
  | cons pindex l ih =>
    rw [List.reverse_cons, List.append_assoc, List.singleton_append] at hl
    obtain ⟨b, hb⟩ := hp.exists_push hl.parent_of_append hc
    rw [CryptoBullion.connectPostponed, Step.attempt_bind] at h
    rcases hx : CryptoBullion.connectNext pindex s with ⟨f | u, s₁⟩ <;> simp only [hx] at h
    · rw [Step.modify_bind] at h
      split_ifs at h
      · obtain ⟨-, rfl⟩ := Prod.mk.inj h
        exact absurd List.mem_cons_self (hn pindex)
      · exact absurd h (by simp)
    · have hm := of_connectNext_eq_ok hx
      have ht : SameTree s s₁ := IsTrans.trans s { s.ask.2 with txdb := s.txdb.begin } s₁
        ⟨fun _ => rfl, rfl, List.suffix_rfl⟩ hm.sameTree
      have hp₁ : s₁.Planted := hp.of_sameTree ht hm.rest.2.1
      have hl₁ : Lineage s₁.pprev pindexNew (l.reverse ++ pindex :: mid :: suf) := by
        rwa [ht.pprev]
      obtain ⟨hend, c', hc', hi'⟩ := ih hp₁ hm.rest.2.2.1 hl₁ (hb.of_sameTree ht) h
        (hI.connectNext hp hclosed hb hx hi)
      exact ⟨hend, c', hc'.of_sameTree_symm ht, hi'⟩

/-- **A call of `SetBestChain` that succeeds** carries over to the branch of
the new best block, if no postponed block fails. -/
theorem setBestChain (hs : s.Sound) (hp : s.Planted) (hbest : s.pindexBest = some best)
    (hc : s.Branch best c) (hst : s.Stores pindexNew block)
    (h : CryptoBullion.setBestChain block pindexNew s = (.ok (), s')) (hi : I s.txdb.index c)
    (hn : ∀ h, .postponedFailed h ∉ s'.trace) :
    s'.txdb.activeBatch = none ∧ ∃ c', s'.Branch pindexNew c' ∧ I s'.txdb.index c' := by
  obtain ⟨ht', -⟩ := setBestChain_spec hs hst h
  obtain ⟨hclosed, s₂, rfl, hpath⟩ := of_setBestChain_eq_ok h
  obtain ⟨best', L, hb, hchain⟩ := hs.chain
  obtain rfl : best' = best := Option.some.inj (hb.pindexBest.symm.trans hbest)
  have ht₀ : SameTree s { s with txdb := s.txdb.begin } := ⟨fun _ => rfl, rfl, List.suffix_rfl⟩
  have hp₀ := hp.of_sameTree ht₀ rfl
  have hi₀ : I (CTxDB.index s.txdb.begin) c := by
    rwa [index_begin hclosed]
  -- setting the globals touches neither the tree nor the database
  suffices hmain : s₂.txdb.activeBatch = none ∧ ∃ c', s.Branch pindexNew c' ∧ I s₂.txdb.index c' by
    obtain ⟨hend, c', hc', hi'⟩ := hmain
    exact ⟨hend, c', hc'.of_sameTree ht', hi'⟩
  rcases hpath with ⟨hgen, -, -⟩ | ⟨-, ⟨hext, h⟩ | h⟩
  · -- there is a genesis block already
    obtain ⟨r, hlast, -, -⟩ := hchain.thread.lineage.exists_getLast
    rw [genesis_of_lineage hs.forest hs.filed hchain.thread.lineage hb.mem, hgen] at hlast
    exact absurd hlast (by simp)
  · -- the block extends the tip
    obtain ⟨⟨prev, hprev⟩, hm⟩ := of_setBestChainInner_eq_ok h
    obtain rfl : prev = best' := by
      rw [← hs.filed.hashPrevBlock_of_stores hst hprev, hext, hb.hashBestChain]
    obtain ⟨b, hpush⟩ := hp.exists_push hprev hc
    refine ⟨hm.rest.2.2.1, b :: c, hpush, ?_⟩
    have hpush₀ := hpush.of_sameTree ht₀
    cases hpush with
    | block _ hat _ =>
      obtain rfl := hs.filed.stores_unique hst hat.stores
      exact hI.setBestChainInner hp₀ hpush₀ h hi₀
  · -- the chain switches to another branch
    obtain ⟨best'', r, s₁, hbest'', hsplit, hreorg, hpost⟩ := of_switchChain_eq_ok h
    obtain rfl : best'' = best' := Option.some.inj (hbest''.symm.trans hbest)
    obtain ⟨_, _, _, _, -, -, -, hm⟩ := of_reorganize_eq_ok hreorg
    obtain ⟨c₁, hc₁, hi₁⟩ := hI.reorganize hp₀ hbest'' (hc.of_sameTree ht₀) hreorg hi₀
    obtain ⟨L₁, hL₁⟩ := Lineage.exists_of_graded hp₀.forest.graded r.1
    obtain ⟨u, rfl⟩ := hL₁.exists_cons
    have hnew : Lineage s₁.pprev pindexNew (r.2.reverse.reverse ++ r.1 :: u) := by
      rw [hm.sameTree.pprev, List.reverse_reverse]
      exact lineage_of_splitBranch hsplit hL₁
    obtain ⟨hend, c', hc', hi'⟩ := hI.connectPostponed (hp₀.of_sameTree hm.sameTree hm.rest.2.1)
      hm.rest.2.2.1 hnew hc₁ hpost hi₁ hn
    exact ⟨hend, c', (hc'.of_sameTree_symm hm.sameTree).of_sameTree_symm ht₀, hi'⟩

/-! ## Runs -/

omit hI in
/-- What a state has at the end of its main chain. -/
def On (I : Index Uint256 CDiskTxPos → List StoredBlock → Prop) (s : NodeState) : Prop :=
  ∃ best c, s.pindexBest = some best ∧ s.Branch best c ∧ I s.txdb.index c

/-- The genesis block is the whole chain, and not in the index. -/
theorem on_of_genesis (hs : s.Empty) (hfiles : s.blockFiles = [b]) (happ : Appendable [] b)
    (hb : b.block = genesisBlock) (hhash : genesisBlock.getHash = hashGenesisBlock)
    (h : addToBlockIndex b.block b.nFile b.nBlockPos s = (.ok (), s')) : On I s' := by
  obtain ⟨hs', hroot, -⟩ := sound_of_genesis hs hfiles happ hb hhash h
  obtain ⟨best, -, hbest, -⟩ := hs'.chain
  have hindex : s'.txdb.index = fun _ => none :=
    (mirrored_of_genesis hs hfiles happ hb hhash h).batch.index
  refine ⟨best, [], hbest.pindexBest, .genesis (hroot best), ?_⟩
  rw [hindex]
  exact hI.start

/-- A failed call has left the chain where it was. -/
theorem on_of_unmoved (hu : Unmoved s s') (hclosed : s.txdb.activeBatch = none) (h : On I s) :
    On I { s' with txdb := s'.txdb.abort } := by
  obtain ⟨best, c, hbest, hc, hi⟩ := h
  have ht : SameTree s { s' with txdb := s'.txdb.abort } :=
    IsTrans.trans s s' _ hu.sameTree ⟨fun _ => rfl, rfl, List.suffix_rfl⟩
  refine ⟨best, c, hu.pindexBest.trans hbest, hc.of_sameTree ht, ?_⟩
  have hindex : CTxDB.index s'.txdb.abort = s.txdb.index := by
    rw [index_abort_congr fun hash => hu.committed (.tx hash) (by simp)]
    exact index_abort_of_closed hclosed
  exact hindex ▸ hi

/-- A block that gets its entry is on nobody's branch. -/
theorem on_indexBlock (hp : s.Planted) (hs : s.Sound) (hclosed : s.txdb.activeBatch = none)
    (h : On I s) : On I (closeTxDb (indexBlock b.block b.nFile b.nBlockPos) s).2 := by
  obtain ⟨best, c, hbest, hc, hi⟩ := h
  obtain ⟨best', -, hbest', -⟩ := hs.chain
  obtain rfl : best' = best := Option.some.inj (hbest'.pindexBest.symm.trans hbest)
  unfold closeTxDb
  rcases of_indexBlock b.block b.nFile b.nBlockPos hclosed with ⟨f, heq⟩ | ⟨i, hm, hcommitted, heq⟩
  · rw [heq]
    refine ⟨best', c, hbest, hc.of_sameTree ⟨fun _ => rfl, rfl, List.suffix_rfl⟩, ?_⟩
    show I (CTxDB.index s.txdb.abort) c
    rwa [index_abort_of_closed hclosed]
  · have hindex : CTxDB.index (indexBlock b.block b.nFile b.nBlockPos s).2.txdb.abort =
        s.txdb.index := by
      rw [index_abort_congr fun hash => hcommitted (.tx hash) (by simp)]
      exact index_abort_of_closed hclosed
    refine ⟨best', c, ?_, ?_, hindex ▸ hi⟩
    · rw [heq]
      exact hbest
    · have hc' := hc.insertEntry hp.forest hbest'.mem hm
      rw [heq]
      exact hc'.of_sameTree ⟨fun _ => rfl, rfl, List.suffix_rfl⟩

/-- **What is carried block by block holds of the main chain** in every state
of a run in which no postponed block has failed. -/
theorem on_of_reachable (h : Reachable s) (hn : ∀ h, .postponedFailed h ∉ s.trace) : On I s := by
  induction h with
  | genesis b hs hfiles happ hb hhash h => exact hI.on_of_genesis hs hfiles happ hb hhash h
  | @step s s' hr hs ih =>
    have hclosed := closed_of_reachable hr
    cases hs with
    | write b hb =>
      obtain ⟨best, c, hbest, hc, hi⟩ := ih hn
      exact ⟨best, c, hbest, hc.write b, hi⟩
    | index b hb hp =>
      have htrace : (closeTxDb (indexBlock b.block b.nFile b.nBlockPos) s).2.trace = s.trace := by
        rw [closeTxDb]
        rcases of_indexBlock b.block b.nFile b.nBlockPos hclosed with ⟨f, heq⟩ | ⟨i, -, -, heq⟩
        · rw [heq]
        · rw [heq]
          rfl
      rw [htrace] at hn
      exact hI.on_indexBlock (planted_of_reachable hr hn) (sound_of_reachable hr hn) hclosed (ih hn)
    | best block pindex hst hrun =>
      have hgrow := (sameTree_setBestChain block pindex s).trace
      have hbefore : ∀ h, .postponedFailed h ∉ s.trace := fun h hm => hn h (hgrow.subset hm)
      have hon := ih hbefore
      unfold closeTxDb
      rcases hx : CryptoBullion.setBestChain block pindex s with ⟨f | u, s'⟩
      · rcases unmoved_setBestChain hx (hrun f (by rw [hx])) with hu | ⟨-, h, hlog⟩
        · exact hI.on_of_unmoved hu hclosed hon
        · refine absurd ?_ (hn h)
          rw [closeTxDb, hx]
          exact hlog
      · obtain ⟨best, c, hbest, hc, hi⟩ := hon
        have hs := sound_of_reachable hr hbefore
        have hn' : ∀ h, .postponedFailed h ∉ s'.trace := by
          intro h hm
          refine hn h ?_
          rw [closeTxDb, hx]
          exact hm
        obtain ⟨hend, c', hc', hi'⟩ := hI.setBestChain hs (planted_of_reachable hr hbefore) hbest hc hst hx
          hi hn'
        obtain ⟨-, -, hb', -⟩ := setBestChain_spec hs hst hx
        refine ⟨pindex, c', hb'.pindexBest,
          hc'.of_sameTree ⟨fun _ => rfl, rfl, List.suffix_rfl⟩, ?_⟩
        show I (CTxDB.index s'.txdb.abort) c'
        rwa [index_abort_of_closed hend]
    | other h =>
      rw [SameChain] at h
      obtain ⟨best, c, hbest, hc, hi⟩ := ih (by rw [h] at hn; exact hn)
      rw [h]
      exact ⟨best, c, hbest, hc.of_sameTree ⟨fun _ => rfl, rfl, List.suffix_rfl⟩, hi⟩

end Carried

end CryptoBullion
