import CryptoBullion.Common.Thread
import CryptoBullion.Chain.Rollback
/-!
# Attempts that succeed

What a commit brings about: the batch that was tried out is carried out,
with the new tip recorded in it, and the links of the index are moved
along. `Moved` says so of an extension and of a reorganisation alike; on
a well-formed index it moves the thread of links from the old tip to the
new one (`Moved.threaded`). A reorganisation that has postponed blocks is
such a move followed by one for each of them, as far as they connect.
-/

namespace CryptoBullion

open Threaded (link)

/-- The index is a forest: heights fall from a block to its parent, and
parents are indexed. -/
structure NodeState.Forest (s : NodeState) : Prop where
  graded : Graded s.pprev s.nHeight
  parent_mem : ∀ {h p}, s.pprev h = some p → p ∈ s.mapBlockIndex

variable {s s' s₁ : NodeState} {pindexNew tip j : Uint256} {suf l : List Uint256}
variable {vDisconnect vConnect : List Uint256}

theorem NodeState.Forest.of_sameTree (hf : s.Forest) (ht : SameTree s s') : s'.Forest where
  graded := by
    rw [ht.pprev, ht.nHeight]
    exact hf.graded
  parent_mem hp := by
    rw [ht.pprev] at hp
    exact ht.mem_iff.2 (hf.parent_mem hp)

/-! ## Links -/

theorem sameTree_linkNext {v : Option Uint256} {i : Uint256} : SameTree s (linkNext v i s) := by
  rw [linkNext]
  split
  · exact Std.Refl.refl s
  · refine ⟨fun h => ?_, rfl, List.suffix_rfl⟩
    rw [NodeState.getElem?_setEntry]
    split
    · rw [Option.map_map]
      rfl
    · rfl

/-- `pindex->pprev->pnext = …` relinks the thread. -/
theorem linkNext_pnext {v : Option Uint256} {i : Uint256} (hf : s.Forest) :
    (linkNext v i s).pnext = link s.pprev v i s.pnext := by
  rw [linkNext]
  split
  · rename_i hp
    rw [link, hp]
  · rename_i p hp
    rw [Threaded.link_of_parent hp]
    funext h
    rw [Function.update_apply, NodeState.pnext, NodeState.entry_setEntry]
    by_cases hh : p = h
    · subst hh
      have := Std.ExtTreeMap.contains_iff_mem.2 (hf.parent_mem hp)
      simp [this]
    · rw [if_neg (fun hc => hh hc.1), if_neg (Ne.symm hh)]
      rfl

theorem linkNext_rest {v : Option Uint256} {i : Uint256} :
    linkNext v i s = { s with mapBlockIndex := (linkNext v i s).mapBlockIndex } := by
  rw [linkNext]
  split <;> rfl

section Branch

variable {v : Uint256 → Option Uint256}

/-- Relinking a branch, block by block, does not touch the tree. -/
theorem sameTree_foldl_linkNext : SameTree s (l.foldl (fun s i => linkNext (v i) i s) s) := by
  induction l generalizing s with
  | nil => exact Std.Refl.refl s
  | cons i l ih => exact IsTrans.trans _ _ _ sameTree_linkNext ih

theorem foldl_linkNext_rest : l.foldl (fun s i => linkNext (v i) i s) s =
    { s with mapBlockIndex := (l.foldl (fun s i => linkNext (v i) i s) s).mapBlockIndex } := by
  induction l generalizing s with
  | nil => rfl
  | cons i l ih => rw [List.foldl_cons, ih, linkNext_rest]

theorem pnext_foldl_linkNext (hf : s.Forest) :
    (l.foldl (fun s i => linkNext (v i) i s) s).pnext =
      l.foldl (fun next i => link s.pprev (v i) i next) s.pnext := by
  induction l generalizing s with
  | nil => rfl
  | cons i l ih =>
    have ht : SameTree s (linkNext (v i) i s) := sameTree_linkNext
    rw [List.foldl_cons, ih (hf.of_sameTree ht), ht.pprev, linkNext_pnext hf, List.foldl_cons]

end Branch

theorem sameTree_relink : SameTree s (relink vDisconnect vConnect s) :=
  IsTrans.trans _ _ _ (sameTree_foldl_linkNext (v := fun _ => none))
    (sameTree_foldl_linkNext (v := fun i => some i))

theorem relink_rest : relink vDisconnect vConnect s =
    { s with mapBlockIndex := (relink vDisconnect vConnect s).mapBlockIndex } := by
  rw [relink, foldl_linkNext_rest (v := fun i => some i), foldl_linkNext_rest (v := fun _ => none)]

/-- **`Reorganize`'s two loops** take away the links of one branch and add
those of the other. -/
theorem pnext_relink (hf : s.Forest) : (relink vDisconnect vConnect s).pnext =
    vConnect.foldl (fun next i => link s.pprev (some i) i next)
      (vDisconnect.foldl (fun next i => link s.pprev none i next) s.pnext) := by
  have ht : SameTree s (vDisconnect.foldl (fun s i => linkNext none i s) s) :=
    sameTree_foldl_linkNext (v := fun _ => none)
  rw [relink, pnext_foldl_linkNext (v := fun i => some i) (hf.of_sameTree ht), ht.pprev,
    pnext_foldl_linkNext (v := fun _ => none) hf]

/-! ## A commit and its links -/

/-- From `s`, blocks were tried out and `pindexNew` recorded as the tip;
the batch was committed, the links moved and the pool brought up to date. -/
def Moved (pindexNew : Uint256) (vDisconnect vConnect : List Uint256) (s s' : NodeState) : Prop :=
  ∃ s₁ s₂, Tentative s s₁ ∧ s₁.txdb.read .hashBestChain = some (.hash pindexNew) ∧
    s₂ = { s₁.ask.2 with txdb := s₁.txdb.commit } ∧
    s' = { relink vDisconnect vConnect s₂ with mempool := s'.mempool, outside := s'.outside }

namespace Moved

variable (hm : Moved pindexNew vDisconnect vConnect s s')

include hm

theorem sameTree : SameTree s s' := by
  obtain ⟨s₁, s₂, ht, -, rfl, hs'⟩ := hm
  have h₂ : SameTree s₁ { s₁.ask.2 with txdb := s₁.txdb.commit } :=
    ⟨fun _ => rfl, rfl, List.suffix_rfl⟩
  refine IsTrans.trans _ _ _ (IsTrans.trans _ _ _ ht.sameTree h₂)
    (IsTrans.trans _ _ _ (sameTree_relink : SameTree _ (relink vDisconnect vConnect _)) ?_)
  rw [hs']
  exact ⟨fun _ => rfl, rfl, List.suffix_rfl⟩

/-- **A move takes the thread from the old tip to the new one.** -/
theorem threaded (hf : s.Forest)
    (ht : Threaded s.pprev s.pnext tip (vDisconnect ++ j :: suf))
    (hl : Lineage s.pprev pindexNew (vConnect.reverse ++ j :: suf)) :
    Threaded s'.pprev s'.pnext pindexNew (vConnect.reverse ++ j :: suf) := by
  rw [hm.sameTree.pprev]
  obtain ⟨s₁, s₂, htent, -, rfl, hs'⟩ := hm
  have h₂ : SameTree s₁ { s₁.ask.2 with txdb := s₁.txdb.commit } :=
    ⟨fun _ => rfl, rfl, List.suffix_rfl⟩
  have hnext : s'.pnext = (relink vDisconnect vConnect { s₁.ask.2 with txdb := s₁.txdb.commit }).pnext := by
    rw [hs']
    rfl
  have hp₂ : { s₁.ask.2 with txdb := s₁.txdb.commit }.pprev = s.pprev :=
    h₂.pprev.trans htent.sameTree.pprev
  have hn₂ : { s₁.ask.2 with txdb := s₁.txdb.commit }.pnext = s.pnext := htent.pnext
  rw [hnext, pnext_relink ((hf.of_sameTree htent.sameTree).of_sameTree h₂), hp₂, hn₂]
  have hun := ht.unlink_all hf.graded
  have := hun.link_all hf.graded hl
  rwa [List.reverse_reverse] at this

/-- The new tip is on record. -/
theorem committed : s'.txdb.committed[DbKey.hashBestChain]? = some (.hash pindexNew) := by
  obtain ⟨s₁, s₂, -, hread, rfl, hs'⟩ := hm
  rw [hs', relink_rest]
  exact Store.committed_commit.trans hread

/-- Everything else is as it was, or has been tried out. -/
theorem rest : s'.pindexBest = s.pindexBest ∧ s'.pindexGenesisBlock = s.pindexGenesisBlock ∧
      s'.txdb.activeBatch = none ∧ Smooth s s' := by
  obtain ⟨s₁, s₂, htent, -, rfl, hs'⟩ := hm
  rw [hs', relink_rest]
  refine ⟨by rw [htent.rest]; rfl, by rw [htent.rest]; rfl, rfl, ?_⟩
  exact IsTrans.trans _ _ _ htent.smooth (Smooth.of_eq rfl)

end Moved

/-! ## The paths that succeed -/

section Paths

variable [P : Platform]
variable {block : CBlock} {pindex pfork mid best : Uint256} {fuel : ℕ} {L : List Uint256}

/-! ### Whatever the outcome -/

open Step (Preserves)

omit [P : Platform] in
theorem sameTree_of_eq {f : NodeState → NodeState}
    (h : ∀ s, (f s).mapBlockIndex = s.mapBlockIndex ∧ (f s).blockFiles = s.blockFiles ∧
      s.trace <:+ (f s).trace) :
    Preserves SameTree (Step.modify f : Step NodeState Failure Unit) :=
  Preserves.modify fun s => ⟨fun _ => by rw [(h s).1], (h s).2.1, (h s).2.2⟩

omit [P : Platform] in
theorem sameTree_onTxDb {α : Type} {x : Step CTxDB Failure α} : Preserves SameTree (onTxDb x) :=
  fun _ => ⟨fun _ => rfl, rfl, List.suffix_rfl⟩

omit [P : Platform] in
theorem sameTree_txnBegin : Preserves SameTree txnBegin := by
  refine Preserves.bind Preserves.get fun s => ?_
  split
  · exact Preserves.fail
  · exact sameTree_onTxDb

omit [P : Platform] in
theorem sameTree_txnCommit {msg : String} : Preserves SameTree (txnCommit msg) := by
  refine Preserves.bind (fun _ => ⟨fun _ => rfl, rfl, List.suffix_rfl⟩) fun ans => ?_
  split
  · exact sameTree_onTxDb
  · exact Preserves.bind sameTree_onTxDb fun _ => Preserves.fail

omit [P : Platform] in
theorem sameTree_orInvalid {g : Failure} {x : Step NodeState Failure Unit}
    (hx : Preserves SameTree x) : Preserves SameTree (orInvalid pindex g x) := by
  refine Preserves.bind hx.attempt fun r => ?_
  split
  · exact Preserves.pure
  · split
    · exact Preserves.bind sameTree_onTxDb fun _ =>
        Preserves.bind ((unmoved_invalidChainFound pindex).mono Unmoved.sameTree) fun _ => Preserves.fail
    · exact Preserves.fail

theorem sameTree_setBestChainInner : Preserves SameTree (setBestChainInner block pindexNew) := by
  refine Preserves.bind (sameTree_orInvalid ((tentative_extend block pindexNew).mono Tentative.sameTree)) fun _ =>
    Preserves.bind sameTree_txnCommit fun _ => Preserves.bind Preserves.get fun s => ?_
  split
  · exact Preserves.bind Preserves.fail fun _ => sameTree_of_eq fun _ => ⟨rfl, rfl, List.suffix_rfl⟩
  · exact Preserves.bind (Preserves.modify fun _ => sameTree_linkNext) fun _ =>
      sameTree_of_eq fun _ => ⟨rfl, rfl, List.suffix_rfl⟩

theorem sameTree_connectPostponed {l : List Uint256} : Preserves SameTree (connectPostponed l) := by
  induction l with
  | nil => exact Preserves.pure
  | cons pindex l ih =>
    have hnext : Preserves SameTree (connectNext pindex) :=
      Preserves.bind (preserves_readFromDisk.mono Tentative.sameTree) fun _ =>
        Preserves.bind sameTree_txnBegin fun _ => sameTree_setBestChainInner
    refine Preserves.bind hnext.attempt fun r => ?_
    split
    · exact ih
    · refine Preserves.bind (sameTree_of_eq fun _ => ⟨rfl, rfl, List.suffix_cons _ _⟩) fun _ => ?_
      split
      · exact Preserves.pure
      · exact Preserves.fail

/-- Handing a transaction to the pool touches the pool and the clock. -/
theorem acceptToMemoryPool_eq (s : NodeState) (tx : CTransaction) : ∃ pool, acceptToMemoryPool tx s =
    (.ok (), { s with mempool := pool, outside := s.ask.2.outside }) := by
  rw [acceptToMemoryPool, Step.modify_apply]
  rcases h : s.ask.2.mempool.accept tx s.ask.2.nBestHeight s.ask.1.nAdjustedTime with e | pool
  · exact ⟨s.mempool, by simp only [h]; rfl⟩
  · exact ⟨pool, by simp only [h]; rfl⟩

theorem sameTree_acceptToMemoryPool {tx : CTransaction} :
    Preserves SameTree (acceptToMemoryPool tx) := by
  intro s
  obtain ⟨pool, hs⟩ := acceptToMemoryPool_eq s tx
  rw [hs]
  exact ⟨fun _ => rfl, rfl, List.suffix_rfl⟩

theorem sameTree_reorganize : Preserves SameTree (reorganize pindexNew) := by
  refine Preserves.bind Preserves.get fun s => ?_
  split
  · exact Preserves.fail
  · exact Preserves.bind Preserves.lift fun _ => Preserves.bind Preserves.lift fun _ =>
      Preserves.bind Preserves.lift fun _ =>
      Preserves.bind (preserves_disconnectAll.mono Tentative.sameTree) fun _ =>
      Preserves.bind (preserves_connectAll.mono Tentative.sameTree) fun _ =>
      Preserves.bind sameTree_onTxDb fun _ => Preserves.bind sameTree_txnCommit fun _ =>
      Preserves.bind (Preserves.modify fun _ => sameTree_relink) fun _ =>
      Preserves.bind (Preserves.forEach (fun _ => sameTree_acceptToMemoryPool) _) fun _ =>
      sameTree_of_eq fun _ => ⟨rfl, rfl, List.suffix_rfl⟩

/-- **Whatever comes of it, `SetBestChain` leaves the tree of blocks
alone.** -/
theorem sameTree_setBestChain (block : CBlock) (pindexNew : Uint256) :
    Preserves SameTree (setBestChain block pindexNew) := by
  have hlast : Preserves SameTree
      (Step.modify (newBest block.getHash pindexNew) : Step NodeState Failure Unit) :=
    sameTree_of_eq fun _ => ⟨rfl, rfl, List.suffix_rfl⟩
  refine Preserves.bind sameTree_txnBegin fun _ => Preserves.bind Preserves.get fun s => ?_
  split
  · refine Preserves.bind (Preserves.bind sameTree_onTxDb fun _ =>
      Preserves.bind sameTree_txnCommit fun _ => ?_) fun _ => hlast
    exact sameTree_of_eq fun _ => ⟨rfl, rfl, List.suffix_rfl⟩
  · split
    · exact Preserves.bind sameTree_setBestChainInner.mapError fun _ => hlast
    · refine Preserves.bind (Preserves.bind Preserves.get fun s => ?_) fun _ => hlast
      split
      · exact Preserves.fail
      · exact Preserves.bind Preserves.lift fun _ =>
          Preserves.bind (sameTree_orInvalid sameTree_reorganize) fun _ => sameTree_connectPostponed

/-! ### Success -/

omit [P : Platform] in
/-- What a branch's walk down to the fork finds is the way to it. -/
theorem lineage_of_walkTo (h : walkTo s pfork fuel pindex = .ok l)
    (hl : Lineage s.pprev pfork L) : Lineage s.pprev pindex (l ++ L) := by
  induction fuel generalizing pindex l with
  | zero => exact absurd h (by simp [walkTo])
  | succ fuel ih =>
    rw [walkTo] at h
    split_ifs at h with hp
    · obtain rfl := Except.ok.inj h
      rwa [hp]
    · split at h
      · exact absurd h (by simp)
      · rename_i prev hprev
        obtain ⟨rest, hrest, heq⟩ := except_bind_eq_ok.1 h
        obtain rfl := Except.ok.inj heq
        exact .step hprev (ih hrest)

omit [P : Platform] in
/-- The postponed blocks lead from the new tip down to the block the
branch is split at. -/
theorem lineage_of_splitBranch {bnBestTrust : ℕ} {r : Uint256 × List Uint256}
    (h : splitBranch s bnBestTrust fuel pindex = .ok r) (hl : Lineage s.pprev r.1 L) :
    Lineage s.pprev pindex (r.2 ++ L) := by
  induction fuel generalizing pindex r with
  | zero => exact absurd h (by simp [splitBranch])
  | succ fuel ih =>
    rw [splitBranch] at h
    split at h
    · obtain rfl := Except.ok.inj h
      exact hl
    · rename_i prev hprev
      split_ifs at h
      · obtain ⟨r', hr', heq⟩ := except_bind_eq_ok.1 h
        obtain rfl := Except.ok.inj heq
        exact .step hprev (ih hr' hl)
      · obtain rfl := Except.ok.inj h
        exact hl

omit [P : Platform] in
/-- A write while a batch is open is read back. -/
theorem read_writeHashBestChain {txdb : CTxDB} {hash : Uint256} :
    (txdb.writeHashBestChain hash).read .hashBestChain = some (.hash hash) :=
  Store.read_write_self (w := (DbKey.hashBestChain, some (DbValue.hash hash)))

theorem forEach_acceptToMemoryPool {txs : List CTransaction}
    (h : Step.forEach acceptToMemoryPool txs s = (.ok (), s')) :
    s' = { s with mempool := s'.mempool, outside := s'.outside } := by
  induction txs generalizing s with
  | nil =>
    obtain ⟨-, rfl⟩ := Prod.mk.inj h
    rfl
  | cons tx txs ih =>
    obtain ⟨pool, hs⟩ := acceptToMemoryPool_eq s tx
    rw [Step.forEach_cons, Step.bind_of_ok hs] at h
    rw [ih h]

/-- **A reorganisation that succeeds is a move** from the tip to the new
one, by way of a common ancestor. -/
theorem of_reorganize_eq_ok (h : reorganize pindexNew s = (.ok (), s')) :
    ∃ best pfork vDisconnect vConnect, s.pindexBest = some best ∧
      walkTo s pfork (s.walkFuel best) best = .ok vDisconnect ∧
      walkTo s pfork (s.walkFuel pindexNew) pindexNew = .ok vConnect ∧
      Moved pindexNew vDisconnect vConnect.reverse s s' := by
  rw [reorganize, Step.get_bind] at h
  rcases hbest : s.pindexBest with _ | best <;> simp only [hbest] at h
  · exact absurd h (by simp)
  obtain ⟨pfork, -, h⟩ := Step.lift_bind_eq_ok.1 h
  obtain ⟨vDisconnect, hdis, h⟩ := Step.lift_bind_eq_ok.1 h
  obtain ⟨vConnect, hcon, h⟩ := Step.lift_bind_eq_ok.1 h
  refine ⟨best, pfork, vDisconnect, vConnect, rfl, hdis, hcon, ?_⟩
  rw [switchBranch] at h
  obtain ⟨disconnected, s₁, h₁, h⟩ := Step.bind_eq_ok.1 h
  obtain ⟨connected, s₂, h₂, h⟩ := Step.bind_eq_ok.1 h
  rw [onTxDb_modify_bind] at h
  obtain ⟨_, s₃, h₃, h⟩ := Step.bind_eq_ok.1 h
  rw [Step.modify_bind] at h
  obtain ⟨_, s₄, h₄, h⟩ := Step.bind_eq_ok.1 h
  obtain ⟨-, rfl⟩ := Prod.mk.inj h
  have htent : Tentative s { s₂ with txdb := s₂.txdb.writeHashBestChain pindexNew } := by
    have hdis := preserves_disconnectAll (l := vDisconnect) s
    have hcon := preserves_connectAll (l := vConnect.reverse) s₁
    rw [h₁] at hdis
    rw [h₂] at hcon
    exact IsTrans.trans _ _ _ (IsTrans.trans _ _ _ hdis hcon)
      (preserves_onTxDb (x := Step.modify (CTxDB.writeHashBestChain · pindexNew)) staysOpen_write s₂)
  refine ⟨_, s₃, htent, read_writeHashBestChain, (of_txnCommit_eq_ok h₃).2, ?_⟩
  rw [removeAll, forEach_acceptToMemoryPool h₄]

/-- **An extension that succeeds is a move** by one block. -/
theorem of_setBestChainInner_eq_ok (h : setBestChainInner block pindexNew s = (.ok (), s')) :
    (∃ prev, s.pprev pindexNew = some prev) ∧ Moved block.getHash [] [pindexNew] s s' := by
  rw [setBestChainInner] at h
  obtain ⟨_, s₁, h₁, h⟩ := Step.bind_eq_ok.1 h
  obtain ⟨_, s₂, h₂, h⟩ := Step.bind_eq_ok.1 h
  have hx := of_orInvalid_eq_ok h₁
  have htent := tentative_extend block pindexNew s
  rw [hx] at htent
  have hread : s₁.txdb.read .hashBestChain = some (.hash block.getHash) := by
    obtain ⟨_, s₀, -, hw⟩ := Step.bind_eq_ok.1 hx
    obtain ⟨-, rfl⟩ := Prod.mk.inj hw
    exact read_writeHashBestChain
  obtain ⟨-, hs₂⟩ := of_txnCommit_eq_ok h₂
  rw [Step.get_bind] at h
  rcases hp : s₂.pprev pindexNew with _ | prev <;> simp only [hp] at h
  · exact absurd h (by simp)
  rw [Step.modify_bind] at h
  obtain ⟨-, rfl⟩ := Prod.mk.inj h
  refine ⟨⟨prev, ?_⟩, s₁, s₂, htent, hread, hs₂, rfl⟩
  rw [← hp, hs₂, ← htent.sameTree.pprev]
  rfl

/-- Reading a block asks the disk and nothing more. -/
theorem readFromDisk_eq (pindex : Uint256) (msg : String) (s : NodeState) :
    (readFromDisk pindex msg s).2 = s.ask.2 := by
  rw [readFromDisk, askOutside_bind, Step.get_bind, Step.lift_apply]

/-- What is read back has the hash it was asked for. -/
theorem getHash_of_readFromDisk {msg : String}
    (h : readFromDisk pindex msg s = (.ok block, s')) : block.getHash = pindex := by
  rw [readFromDisk, askOutside_bind, Step.get_bind] at h
  obtain ⟨hok, -⟩ := Step.lift_eq_ok.1 h
  rw [onFalse_eq_ok] at hok
  simp only [except_bind_eq_ok, reject_eq_ok, exists_const, not_not] at hok
  obtain ⟨b, -, hhash, heq⟩ := hok
  obtain rfl := Except.ok.inj heq
  exact hhash

/-- A postponed block that connects is one more move. -/
theorem of_connectNext_eq_ok (h : connectNext pindex s = (.ok (), s')) :
    Moved pindex [] [pindex] { s.ask.2 with txdb := s.txdb.begin } s' := by
  rw [connectNext] at h
  obtain ⟨block, s₁, h₁, h⟩ := Step.bind_eq_ok.1 h
  obtain ⟨_, s₂, h₂, h⟩ := Step.bind_eq_ok.1 h
  obtain ⟨-, rfl⟩ := of_txnBegin_eq_ok h₂
  have hs₁ := readFromDisk_eq pindex "SetBestChain() : ReadFromDisk failed" s
  rw [h₁] at hs₁
  obtain rfl : s₁ = s.ask.2 := hs₁
  have hm := (of_setBestChainInner_eq_ok h).2
  rw [getHash_of_readFromDisk h₁] at hm
  exact hm

/-- One that does not leaves the chain where it was. -/
theorem unmoved_connectNext {f : Failure} (h : connectNext pindex s = (.error f, s'))
    (hf : f.isCrash = false) : Unmoved s s' := by
  have hask : Unmoved s s.ask.2 := ⟨fun _ => rfl, fun _ _ => rfl, rfl, Smooth.of_eq rfl⟩
  have hs₁ := readFromDisk_eq pindex "SetBestChain() : ReadFromDisk failed" s
  rw [connectNext] at h
  rcases Step.bind_eq_error.1 h with h | ⟨block, s₁, h₁, h⟩
  · rw [h] at hs₁
    obtain rfl : s' = s.ask.2 := hs₁
    exact hask
  rw [h₁] at hs₁
  obtain rfl : s₁ = s.ask.2 := hs₁
  rcases Step.bind_eq_error.1 h with h | ⟨_, s₂, h₂, h⟩
  · rw [isCrash_txnBegin h] at hf
    exact absurd hf (by simp)
  obtain ⟨-, rfl⟩ := of_txnBegin_eq_ok h₂
  have hbegin : Unmoved s.ask.2 { s.ask.2 with txdb := s.ask.2.txdb.begin } :=
    ⟨fun _ => rfl, fun _ _ => rfl, rfl, Smooth.of_eq rfl⟩
  exact IsTrans.trans _ _ _ (IsTrans.trans _ _ _ hask hbegin)
    (unmoved_setBestChainInner rfl h hf)

/-- **How `SetBestChain` succeeds**: on one of its three paths, after which
the globals are set. -/
theorem of_setBestChain_eq_ok (h : setBestChain block pindexNew s = (.ok (), s')) :
    s.txdb.activeBatch = none ∧
      ∃ s₂, s' = newBest block.getHash pindexNew s₂ ∧
        ((s.pindexGenesisBlock = none ∧ block.getHash = hashGenesisBlock ∧
            startChain block.getHash pindexNew { s with txdb := s.txdb.begin } = (.ok (), s₂)) ∨
          ¬ (s.pindexGenesisBlock = none ∧ block.getHash = hashGenesisBlock) ∧
            (block.hashPrevBlock = s.hashBestChain ∧
                setBestChainInner block pindexNew { s with txdb := s.txdb.begin } = (.ok (), s₂) ∨
              switchChain pindexNew { s with txdb := s.txdb.begin } = (.ok (), s₂))) := by
  rw [setBestChain] at h
  obtain ⟨_, s₁, h₁, h⟩ := Step.bind_eq_ok.1 h
  obtain ⟨hnone, rfl⟩ := of_txnBegin_eq_ok h₁
  refine ⟨hnone, ?_⟩
  rw [Step.get_bind] at h
  split_ifs at h with hgen hext
  · obtain ⟨_, s₂, h₂, h⟩ := Step.bind_eq_ok.1 h
    obtain ⟨-, rfl⟩ := Prod.mk.inj h
    exact ⟨s₂, rfl, .inl ⟨hgen.1, hgen.2, h₂⟩⟩
  · obtain ⟨_, s₂, h₂, h⟩ := Step.bind_eq_ok.1 h
    obtain ⟨-, rfl⟩ := Prod.mk.inj h
    exact ⟨s₂, rfl, .inr ⟨hgen, .inl ⟨hext, Step.mapError_eq_ok.1 h₂⟩⟩⟩
  · obtain ⟨_, s₂, h₂, h⟩ := Step.bind_eq_ok.1 h
    obtain ⟨-, rfl⟩ := Prod.mk.inj h
    exact ⟨s₂, rfl, .inr ⟨hgen, .inr h₂⟩⟩

omit [P : Platform] in
/-- The genesis block becomes the chain by being recorded. -/
theorem of_startChain_eq_ok {hash : Uint256} (h : startChain hash pindexNew s = (.ok (), s')) :
    s' = { s with
      txdb := (s.txdb.writeHashBestChain hash).commit
      outside := s.ask.2.outside
      pindexGenesisBlock := some pindexNew } := by
  rw [startChain, onTxDb_modify_bind] at h
  obtain ⟨_, s₁, h₁, h⟩ := Step.bind_eq_ok.1 h
  obtain ⟨-, rfl⟩ := of_txnCommit_eq_ok h₁
  obtain ⟨-, rfl⟩ := Prod.mk.inj h
  rfl

/-- **How a switch succeeds**: the branch is split, its first part is moved
to, and the postponed blocks are connected as far as they do. -/
theorem of_switchChain_eq_ok (h : switchChain pindexNew s = (.ok (), s')) :
    ∃ best r s₁, s.pindexBest = some best ∧
      splitBranch s (s.bnChainTrust best) (s.walkFuel pindexNew) pindexNew = .ok r ∧
      reorganize r.1 s = (.ok (), s₁) ∧ connectPostponed r.2.reverse s₁ = (.ok (), s') := by
  rw [switchChain, Step.get_bind] at h
  rcases hbest : s.pindexBest with _ | best <;> simp only [hbest] at h
  · exact absurd h (by simp)
  obtain ⟨r, hr, h⟩ := Step.lift_bind_eq_ok.1 h
  obtain ⟨_, s₁, h₁, h⟩ := Step.bind_eq_ok.1 h
  exact ⟨best, r, s₁, rfl, hr, of_orInvalid_eq_ok h₁, h⟩

end Paths

end CryptoBullion
