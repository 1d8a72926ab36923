import CryptoBullion.Chain.Agreement
import CryptoBullion.Model.Lookup
/-!
# Lookups by height

A walk along the main chain meets every height, one block after the other,
so it stops at the block asked for wherever on the chain it starts. What
has to be shown is that it does start there: that the block found last is
still in the main chain when the next lookup comes. It is as long as the
chain only moves with `SetBestChain` succeeding, which makes the node
forget that block. Where a postponed block fails, the links of the index
stop short of the new tip, and `Short` is a run in which a lookup then
walks off their end.
-/

namespace CryptoBullion

open NodeState

variable {s s' : NodeState} {best pindex h : Uint256} {l : List Uint256} {nHeight : ℤ}

/-! ## The walks -/

/-- Walking down a line of descent finds its block of that height. -/
theorem walkDown_of_mem (fuel : ℕ) (hv : Leveled s.pprev s.nHeight) (hl : Lineage s.pprev best l)
    (h₀ : 0 ≤ nHeight) (hmem : pindex ∈ l) (hle : nHeight ≤ s.nHeight pindex)
    (hfuel : s.nHeight pindex < nHeight + fuel) :
    ∃ h ∈ l, s.nHeight h = nHeight ∧ s.walkDown nHeight fuel (some pindex) = .ok h := by
  induction fuel generalizing pindex with
  | zero => omega
  | succ fuel ih =>
    unfold walkDown
    by_cases hlt : nHeight < s.nHeight pindex
    · rw [if_pos hlt]
      rcases hp : s.pprev pindex with _ | prev
      · have hroot := hv.root hp
        omega
      · have hsucc := hv.succ hp
        exact ih (hl.parent_mem hmem hp) (by omega) (by omega)
    · rw [if_neg hlt]
      exact ⟨pindex, hmem, by omega, rfl⟩

/-- A block already low enough is left as it is. -/
theorem walkDown_of_le {fuel : ℕ} (hle : s.nHeight pindex ≤ nHeight) :
    s.walkDown nHeight (fuel + 1) (some pindex) = .ok pindex := by
  unfold walkDown
  rw [if_neg (by omega)]

/-- **Walking up the thread** finds the block of that height, up to the
tip's. -/
theorem walkUp_of_mem (fuel : ℕ) (hv : Leveled s.pprev s.nHeight)
    (ht : Threaded s.pprev s.pnext best l) (hbest : nHeight ≤ s.nHeight best) (hmem : pindex ∈ l)
    (hle : s.nHeight pindex ≤ nHeight)
    (hfuel : nHeight < s.nHeight pindex + fuel) :
    ∃ h ∈ l, s.nHeight h = nHeight ∧ s.walkUp nHeight fuel (some pindex) = .ok h := by
  induction fuel generalizing pindex with
  | zero => omega
  | succ fuel ih =>
    unfold walkUp
    by_cases hlt : s.nHeight pindex < nHeight
    · rw [if_pos hlt]
      rcases ht.lineage.exists_child hmem with rfl | ⟨c, hc, hp⟩
      · omega
      · have hnext : s.pnext pindex = some c := (ht.next_iff pindex c).2 ⟨hc, hp⟩
        have hsucc := hv.succ hp
        rw [hnext]
        exact ih hc (by omega) (by omega)
    · rw [if_neg hlt]
      exact ⟨pindex, hmem, by omega, rfl⟩

theorem walkUp_of_eq {fuel : ℕ} (heq : s.nHeight pindex = nHeight) :
    s.walkUp nHeight (fuel + 1) (some pindex) = .ok pindex := by
  unfold walkUp
  rw [if_neg (by omega)]

/-- **A walk that starts in the main chain ends at the block of the height
asked for.** -/
theorem walk_of_mem (hv : Leveled s.pprev s.nHeight) (ht : Threaded s.pprev s.pnext best l)
    (h₀ : 0 ≤ nHeight) (hbest : nHeight ≤ s.nHeight best) (hmem : pindex ∈ l) :
    ∃ mid, ∃ h ∈ l, s.nHeight h = nHeight ∧
      s.walkDown nHeight (s.distanceTo nHeight pindex + 1) (some pindex) = .ok mid ∧
      s.walkUp nHeight (s.distanceTo nHeight pindex + 1) (some mid) = .ok h := by
  have hdist : s.distanceTo nHeight pindex = (nHeight - s.nHeight pindex).natAbs := rfl
  rcases le_total nHeight (s.nHeight pindex) with hle | hle
  · obtain ⟨h, hh, heq, hdown⟩ := walkDown_of_mem (s.distanceTo nHeight pindex + 1) hv
      ht.lineage h₀ hmem hle (by omega)
    exact ⟨h, h, hh, heq, hdown, walkUp_of_eq heq⟩
  · obtain ⟨h, hh, heq, hup⟩ := walkUp_of_mem (s.distanceTo nHeight pindex + 1) hv ht
      hbest hmem hle (by omega)
    exact ⟨pindex, h, hh, heq, walkDown_of_le hle, hup⟩

/-! ## Where it starts -/

/-- The walk starts at one of three blocks. -/
theorem exists_startFrom {genesis : Uint256} (nHeight : ℤ) (hg : s.pindexGenesisBlock = some genesis)
    (hb : s.pindexBest = some best) (hgl : genesis ∈ l) (hbl : best ∈ l)
    (hlast : ∀ h, s.pblockindexFBBHLast = some h → h ∈ l) :
    ∃ h ∈ l, s.startFrom nHeight = some h := by
  have hfirst : ∃ h ∈ l,
      (if nHeight < s.nBestHeight.tdiv 2 then s.pindexGenesisBlock else s.pindexBest) = some h := by
    split_ifs
    · exact ⟨genesis, hgl, hg⟩
    · exact ⟨best, hbl, hb⟩
  obtain ⟨h, hh, heq⟩ := hfirst
  unfold startFrom
  rw [heq]
  rcases hc : s.pblockindexFBBHLast with _ | last
  · exact ⟨h, hh, rfl⟩
  · dsimp only
    split_ifs
    · exact ⟨last, hlast last hc, rfl⟩
    · exact ⟨h, hh, rfl⟩

namespace NodeState

/-- An entry of the main chain, the tip and its ancestors, at a height. -/
structure IsMainAt (s : NodeState) (nHeight : ℤ) (pindex : Uint256) : Prop where
  mem : pindex ∈ s.mapBlockIndex
  main : ∃ best, s.pindexBest = some best ∧
    Relation.ReflTransGen (fun a b => s.pprev a = some b) best pindex
  nHeight : s.nHeight pindex = nHeight

/-- The block found last is in the main chain. -/
def RecallsMain (s : NodeState) : Prop :=
  ∀ h, s.pblockindexFBBHLast = some h → ∀ best, s.pindexBest = some best →
    Relation.ReflTransGen (fun a b => s.pprev a = some b) best h

/-- A lookup of this height returns the one entry of the main chain that
has it, and remembers it. -/
def FindsByHeight (s : NodeState) (nHeight : ℤ) : Prop :=
  ∃ pindex, findBlockByHeight nHeight s =
      (.ok pindex, { s with pblockindexFBBHLast := some pindex }) ∧
    ∀ h, s.IsMainAt nHeight h ↔ h = pindex

end NodeState

variable [P : Platform]

/-- **Lookups are exact** in a sound node whose last find is in the main
chain. -/
theorem NodeState.Sound.findsByHeight (hs : s.Sound) (hv : Leveled s.pprev s.nHeight)
    (hrec : s.RecallsMain) (h₀ : 0 ≤ nHeight) (hle : nHeight ≤ s.nBestHeight) :
    s.FindsByHeight nHeight := by
  obtain ⟨best, l, hb, hc⟩ := hs.chain
  have hlin := hc.thread.lineage
  obtain ⟨genesis, hgen, hgl, -⟩ := hlin.exists_getLast
  rw [genesis_of_lineage hs.forest hs.filed hlin hb.mem] at hgen
  rw [hb.nBestHeight] at hle
  obtain ⟨start, hstart, hfrom⟩ := exists_startFrom nHeight hgen hb.pindexBest hgl
    hlin.self_mem fun h hh => hlin.mem_iff_reflTransGen.2 (hrec h hh best hb.pindexBest)
  obtain ⟨mid, pindex, hmem, heq, hdown, hup⟩ := walk_of_mem hv hc.thread h₀ hle hstart
  refine ⟨pindex, ?_, fun h => ⟨fun hm => ?_, ?_⟩⟩
  · unfold findBlockByHeight
    rw [Step.get_bind, hfrom]
    dsimp only
    rw [hdown, Step.lift_ok_bind, hup]
    rfl
  · obtain ⟨best', hbest', hanc⟩ := hm.main
    obtain rfl : best' = best := Option.some.inj (hbest'.symm.trans hb.pindexBest)
    have hh : h ∈ l := hlin.mem_iff_reflTransGen.2 hanc
    exact hlin.eq_of_height_eq hs.forest.graded hh hmem (hm.nHeight.trans heq.symm)
  · rintro rfl
    exact ⟨hs.forest.mem_of_lineage hlin hb.mem h hmem,
      ⟨best, hb.pindexBest, hlin.mem_iff_reflTransGen.1 hmem⟩, heq⟩

/-! ## What a run keeps -/

omit [P : Platform] in
/-- Neither heights nor ancestors depend on anything but the entries. -/
theorem Leveled.of_sameTree (hv : Leveled s.pprev s.nHeight) (ht : SameTree s s') :
    Leveled s'.pprev s'.nHeight := by
  rw [ht.pprev, ht.nHeight]
  exact hv

/-- A new entry is one above its parent, or at the bottom. -/
theorem Leveled.index {block : CBlock} {nFile nBlockPos : ℕ} {i : CBlockIndex}
    (hv : Leveled s.pprev s.nHeight) (hf : s.Forest)
    (hi : makeEntry s block nFile nBlockPos = .ok i) :
    Leveled (insertEntry block.getHash i s).pprev (insertEntry block.getHash i s).nHeight := by
  obtain ⟨hnew, -, -, -, hprev, hheight, -⟩ := of_makeEntry_eq_ok hi
  constructor
  · intro h hp
    rw [pprev_insertEntry] at hp
    rw [nHeight_insertEntry]
    split_ifs at hp ⊢
    · rw [hheight, hp]
      rfl
    · exact hv.root hp
  · intro h p hp
    rw [pprev_insertEntry] at hp
    rw [nHeight_insertEntry, nHeight_insertEntry]
    split_ifs at hp with heq
    · -- the parent was there before
      have hpar : i.pprev = some block.hashPrevBlock ∧ block.hashPrevBlock ∈ s.mapBlockIndex := by
        rw [hprev] at hp
        split_ifs at hp with hc
        exact ⟨hprev.trans (if_pos hc), Std.ExtTreeMap.contains_iff_mem.1 hc⟩
      obtain rfl : block.hashPrevBlock = p := Option.some.inj (hpar.1.symm.trans hp)
      have hne : block.getHash ≠ block.hashPrevBlock := fun he => hnew (he ▸ hpar.2)
      rw [if_pos heq, if_neg hne, hheight, hpar.1]
      rfl
    · have hne : block.getHash ≠ p := fun he => hnew (he ▸ hf.parent_mem hp)
      rw [if_neg heq, if_neg hne]
      exact hv.succ hp

/-- **In every run heights count the blocks**, whatever becomes of the
chain. -/
theorem leveled_of_reachable (h : Reachable s) : Leveled s.pprev s.nHeight := by
  induction h with
  | @genesis s s' b hs hfiles happ hb hhash h =>
    obtain ⟨s₁, s₂, h₁, rfl, hbest⟩ := of_addToBlockIndex_eq_ok h
    have hv : Leveled s.pprev s.nHeight :=
      { root := fun {h} _ => by
          rw [NodeState.nHeight, entry_of_not_mem hs.not_mem]
          rfl
        succ := fun hp => absurd (mem_of_pprev hp) hs.not_mem }
    have hv₁ : Leveled s₁.pprev s₁.nHeight := by
      rcases of_indexBlock b.block b.nFile b.nBlockPos hs.activeBatch with ⟨f, heq⟩ | ⟨i, hi, -, heq⟩
      · rw [h₁] at heq
        exact absurd heq (by simp)
      · rw [h₁] at heq
        change s₁ = _ at heq
        rw [heq]
        exact ⟨(hv.index hs.forest hi).root, (hv.index hs.forest hi).succ⟩
    rcases hbest with ⟨-, hbest⟩ | ⟨-, rfl⟩
    · have ht := sameTree_setBestChain b.block b.block.getHash s₁
      rw [hbest] at ht
      exact ⟨(hv₁.of_sameTree ht).root, (hv₁.of_sameTree ht).succ⟩
    · exact ⟨hv₁.root, hv₁.succ⟩
  | @step s s' hr hs ih =>
    cases hs with
    | write b hb => exact ⟨ih.root, ih.succ⟩
    | index b hb hp =>
      rcases of_indexBlock b.block b.nFile b.nBlockPos (closed_of_reachable hr) with
        ⟨f, heq⟩ | ⟨i, hi, -, heq⟩
      · unfold closeTxDb
        rw [heq]
        exact ⟨ih.root, ih.succ⟩
      · have hv := ih.index (forest_of_reachable hr) hi
        unfold closeTxDb
        rw [heq]
        exact ⟨hv.root, hv.succ⟩
    | best block pindex hst hrun =>
      have hv := ih.of_sameTree (sameTree_setBestChain block pindex s)
      exact ⟨hv.root, hv.succ⟩
    | other h =>
      rw [SameChain] at h
      rw [h]
      exact ⟨ih.root, ih.succ⟩

omit [P : Platform] in
/-- A lookup touches nothing but what it remembers. -/
theorem of_findBlockByHeight_eq_ok (h : findBlockByHeight nHeight s = (.ok pindex, s')) :
    s' = { s with pblockindexFBBHLast := some pindex } := by
  unfold findBlockByHeight at h
  rw [Step.get_bind] at h
  rcases hfrom : s.startFrom nHeight with _ | start <;> rw [hfrom] at h
  · exact absurd h (by simp)
  · obtain ⟨mid, s₁, hdown, h⟩ := Step.bind_eq_ok.1 h
    obtain ⟨up, s₂, hup, h⟩ := Step.bind_eq_ok.1 h
    obtain ⟨-, rfl⟩ := Prod.mk.inj hdown
    obtain ⟨-, rfl⟩ := Prod.mk.inj hup
    obtain ⟨hpindex, rfl⟩ := Prod.mk.inj h
    rw [Except.ok.inj hpindex]

/-- Lookups aside, such a node is any node. -/
theorem LookupStep.nodeStep (h : LookupStep s s') : NodeStep s s' := by
  cases h with
  | write b h => exact .write b h
  | index b hb hp => exact .index b hb hp
  | best block pindex h hrun => exact .best block pindex h hrun
  | find nHeight pindex h₀ hle h =>
    rw [of_findBlockByHeight_eq_ok h]
    exact .other rfl
  | other h hlast => exact .other h

theorem LookupReachable.reachable (h : LookupReachable s) : Reachable s := by
  induction h with
  | genesis b hs hfiles happ hb hhash hlast h => exact .genesis b hs hfiles happ hb hhash h
  | step _ hs ih => exact .step ih hs.nodeStep

/-- Every step only adds to the history. -/
theorem LookupStep.trace_suffix (hr : Reachable s) (h : LookupStep s s') : s.trace <:+ s'.trace := by
  cases h with
  | write b h => exact List.suffix_rfl
  | index b hb hp =>
    rcases of_indexBlock b.block b.nFile b.nBlockPos (closed_of_reachable hr) with
      ⟨f, heq⟩ | ⟨i, -, -, heq⟩
    · unfold closeTxDb
      rw [heq]
    · unfold closeTxDb
      rw [heq]
      exact List.suffix_rfl
  | best block pindex h hrun => exact (sameTree_setBestChain block pindex s).trace
  | find nHeight pindex h₀ hle h => rw [of_findBlockByHeight_eq_ok h]
  | other h hlast =>
    rw [SameChain] at h
    rw [h]

/-- A block found last stays in the main chain when a block is indexed:
ancestors are not affected. -/
theorem NodeState.RecallsMain.index {block : CBlock} {nFile nBlockPos : ℕ} {i : CBlockIndex}
    (hm : s.RecallsMain) (hi : makeEntry s block nFile nBlockPos = .ok i) :
    (insertEntry block.getHash i s).RecallsMain := by
  obtain ⟨hnew, -⟩ := of_makeEntry_eq_ok hi
  intro h hlast best hbest
  refine Relation.ReflTransGen.mono (fun a p hp => ?_) _ _ (hm h hlast best hbest)
  have hne : block.getHash ≠ a := fun he => hnew (he ▸ mem_of_pprev hp)
  rw [pprev_insertEntry, if_neg hne]
  exact hp

omit [P : Platform] in
/-- Neither does it leave with a call of `SetBestChain` that failed. -/
theorem NodeState.RecallsMain.of_unmoved (hm : s.RecallsMain) (hu : Unmoved s s') :
    s'.RecallsMain := by
  intro h hlast best hbest
  rw [hu.rest] at hlast
  rw [hu.pindexBest] at hbest
  rw [hu.sameTree.pprev]
  exact hm h hlast best hbest

/-- **A new best block makes the node forget what it found.** -/
theorem pblockindexFBBHLast_of_setBestChain {block : CBlock}
    (h : setBestChain block pindex s = (.ok (), s')) : s'.pblockindexFBBHLast = none := by
  obtain ⟨-, s₂, rfl, -⟩ := of_setBestChain_eq_ok h
  rfl

/-- **In a run whose postponed blocks all connect, what a node found last is
in its main chain.** -/
theorem recallsMain_of_reachable (h : LookupReachable s) (hn : ∀ h, .postponedFailed h ∉ s.trace) :
    s.RecallsMain := by
  induction h with
  | @genesis s s' b hs hfiles happ hb hhash hlast h =>
    obtain ⟨s₁, s₂, h₁, rfl, hbest⟩ := of_addToBlockIndex_eq_ok h
    suffices hnone : s₂.pblockindexFBBHLast = none by
      intro h hh
      rw [hnone] at hh
      exact absurd hh (by simp)
    rcases hbest with ⟨-, hbest⟩ | ⟨-, rfl⟩
    · exact pblockindexFBBHLast_of_setBestChain hbest
    · rcases of_indexBlock b.block b.nFile b.nBlockPos hs.activeBatch with ⟨f, heq⟩ | ⟨i, hi, -, heq⟩
      · rw [h₁] at heq
        exact absurd heq (by simp)
      · rw [h₁] at heq
        change s₂ = _ at heq
        rw [heq]
        exact hlast
  | @step s s' hr hs ih =>
    have hreach := hr.reachable
    have hm : s.RecallsMain := ih fun h hh => hn h ((hs.trace_suffix hreach).subset hh)
    cases hs with
    | write b hb => exact hm
    | index b hb hp =>
      rcases of_indexBlock b.block b.nFile b.nBlockPos (closed_of_reachable hreach) with
        ⟨f, heq⟩ | ⟨i, hi, -, heq⟩
      · unfold closeTxDb
        rw [heq]
        exact hm
      · unfold closeTxDb
        rw [heq]
        exact hm.index hi
    | best block pindex hst hrun =>
      rcases hx : setBestChain block pindex s with ⟨f | u, s₁⟩
      · have hkeep : s₁.RecallsMain := by
          rcases unmoved_setBestChain hx (hrun f (by rw [hx])) with hu | ⟨-, h, hlog⟩
          · exact hm.of_unmoved hu
          · refine absurd ?_ (hn h)
            unfold closeTxDb
            rw [hx]
            exact hlog
        unfold closeTxDb
        rw [hx]
        exact hkeep
      · have hnone := pblockindexFBBHLast_of_setBestChain hx
        unfold closeTxDb
        rw [hx]
        intro h hh
        exact absurd (hnone.symm.trans hh) (by simp)
    | find nHeight pindex h₀ hle h =>
      have hs' := of_findBlockByHeight_eq_ok h
      have hnoted : ∀ h, .postponedFailed h ∉ s.trace := by
        rw [hs'] at hn
        exact hn
      obtain ⟨found, hfound, hmain⟩ := (sound_of_reachable hreach hnoted).findsByHeight
        (leveled_of_reachable hreach) hm h₀ hle
      obtain rfl : pindex = found := Except.ok.inj (congrArg Prod.fst (h.symm.trans hfound))
      obtain ⟨best, hbest, hanc⟩ := ((hmain pindex).2 rfl).main
      rw [hs']
      intro h hh best' hbest'
      obtain rfl : pindex = h := Option.some.inj hh
      obtain rfl : best = best' := Option.some.inj (hbest.symm.trans hbest')
      exact hanc
    | other h hlast =>
      rw [SameChain] at h
      intro p hp best hbest
      rw [hlast] at hp
      rw [h] at hbest ⊢
      exact hm p hp best hbest

namespace Short

open Apart

def c : CBlock where
  nVersion := 1
  hashPrevBlock := 2
  hashMerkleRoot := 1372352070
  nTime := 1372352070
  nBits := 0x1e0fffff
  nNonce := 3
  vtx := [coinBase 1372352070]
  vchBlockSig := [0]

def d : CBlock where
  nVersion := 1
  hashPrevBlock := 3
  hashMerkleRoot := 1372352080
  nTime := 1372352080
  nBits := 0x1e0fffff
  nNonce := 4
  vtx := [coinBase 1372352080]
  vchBlockSig := [0]

def storedC : StoredBlock := ⟨1, 3000, c⟩
def storedD : StoredBlock := ⟨1, 4000, d⟩

/-- `b` is made the best block. -/
def s₄ : NodeState := (closeTxDb (setBestChain (P := Platform.toy) b 2) s₃).2

/-- `c` is stored, indexed and made the best block. -/
def s₅ : NodeState :=
  (closeTxDb (indexBlock (P := Platform.toy) c 1 3000)
    { s₄ with blockFiles := s₄.blockFiles ++ [storedC] }).2

def s₆ : NodeState := (closeTxDb (setBestChain (P := Platform.toy) c 3) s₅).2

/-- And so is `d`. -/
def s₇ : NodeState :=
  (closeTxDb (indexBlock (P := Platform.toy) d 1 4000)
    { s₆ with blockFiles := s₆.blockFiles ++ [storedD] }).2

def s₈ : NodeState := (closeTxDb (setBestChain (P := Platform.toy) d 4) s₇).2

/-- The block at height one has been found. -/
def s₉ : NodeState := { s₈ with pblockindexFBBHLast := some 1 }

omit [P : Platform] in
/-- All there is to evaluate: where the blocks are written, -/
theorem evaluated :
    ((∀ d ∈ s₀.blockFiles, d.endPos + 8 ≤ storedA.nBlockPos) ∧
      (∀ d ∈ s₂.blockFiles, d.endPos + 8 ≤ storedB.nBlockPos) ∧
      (∀ d ∈ s₄.blockFiles, d.endPos + 8 ≤ storedC.nBlockPos) ∧
      ∀ d ∈ s₆.blockFiles, d.endPos + 8 ≤ storedD.nBlockPos) ∧
    -- that the last two can be indexed
    (storedC.block.hashPrevBlock ∈ s₄.mapBlockIndex ∧ storedD.block.hashPrevBlock ∈ s₆.mapBlockIndex) ∧
    -- and become the best blocks
    (((2 ∈ s₃.mapBlockIndex ∧
        (⟨(s₃.entry 2).nFile, (s₃.entry 2).nBlockPos, b⟩ : StoredBlock) ∈ s₃.blockFiles) ∧
      (setBestChain (P := Platform.toy) b 2 s₃).1 = .ok ()) ∧
    ((3 ∈ s₅.mapBlockIndex ∧
        (⟨(s₅.entry 3).nFile, (s₅.entry 3).nBlockPos, c⟩ : StoredBlock) ∈ s₅.blockFiles) ∧
      (setBestChain (P := Platform.toy) c 3 s₅).1 = .ok ()) ∧
    (4 ∈ s₇.mapBlockIndex ∧
        (⟨(s₇.entry 4).nFile, (s₇.entry 4).nBlockPos, d⟩ : StoredBlock) ∈ s₇.blockFiles) ∧
      (setBestChain (P := Platform.toy) d 4 s₇).1 = .ok ()) ∧
    -- and what the lookups then do
    (findBlockByHeight 1 s₈).1 = .ok 1 ∧ 1 ≤ s₈.nBestHeight ∧ 2 ≤ s₉.nBestHeight ∧
    (findBlockByHeight 2 s₉).1 = .error (.crash "pblockindex") := by
  decide +kernel

omit [P : Platform] in
theorem lookupReachable₀ : LookupReachable (P := Platform.toy) s₀ :=
  .genesis (P := Platform.toy) (s := start) stored₀ ⟨rfl, rfl, rfl, rfl, rfl, rfl, rfl⟩ rfl
    ⟨by decide, by decide, by decide, by simp⟩ rfl (by decide) rfl
    (Prod.ext (by decide) rfl)

omit [P : Platform] in
/-- Up to the arrival of `b`. -/
theorem lookupReachable₃ : LookupReachable (P := Platform.toy) s₃ := by
  have hw : LookupReachable (P := Platform.toy)
      { s₀ with blockFiles := s₀.blockFiles ++ [storedA] } :=
    .step (P := Platform.toy) lookupReachable₀ (.write (P := Platform.toy) storedA
      (appendable_of_le (by decide) (by decide) (by decide) evaluated.1.1))
  have h₁ : LookupReachable (P := Platform.toy) s₁ :=
    .step (P := Platform.toy) hw (.other (P := Platform.toy) sameChain_outside rfl)
  have hi : LookupReachable (P := Platform.toy)
      (closeTxDb (indexBlock (P := Platform.toy) a 1 1000) s₁).2 :=
    .step (P := Platform.toy) h₁ (.index (P := Platform.toy) storedA (by decide)
      (by decide))
  have h₂ : LookupReachable (P := Platform.toy) s₂ :=
    .step (P := Platform.toy) hi (.other (P := Platform.toy) sameChain_outside rfl)
  have hw₂ : LookupReachable (P := Platform.toy)
      { s₂ with blockFiles := s₂.blockFiles ++ [storedB] } :=
    .step (P := Platform.toy) h₂ (.write (P := Platform.toy) storedB
      (appendable_of_le (by decide) (by decide) (by decide) evaluated.1.2.1))
  exact .step (P := Platform.toy) hw₂ (.index (P := Platform.toy) storedB (by decide)
    (by decide))

omit [P : Platform] in
/-- A call of `SetBestChain` that returned `true` is a step. -/
theorem lookupStep_best {s : NodeState} {block : CBlock} {pindex : Uint256}
    (hst : s.Stores pindex block)
    (hok : (setBestChain (P := Platform.toy) block pindex s).1 = .ok ()) :
    LookupStep (P := Platform.toy) s
      (closeTxDb (setBestChain (P := Platform.toy) block pindex) s).2 := by
  refine .best (P := Platform.toy) block pindex hst fun f hf => ?_
  rw [hok] at hf
  exact absurd hf (by simp)

omit [P : Platform] in
/-- And so is the arrival of a block on top of a known one. -/
theorem lookupStep_index {s : NodeState} {b : StoredBlock}
    (hp : b.block.hashPrevBlock ∈ s.mapBlockIndex) :
    LookupStep (P := Platform.toy) { s with blockFiles := s.blockFiles ++ [b] }
      (closeTxDb (indexBlock (P := Platform.toy) b.block b.nFile b.nBlockPos)
        { s with blockFiles := s.blockFiles ++ [b] }).2 :=
  .index (P := Platform.toy) b (List.mem_append_right _ (List.mem_singleton_self b)) hp

omit [P : Platform] in
/-- Up to `d`. -/
theorem lookupReachable₈ : LookupReachable (P := Platform.toy) s₈ := by
  obtain ⟨⟨-, -, hc, hd⟩, ⟨hc₂, hd₂⟩, ⟨hb, hc₃, hd₃⟩, -⟩ := evaluated
  have h₄ : LookupReachable (P := Platform.toy) s₄ :=
    .step (P := Platform.toy) lookupReachable₃
      (lookupStep_best hb.1 hb.2)
  have hw : LookupReachable (P := Platform.toy)
      { s₄ with blockFiles := s₄.blockFiles ++ [storedC] } :=
    .step (P := Platform.toy) h₄ (.write (P := Platform.toy) storedC
      (appendable_of_le (by decide) (by decide) (by decide) hc))
  have h₅ : LookupReachable (P := Platform.toy) s₅ :=
    .step (P := Platform.toy) hw (lookupStep_index (b := storedC) hc₂)
  have h₆ : LookupReachable (P := Platform.toy) s₆ :=
    .step (P := Platform.toy) h₅
      (lookupStep_best hc₃.1 hc₃.2)
  have hw₂ : LookupReachable (P := Platform.toy)
      { s₆ with blockFiles := s₆.blockFiles ++ [storedD] } :=
    .step (P := Platform.toy) h₆ (.write (P := Platform.toy) storedD
      (appendable_of_le (by decide) (by decide) (by decide) hd))
  have h₇ : LookupReachable (P := Platform.toy) s₇ :=
    .step (P := Platform.toy) hw₂ (lookupStep_index (b := storedD) hd₂)
  exact .step (P := Platform.toy) h₇
    (lookupStep_best hd₃.1 hd₃.2)

omit [P : Platform] in
theorem lookupReachable₉ : LookupReachable (P := Platform.toy) s₉ := by
  obtain ⟨-, -, -, hok, hle, -⟩ := evaluated
  have hfind := Step.eq_of_fst_eq hok
  refine .step (P := Platform.toy) lookupReachable₈ (.find (P := Platform.toy) 1 1 (by decide)
    hle (hfind.trans ?_))
  rw [of_findBlockByHeight_eq_ok hfind]
  rfl

end Short

end CryptoBullion
