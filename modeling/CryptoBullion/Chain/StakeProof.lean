import CryptoBullion.Chain.Agreement
import CryptoBullion.Model.Answers
/-!
# Proof of stake and the active chain

`CheckProofOfStake` finds the staked output through the transaction index
and the kernel's modifier along `pnext`. Both know the active chain only,
so two nodes with the same blocks and different tips can disagree about a
coinstake. They agree where the part of the coinstake's own chain that
matters is active on both: from the block of the coin up to the block
whose modifier is due.
-/

namespace CryptoBullion

variable [P : Platform]

/-! ## A block's own chain -/

/-- The same tree, with the same modifiers, and the same blocks on disk.
What a tip decides, the successors and the supply, may differ. -/
structure SameBlocks (s s' : NodeState) : Prop where
  entry : ∀ h : Uint256, (s'.mapBlockIndex[h]?).map CBlockIndex.settled =
    (s.mapBlockIndex[h]?).map CBlockIndex.settled
  blockFiles : s'.blockFiles = s.blockFiles

/-- The time the loop of `GetKernelStakeModifier` runs to. -/
def modifierDue (s : NodeState) (hashBlockFrom : Uint256) : ℤ :=
  (s.entry hashBlockFrom).getBlockTime +
    getStakeModifierSelectionInterval (s.entry hashBlockFrom).nTime

/-- The loop of `GetKernelStakeModifier`, along given blocks: the first
block from `pindex` on by which a modifier was generated late enough. -/
def modifierAlong (s : NodeState) (nUntil : ℤ) :
    (nStakeModifierTime : ℤ) → Uint256 → List Uint256 → Option Uint256
  | t, pindex, [] => if t < nUntil then none else some pindex
  | t, pindex, next :: rest =>
    if t < nUntil then
      modifierAlong s nUntil
        (if (s.entry next).fGeneratedStakeModifier then (s.entry next).getBlockTime else t) next rest
    else some pindex

/-- The output a coinstake stakes. -/
def CTransaction.stakePrevout (tx : CTransaction) : COutPoint :=
  ((tx.vin.head?).map (·.prevout)).getD COutPoint.null

/-- The index of `s` has the staked transaction in the block `hashFrom`,
and the links of `s` lead from there along `path`. -/
structure StakesAlong (s : NodeState) (ans : Answer) (tx : CTransaction) (hashFrom : Uint256)
    (path : List Uint256) : Prop where
  placed : ∃ txindex block, s.txdb.readTxIndex tx.stakePrevout.hash = some txindex ∧
    readBlock s.blockFiles ans txindex.pos.nFile txindex.pos.nBlockPos false = .ok block ∧
    block.getHash = hashFrom
  linked : (hashFrom :: path).IsChain fun a b => s.pnext a = some b

variable {s s' : NodeState} {ans : Answer} {tx : CTransaction} {hashFrom prev m pindex : Uint256}
variable {path above below : List Uint256} {nUntil t : ℤ}

namespace SameBlocks

omit [P : Platform]

theorem settled_entry (h : SameBlocks s s') (i : Uint256) :
    (s'.entry i).settled = (s.entry i).settled := by
  rw [NodeState.entry, NodeState.entry, ← Option.getD_map CBlockIndex.settled,
    ← Option.getD_map CBlockIndex.settled, h.entry]

theorem contains (h : SameBlocks s s') (i : Uint256) :
    s'.mapBlockIndex.contains i = s.mapBlockIndex.contains i := by
  have := congrArg Option.isSome (h.entry i)
  simpa only [Option.isSome_map, Std.ExtTreeMap.contains_eq_isSome_getElem?] using this

theorem pprev (h : SameBlocks s s') : s'.pprev = s.pprev :=
  funext fun i => (congrArg CBlockIndex.pprev (h.settled_entry i) :)

theorem nHeight (h : SameBlocks s s') : s'.nHeight = s.nHeight :=
  funext fun i => (congrArg CBlockIndex.nHeight (h.settled_entry i) :)

theorem nTime (h : SameBlocks s s') (i : Uint256) : (s'.entry i).nTime = (s.entry i).nTime :=
  (congrArg CBlockIndex.nTime (h.settled_entry i) :)

theorem generated (h : SameBlocks s s') (i : Uint256) :
    (s'.entry i).fGeneratedStakeModifier = (s.entry i).fGeneratedStakeModifier :=
  (congrArg CBlockIndex.fGeneratedStakeModifier (h.settled_entry i) :)

theorem nStakeModifier (h : SameBlocks s s') (i : Uint256) :
    (s'.entry i).nStakeModifier = (s.entry i).nStakeModifier :=
  (congrArg CBlockIndex.nStakeModifier (h.settled_entry i) :)

theorem mem_iff (h : SameBlocks s s') (i : Uint256) :
    i ∈ s'.mapBlockIndex ↔ i ∈ s.mapBlockIndex := by
  rw [← Std.ExtTreeMap.contains_iff_mem, h.contains, Std.ExtTreeMap.contains_iff_mem]

theorem forest (h : SameBlocks s s') (hf : s.Forest) : s'.Forest where
  graded := by
    rw [h.pprev, h.nHeight]
    exact hf.graded
  parent_mem hp := by
    rw [h.pprev] at hp
    exact (h.mem_iff _).2 (hf.parent_mem hp)

theorem modifierDue (h : SameBlocks s s') (i : Uint256) :
    CryptoBullion.modifierDue s' i = CryptoBullion.modifierDue s i := by
  unfold CryptoBullion.modifierDue CBlockIndex.getBlockTime
  rw [h.nTime]

/-- Along given blocks, two such nodes find the same modifier. -/
theorem modifierAlong (h : SameBlocks s s') : ∀ {path : List Uint256} {t : ℤ} {pindex : Uint256},
    CryptoBullion.modifierAlong s' nUntil t pindex path =
      CryptoBullion.modifierAlong s nUntil t pindex path
  | [], _, _ => rfl
  | next :: rest, t, pindex => by
    unfold CryptoBullion.modifierAlong CBlockIndex.getBlockTime
    rw [h.generated, h.nTime, h.modifierAlong]

end SameBlocks

/-! ## The kernel's modifier -/

omit [P : Platform] in
/-- **Where the links lead along a path**, the loop takes the modifier that
is due on it. -/
theorem kernelModifierLoop_eq : ∀ {path : List Uint256} {fuel : ℕ} {t : ℤ} {pindex : Uint256},
    (pindex :: path).IsChain (fun a b => s.pnext a = some b) → path.length < fuel →
      modifierAlong s nUntil t pindex path = some m →
      kernelModifierLoop s nUntil fuel t pindex = some m
  | [], fuel + 1, t, pindex, _, _, hm => by
    unfold modifierAlong at hm
    unfold kernelModifierLoop
    split_ifs at hm with ht
    rw [if_neg ht]
    exact hm
  | next :: rest, fuel + 1, t, pindex, hlinks, hlt, hm => by
    obtain ⟨hnext, hrest⟩ := List.isChain_cons_cons.1 hlinks
    unfold modifierAlong at hm
    unfold kernelModifierLoop
    by_cases ht : t < nUntil
    · rw [if_pos ht] at hm
      rw [if_pos ht, hnext]
      exact kernelModifierLoop_eq hrest (Nat.lt_of_succ_lt_succ hlt) hm
    · rw [if_neg ht] at hm
      rw [if_neg ht]
      exact hm

omit [P : Platform] in
/-- What is due on a path lies on it. -/
theorem mem_of_modifierAlong : ∀ {path : List Uint256} {t : ℤ} {pindex : Uint256},
    modifierAlong s nUntil t pindex path = some m → m ∈ pindex :: path
  | [], t, pindex, h => by
    unfold modifierAlong at h
    split_ifs at h
    exact List.mem_singleton.2 (Option.some.inj h).symm
  | next :: rest, t, pindex, h => by
    unfold modifierAlong at h
    by_cases ht : t < nUntil
    · rw [if_pos ht] at h
      exact List.mem_cons_of_mem _ (mem_of_modifierAlong h)
    · rw [if_neg ht] at h
      exact List.mem_cons.2 (.inl (Option.some.inj h).symm)

omit [P : Platform] in
/-- A chain of a forest has no more blocks than the index. -/
theorem length_le_size (hf : s.Forest) (hl : Lineage s.pprev prev path)
    (hprev : prev ∈ s.mapBlockIndex) : path.length ≤ s.mapBlockIndex.size := by
  have hsub : ∀ h ∈ path, h ∈ s.mapBlockIndex.keys := fun h hh =>
    Std.ExtTreeMap.mem_keys.2 (hf.mem_of_lineage hl hprev h hh)
  have hle := (hl.nodup hf.graded).length_le_of_subset hsub
  rwa [Std.ExtTreeMap.length_keys] at hle

omit [P : Platform] in
/-- **A kernel is hashed with the modifier due on the coinstake's own
chain**, where the links run along it that far. -/
theorem getKernelStakeModifier_eq (hf : s.Forest) (hprev : prev ∈ s.mapBlockIndex)
    (hown : Lineage s.pprev prev (above ++ (path.reverse ++ hashFrom :: below)))
    (hm : modifierAlong s (modifierDue s hashFrom) (s.entry hashFrom).getBlockTime hashFrom path =
      some m)
    (hlinked : (hashFrom :: path).IsChain fun a b => s.pnext a = some b) :
    getKernelStakeModifier s hashFrom = .ok (s.entry m).nStakeModifier := by
  have hfrom : hashFrom ∈ s.mapBlockIndex := hf.mem_of_lineage hown hprev hashFrom (by simp)
  have hlen : path.length < s.mapBlockIndex.size + 1 := by
    have := length_le_size hf hown hprev
    simp only [List.length_append, List.length_reverse, List.length_cons] at this
    omega
  have hblock : kernelModifierBlock s hashFrom = some m := kernelModifierLoop_eq hlinked hlen hm
  unfold getKernelStakeModifier
  rw [reject, if_neg (by simpa using Std.ExtTreeMap.contains_iff_mem.2 hfrom), hblock]
  rfl

/-! ## The check -/

/-- A kernel's hash depends on the node through the modifier alone. -/
theorem checkStakeKernelHash_congr {block : CBlock} (nBits nTxPrevOffset : ℕ)
    (txPrev : CTransaction) (prevout : COutPoint) (nTimeTx : ℕ)
    (h : getKernelStakeModifier s' block.getHash = getKernelStakeModifier s block.getHash) :
    checkStakeKernelHash s' nBits block nTxPrevOffset txPrev prevout nTimeTx =
      checkStakeKernelHash s nBits block nTxPrevOffset txPrev prevout nTimeTx := by
  unfold checkStakeKernelHash
  rw [h]

omit [P : Platform] in
/-- What `CheckProofOfStake` asks the index for. -/
theorem readPrevTx_eq (ans : Answer) {txindex : CTxIndex} {prevout : COutPoint}
    (h : s.txdb.readTxIndex prevout.hash = some txindex) :
    readPrevTx s.txdb s.blockFiles ans prevout =
      (match readTx s.blockFiles ans txindex.pos with
        | .error _ => none
        | .ok txPrev => if txPrev.vout.length ≤ prevout.n then none else some (txindex, txPrev)) := by
  rcases hr : readTx s.blockFiles ans txindex.pos with f | txPrev <;> simp only [readPrevTx, h, hr]

/-- **Proof of stake is decided by the coinstake's own chain** where that
is active from the coin to the modifier: two nodes with the same blocks,
on both of which the index has the coin at the same place in a block of
that chain and the links run along it to the block whose modifier is due,
come to the same verdict and the same proof hash, by that modifier. -/
theorem checkProofOfStake_own {nBits : ℕ} (hr : Reachable s) (hsame : SameBlocks s s')
    (hprev : prev ∈ s.mapBlockIndex)
    (hown : Lineage s.pprev prev (above ++ (path.reverse ++ hashFrom :: below)))
    (hm : modifierAlong s (modifierDue s hashFrom) (s.entry hashFrom).getBlockTime hashFrom path =
      some m)
    (hs : StakesAlong s ans tx hashFrom path) (hs' : StakesAlong s' ans tx hashFrom path)
    (hpos : (s'.txdb.readTxIndex tx.stakePrevout.hash).map (·.pos) =
      (s.txdb.readTxIndex tx.stakePrevout.hash).map (·.pos)) :
    checkProofOfStake s' ans tx nBits = checkProofOfStake s ans tx nBits ∧
      getKernelStakeModifier s hashFrom = .ok (s.entry m).nStakeModifier ∧
      getKernelStakeModifier s' hashFrom = .ok (s.entry m).nStakeModifier ∧
      Relation.ReflTransGen (fun a b => s.pprev a = some b) prev m ∧
      Relation.ReflTransGen (fun a b => s.pprev a = some b) prev hashFrom := by
  have hf := forest_of_reachable hr
  have hmod := getKernelStakeModifier_eq hf hprev hown hm hs.linked
  have hown' : Lineage s'.pprev prev (above ++ (path.reverse ++ hashFrom :: below)) := by
    rw [hsame.pprev]
    exact hown
  have hm' : modifierAlong s' (modifierDue s' hashFrom) (s'.entry hashFrom).getBlockTime hashFrom
      path = some m := by
    rw [hsame.modifierAlong, hsame.modifierDue, CBlockIndex.getBlockTime, hsame.nTime]
    exact hm
  have hmod' := getKernelStakeModifier_eq (hsame.forest hf) ((hsame.mem_iff _).2 hprev) hown' hm'
    hs'.linked
  rw [hsame.nStakeModifier] at hmod'
  refine ⟨?_, hmod, hmod', ?_, ?_⟩
  · obtain ⟨txindex, block, hi, hblock, hhash⟩ := hs.placed
    obtain ⟨txindex', block', hi', hblock', hhash'⟩ := hs'.placed
    rw [hi, hi', Option.map_some, Option.map_some, Option.some.injEq] at hpos
    -- the two reads differ in what they know of the coin's spends only
    have hread := readPrevTx_eq ans hi
    have hread' := readPrevTx_eq ans hi'
    rw [hpos, hsame.blockFiles] at hread' hblock'
    obtain rfl := Except.ok.inj (hblock.symm.trans hblock')
    have hsamemod : getKernelStakeModifier s' block.getHash =
        getKernelStakeModifier s block.getHash := by
      rw [hhash, hmod, hmod']
    have hkernel := fun (nOffset : ℕ) (txPrev : CTransaction) =>
      checkStakeKernelHash_congr nBits nOffset txPrev tx.stakePrevout tx.nTime hsamemod
    unfold checkProofOfStake
    rw [← CTransaction.stakePrevout]
    dsimp only
    rw [hsame.blockFiles, hread, hread']
    congr 1
    funext _
    rcases readTx s.blockFiles ans txindex.pos with f | txPrev
    · rfl
    dsimp only
    by_cases hout : txPrev.vout.length ≤ tx.stakePrevout.n
    · rw [if_pos hout, if_pos hout]
    · rw [if_neg hout, if_neg hout]
      dsimp only
      rw [hpos, hblock]
      simp only [show ∀ g, onFalse (.ok block : Except Failure CBlock) g = .ok block from
        fun _ => rfl, except_ok_bind, hkernel]
  · refine (hown.mem_iff_reflTransGen).1 (List.mem_append_right _ ?_)
    rcases List.mem_cons.1 (mem_of_modifierAlong hm) with rfl | hmem
    · simp
    · exact List.mem_append_left _ (List.mem_reverse.2 hmem)
  · exact (hown.mem_iff_reflTransGen).1 (by simp)

/-! ## Two tips over one tree

Two branches grow from the genesis block, each an hour long, and a third
block on top of the first. A coinstake spends the first coinbase of the
first branch. -/

namespace Forked

/-- Everything works, in 2016. -/
def late (_ : ℕ) : Answer := ⟨1451580000, true, fun _ _ => true⟩

/-- A block that pays its coinbase to nobody in particular. -/
def block (hashPrevBlock : Uint256) (nTime nNonce : ℕ) : CBlock where
  nVersion := 1
  hashPrevBlock := hashPrevBlock
  hashMerkleRoot := BitVec.ofNat 256 nTime
  nTime := nTime
  nBits := 0x1e0fffff
  nNonce := nNonce
  vtx := [Apart.coinBase nTime]
  vchBlockSig := [0]

def a₁ : CBlock := block (hashGenesisBlock (P := Platform.toy)) 1451570400 1
def a₂ : CBlock := block 1 1451574400 2
def b₁ : CBlock := block (hashGenesisBlock (P := Platform.toy)) 1451570401 3
def b₂ : CBlock := block 3 1451574401 4
def a₃ : CBlock := block 2 1451574450 5

/-- Spends what `a₁` pays. -/
def coinStake : CTransaction where
  nVersion := 1
  nTime := 1451574500
  vin := [{ prevout := ⟨1451570400, 0⟩, scriptSig := [], nSequence := uintMax }]
  vout := [CTxOut.empty, { nValue := 9 * coin, scriptPubKey := [] }]
  nLockTime := 0

def start : NodeState := { NodeState.blank late with blockFiles := [Apart.stored₀] }

/-- The genesis block is indexed. -/
def s₀ : NodeState := (addToBlockIndex (P := Platform.toy) Apart.stored₀.block 1 8 start).2

/-- A block is stored. -/
def store (b : CBlock) (nBlockPos : ℕ) (s : NodeState) : NodeState :=
  { s with blockFiles := s.blockFiles ++ [⟨1, nBlockPos, b⟩] }

/-- It is indexed. -/
def index (b : CBlock) (nBlockPos : ℕ) (s : NodeState) : NodeState :=
  (closeTxDb (indexBlock (P := Platform.toy) b 1 nBlockPos) s).2

/-- The chain moves to it. -/
def best (b : CBlock) (hash : Uint256) (s : NodeState) : NodeState :=
  (closeTxDb (setBestChain (P := Platform.toy) b hash) s).2

def stored : NodeState :=
  store a₃ 5000 (store b₂ 4000 (store b₁ 3000 (store a₂ 2000 (store a₁ 1000 s₀))))

/-- The first branch came first. -/
def onA : NodeState :=
  index a₃ 5000 (index b₂ 4000 (index b₁ 3000 (best a₂ 2 (index a₂ 2000
    (best a₁ 1 (index a₁ 1000 stored))))))

/-- And went on. -/
def onA₃ : NodeState := best a₃ 5 onA

/-- The second branch came first. -/
def onB : NodeState :=
  index a₃ 5000 (index a₂ 2000 (index a₁ 1000 (best b₂ 4 (index b₂ 4000
    (best b₁ 3 (index b₁ 3000 stored))))))

section Reachable

omit [P : Platform]

variable (b : CBlock) (nBlockPos : ℕ) (hash : Uint256)

theorem reachable_store (h : Reachable (P := Platform.toy) s) (h₁ : 8 ≤ nBlockPos)
    (h₂ : ∀ d ∈ s.blockFiles, d.endPos + 8 ≤ nBlockPos) :
    Reachable (P := Platform.toy) (store b nBlockPos s) :=
  .step (P := Platform.toy) h (.write (P := Platform.toy) ⟨1, nBlockPos, b⟩
    (Apart.appendable_of_le le_rfl (show 1 < uintMax by decide) h₁ h₂))

theorem reachable_index (h : Reachable (P := Platform.toy) s)
    (hb : ⟨1, nBlockPos, b⟩ ∈ s.blockFiles) (hp : b.hashPrevBlock ∈ s.mapBlockIndex) :
    Reachable (P := Platform.toy) (index b nBlockPos s) :=
  .step (P := Platform.toy) h (.index (P := Platform.toy) ⟨1, nBlockPos, b⟩ hb hp)

theorem reachable_best (h : Reachable (P := Platform.toy) s) (hst : s.Stores hash b)
    (hok : (setBestChain (P := Platform.toy) b hash s).1 = .ok ()) :
    Reachable (P := Platform.toy) (best b hash s) :=
  .step (P := Platform.toy) h (.best (P := Platform.toy) b hash hst fun f hf => by
    rw [hok] at hf
    exact absurd hf (by simp))

/-- A step of the run. -/
inductive Move where
  | store (b : CBlock) (nBlockPos : ℕ)
  | index (b : CBlock) (nBlockPos : ℕ)
  | best (b : CBlock) (hash : Uint256)

namespace Move

def run : Move → NodeState → NodeState
  | store b nBlockPos, s => Forked.store b nBlockPos s
  | index b nBlockPos, s => Forked.index b nBlockPos s
  | best b hash, s => Forked.best b hash s

/-- When it is a step. -/
def Legal : Move → NodeState → Prop
  | store _ nBlockPos, s => 8 ≤ nBlockPos ∧ ∀ d ∈ s.blockFiles, d.endPos + 8 ≤ nBlockPos
  | index b nBlockPos, s => ⟨1, nBlockPos, b⟩ ∈ s.blockFiles ∧ b.hashPrevBlock ∈ s.mapBlockIndex
  | best b hash, s => (hash ∈ s.mapBlockIndex ∧
      (⟨(s.entry hash).nFile, (s.entry hash).nBlockPos, b⟩ : StoredBlock) ∈ s.blockFiles) ∧
      (setBestChain (P := Platform.toy) b hash s).1 = .ok ()

instance (m : Move) (s : NodeState) : Decidable (m.Legal s) :=
  match m with
  | store _ _ => inferInstanceAs (Decidable (_ ∧ _))
  | index _ _ => inferInstanceAs (Decidable (_ ∧ _))
  | best _ _ => inferInstanceAs (Decidable (_ ∧ _))

def Legals : List Move → NodeState → Prop
  | [], _ => True
  | m :: ms, s => m.Legal s ∧ Legals ms (m.run s)

instance decidableLegals : (ms : List Move) → (s : NodeState) → Decidable (Legals ms s)
  | [], _ => .isTrue trivial
  | m :: ms, s =>
    have := decidableLegals ms (m.run s)
    inferInstanceAs (Decidable (_ ∧ _))

theorem reachable_run {m : Move} (h : Reachable (P := Platform.toy) s) (hm : m.Legal s) :
    Reachable (P := Platform.toy) (m.run s) := by
  cases m with
  | store b nBlockPos => exact reachable_store b nBlockPos h hm.1 hm.2
  | index b nBlockPos => exact reachable_index b nBlockPos h hm.1 hm.2
  | best b hash => exact reachable_best b hash h hm.1 hm.2

theorem reachable_foldl {ms : List Move} (h : Reachable (P := Platform.toy) s) (hms : Legals ms s) :
    Reachable (P := Platform.toy) (ms.foldl (fun s m => m.run s) s) := by
  induction ms generalizing s with
  | nil => exact h
  | cons m ms ih => exact ih (reachable_run h hms.1) hms.2

end Move

/-- The runs that lead to the three states. -/
def toStored : List Move :=
  [.store a₁ 1000, .store a₂ 2000, .store b₁ 3000, .store b₂ 4000, .store a₃ 5000]

def toA : List Move :=
  [.index a₁ 1000, .best a₁ 1, .index a₂ 2000, .best a₂ 2, .index b₁ 3000, .index b₂ 4000,
    .index a₃ 5000]

def toB : List Move :=
  [.index b₁ 3000, .best b₁ 3, .index b₂ 4000, .best b₂ 4, .index a₁ 1000, .index a₂ 2000,
    .index a₃ 5000]

/-- The blocks of a state, as `SameBlocks` compares them. -/
def blocks (s : NodeState) : List (Uint256 × CBlockIndex) × List StoredBlock :=
  (s.mapBlockIndex.toList.map fun p => (p.1, p.2.settled), s.blockFiles)

/-- What a state has for the check of the coinstake. -/
def HasCoin (s : NodeState) : Prop :=
  s.txdb.readTxIndex coinStake.stakePrevout.hash = some (CTxIndex.fresh ⟨1, 1000, 1081⟩ 1) ∧
    (readBlock (P := Platform.toy) s.blockFiles (late 0) 1 1000 false).toOption =
      some { a₁ with vtx := [], vchBlockSig := [] } ∧
    ({ a₁ with vtx := [], vchBlockSig := [] } : CBlock).getHash (P := Platform.toy) = 1 ∧
    [1, 2].IsChain fun a b => s.pnext a = some b

instance : DecidablePred HasCoin := fun _ => inferInstanceAs (Decidable (_ ∧ _))

/-- All there is to evaluate. -/
theorem evaluated :
    (Move.Legals toStored s₀ ∧ Move.Legals toA stored ∧ Move.Legals toB stored) ∧
    (blocks onA₃ = blocks onA ∧ blocks onB = blocks onA) ∧
    (2 ∈ onA.mapBlockIndex ∧ onA.pprev (hashGenesisBlock (P := Platform.toy)) = none ∧
      onA.pprev 2 = some 1 ∧ onA.pprev 1 = some (hashGenesisBlock (P := Platform.toy))) ∧
    modifierAlong onA (modifierDue onA 1) (onA.entry 1).getBlockTime 1 [2] = some 2 ∧
    (HasCoin onA ∧ HasCoin onA₃) ∧
    (checkProofOfStake (P := Platform.toy) onA (late 0) coinStake 0x1e0fffff).isOk = true ∧
    (checkProofOfStake (P := Platform.toy) onB (late 0) coinStake 0x1e0fffff).isOk = false := by
  decide +kernel

theorem reachable_stored : Reachable (P := Platform.toy) stored := by
  have h₀ : Reachable (P := Platform.toy) s₀ :=
    .genesis (P := Platform.toy) (s := start) Apart.stored₀ ⟨rfl, rfl, rfl, rfl, rfl, rfl, rfl⟩ rfl
      ⟨by decide, by decide, by decide, by simp⟩ rfl (by decide) (Prod.ext (by decide) rfl)
  simpa only [stored, toStored, List.foldl_cons, List.foldl_nil, Move.run] using
    Move.reachable_foldl h₀ evaluated.1.1

theorem reachable_onA : Reachable (P := Platform.toy) onA := by
  simpa only [onA, toA, List.foldl_cons, List.foldl_nil, Move.run] using
    Move.reachable_foldl reachable_stored evaluated.1.2.1

theorem reachable_onB : Reachable (P := Platform.toy) onB := by
  simpa only [onB, toB, List.foldl_cons, List.foldl_nil, Move.run] using
    Move.reachable_foldl reachable_stored evaluated.1.2.2

/-- Two states whose blocks can be compared. -/
theorem sameBlocks_of_blocks (h : blocks s' = blocks s) : SameBlocks s s' := by
  obtain ⟨hentries, hfiles⟩ := Prod.ext_iff.1 h
  have hmap : s'.mapBlockIndex.map (fun _ i => i.settled) =
      s.mapBlockIndex.map (fun _ i => i.settled) := by
    rw [← Std.ExtTreeMap.toList_inj, Std.ExtTreeMap.toList_map, Std.ExtTreeMap.toList_map]
    exact hentries
  refine ⟨fun hash => ?_, hfiles⟩
  have := congrArg (fun m => m[hash]?) hmap
  simpa only [Std.ExtTreeMap.getElem?_map] using this

theorem HasCoin.stakesAlong (h : HasCoin s) :
    StakesAlong (P := Platform.toy) s (late 0) coinStake 1 [2] := by
  obtain ⟨hindex, hblock, hhash, hlinks⟩ := h
  exact .mk (P := Platform.toy) ⟨_, _, hindex, toOption_eq_some.1 hblock, hhash⟩ hlinks

end Reachable

end Forked

omit [P : Platform] in
/-- The check is the same with the tip on `a₂` and on `a₃`. -/
theorem checkProofOfStake_forked :
    letI := Platform.toy
    checkProofOfStake Forked.onA₃ (Forked.late 0) Forked.coinStake 0x1e0fffff =
        checkProofOfStake Forked.onA (Forked.late 0) Forked.coinStake 0x1e0fffff ∧
      getKernelStakeModifier Forked.onA 1 = .ok (Forked.onA.entry 2).nStakeModifier ∧
      getKernelStakeModifier Forked.onA₃ 1 = .ok (Forked.onA.entry 2).nStakeModifier ∧
      Relation.ReflTransGen (fun a b => Forked.onA.pprev a = some b) 2 2 ∧
      Relation.ReflTransGen (fun a b => Forked.onA.pprev a = some b) 2 1 := by
  let := Platform.toy
  obtain ⟨-, ⟨hblocks, -⟩, ⟨hmem, hroot, h₂, h₁⟩, hm, ⟨hs, hs'⟩, -⟩ := Forked.evaluated
  have hown : Lineage Forked.onA.pprev 2 ([] ++ ([2].reverse ++ 1 :: [hashGenesisBlock])) :=
    .step h₂ (.step h₁ (.root hroot))
  refine checkProofOfStake_own Forked.reachable_onA (Forked.sameBlocks_of_blocks hblocks) hmem hown hm
    hs.stakesAlong hs'.stakesAlong ?_
  rw [hs.1, hs'.1]

omit [P : Platform] in
/-- **With the tip on the other branch the coin is not found**, though the
coinstake's own chain has it. -/
theorem checkProofOfStake_differs :
    ¬ ∀ (_ : Platform) (s s' : NodeState) (ans : Answer) (prev : Uint256) (tx : CTransaction)
        (nBits : ℕ), Reachable s → Reachable s' → SameBlocks s s' → prev ∈ s.mapBlockIndex →
          checkProofOfStake s' ans tx nBits = checkProofOfStake s ans tx nBits := by
  intro h
  obtain ⟨-, ⟨-, hblocks⟩, ⟨hmem, -⟩, -, -, hA, hB⟩ := Forked.evaluated
  have heq := h Platform.toy Forked.onA Forked.onB (Forked.late 0) 2 Forked.coinStake 0x1e0fffff
    Forked.reachable_onA Forked.reachable_onB (Forked.sameBlocks_of_blocks hblocks) hmem
  rw [heq, hA] at hB
  exact absurd hB (by decide)

end CryptoBullion
