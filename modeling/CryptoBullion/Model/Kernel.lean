import CryptoBullion.Model.CheckBlock
/-!
# Stake modifiers and the stake kernel

`kernel.cpp`: how a new block's stake modifier is gathered from the blocks
before it, which modifier a coin's kernel is hashed with, and
`CheckProofOfStake`. The modifier of a new block is found along `pprev`;
the modifier of a kernel along `pnext`, which only leads along the main
chain, and the staked output through the transaction index, which only
knows the main chain.
-/

namespace CryptoBullion

variable [P : Platform]

/-! ## Intervals -/

/-- `GetModifierInterval` -/
def getModifierInterval (nTime : ℕ) : ℕ := if hardforkTime ≤ nTime then 100 else 6 * 60 * 60

/-- `GetStakeModifierSelectionIntervalSection` -/
def getStakeModifierSelectionIntervalSection (nSection nTime : ℕ) : ℕ :=
  getModifierInterval nTime * 63 / (63 + (63 - nSection) * (3 - 1))

/-- `GetStakeModifierSelectionInterval` -/
def getStakeModifierSelectionInterval (nTime : ℕ) : ℕ :=
  ((List.range 64).map fun nSection => getStakeModifierSelectionIntervalSection nSection nTime).sum

/-- `GetStakeMaxAge` -/
def getStakeMaxAge (nTime : ℕ) : ℕ := if hardforkTime ≤ nTime then uintMax else 60 * 60 * 24 * 90

/-! ## The modifier of a new block -/

/-- `GetLastStakeModifier`: the last modifier generated up to a block, and
when -/
def getLastStakeModifier (s : NodeState) : ℕ → Uint256 → Except Failure (ℕ × ℤ)
  | 0, _ => .error (.crash "endless loop")
  | fuel + 1, pindex =>
    if (s.entry pindex).fGeneratedStakeModifier then
      .ok ((s.entry pindex).nStakeModifier, (s.entry pindex).getBlockTime)
    else match s.pprev pindex with
      | none => .error (.error "GetLastStakeModifier: no generation at genesis block")
      | some prev => getLastStakeModifier s fuel prev

/-- The candidates: the blocks back from `pindex` whose time is in the
interval, with their times. -/
def candidates (s : NodeState) (nStart : ℤ) : ℕ → Option Uint256 → List (ℤ × Uint256)
  | 0, _ => []
  | _, none => []
  | fuel + 1, some pindex =>
    if nStart ≤ (s.entry pindex).getBlockTime then
      ((s.entry pindex).getBlockTime, pindex) :: candidates s nStart fuel (s.pprev pindex)
    else []

/-- The order of pairs `sort` uses. -/
def candidateLe (a b : ℤ × Uint256) : Bool := a.1 < b.1 || (a.1 = b.1 && a.2 ≤ b.2)

/-- The hash a candidate is selected by; a proof-of-stake block's is
divided so that it is favoured. -/
def selectionHash (s : NodeState) (nStakeModifierPrev : ℕ) (pindex : Uint256) : Uint256 :=
  let i := s.entry pindex
  let hashProof := if i.fProofOfStake then i.hashProofOfStake else pindex
  let h := P.hash (serializeHash hashProof ++ leBytes 8 nStakeModifierPrev)
  if i.fProofOfStake then h >>> 32 else h

/-- `SelectBlockFromCandidates`: the smallest selection hash among the
candidates not yet taken, up to the first that is too late. -/
def selectBlockFromCandidates (s : NodeState) (selected : List Uint256) (nStop : ℤ)
    (nStakeModifierPrev : ℕ) :
    Option (Uint256 × Uint256) → List (ℤ × Uint256) → Except Failure Uint256
  | best, [] =>
    match best with
    | none => .error .quiet
    | some (_, pindex) => .ok pindex
  | best, item :: rest =>
    if !s.mapBlockIndex.contains item.2 then
      .error (.error "SelectBlockFromCandidates: failed to find block index for candidate block")
    else if best.isSome && nStop < (s.entry item.2).getBlockTime then
      match best with
      | none => .error .quiet
      | some (_, pindex) => .ok pindex
    else if selected.contains item.2 then
      selectBlockFromCandidates s selected nStop nStakeModifierPrev best rest
    else
      let h := selectionHash s nStakeModifierPrev item.2
      let best := match best with
        | none => some (h, item.2)
        | some (hashBest, pindex) => if h < hashBest then some (h, item.2) else some (hashBest, pindex)
      selectBlockFromCandidates s selected nStop nStakeModifierPrev best rest

/-- The rounds of `ComputeNextStakeModifier`, one bit each. -/
def modifierRounds (s : NodeState) (sorted : List (ℤ × Uint256)) (nStakeModifierPrev nTime : ℕ) :
    (rounds nRound : ℕ) → (nStop : ℤ) → (selected : List Uint256) → (nNew : ℕ) → Except Failure ℕ
  | 0, _, _, _, nNew => .ok nNew
  | rounds + 1, nRound, nStop, selected, nNew => do
    let nStop := nStop + getStakeModifierSelectionIntervalSection nRound nTime
    let pindex ← onFalse (selectBlockFromCandidates s selected nStop nStakeModifierPrev none sorted)
      (.error "ComputeNextStakeModifier: unable to select block")
    let bit := if (s.entry pindex).fStakeEntropy then 1 else 0
    modifierRounds s sorted nStakeModifierPrev nTime rounds (nRound + 1) nStop
      (pindex :: selected) (nNew + bit * 2 ^ nRound)

/-- `ComputeNextStakeModifier`: the modifier and whether it is a new one -/
def computeNextStakeModifier (s : NodeState) (pindexPrev : Option Uint256) (nTime : ℕ) :
    Except Failure (ℕ × Bool) :=
  match pindexPrev with
  | none => .ok (0, true)
  | some prev => do
    let last ← onFalse (getLastStakeModifier s (s.walkFuel prev) prev)
      (.error "ComputeNextStakeModifier: unable to get last modifier")
    let nInterval : ℤ := getModifierInterval nTime
    let nPrevTime := (s.entry prev).getBlockTime
    if nPrevTime / nInterval ≤ last.2 / nInterval then .ok (last.1, false)
    else
      let nStart := nPrevTime / nInterval * nInterval - getStakeModifierSelectionInterval nTime
      let sorted :=
        (candidates s nStart (s.walkFuel prev) (some prev)).reverse.mergeSort candidateLe
      let nNew ← modifierRounds s sorted last.1 nTime (min 64 sorted.length) 0 nStart [] 0
      .ok (nNew, true)

/-! ## Checksums -/

/-- `nFlags` as a number -/
def CBlockIndex.nFlags (i : CBlockIndex) : ℕ :=
  (if i.fProofOfStake then 1 else 0) + (if i.fStakeEntropy then 2 else 0) +
    (if i.fGeneratedStakeModifier then 4 else 0)

/-- `GetStakeModifierChecksum` of an entry that is to stand at `hash` -/
def getStakeModifierChecksum (s : NodeState) (hash : Uint256) (i : CBlockIndex) :
    Except Failure ℕ := do
  reject (i.pprev = none ∧ hash ≠ hashGenesisBlock)
    (.crash "pindex->pprev || pindex->GetBlockHash() == hashGenesisBlock")
  let before := match i.pprev with
    | none => []
    | some prev => leBytes 4 (s.entry prev).nStakeModifierChecksum
  .ok (P.hash (before ++ leBytes 4 i.nFlags ++ serializeHash i.hashProofOfStake ++
    leBytes 8 i.nStakeModifier) >>> (256 - 32)).toNat

/-- `CheckStakeModifierCheckpoints` -/
def checkStakeModifierCheckpoints (nHeight : ℤ) (nStakeModifierChecksum : ℕ) : Bool :=
  if P.fTestNet then true
  else if nHeight = 0 then nStakeModifierChecksum = 0x0e00670b
  else if nHeight = 95004 then nStakeModifierChecksum = 0x01c6784a
  else true

/-! ## The kernel -/

/-- The loop of `GetKernelStakeModifier`: along `pnext` from the coin's
block until a modifier was generated late enough. -/
def kernelModifierLoop (s : NodeState) (nUntil : ℤ) :
    ℕ → (nStakeModifierTime : ℤ) → Uint256 → Option Uint256
  | 0, _, _ => none
  | fuel + 1, nStakeModifierTime, pindex =>
    if nStakeModifierTime < nUntil then
      match s.pnext pindex with
      | none => none
      | some next =>
        let t := if (s.entry next).fGeneratedStakeModifier then (s.entry next).getBlockTime
          else nStakeModifierTime
        kernelModifierLoop s nUntil fuel t next
    else some pindex

/-- The block whose modifier `GetKernelStakeModifier` takes. -/
def kernelModifierBlock (s : NodeState) (hashBlockFrom : Uint256) : Option Uint256 :=
  let t := (s.entry hashBlockFrom).getBlockTime
  kernelModifierLoop s (t + getStakeModifierSelectionInterval (s.entry hashBlockFrom).nTime)
    (s.mapBlockIndex.size + 1) t hashBlockFrom

/-- `GetKernelStakeModifier`. Reaching the best block is `false` whether or
not it is also reported. -/
def getKernelStakeModifier (s : NodeState) (hashBlockFrom : Uint256) : Except Failure ℕ := do
  reject (s.mapBlockIndex.contains hashBlockFrom = false)
    (.error "GetKernelStakeModifier() : block not indexed")
  match kernelModifierBlock s hashBlockFrom with
  | none => .error (.error "GetKernelStakeModifier() : reached best block")
  | some pindex => .ok (s.entry pindex).nStakeModifier

/-- What the kernel is the hash of. -/
def kernelHash (nStakeModifier nTimeBlockFrom nTxPrevOffset nTimeTxPrev nPrevout nTimeTx : ℕ) :
    Uint256 :=
  P.hash (leBytes 8 nStakeModifier ++ leBytes 4 nTimeBlockFrom ++ leBytes 4 nTxPrevOffset ++
    leBytes 4 nTimeTxPrev ++ leBytes 4 nPrevout ++ leBytes 4 nTimeTx)

/-- `CheckStakeKernelHash`: the hash, where it meets the target -/
def checkStakeKernelHash (s : NodeState) (nBits : ℕ) (blockFrom : CBlock) (nTxPrevOffset : ℕ)
    (txPrev : CTransaction) (prevout : COutPoint) (nTimeTx : ℕ) : Except Failure Uint256 := do
  reject (nTimeTx < txPrev.nTime) (.error "CheckStakeKernelHash() : nTime violation")
  reject (nTimeTx < (blockFrom.nTime + getStakeMinAge nTimeTx) % 4294967296)
    (.error "CheckStakeKernelHash() : min age violation")
  let nValueIn := ((txPrev.vout[prevout.n]?).map (·.nValue)).getD 0
  let nTimeWeight :=
    min ((nTimeTx : ℤ) - txPrev.nTime) (getStakeMaxAge nTimeTx) - getStakeMinAge nTimeTx
  reject (nTimeWeight ≤ 0) .quiet
  let nStakeModifier ← onFalse (getKernelStakeModifier s blockFrom.getHash) .quiet
  let hashProofOfStake :=
    kernelHash nStakeModifier blockFrom.nTime nTxPrevOffset txPrev.nTime prevout.n nTimeTx
  let bnWeight :=
    if nTimeTx < hardforkTime then ((nValueIn * nTimeWeight).tdiv coin).tdiv (24 * 60 * 60)
    else nValueIn
  reject (bnWeight * setCompact nBits < hashProofOfStake.toNat) .quiet
  .ok hashProofOfStake

/-- `CheckProofOfStake`: the proof hash of a coinstake, where it has one -/
def checkProofOfStake (s : NodeState) (ans : Answer) (tx : CTransaction) (nBits : ℕ) :
    Except Failure Uint256 := do
  reject (tx.isCoinStake = false) (.error "CheckProofOfStake() : called on non-coinstake")
  let prevout := ((tx.vin.head?).map (·.prevout)).getD COutPoint.null
  match readPrevTx s.txdb s.blockFiles ans prevout with
  | none => .error (.doS 1 "CheckProofOfStake() : INFO: read txPrev failed")
  | some (txindex, txPrev) =>
    let fOk ← verifySignature txPrev tx 0 true 0
    reject (fOk = false) (.doS 100 "CheckProofOfStake() : VerifySignature failed on coinstake")
    let block ← onFalse (readBlock s.blockFiles ans txindex.pos.nFile txindex.pos.nBlockPos false)
      .quiet
    onFalse (checkStakeKernelHash s nBits block (txindex.pos.nTxPos - txindex.pos.nBlockPos) txPrev
        prevout tx.nTime)
      (.doS 1 "CheckProofOfStake() : INFO: check kernel failed on coinstake")

end CryptoBullion
