import CryptoBullion.Model.Connect
import CryptoBullion.Model.Money
/-!
# The sums of a block, in 64 bits

The accounting of `ConnectBlock` once more, with every sum and difference
an `int64`: the loops over outputs and inputs, the running totals, and the
mint that is recorded. `Model.Connect` has the same in the integers.
-/

namespace CryptoBullion

variable [P : Platform]

/-! ## Of a transaction -/

omit P in
/-- The running sum of `GetValueOut`. -/
def valueOutLoop64 : ℤ → List CTxOut → Except Failure ℤ
  | nValueOut, [] => .ok nValueOut
  | nValueOut, txout :: rest => do
    let nValueOut ← int64 (nValueOut + txout.nValue)
    if !moneyRange txout.nValue || !moneyRange nValueOut then
      .error (.exception "CTransaction::GetValueOut() : value out of range")
    else valueOutLoop64 nValueOut rest

omit P in
/-- `GetValueOut` -/
def CTransaction.getValueOut64 (tx : CTransaction) : Except Failure ℤ := valueOutLoop64 0 tx.vout

omit P in
/-- The running sum of `GetValueIn`: no range is checked -/
def valueInLoop64 (inputs : MapPrevTx) : ℤ → List CTxIn → Except Failure ℤ
  | nResult, [] => .ok nResult
  | nResult, txin :: rest => do
    let txout ← getOutputFor inputs txin
    let nResult ← int64 (nResult + txout.nValue)
    valueInLoop64 inputs nResult rest

omit P in
/-- `GetValueIn` -/
def CTransaction.getValueIn64 (tx : CTransaction) (inputs : MapPrevTx) : Except Failure ℤ :=
  if tx.isCoinBase then .ok 0 else valueInLoop64 inputs 0 tx.vin

/-! ## Of a block -/

omit P in
def tallyCoinBase64 (t : Tally) (tx : CTransaction) : Except Failure Tally := do
  let nTxValueOut ← tx.getValueOut64
  let nValueOut ← int64 (t.nValueOut + nTxValueOut)
  .ok { t with nValueOut := nValueOut }

def tallySpend64 (s : NodeState) (ans : Answer) (pindex : Uint256) (posThisTx : CDiskTxPos)
    (t : Tally) (tx : CTransaction) : Except Failure Tally := do
  let mapInputs ← onFalse (tx.fetchInputs s ans t.mapQueuedChanges true false) .quiet
  let nP2SH ← tx.getP2SHSigOpCount mapInputs
  reject (maxBlockSigops < t.nSigOps + nP2SH) (.doS 100 "ConnectBlock() : too many sigops")
  let nTxValueIn ← tx.getValueIn64 mapInputs
  let nTxValueOut ← tx.getValueOut64
  let nValueIn ← int64 (t.nValueIn + nTxValueIn)
  let nValueOut ← int64 (t.nValueOut + nTxValueOut)
  let nFees ← if tx.isCoinStake then .ok t.nFees
    else do
      let nTxFee ← int64 (nTxValueIn - nTxValueOut)
      int64 (t.nFees + nTxFee)
  let nStakeReward ← if tx.isCoinStake then int64 (nTxValueOut - nTxValueIn) else .ok t.nStakeReward
  let mapQueuedChanges ← onFalse
    (tx.connectInputs s mapInputs t.mapQueuedChanges posThisTx pindex true false true) .quiet
  .ok { t with
    mapQueuedChanges := mapQueuedChanges
    nSigOps := t.nSigOps + nP2SH
    nValueIn := nValueIn
    nValueOut := nValueOut
    nFees := nFees
    nStakeReward := nStakeReward }

/-- One turn of `ConnectBlock`'s loop. -/
def tallyTx64 (s : NodeState) (ans : Answer) (pindex : Uint256) (t : Tally) (tx : CTransaction) :
    Except Failure Tally := do
  reject (overwrites s.txdb tx.getHash) .quiet
  let nSigOps := t.nSigOps + tx.getLegacySigOpCount
  reject (maxBlockSigops < nSigOps) (.doS 100 "ConnectBlock() : too many sigops")
  let posThisTx : CDiskTxPos := ⟨(s.entry pindex).nFile, (s.entry pindex).nBlockPos, t.nTxPos⟩
  let t := { t with nSigOps := nSigOps, nTxPos := t.nTxPos + tx.getSerializeSize }
  let t ← if tx.isCoinBase then tallyCoinBase64 t tx else tallySpend64 s ans pindex posThisTx t tx
  .ok { t with
    mapQueuedChanges :=
      t.mapQueuedChanges.insert tx.getHash (CTxIndex.fresh posThisTx tx.vout.length) }

/-- `ConnectBlock`'s loop. -/
def tallyTxs64 (s : NodeState) (ans : Answer) (pindex : Uint256) :
    Tally → List CTransaction → Except Failure Tally
  | t, [] => .ok t
  | t, tx :: rest => do
    let t ← tallyTx64 s ans pindex t tx
    tallyTxs64 s ans pindex t rest

omit P in
/-- `nValueOut - nValueIn + nFees` -/
def Tally.nMint64 (t : Tally) : Except Failure ℤ := do
  let nMint ← int64 (t.nValueOut - t.nValueIn)
  int64 (nMint + t.nFees)

/-- `ConnectBlock`, up to the mint it records -/
def mintBlock64 (s : NodeState) (ans : Answer) (block : CBlock) (pindex : Uint256) :
    Except Failure (Tally × ℤ) := do
  onFalse (block.checkBlock ans.nAdjustedTime s.bestHeight true true true) .quiet
  let t ← tallyTxs64 s ans pindex
    (Tally.start ((s.entry pindex).nBlockPos + block.firstTxOffset)) block.vtx
  checkStakeReward s ans pindex block t
  let nMint ← t.nMint64
  .ok (t, nMint)

end CryptoBullion
