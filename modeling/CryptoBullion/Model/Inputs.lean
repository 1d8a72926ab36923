import CryptoBullion.Common.Step
import CryptoBullion.Model.Transaction
/-!
# Reading, fetching and spending inputs

Reading blocks and transactions back from the block files, and the four
functions through which a transaction meets the index: `FetchInputs`
collects what it spends, `ConnectInputs` checks it and marks the spends in
a map of queued changes, `DisconnectInputs` takes the marks back, and
`GetCoinAge` weighs the coins.
-/

namespace CryptoBullion

variable [P : Platform]

/-! ## Block files -/

/-- `OpenBlockFile` and a `fseek`: whether the offset can be read at all. -/
def openBlockFile (ans : Answer) (nFile nPos : ℕ) : Bool :=
  !(nFile < 1) && nFile ≠ uintMax && ans.fReadOk nFile nPos

/-- `CBlock::ReadFromDisk(nFile, nBlockPos, fReadTransactions)` -/
def readBlock (files : List StoredBlock) (ans : Answer) (nFile nBlockPos : ℕ)
    (fReadTransactions : Bool) : Except Failure CBlock := do
  reject (openBlockFile ans nFile nBlockPos = false)
    (.error "CBlock::ReadFromDisk() : OpenBlockFile failed")
  match files.find? (fun b => b.nFile = nFile && b.nBlockPos = nBlockPos) with
  | none => .error (.error "CBlock::ReadFromDisk() : deserialize or I/O error")
  | some b =>
    if fReadTransactions && b.block.isProofOfWork then
      onFalse (checkProofOfWork b.block.getHash b.block.nBits)
        (.error "CBlock::ReadFromDisk() : errors in block header")
    .ok (if fReadTransactions then b.block else { b.block with vtx := [], vchBlockSig := [] })

/-- `CTransaction::ReadFromDisk(pos)` -/
def readTx (files : List StoredBlock) (ans : Answer) (pos : CDiskTxPos) :
    Except Failure CTransaction := do
  reject (openBlockFile ans pos.nFile pos.nTxPos = false)
    (.error "CTransaction::ReadFromDisk() : OpenBlockFile failed")
  match (files.filter (·.nFile = pos.nFile)).flatMap (·.txs) |>.find? (·.1 = pos.nTxPos) with
  | none => .error (.error "CTransaction::ReadFromDisk() : deserialize or I/O error")
  | some p => .ok p.2

/-- `CTransaction::ReadFromDisk(txdb, prevout, txindexRet)` -/
def readPrevTx (txdb : CTxDB) (files : List StoredBlock) (ans : Answer) (prevout : COutPoint) :
    Option (CTxIndex × CTransaction) :=
  match txdb.readTxIndex prevout.hash with
  | none => none
  | some txindex =>
    match readTx files ans txindex.pos with
    | .error _ => none
    | .ok tx => if tx.vout.length ≤ prevout.n then none else some (txindex, tx)

/-! ## FetchInputs -/

/-- `MapPrevTx`: previous transactions and their index entries -/
abbrev MapPrevTx := Map Uint256 (CTxIndex × CTransaction)

/-- `mempool.lookup`, where the pool has it -/
def poolTx (s : NodeState) (hash : Uint256) : Except Failure CTransaction :=
  match s.mempool.mapTx[hash]? with
  | none => .error (.error "FetchInputs() : mempool Tx prev not found")
  | some tx => .ok tx

/-- One previous transaction: its index entry from the queued changes or
the database, itself from the pool or from disk. -/
def fetchPrev (s : NodeState) (ans : Answer) (mapTestPool : Map Uint256 CTxIndex)
    (fBlock fMiner : Bool) (hash : Uint256) : Except Failure (CTxIndex × CTransaction) :=
  let found :=
    if (fBlock || fMiner) && mapTestPool.contains hash then mapTestPool[hash]?
    else s.txdb.readTxIndex hash
  match found with
  | none =>
    if fBlock || fMiner then
      .error (if fMiner then .quiet else .error "FetchInputs() : prev tx index entry not found")
    else do
      let txPrev ← poolTx s hash
      .ok (CTxIndex.fresh CDiskTxPos.null txPrev.vout.length, txPrev)
  | some txindex =>
    if txindex.pos = CDiskTxPos.inMemPool then do
      let txPrev ← poolTx s hash
      .ok (txindex, txPrev)
    else do
      let txPrev ← onFalse (readTx s.blockFiles ans txindex.pos)
        (.error "FetchInputs() : ReadFromDisk prev tx failed")
      .ok (txindex, txPrev)

/-- The first loop of `FetchInputs`: each previous transaction once. -/
def fetchLoop (s : NodeState) (ans : Answer) (mapTestPool : Map Uint256 CTxIndex)
    (fBlock fMiner : Bool) : List CTxIn → MapPrevTx → Except Failure MapPrevTx
  | [], inputsRet => .ok inputsRet
  | txin :: rest, inputsRet =>
    if inputsRet.contains txin.prevout.hash then
      fetchLoop s ans mapTestPool fBlock fMiner rest inputsRet
    else do
      let prev ← fetchPrev s ans mapTestPool fBlock fMiner txin.prevout.hash
      fetchLoop s ans mapTestPool fBlock fMiner rest (inputsRet.insert txin.prevout.hash prev)

/-- The second loop: every output asked for exists. -/
def fetchRange (inputsRet : MapPrevTx) : List CTxIn → Except Failure Unit
  | [] => .ok ()
  | txin :: rest =>
    match inputsRet[txin.prevout.hash]? with
    | none => .error (.crash "inputsRet.count(prevout.hash) != 0")
    | some (txindex, txPrev) => do
      reject (txPrev.vout.length ≤ txin.prevout.n ∨ txindex.vSpent.length ≤ txin.prevout.n)
        (.doS 100 "FetchInputs() : prevout.n out of range")
      fetchRange inputsRet rest

/-- `FetchInputs`. It sets `fInvalid` exactly where it charges the sender. -/
def CTransaction.fetchInputs (s : NodeState) (ans : Answer) (tx : CTransaction)
    (mapTestPool : Map Uint256 CTxIndex) (fBlock fMiner : Bool) : Except Failure MapPrevTx :=
  if tx.isCoinBase then .ok ∅
  else do
    let inputsRet ← fetchLoop s ans mapTestPool fBlock fMiner tx.vin ∅
    fetchRange inputsRet tx.vin
    .ok inputsRet

/-! ## What the inputs are worth -/

/-- `GetOutputFor` -/
def getOutputFor (inputs : MapPrevTx) (input : CTxIn) : Except Failure CTxOut :=
  match inputs[input.prevout.hash]? with
  | none => .error (.exception "CTransaction::GetOutputFor() : prevout.hash not found")
  | some (_, txPrev) =>
    match txPrev.vout[input.prevout.n]? with
    | none => .error (.exception "CTransaction::GetOutputFor() : prevout.n out of range")
    | some txout => .ok txout

/-- The outputs a list of inputs spends. -/
def outputsFor (inputs : MapPrevTx) : List CTxIn → Except Failure (List CTxOut)
  | [] => .ok []
  | txin :: rest => do
    let txout ← getOutputFor inputs txin
    let txouts ← outputsFor inputs rest
    .ok (txout :: txouts)

/-- `GetValueIn` -/
def CTransaction.getValueIn (tx : CTransaction) (inputs : MapPrevTx) : Except Failure ℤ :=
  if tx.isCoinBase then .ok 0
  else do
    let txouts ← outputsFor inputs tx.vin
    .ok (txouts.map (·.nValue)).sum

/-- `GetP2SHSigOpCount` -/
def CTransaction.getP2SHSigOpCount (tx : CTransaction) (inputs : MapPrevTx) : Except Failure ℕ :=
  if tx.isCoinBase then .ok 0
  else do
    let txouts ← outputsFor inputs tx.vin
    .ok ((txouts.zip tx.vin).map fun p =>
      if isPayToScriptHash p.1.scriptPubKey then p2shSigOpCount p.1.scriptPubKey p.2.scriptSig
      else 0).sum

/-! ## ConnectInputs -/

/-- The walk back from `pindexBlock` that looks for the block `pos` lies
in: found among the last `nCoinbaseMaturity` blocks, its output is too
young. -/
def immature (s : NodeState) (pindexBlock : Uint256) (pos : CDiskTxPos) :
    ℕ → Option Uint256 → Bool
  | 0, _ => false
  | _, none => false
  | fuel + 1, some pindex =>
    if s.nHeight pindexBlock - s.nHeight pindex < nCoinbaseMaturity then
      if (s.entry pindex).nBlockPos = pos.nBlockPos ∧ (s.entry pindex).nFile = pos.nFile then true
      else immature s pindexBlock pos fuel (s.pprev pindex)
    else false

/-- Turns enough for a walk along `pprev`, which falls in height. -/
def NodeState.walkFuel (s : NodeState) (pindex : Uint256) : ℕ := (s.nHeight pindex).toNat + 1

/-- The first loop of `ConnectInputs`: the inexpensive checks. -/
def connectChecks (s : NodeState) (tx : CTransaction) (inputs : MapPrevTx)
    (pindexBlock : Uint256) : ℤ → List CTxIn → Except Failure ℤ
  | nValueIn, [] => .ok nValueIn
  | nValueIn, txin :: rest =>
    match inputs[txin.prevout.hash]? with
    | none => .error (.crash "inputs.count(prevout.hash) > 0")
    | some (txindex, txPrev) =>
      match txPrev.vout[txin.prevout.n]? with
      | none => .error (.doS 100 "ConnectInputs() : prevout.n out of range")
      | some txout => do
        reject (txindex.vSpent.length ≤ txin.prevout.n)
          (.doS 100 "ConnectInputs() : prevout.n out of range")
        reject ((txPrev.isCoinBase || txPrev.isCoinStake) &&
            immature s pindexBlock txindex.pos (s.walkFuel pindexBlock) (some pindexBlock))
          (.error (if txPrev.isCoinBase then "ConnectInputs() : tried to spend coinbase"
            else "ConnectInputs() : tried to spend coinstake"))
        reject (tx.nTime < txPrev.nTime)
          (.doS 100 "ConnectInputs() : transaction timestamp earlier than input transaction")
        reject (moneyRange txout.nValue = false ∨ moneyRange (nValueIn + txout.nValue) = false)
          (.doS 100 "ConnectInputs() : txin values out of range")
        connectChecks s tx inputs pindexBlock (nValueIn + txout.nValue) rest

/-- `Checkpoints::GetTotalBlocksEstimate()` off the test net: the height
of the last hardened checkpoint, below which signatures are not checked -/
def getTotalBlocksEstimate : ℤ := if P.fTestNet then 0 else 2319474

/-- The signature of input `nIn`, checked unless the block is old enough to
be covered by a checkpoint. -/
def checkSignature (s : NodeState) (tx txPrev : CTransaction) (nIn : ℕ)
    (fBlock fStrictPayToScriptHash : Bool) : Except Failure Unit :=
  if !P.fDisableSignatureChecking && !(fBlock && s.nBestHeight < getTotalBlocksEstimate) then do
    let fOk ← verifySignature txPrev tx nIn fStrictPayToScriptHash 0
    if fOk then .ok ()
    else if fStrictPayToScriptHash then do
      let fOld ← verifySignature txPrev tx nIn false 0
      if fOld then .error (.error "ConnectInputs() : P2SH VerifySignature failed")
      else .error (.doS 100 "ConnectInputs() : VerifySignature failed")
    else .error (.doS 100 "ConnectInputs() : VerifySignature failed")
  else .ok ()

/-- The second loop: no double spend, the signature, and the mark. The
entries marked are `ConnectInputs`' own copy; each is written to the queued
changes when a block or a template is being built. -/
def connectSpends (s : NodeState) (tx : CTransaction) (posThisTx : CDiskTxPos)
    (fBlock fMiner fStrictPayToScriptHash : Bool) :
    ℕ → List CTxIn → MapPrevTx → Map Uint256 CTxIndex → Except Failure (Map Uint256 CTxIndex)
  | _, [], _, mapTestPool => .ok mapTestPool
  | i, txin :: rest, inputs, mapTestPool =>
    match inputs[txin.prevout.hash]? with
    | none => .error (.crash "inputs.count(prevout.hash) > 0")
    | some (txindex, txPrev) => do
      reject (((txindex.vSpent[txin.prevout.n]?).getD CDiskTxPos.null).isNull = false)
        (if fMiner then .quiet else .error "ConnectInputs() : prev tx already used")
      checkSignature s tx txPrev i fBlock fStrictPayToScriptHash
      let txindex := { txindex with vSpent := txindex.vSpent.set txin.prevout.n posThisTx }
      connectSpends s tx posThisTx fBlock fMiner fStrictPayToScriptHash (i + 1) rest
        (inputs.insert txin.prevout.hash (txindex, txPrev))
        (if fBlock || fMiner then mapTestPool.insert txin.prevout.hash txindex else mapTestPool)

/-- The last part: value conservation and the fee, coinstakes excepted. -/
def connectFees (tx : CTransaction) (nValueIn : ℤ) (fBlock : Bool) : Except Failure Unit :=
  if tx.isCoinStake then .ok ()
  else do
    let nValueOut ← tx.getValueOut
    reject (nValueIn < nValueOut) (.doS 100 "ConnectInputs() : value in < value out")
    let nTxFee := nValueIn - nValueOut
    reject (nTxFee < 0) (.doS 100 "ConnectInputs() : nTxFee < 0")
    reject (nTxFee < tx.minFee)
      (if fBlock then .doS 100 "ConnectInputs() : not paying required fee" else .quiet)
    reject (moneyRange nTxFee = false) (.doS 100 "ConnectInputs() : nFees out of range")

/-- `ConnectInputs`: the queued changes with this transaction's spends
marked. -/
def CTransaction.connectInputs (s : NodeState) (tx : CTransaction) (inputs : MapPrevTx)
    (mapTestPool : Map Uint256 CTxIndex) (posThisTx : CDiskTxPos) (pindexBlock : Uint256)
    (fBlock fMiner fStrictPayToScriptHash : Bool) : Except Failure (Map Uint256 CTxIndex) :=
  if tx.isCoinBase then .ok mapTestPool
  else do
    let nValueIn ← connectChecks s tx inputs pindexBlock 0 tx.vin
    let mapTestPool ← connectSpends s tx posThisTx fBlock fMiner fStrictPayToScriptHash 0 tx.vin
      inputs mapTestPool
    connectFees tx nValueIn fBlock
    .ok mapTestPool

/-! ## DisconnectInputs -/

/-- Mark one previous output unspent again. Writes go to the open batch,
where they cannot fail. -/
def disconnectInput (txin : CTxIn) : Step CTxDB Failure Unit := do
  let txdb ← Step.get
  match txdb.readTxIndex txin.prevout.hash with
  | none => Step.fail (.error "DisconnectInputs() : ReadTxIndex failed")
  | some txindex =>
    if txindex.vSpent.length ≤ txin.prevout.n then
      Step.fail (.error "DisconnectInputs() : prevout.n out of range")
    else
      Step.modify (CTxDB.updateTxIndex · txin.prevout.hash
        { txindex with vSpent := txindex.vSpent.set txin.prevout.n CDiskTxPos.null })

/-- `DisconnectInputs` -/
def CTransaction.disconnectInputs (tx : CTransaction) : Step CTxDB Failure Unit := do
  Step.forEach disconnectInput (if tx.isCoinBase then [] else tx.vin)
  Step.modify (CTxDB.eraseTxIndex · tx.getHash)

/-! ## Coin age -/

/-- The loop of `CTransaction::GetCoinAge`, in cent-seconds. -/
def coinAgeLoop (txdb : CTxDB) (files : List StoredBlock) (ans : Answer) (tx : CTransaction) :
    ℤ → List CTxIn → Except Failure ℤ
  | bnCentSecond, [] => .ok bnCentSecond
  | bnCentSecond, txin :: rest =>
    match readPrevTx txdb files ans txin.prevout with
    | none => coinAgeLoop txdb files ans tx bnCentSecond rest
    | some (txindex, txPrev) =>
      if tx.nTime < txPrev.nTime then .error .quiet
      else match readBlock files ans txindex.pos.nFile txindex.pos.nBlockPos false with
        | .error _ => .error .quiet
        | .ok block =>
          if block.nTime + getStakeMinAge tx.nTime > tx.nTime then
            coinAgeLoop txdb files ans tx bnCentSecond rest
          else
            let nValueIn := ((txPrev.vout[txin.prevout.n]?).map (·.nValue)).getD 0
            coinAgeLoop txdb files ans tx
              (bnCentSecond + (nValueIn * ((tx.nTime - txPrev.nTime : ℕ) : ℤ)).tdiv cent) rest

/-- `CTransaction::GetCoinAge` -/
def CTransaction.getCoinAge (txdb : CTxDB) (files : List StoredBlock) (ans : Answer)
    (tx : CTransaction) : Except Failure ℕ :=
  if tx.isCoinBase then .ok 0
  else do
    let bnCentSecond ← coinAgeLoop txdb files ans tx 0 tx.vin
    .ok (getUint64 (((bnCentSecond * cent).tdiv coin).tdiv (24 * 60 * 60)))

end CryptoBullion
