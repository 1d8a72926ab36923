import CryptoBullion.Model.Inputs
/-!
# CheckBlock

The checks the source calls independent of context: size, proof of work,
timestamps, the shape of coinbase and coinstake, the coinbase reward, each
transaction, the merkle root and the block signature. The reward is looked
up at the height of `pindexBest`, which is why the state is an argument.
-/

namespace CryptoBullion

variable [P : Platform]

/-- `hashGenesisBlock` -/
def hashGenesisBlock : Uint256 :=
  if P.fTestNet then 0x61d0019e85d49d536ede59e12c4390f11ef5380be5abb3e8698fcaf0519d3c52
  else 0x000002655a721555160ea9bcb1072faf63ff0c8dffed173d60b1d3556a134dc1

/-- `CheckCoinStakeTimestamp` -/
def checkCoinStakeTimestamp (nTimeBlock nTimeTx : ℤ) : Bool := nTimeBlock = nTimeTx

/-- An output pays a public key that signed the block's hash. -/
def signedBy (block : CBlock) (txout : CTxOut) : Bool :=
  match P.solver txout.scriptPubKey with
  | some (.pubKey, vSolutions) =>
    let vchPubKey := (vSolutions.head?).getD []
    P.setPubKey vchPubKey && !block.vchBlockSig.isEmpty &&
      P.verify vchPubKey block.getHash block.vchBlockSig
  | _ => false

/-- The loop of `CheckBlockSignature` over a coinbase's outputs: the first
that has no shape at all ends it. -/
def signedByOne (block : CBlock) : List CTxOut → Bool
  | [] => false
  | txout :: rest =>
    if (P.solver txout.scriptPubKey).isNone then false
    else signedBy block txout || signedByOne block rest

/-- `CheckBlockSignature` -/
def CBlock.checkBlockSignature (block : CBlock) : Bool :=
  if block.getHash = hashGenesisBlock then block.vchBlockSig.isEmpty
  else if block.isProofOfStake then
    match block.vtx[1]?.bind (·.vout[1]?) with
    | none => false
    | some txout => signedBy block txout
  else match block.vtx with
    | [] => false
    | tx :: _ => signedByOne block tx.vout

/-- What `CheckBlock` lets a coinbase pay, at the height `nPrevHeight` it
finds in `pindexBest`. -/
def coinbaseLimit (block : CBlock) (nMinFee nPrevHeight : ℤ) : ℤ :=
  if block.isProofOfStake then 0
  else if block.getBlockTime < rewardSwitchTime then maxMintProofOfWorkLegacy
  else if nPrevHeight < 59700 then getProofOfWorkReward 0 - nMinFee + minTxFee
  else getProofOfWorkReward (toUInt32 nPrevHeight) - nMinFee + minTxFee

/-- Check the coinbase reward. `pindexBest` is only followed from the
reward switch on. -/
def checkReward (block : CBlock) (coinbase : CTransaction) (nBestHeight : Option ℤ) :
    Except Failure Unit := do
  if block.getBlockTime < rewardSwitchTime then
    let nValueOut ← coinbase.getValueOut
    reject (coinbaseLimit block coinbase.minFee 0 < nValueOut)
      (.doS 50 "CheckBlock() : coinbase reward exceeded")
  else match nBestHeight with
    | none => .error (.crash "pindexPrev")
    | some nPrevHeight =>
      let nValueOut ← coinbase.getValueOut
      reject (coinbaseLimit block coinbase.minFee nPrevHeight < nValueOut)
        (.doS 50 "CheckBlock() : coinbase reward exceeded")

/-- The charge `CheckBlock` passes on from a transaction. -/
def Failure.nDoS : Failure → ℕ
  | .doS n _ => n
  | _ => 0

/-- Check transactions. -/
def checkTransactions (block : CBlock) : List CTransaction → Except Failure Unit
  | [] => .ok ()
  | tx :: rest => do
    match tx.checkTransaction with
    | .error f => .error (f.orElse (.doS f.nDoS "CheckBlock() : CheckTransaction failed"))
    | .ok () =>
      reject (block.nTime < tx.nTime)
        (.doS 50 "CheckBlock() : block timestamp earlier than transaction timestamp")
      checkTransactions block rest

/-- The checks before the coinbase reward. -/
def checkShape (block : CBlock) (nAdjustedTime : ℤ) (fCheckPOW : Bool) : Except Failure Unit := do
  reject (block.vtx = [] ∨ maxBlockSize < block.vtx.length ∨ maxBlockSize < block.getSerializeSize)
    (.doS 100 "CheckBlock() : size limits failed")
  if fCheckPOW && block.isProofOfWork then
    onFalse (checkProofOfWork block.getHash block.nBits) (.doS 50 "CheckBlock() : proof of work failed")
  reject (nAdjustedTime + nMaxClockDrift < block.getBlockTime)
    (.error "CheckBlock() : block timestamp too far in the future")
  reject ((block.vtx.head?.map (·.isCoinBase)).getD false = false)
    (.doS 100 "CheckBlock() : first tx is not coinbase")
  reject (block.vtx.tail.any (·.isCoinBase)) (.doS 100 "CheckBlock() : more than one coinbase")
  reject ((block.vtx.drop 2).any (·.isCoinStake))
    (.doS 100 "CheckBlock() : coinstake in wrong position")
  reject (block.isProofOfStake ∧ ((block.vtx.head?).map (·.vout)).getD [] ≠ [CTxOut.empty])
    (.error "CheckBlock() : coinbase output not empty for proof-of-stake block")
  reject (((block.vtx.head?.map (·.nTime)).getD 0 : ℤ) + nMaxClockDrift < block.getBlockTime)
    (.doS 50 "CheckBlock() : coinbase timestamp is too early")
  reject (block.isProofOfStake ∧
      checkCoinStakeTimestamp block.getBlockTime ((block.vtx[1]?.map (·.nTime)).getD 0 : ℕ) = false)
    (.doS 50 "CheckBlock() : coinstake timestamp violation")

/-- The checks after the coinbase reward. -/
def checkContents (block : CBlock) (fCheckMerkleRoot fCheckSig : Bool) : Except Failure Unit := do
  checkTransactions block block.vtx
  reject (¬ (block.vtx.map CTransaction.getHash).Nodup)
    (.doS 100 "CheckBlock() : duplicate transaction")
  reject (maxBlockSigops < (block.vtx.map CTransaction.getLegacySigOpCount).sum)
    (.doS 100 "CheckBlock() : out-of-bounds SigOpCount")
  reject (fCheckMerkleRoot ∧ block.hashMerkleRoot ≠ block.buildMerkleTree)
    (.doS 100 "CheckBlock() : hashMerkleRoot mismatch")
  reject (fCheckSig ∧ block.checkBlockSignature = false)
    (.doS 100 "CheckBlock() : bad block signature")

/-- `CheckBlock(fCheckPOW, fCheckMerkleRoot, fCheckSig)`, with what it
reads of the world: the adjusted time and the height of `pindexBest`. -/
def CBlock.checkBlock (block : CBlock) (nAdjustedTime : ℤ) (nBestHeight : Option ℤ)
    (fCheckPOW fCheckMerkleRoot fCheckSig : Bool) : Except Failure Unit := do
  checkShape block nAdjustedTime fCheckPOW
  checkReward block ((block.vtx.head?).getD default) nBestHeight
  checkContents block fCheckMerkleRoot fCheckSig

/-- `pindexBest->nHeight`, where there is a best block -/
def NodeState.bestHeight (s : NodeState) : Option ℤ := s.pindexBest.map s.nHeight

end CryptoBullion
