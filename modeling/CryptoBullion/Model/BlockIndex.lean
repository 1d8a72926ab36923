import CryptoBullion.Model.BestChain
import CryptoBullion.Model.Kernel
/-!
# Adding a block to the index

`AddToBlockIndex` gives a stored block its entry, writes it to the
database, and calls `SetBestChain` where the new entry has the most trust.
-/

namespace CryptoBullion

variable [P : Platform]

/-- `GetStakeEntropyBit(nHeight)` of a block -/
def CBlock.getStakeEntropyBit (block : CBlock) (nHeight : ℤ) : Bool :=
  if 9689 ≤ toUInt32 nHeight ∨ P.fTestNet then block.getHash.getLsbD 0
  else (P.hash160 block.vchBlockSig).getLsbD 159

/-- The entry of a block before its stake modifier is known: its place,
its parent, its height and trust, its entropy bit and proof hash. -/
def newEntry (s : NodeState) (block : CBlock) (nFile nBlockPos : ℕ) : Except Failure CBlockIndex :=
  let pprev := if s.mapBlockIndex.contains block.hashPrevBlock then some block.hashPrevBlock else none
  let i := CBlockIndex.ofBlock nFile nBlockPos block
  let nHeight := (pprev.map fun prev => s.nHeight prev + 1).getD 0
  let i := { i with
    pprev := pprev
    nHeight := nHeight
    bnChainTrust := (pprev.map s.bnChainTrust).getD 0 + getBlockTrust block.nBits block.isProofOfStake
    fStakeEntropy := block.getStakeEntropyBit nHeight }
  if i.fProofOfStake then
    match s.mapProofOfStake[block.getHash]? with
    | none => .error (.error "AddToBlockIndex() : hashProofOfStake not found in map")
    | some h => .ok { i with hashProofOfStake := h }
  else .ok i

/-- Construct new block index object. -/
def makeEntry (s : NodeState) (block : CBlock) (nFile nBlockPos : ℕ) : Except Failure CBlockIndex := do
  reject (s.mapBlockIndex.contains block.getHash)
    (.error "AddToBlockIndex() : already exists")
  let i ← newEntry s block nFile nBlockPos
  let m ← onFalse (computeNextStakeModifier s i.pprev i.nTime)
    (.error "AddToBlockIndex() : ComputeNextStakeModifier() failed")
  let i := { i with nStakeModifier := m.1, fGeneratedStakeModifier := m.2 }
  let nStakeModifierChecksum ← getStakeModifierChecksum s block.getHash i
  reject (checkStakeModifierCheckpoints i.nHeight nStakeModifierChecksum = false)
    (.error "AddToBlockIndex() : Rejected by stake modifier checkpoint")
  .ok { i with nStakeModifierChecksum := nStakeModifierChecksum }

/-- The entry goes into the map, in memory. -/
def insertEntry (hash : Uint256) (i : CBlockIndex) (s : NodeState) : NodeState :=
  { s with
    mapBlockIndex := s.mapBlockIndex.insert hash i
    setStakeSeen :=
      if i.fProofOfStake then insert (i.prevoutStake, i.nStakeTime) s.setStakeSeen
      else s.setStakeSeen }

/-- `AddToBlockIndex`, up to where it looks for a new best chain. The entry
stays in memory even when it cannot be written. -/
def indexBlock (block : CBlock) (nFile nBlockPos : ℕ) : Step NodeState Failure Unit := do
  let s ← Step.get
  let i ← Step.lift (makeEntry s block nFile nBlockPos)
  Step.modify (insertEntry block.getHash i)
  txnBegin
  onTxDb (Step.modify (CTxDB.writeBlockIndex · (CDiskBlockIndex.ofIndex i)))
  Step.mapError (·.orElse .quiet) (txnCommit "AddToBlockIndex() : TxnCommit failed")

/-- The `CTxDB` object goes out of scope, and an open batch with it. -/
def closeTxDb (x : Step NodeState Failure Unit) : Step NodeState Failure Unit :=
  fun s => ((x s).1, { (x s).2 with txdb := (x s).2.txdb.abort })

/-- `CBlock::AddToBlockIndex` -/
def addToBlockIndex (block : CBlock) (nFile nBlockPos : ℕ) : Step NodeState Failure Unit :=
  closeTxDb do
    indexBlock block nFile nBlockPos
    let s ← Step.get
    if s.bnBestChainTrust < s.bnChainTrust block.getHash then
      Step.mapError (·.orElse .quiet) (setBestChain block block.getHash)
    else pure ()

end CryptoBullion
