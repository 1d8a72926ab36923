import CryptoBullion.Model.Checkpoints
import CryptoBullion.Model.Script
import CryptoBullion.Model.Target
import CryptoBullion.Model.Serialize
import CryptoBullion.Model.Run
/-!
# Accepting a block

`AcceptBlock`: what a block is asked once its parent is known, writing it
to disk, adding it to the index, and the pending checkpoint. A block that
was added stays in the index even if what comes after it fails.
-/

namespace CryptoBullion

/-- `END_POW_TIME` -/
def endPowTime : ℕ := hardforkTime + 60 * 60 * 24
/-- `nOldMaxClockDrift` -/
def nOldMaxClockDrift : ℤ := 2 * 60 * 60

/-! ## Where a block is written -/

/-- The length of a block file, up to its last complete block. -/
def fileEnd (files : List StoredBlock) (nFile : ℕ) : ℕ :=
  ((files.filter (·.nFile = nFile)).map StoredBlock.endPos).foldl max 0

/-- `AppendBlockFile`, for `fuel` files: the first file from `nFile` on that
stays under two gigabytes -/
def appendFile (files : List StoredBlock) : ℕ → ℕ → ℕ
  | 0, nFile => nFile
  | fuel + 1, nFile =>
    if fileEnd files nFile < 0x7F000000 - maxSize then nFile else appendFile files fuel (nFile + 1)

/-- The file and the offset `WriteToDisk` returns: eight bytes behind what
is there. Every file that is full holds a block. -/
def appendPos (files : List StoredBlock) : ℕ × ℕ :=
  let nFile := appendFile files files.length 1
  (nFile, fileEnd files nFile + 8)

/-- `WriteToDisk` -/
def writeToDisk (block : CBlock) : Step NodeState Failure (ℕ × ℕ) := do
  let ans ← askOutside
  let s ← Step.get
  if ans.fDbOk then do
    let pos := appendPos s.blockFiles
    Step.modify fun s => { s with blockFiles := s.blockFiles ++ [⟨pos.1, pos.2, block⟩] }
    pure pos
  else Step.fail (.error "AcceptBlock() : WriteToDisk failed")

variable [P : Platform]

/-- `CheckSync`, and what `-nosynccheckpoints` makes of it. -/
def FullNode.checkSyncUnless (s : FullNode) (hash pindexPrev : Uint256) : Except Failure Unit :=
  match s.checkSync hash pindexPrev with
  | .ok () => .ok ()
  | .error f =>
    if f.returnsFalse then
      reject (s.fNoSyncCheckpoints = false)
        (.error "AcceptBlock() : rejected by synchronized checkpoint")
    else .error f

/-- The coinbase starts with the serialised height. -/
def CBlock.checkHeight (block : CBlock) (nHeight : ℤ) : Except Failure Unit :=
  match block.vtx.head?.bind (·.vin.head?) with
  | none => .error (.crash "vtx[0].vin[0]")
  | some txin =>
    reject ((pushInt64 nHeight).isPrefixOf txin.scriptSig = false)
      (.doS 100 "AcceptBlock() : block height mismatch in coinbase")

/-- What `AcceptBlock` asks before it writes anything. -/
def FullNode.acceptBlockChecks (s : FullNode) (block : CBlock) : Except Failure Unit := do
  let hash := block.getHash
  reject (s.node.mapBlockIndex.contains hash)
    (.error "AcceptBlock() : block already in mapBlockIndex")
  reject (s.node.mapBlockIndex.contains block.hashPrevBlock = false)
    (.doS 10 "AcceptBlock() : prev block not found")
  let pindexPrev := block.hashPrevBlock
  let prev := s.node.entry pindexPrev
  let nHeight := prev.nHeight + 1
  reject (block.isProofOfWork && endPowTime ≤ prev.nTime && !P.fTestNet)
    (.doS 100 "AcceptBlock() : reject proof-of-work")
  reject (block.nBits ≠ getNextTargetRequired s.node pindexPrev block.isProofOfStake)
    (.doS 100 (if block.isProofOfWork then "AcceptBlock() : incorrect proof-of-work"
      else "AcceptBlock() : incorrect proof-of-stake"))
  let driftAllowed := if nHeight < 405000 then nOldMaxClockDrift else nMaxClockDrift
  reject (block.getBlockTime ≤ getMedianTimePast s.node pindexPrev ∨
      block.getBlockTime + driftAllowed < prev.getBlockTime)
    (.error "AcceptBlock() : block's timestamp is too early")
  -- a block this late has a time, so nothing is judged by the clock
  reject (block.vtx.any fun tx =>
      !tx.isFinal s.node.nBestHeight 0 nHeight block.getBlockTime)
    (.doS 10 "AcceptBlock() : contains a non-final transaction")
  reject (checkHardened nHeight hash = false)
    (.doS 100 "AcceptBlock() : rejected by hardened checkpoint lock-in")
  s.checkSyncUnless hash pindexPrev
  reject (block.nVersion < 3 ∧ (P.fTestNet = false ∧ 14060 < nHeight ∨ P.fTestNet ∧ 0 < nHeight))
    (.error "CheckBlock() : rejected nVersion < 3 block")
  block.checkHeight nHeight

/-- Write a block to disk and add it to the index. -/
def storeBlock (block : CBlock) : Step FullNode Failure Unit := do
  -- `CheckDiskSpace`
  let ans ← onNode askOutside
  if ans.fDbOk then do
    let pos ← onNode (writeToDisk block)
    Step.mapError (·.orElse (.error "AcceptBlock() : AddToBlockIndex failed"))
      (onNode (addToBlockIndex block pos.1 pos.2))
  else Step.fail (.error "AcceptBlock() : out of disk space")

/-- A call whose returned flag nobody looks at. -/
def ignoreFalse {σ : Type} (x : Step σ Failure Unit) : Step σ Failure Unit := do
  match ← x.attempt with
  | .ok () => pure ()
  | .error f => if f.returnsFalse then pure () else Step.fail f

/-- `CBlock::AcceptBlock` -/
def acceptBlock (block : CBlock) : Step FullNode Failure Unit := do
  let s ← Step.get
  Step.lift (s.acceptBlockChecks block)
  storeBlock block
  ignoreFalse acceptPendingSyncCheckpoint

end CryptoBullion
