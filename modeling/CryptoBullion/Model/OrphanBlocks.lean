import CryptoBullion.Model.AcceptBlock
/-!
# Processing a block

`ProcessBlock` in full. A block whose parent is not known is kept, under
its own hash and under its parent's, and its proof of stake with it; a
block that is accepted takes out of there all that was waiting for it, and
so on from one accepted block to the next.
-/

namespace CryptoBullion

variable [P : Platform]

/-! ## Against bogus blocks -/

/-- The loop of `ComputeMinWork`: the target doubles for every day, or part
of one, up to the limit. -/
def minWorkLoop (bnTargetLimit : ℤ) : ℕ → (bnResult nTime : ℤ) → ℤ
  | 0, bnResult, _ => bnResult
  | fuel + 1, bnResult, nTime =>
    if 0 < nTime ∧ bnResult < bnTargetLimit then
      minWorkLoop bnTargetLimit fuel (bnResult * 2) (nTime - 24 * 60 * 60)
    else bnResult

/-- `ComputeMinWork` -/
def computeMinWork (nBase : ℕ) (nTime : ℤ) : ℕ :=
  getCompact (min (minWorkLoop bnProofOfWorkLimit (nTime.toNat / (24 * 60 * 60) + 1)
    (setCompact nBase * 2) nTime) bnProofOfWorkLimit)

/-- What `ProcessBlock` asks of a proof-of-work block that does not grow
from the tip: to be no easier than the checkpoint allows. -/
def FullNode.checkMinWork (s : FullNode) (block : CBlock) : Except Failure Unit :=
  match s.getLastSyncCheckpoint with
  | none => .ok ()
  | some pcheckpoint =>
    if block.isProofOfStake || block.hashPrevBlock = s.node.hashBestChain then .ok ()
    else do
      let fWanted ← s.orphans.wantedByPendingSyncCheckpoint block.getHash
      if fWanted then .ok ()
      else
        let deltaTime := block.getBlockTime - (s.node.entry pcheckpoint).nTime
        let last := getLastBlockIndex s.node false (s.node.walkFuel pcheckpoint) pcheckpoint
        reject (setCompact (computeMinWork (s.node.entry last).nBits deltaTime) <
            setCompact block.nBits)
          (.error "ProcessBlock() : block with too little proof-of-work")

/-! ## Parts of ProcessBlock -/

/-- Check the proof of stake, where there is one, and remember its hash. A
block that fails is no error: it may have come too early. -/
def checkStake (block : CBlock) : Step FullNode Failure Unit :=
  if block.isProofOfStake then do
    let ans ← onNode askOutside
    let s ← Step.get
    let hashProofOfStake ← Step.lift (onFalse
      (checkProofOfStake s.node ans ((block.vtx[1]?).getD default) block.nBits) .quiet)
    Step.modify fun s => { s with node := { s.node with
      mapProofOfStake := s.node.mapProofOfStake.insertIfNew block.getHash hashProofOfStake } }
  else pure ()

/-- A proof of stake that an orphan has already is let through where an
orphan, or the pending checkpoint, waits for the block. -/
def FullNode.admitsStake (s : FullNode) (block : CBlock) : Except Failure Unit :=
  if decide (block.getProofOfStake ∈ s.setStakeSeenOrphan) &&
      !s.orphans.mapOrphanBlocksByPrev.any (·.1 = block.getHash) then do
    let fWanted ← s.orphans.wantedByPendingSyncCheckpoint block.getHash
    reject (fWanted = false) (.error "ProcessBlock() : duplicate proof-of-stake for orphan block")
  else .ok ()

/-- Remember the proof of stake of an orphan, where it has one. -/
def keepStake (block : CBlock) : Step FullNode Failure Unit :=
  if block.isProofOfStake then do
    let s ← Step.get
    Step.lift (s.admitsStake block)
    Step.modify fun s => { s with
      setStakeSeenOrphan := insert block.getProofOfStake s.setStakeSeenOrphan }
  else pure ()

/-- Shunt a block off to the holding area. `pfrom` is asked for the root of
its branch, which has to be found. -/
def keepOrphanBlock (pfrom : Bool) (block : CBlock) : Step FullNode Failure Unit := do
  keepStake block
  Step.modify fun s => { s with orphans := { s.orphans with
    mapOrphanBlocks := s.orphans.mapOrphanBlocks.insertIfNew block.getHash block
    mapOrphanBlocksByPrev := s.orphans.mapOrphanBlocksByPrev ++ [(block.hashPrevBlock, block)] } }
  let s ← Step.get
  if pfrom then
    Step.lift (match s.orphans.wantedByOrphan s.orphans.mapOrphanBlocks.size block with
      | none => .error (.crash "GetOrphanRoot")
      | some _ => .ok ())
  else pure ()

/-- `AcceptBlock`, noted -/
def attemptBlock (block : CBlock) : Step FullNode Failure (Except Failure Unit) := do
  let result ← (acceptBlock block).attempt
  Step.modify fun s => { s with
    attempts := ⟨block.getHash, result, s.node.mapBlockIndex.contains block.getHash⟩ :: s.attempts }
  pure result

omit P in
/-- The blocks that wait for `hashPrev`, the first to come first. -/
def OrphanBlocks.waiting (orphans : OrphanBlocks) (hashPrev : Uint256) : List CBlock :=
  (orphans.mapOrphanBlocksByPrev.filter (·.1 = hashPrev)).map (·.2)

/-- An orphan that was tried is forgotten, whatever came of it. -/
def forgetOrphan (block : CBlock) : Step FullNode Failure Unit :=
  Step.modify fun s => { s with
    orphans := { s.orphans with mapOrphanBlocks := s.orphans.mapOrphanBlocks.erase block.getHash }
    setStakeSeenOrphan := s.setStakeSeenOrphan.erase block.getProofOfStake }

/-- One turn of the work queue's inner loop; whether the block goes onto the
queue. -/
def tryOrphanBlock (block : CBlock) : Step FullNode Failure Bool := do
  match ← attemptBlock block with
  | .ok () => do
    forgetOrphan block
    pure true
  | .error f =>
    if f.returnsFalse then do
      forgetOrphan block
      pure false
    else Step.fail f

/-- The inner loop of the work queue: what was accepted. -/
def tryOrphanBlocks : List CBlock → Step FullNode Failure (List Uint256)
  | [] => pure []
  | block :: rest => do
    let fAccepted ← tryOrphanBlock block
    let accepted ← tryOrphanBlocks rest
    pure (if fAccepted then block.getHash :: accepted else accepted)

/-- `for (unsigned int i = 0; i < vWorkQueue.size(); i++)`, from where the
queue has got to -/
def workQueue : ℕ → List Uint256 → Step FullNode Failure Unit
  | _, [] => pure ()
  | 0, _ :: _ => Step.fail (.crash "endless loop")
  | fuel + 1, hashPrev :: rest => do
    let s ← Step.get
    let accepted ← tryOrphanBlocks (s.orphans.waiting hashPrev)
    Step.modify fun s => { s with orphans := { s.orphans with
      mapOrphanBlocksByPrev := s.orphans.mapOrphanBlocksByPrev.filter (·.1 ≠ hashPrev) } }
    workQueue fuel (rest ++ accepted)

/-- Store a block to disk, and recursively process what depended on it.
Each turn of the queue but the first comes from an orphan that was taken
out. -/
def acceptAndFollow (block : CBlock) : Step FullNode Failure Unit := do
  match ← attemptBlock block with
  | .error f => Step.fail (f.orElse (.error "ProcessBlock() : AcceptBlock FAILED"))
  | .ok () => do
    let s ← Step.get
    workQueue (s.orphans.mapOrphanBlocksByPrev.length + 1) [block.getHash]

/-- `ProcessBlock`. What `attempts` had is of an earlier call. -/
def processBlock (pfrom : Bool) (block : CBlock) : Step FullNode Failure Unit := do
  Step.modify fun s => { s with attempts := [] }
  let ans ← onNode askOutside
  let s ← Step.get
  Step.lift (processBlockChecks block s.node s.orphans ans.nAdjustedTime)
  checkStake block
  let s ← Step.get
  Step.lift (s.checkMinWork block)
  if s.node.mapBlockIndex.contains block.hashPrevBlock then acceptAndFollow block
  else keepOrphanBlock pfrom block

end CryptoBullion
