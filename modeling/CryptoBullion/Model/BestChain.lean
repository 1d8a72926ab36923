import CryptoBullion.Model.Connect
/-!
# The best chain

`SetBestChain` makes a block the tip: the genesis block, a block on top of
the tip, or one on another branch, reached by `Reorganize`. A long branch
is split at the first block whose trust exceeds the tip's; the blocks
after it are postponed and connected afterwards, each in a database
transaction of its own.
-/

namespace CryptoBullion

variable [P : Platform]

/-! ## Database transactions -/

/-- `TxnBegin`, which asserts that none is open -/
def txnBegin : Step NodeState Failure Unit := do
  let s ← Step.get
  match s.txdb.activeBatch with
  | some _ => Step.fail (.crash "!activeBatch")
  | none => onTxDb (Step.modify Store.begin)

/-- `TxnAbort` -/
def txnAbort : Step NodeState Failure Unit := onTxDb (Step.modify Store.abort)

/-- `TxnCommit`: the batch is gone whether or not it could be written. -/
def txnCommit (msg : String) : Step NodeState Failure Unit := do
  let ans ← askOutside
  if ans.fDbOk then onTxDb (Step.modify Store.commit)
  else do
    txnAbort
    Step.fail (.error msg)

/-- `InvalidChainFound`: remember the largest trust that failed, in memory
and by a `CTxDB` of its own, whose write nobody checks. -/
def invalidChainFound (pindexNew : Uint256) : Step NodeState Failure Unit := do
  let s ← Step.get
  if s.bnBestInvalidTrust < s.bnChainTrust pindexNew then do
    Step.modify fun s => { s with bnBestInvalidTrust := s.bnChainTrust pindexNew }
    let ans ← askOutside
    if ans.fDbOk then
      onTxDb (Step.modify fun txdb => { txdb with
        committed := Store.apply txdb.committed
          (.bnBestInvalidTrust, some (.bigNum (s.bnChainTrust pindexNew))) })
    else pure ()
  else pure ()

/-- `ReadFromDisk(pindex)` -/
def readFromDisk (pindex : Uint256) (msg : String) : Step NodeState Failure CBlock := do
  let ans ← askOutside
  let s ← Step.get
  Step.lift (onFalse (do
    let block ← readBlock s.blockFiles ans (s.entry pindex).nFile (s.entry pindex).nBlockPos true
    reject (block.getHash ≠ pindex)
      (.error "CBlock::ReadFromDisk() : GetHash() doesn't match index")
    .ok block) (.error msg))

/-! ## Finding the fork -/

/-- `while (plonger->nHeight > nHeight) plonger = plonger->pprev` -/
def lowerTo (s : NodeState) (nHeight : ℤ) : ℕ → Uint256 → Except Failure Uint256
  | 0, _ => .error (.crash "endless loop")
  | fuel + 1, plonger =>
    if nHeight < s.nHeight plonger then
      match s.pprev plonger with
      | none => .error (.error "Reorganize() : plonger->pprev is null")
      | some prev => lowerTo s nHeight fuel prev
    else .ok plonger

/-- Find the fork: lower the longer branch to the other's height, then step
the other back, until they meet. -/
def findFork (s : NodeState) : ℕ → (pfork plonger : Uint256) → Except Failure Uint256
  | 0, _, _ => .error (.crash "endless loop")
  | fuel + 1, pfork, plonger =>
    if pfork = plonger then .ok pfork
    else do
      let plonger ← lowerTo s (s.nHeight pfork) (s.walkFuel plonger) plonger
      if pfork = plonger then .ok pfork
      else match s.pprev pfork with
        | none => .error (.error "Reorganize() : pfork->pprev is null")
        | some prev => findFork s fuel prev plonger

/-- `for (pindex = …; pindex != pfork; pindex = pindex->pprev)`: the
blocks passed, first one first. -/
def walkTo (s : NodeState) (pfork : Uint256) : ℕ → Uint256 → Except Failure (List Uint256)
  | 0, _ => .error (.crash "endless loop")
  | fuel + 1, pindex =>
    if pindex = pfork then .ok []
    else match s.pprev pindex with
      | none => .error (.crash "pindex")
      | some prev => do
        let rest ← walkTo s pfork fuel prev
        .ok (pindex :: rest)

/-! ## Reorganize -/

/-- Disconnect one block of the shorter branch. -/
def disconnectOne (pindex : Uint256) : Step NodeState Failure CBlock := do
  let block ← readFromDisk pindex "Reorganize() : ReadFromDisk for disconnect failed"
  Step.mapError (·.orElse (.error "Reorganize() : DisconnectBlock failed"))
    (logged (.disconnect pindex) (disconnectBlock block pindex))
  pure block

/-- Connect one block of the longer branch. -/
def connectOne (pindex : Uint256) : Step NodeState Failure CBlock := do
  let block ← readFromDisk pindex "Reorganize() : ReadFromDisk for connect failed"
  Step.mapError (·.orElse (.error "Reorganize() : ConnectBlock failed"))
    (logged (.connect pindex) (connectBlock block pindex))
  pure block

/-- `pindex->pprev->pnext = pnext`, where there is a parent. -/
def linkNext (pnext : Option Uint256) (pindex : Uint256) (s : NodeState) : NodeState :=
  match s.pprev pindex with
  | none => s
  | some prev => s.setEntry prev fun i => { i with pnext := pnext }

/-- Relink the block index along the new branch. -/
def relink (vDisconnect vConnect : List Uint256) (s : NodeState) : NodeState :=
  vConnect.foldl (fun s pindex => linkNext (some pindex) pindex s)
    (vDisconnect.foldl (fun s pindex => linkNext none pindex s) s)

/-- Drop transactions from the pool. -/
def removeAll (txs : List CTransaction) (s : NodeState) : NodeState :=
  { s with mempool := txs.foldl CTxMemPool.remove s.mempool }

/-- `Reorganize`, from its two lists on -/
def switchBranch (pindexNew : Uint256) (vDisconnect vConnect : List Uint256) :
    Step NodeState Failure Unit := do
  let disconnected ← Step.collect disconnectOne vDisconnect
  let connected ← Step.collect connectOne vConnect
  onTxDb (Step.modify (CTxDB.writeHashBestChain · pindexNew))
  txnCommit "Reorganize() : TxnCommit failed"
  Step.modify (relink vDisconnect vConnect)
  Step.forEach acceptToMemoryPool
    (disconnected.flatMap fun b => b.vtx.filter fun tx => !(tx.isCoinBase || tx.isCoinStake))
  Step.modify (removeAll (connected.flatMap (·.vtx)))

/-- `Reorganize` -/
def reorganize (pindexNew : Uint256) : Step NodeState Failure Unit := do
  let s ← Step.get
  match s.pindexBest with
  | none => Step.fail (.crash "pindexBest")
  | some best => do
    let pfork ← Step.lift (findFork s (s.walkFuel best) best pindexNew)
    let vDisconnect ← Step.lift (walkTo s pfork (s.walkFuel best) best)
    let vConnect ← Step.lift (walkTo s pfork (s.walkFuel pindexNew) pindexNew)
    switchBranch pindexNew vDisconnect vConnect.reverse

/-! ## SetBestChain -/

/-- `if (!f(…)) { TxnAbort(); InvalidChainFound(pindexNew); return g; }` -/
def orInvalid (pindexNew : Uint256) (g : Failure) (x : Step NodeState Failure Unit) :
    Step NodeState Failure Unit := do
  match ← x.attempt with
  | .ok () => pure ()
  | .error f =>
    if f.returnsFalse then do
      txnAbort
      invalidChainFound pindexNew
      Step.fail g
    else Step.fail f

/-- `SetBestChainInner`: attaches a block to the new best chain being built -/
def setBestChainInner (block : CBlock) (pindexNew : Uint256) : Step NodeState Failure Unit := do
  orInvalid pindexNew .quiet (do
    logged (.connect pindexNew) (connectBlock block pindexNew)
    onTxDb (Step.modify (CTxDB.writeHashBestChain · block.getHash)))
  txnCommit "SetBestChain() : TxnCommit failed"
  let s ← Step.get
  match s.pprev pindexNew with
  | none => Step.fail (.crash "pindexNew->pprev")
  | some _ => Step.modify (linkNext (some pindexNew) pindexNew)
  Step.modify (removeAll block.vtx)

/-- Limit how much needs to be done inside `Reorganize`: the first block of
the branch that exceeds the best trust, and the blocks after it, last one
first. -/
def splitBranch (s : NodeState) (bnBestTrust : ℕ) :
    ℕ → Uint256 → Except Failure (Uint256 × List Uint256)
  | 0, _ => .error (.crash "endless loop")
  | fuel + 1, pindexIntermediate =>
    match s.pprev pindexIntermediate with
    | none => .ok (pindexIntermediate, [])
    | some prev =>
      if bnBestTrust < s.bnChainTrust prev then do
        let r ← splitBranch s bnBestTrust fuel prev
        .ok (r.1, pindexIntermediate :: r.2)
      else .ok (pindexIntermediate, [])

/-- One postponed block, in a database transaction of its own. -/
def connectNext (pindex : Uint256) : Step NodeState Failure Unit := do
  let block ← readFromDisk pindex "SetBestChain() : ReadFromDisk failed"
  txnBegin
  setBestChainInner block pindex

/-- Connect further blocks. An error is not fatal: the loop stops there. -/
def connectPostponed : List Uint256 → Step NodeState Failure Unit
  | [] => pure ()
  | pindex :: rest => do
    match ← (connectNext pindex).attempt with
    | .ok () => connectPostponed rest
    | .error f => do
      Step.modify (·.log (.postponedFailed pindex))
      if f.returnsFalse then pure () else Step.fail f

/-- New best block. -/
def newBest (hash pindexNew : Uint256) (s : NodeState) : NodeState :=
  { s with
    hashBestChain := hash
    pindexBest := some pindexNew
    pblockindexFBBHLast := none
    nBestHeight := s.nHeight pindexNew
    bnBestChainTrust := s.bnChainTrust pindexNew }

/-- The genesis block becomes the chain. -/
def startChain (hash pindexNew : Uint256) : Step NodeState Failure Unit := do
  onTxDb (Step.modify (CTxDB.writeHashBestChain · hash))
  txnCommit "SetBestChain() : TxnCommit failed"
  Step.modify fun s => { s with pindexGenesisBlock := some pindexNew }

/-- Switch to a branch that does not grow from the tip. -/
def switchChain (pindexNew : Uint256) : Step NodeState Failure Unit := do
  let s ← Step.get
  match s.pindexBest with
  | none => Step.fail (.crash "pindexBest")
  | some best => do
    let r ← Step.lift (splitBranch s (s.bnChainTrust best) (s.walkFuel pindexNew) pindexNew)
    orInvalid pindexNew (.error "SetBestChain() : Reorganize failed") (reorganize r.1)
    connectPostponed r.2.reverse

/-- `CBlock::SetBestChain` -/
def setBestChain (block : CBlock) (pindexNew : Uint256) : Step NodeState Failure Unit := do
  txnBegin
  let s ← Step.get
  if s.pindexGenesisBlock = none ∧ block.getHash = hashGenesisBlock then
    startChain block.getHash pindexNew
  else if block.hashPrevBlock = s.hashBestChain then
    Step.mapError (·.orElse (.error "SetBestChain() : SetBestChainInner failed"))
      (setBestChainInner block pindexNew)
  else switchChain pindexNew
  Step.modify (newBest block.getHash pindexNew)

end CryptoBullion
