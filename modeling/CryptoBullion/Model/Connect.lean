import CryptoBullion.Model.CheckBlock
import CryptoBullion.Model.Pool
import CryptoBullion.Model.Wallet
/-!
# Connecting and disconnecting a block

`ConnectBlock` runs a block's transactions against the index as it stands
inside the open batch, keeps their effects in a map of queued changes, and
writes them out at the end with the block's own entry and its parent's new
successor. `DisconnectBlock` takes a block's transactions back, last one
first. Both tell the wallets.
-/

namespace CryptoBullion

variable [P : Platform]

/-! ## Parts of the state -/

/-- A step on the transaction database. -/
def onTxDb {α : Type} (x : Step CTxDB Failure α) : Step NodeState Failure α :=
  Step.zoom (·.txdb) (fun txdb s => { s with txdb := txdb }) x

/-- A step on the registered wallets. -/
def onWallets {α : Type} (x : Step (List CWallet) Failure α) : Step NodeState Failure α :=
  Step.zoom (·.wallets) (fun ws s => { s with wallets := ws }) x

/-- Ask the world outside. -/
def askOutside : Step NodeState Failure Answer := fun s => (.ok s.ask.1, s.ask.2)

/-- Record how a step ended. -/
def logged (e : Bool → Event) (x : Step NodeState Failure Unit) : Step NodeState Failure Unit :=
  fun s => ((x s).1, (x s).2.log (e (x s).1.isOk))

section Apply

variable {α : Type} {s : NodeState} {g : CTxDB → CTxDB}

omit [P : Platform]

@[simp] theorem onTxDb_modify_apply :
    (onTxDb (Step.modify g) : Step NodeState Failure Unit) s = (.ok (), { s with txdb := g s.txdb }) :=
  rfl

@[simp] theorem onTxDb_modify_bind {f : Unit → Step NodeState Failure α} :
    (onTxDb (Step.modify g) >>= f) s = f () { s with txdb := g s.txdb } := rfl

@[simp] theorem askOutside_apply : askOutside s = (.ok s.ask.1, s.ask.2) := rfl

@[simp] theorem askOutside_bind {f : Answer → Step NodeState Failure α} :
    (askOutside >>= f) s = f s.ask.1 s.ask.2 := rfl

end Apply

/-! ## DisconnectBlock -/

/-- `DisconnectBlock` -/
def disconnectBlock (block : CBlock) (pindex : Uint256) : Step NodeState Failure Unit := do
  Step.forEach (fun tx => onTxDb tx.disconnectInputs) block.vtx.reverse
  let s ← Step.get
  match s.pprev pindex with
  | none => pure ()
  | some prev => onTxDb (Step.modify (CTxDB.writeBlockIndex ·
      { CDiskBlockIndex.ofIndex (s.entry prev) with hashNext := 0 }))
  Step.forEach (fun tx => onWallets (syncWithWallets tx block false)) block.vtx

/-! ## ConnectBlock -/

/-- The running totals of `ConnectBlock`'s loop. -/
structure Tally where
  mapQueuedChanges : Map Uint256 CTxIndex
  nFees : ℤ
  nValueIn : ℤ
  nValueOut : ℤ
  nStakeReward : ℤ
  nSigOps : ℕ
  nTxPos : ℕ

/-- Nothing counted yet; the first transaction starts at `nTxPos`. -/
def Tally.start (nTxPos : ℕ) : Tally where
  mapQueuedChanges := ∅
  nFees := 0
  nValueIn := 0
  nValueOut := 0
  nStakeReward := 0
  nSigOps := 0
  nTxPos := nTxPos

/-- A transaction may not overwrite one that has an output left. -/
def overwrites (txdb : CTxDB) (hashTx : Uint256) : Bool :=
  match txdb.readTxIndex hashTx with
  | none => false
  | some txindexOld => txindexOld.vSpent.any (·.isNull)

/-- A coinbase only adds what it pays. -/
def tallyCoinBase (t : Tally) (tx : CTransaction) : Except Failure Tally := do
  let nTxValueOut ← tx.getValueOut
  .ok { t with nValueOut := t.nValueOut + nTxValueOut }

/-- Any other transaction fetches its inputs, is counted and spends them. -/
def tallySpend (s : NodeState) (ans : Answer) (pindex : Uint256) (posThisTx : CDiskTxPos)
    (t : Tally) (tx : CTransaction) : Except Failure Tally := do
  let mapInputs ← onFalse (tx.fetchInputs s ans t.mapQueuedChanges true false) .quiet
  let nP2SH ← tx.getP2SHSigOpCount mapInputs
  reject (maxBlockSigops < t.nSigOps + nP2SH) (.doS 100 "ConnectBlock() : too many sigops")
  let nTxValueIn ← tx.getValueIn mapInputs
  let nTxValueOut ← tx.getValueOut
  let mapQueuedChanges ← onFalse
    (tx.connectInputs s mapInputs t.mapQueuedChanges posThisTx pindex true false true) .quiet
  .ok { t with
    mapQueuedChanges := mapQueuedChanges
    nSigOps := t.nSigOps + nP2SH
    nValueIn := t.nValueIn + nTxValueIn
    nValueOut := t.nValueOut + nTxValueOut
    nFees := if tx.isCoinStake then t.nFees else t.nFees + (nTxValueIn - nTxValueOut)
    nStakeReward := if tx.isCoinStake then nTxValueOut - nTxValueIn else t.nStakeReward }

/-- One turn of `ConnectBlock`'s loop. -/
def tallyTx (s : NodeState) (ans : Answer) (pindex : Uint256) (t : Tally) (tx : CTransaction) :
    Except Failure Tally := do
  reject (overwrites s.txdb tx.getHash) .quiet
  let nSigOps := t.nSigOps + tx.getLegacySigOpCount
  reject (maxBlockSigops < nSigOps) (.doS 100 "ConnectBlock() : too many sigops")
  let posThisTx : CDiskTxPos := ⟨(s.entry pindex).nFile, (s.entry pindex).nBlockPos, t.nTxPos⟩
  let t := { t with nSigOps := nSigOps, nTxPos := t.nTxPos + tx.getSerializeSize }
  let t ← if tx.isCoinBase then tallyCoinBase t tx else tallySpend s ans pindex posThisTx t tx
  .ok { t with
    mapQueuedChanges :=
      t.mapQueuedChanges.insert tx.getHash (CTxIndex.fresh posThisTx tx.vout.length) }

/-- `ConnectBlock`'s loop. -/
def tallyTxs (s : NodeState) (ans : Answer) (pindex : Uint256) :
    Tally → List CTransaction → Except Failure Tally
  | t, [] => .ok t
  | t, tx :: rest => do
    let t ← tallyTx s ans pindex t tx
    tallyTxs s ans pindex t rest

/-- The conversion of a `uint64` to `int64`. -/
def toInt64 (n : ℕ) : ℤ := if n < 2 ^ 63 then n else (n : ℤ) - 2 ^ 64

/-- The most a coinstake may earn, from its coin age, its parent and the
fees of the block. -/
def stakeRewardLimit (s : NodeState) (pindex : Uint256) (nTime nCoinAge : ℕ) (nFees : ℤ) : ℤ :=
  match s.pprev pindex with
  | none => getProofOfStakeReward (toInt64 nCoinAge) 0 nTime 1 0 nFees
  | some prev => getProofOfStakeReward (toInt64 nCoinAge) (s.entry prev).nBits nTime
      (toUInt32 (s.nHeight prev)) (s.entry prev).nMoneySupply nFees

/-- A proof-of-stake block may not pay itself too much. -/
def checkStakeReward (s : NodeState) (ans : Answer) (pindex : Uint256) (block : CBlock)
    (t : Tally) : Except Failure Unit := do
  if block.isProofOfStake then
    let nCoinAge ← onFalse
      (((block.vtx[1]?).getD default).getCoinAge s.txdb s.blockFiles ans)
      (.error "ConnectInputs() : unable to get coin age for coinstake")
    reject (stakeRewardLimit s pindex block.nTime nCoinAge t.nFees < t.nStakeReward)
      (.doS 100 "ConnectBlock() : coinstake pays too much")

/-- The fields `ConnectBlock` sets in the block's own entry. -/
def recordSupply (s : NodeState) (pindex : Uint256) (t : Tally) (i : CBlockIndex) : CBlockIndex :=
  { i with
    nMint := t.nValueOut - t.nValueIn + t.nFees
    nMoneySupply :=
      ((s.pprev pindex).map fun prev => (s.entry prev).nMoneySupply).getD 0 +
        t.nValueOut - t.nValueIn }

/-- Write queued txindex changes. -/
def writeQueued (changes : List (Uint256 × CTxIndex)) (txdb : CTxDB) : CTxDB :=
  changes.foldl (fun txdb c => txdb.updateTxIndex c.1 c.2) txdb

/-- What `ConnectBlock` decides before it changes anything. -/
def tallyBlock (s : NodeState) (ans : Answer) (block : CBlock) (pindex : Uint256) :
    Except Failure Tally := do
  onFalse (block.checkBlock ans.nAdjustedTime s.bestHeight true true true) .quiet
  let t ← tallyTxs s ans pindex
    (Tally.start ((s.entry pindex).nBlockPos + block.firstTxOffset)) block.vtx
  checkStakeReward s ans pindex block t
  .ok t

/-- `ConnectBlock`, `fJustCheck` false as every caller has it -/
def connectBlock (block : CBlock) (pindex : Uint256) : Step NodeState Failure Unit := do
  let ans ← askOutside
  let s ← Step.get
  let t ← Step.lift (tallyBlock s ans block pindex)
  Step.modify (·.setEntry pindex (recordSupply s pindex t))
  let s ← Step.get
  onTxDb (Step.modify (CTxDB.writeBlockIndex · (CDiskBlockIndex.ofIndex (s.entry pindex))))
  onTxDb (Step.modify (writeQueued t.mapQueuedChanges.toList))
  match s.pprev pindex with
  | none => pure ()
  | some prev => onTxDb (Step.modify (CTxDB.writeBlockIndex ·
      { CDiskBlockIndex.ofIndex (s.entry prev) with hashNext := pindex }))
  Step.forEach (fun tx => onWallets (syncWithWallets tx block true)) block.vtx

end CryptoBullion
