import CryptoBullion.Model.Inputs
/-!
# Wallets

How a registered wallet hears of a block: `AddToWalletIfInvolvingMe` for
each transaction of a block that was connected, `DisableTransaction` for
each coinstake of one that was disconnected. The wallet file is taken to
accept every write; a transaction's receipt time, order and labels, and
the cached sums, are left out.
-/

namespace CryptoBullion

namespace CWalletTx

/-- `CWalletTx(pwallet, tx)` -/
def ofTx (tx : CTransaction) : CWalletTx where
  tx := tx
  hashBlock := 0
  vMerkleBranch := []
  nIndex := -1
  fFromMe := false
  vfSpent := []

/-- `MarkSpent` and `MarkUnspent`: `vfSpent.resize(vout.size())` and one
flag assigned -/
def setSpent (w : CWalletTx) (nOut : ℕ) (fSpent : Bool) : CWalletTx :=
  let n := w.tx.vout.length
  { w with vfSpent := ((w.vfSpent.take n) ++ List.replicate (n - w.vfSpent.length) false).set nOut fSpent }

/-- `IsSpent` -/
def isSpent (w : CWalletTx) (nOut : ℕ) : Bool := (w.vfSpent[nOut]?).getD false

/-- `UpdateSpent`: flags are only ever raised. -/
def updateSpent (w : CWalletTx) (vfNewSpent : List Bool) : CWalletTx :=
  { w with vfSpent := w.vfSpent.mapIdx fun i f => f || (vfNewSpent[i]?).getD false }

variable [P : Platform]

/-- `SetMerkleBranch(pblock)`: the block, the place in it and the branch -/
def setMerkleBranch (w : CWalletTx) (block : CBlock) : CWalletTx :=
  let w := { w with hashBlock := block.getHash }
  match block.vtx.idxOf? w.tx with
  | none => { w with vMerkleBranch := [], nIndex := -1 }
  | some n => { w with vMerkleBranch := block.getMerkleBranch n, nIndex := n }

end CWalletTx

namespace CWallet

variable [P : Platform]

/-- `IsMine(txout)` -/
def isMineOut (w : CWallet) (o : CTxOut) : Bool := P.isMine w.keystore o.scriptPubKey

/-- `IsMine(tx)` -/
def isMine (w : CWallet) (tx : CTransaction) : Bool := tx.vout.any w.isMineOut

/-- The wallet's own output an input spends. -/
def ownOutput (w : CWallet) (o : COutPoint) : Option CTxOut :=
  match w.mapWallet[o.hash]? with
  | none => none
  | some prev =>
    match prev.tx.vout[o.n]? with
    | none => none
    | some txout => if w.isMineOut txout then some txout else none

/-- The loop of `GetDebit(tx)`. -/
def debitLoop (w : CWallet) : ℤ → List CTxIn → Except Failure ℤ
  | nDebit, [] => .ok nDebit
  | nDebit, txin :: rest =>
    let nDebit := nDebit + ((w.ownOutput txin.prevout).map (·.nValue)).getD 0
    if moneyRange nDebit then debitLoop w nDebit rest
    else .error (.exception "CWallet::GetDebit() : value out of range")

/-- `IsFromMe` -/
def isFromMe (w : CWallet) (tx : CTransaction) : Except Failure Bool := do
  let nDebit ← debitLoop w 0 tx.vin
  .ok (0 < nDebit)

/-- Flag one own output that an input spends. An output is not flagged
spent twice; it is given back whatever its flag. -/
def flagInput (fSpent : Bool) (w : CWallet) (o : COutPoint) : CWallet :=
  match w.mapWallet[o.hash]?, w.ownOutput o with
  | some prev, some _ =>
    if fSpent && prev.isSpent o.n then w
    else { w with mapWallet := w.mapWallet.insert o.hash (prev.setSpent o.n fSpent) }
  | _, _ => w

/-- `WalletUpdateSpent` -/
def walletUpdateSpent (w : CWallet) (tx : CTransaction) : CWallet :=
  tx.vin.foldl (fun w txin => w.flagInput true txin.prevout) w

/-- `AddToWallet`'s merge of what is new about a transaction it has. -/
def mergeTx (wtx wtxIn : CWalletTx) : CWalletTx :=
  let wtx :=
    if wtxIn.hashBlock ≠ 0 ∧ wtxIn.hashBlock ≠ wtx.hashBlock then
      { wtx with hashBlock := wtxIn.hashBlock }
    else wtx
  let wtx :=
    if wtxIn.nIndex ≠ -1 then
      { wtx with vMerkleBranch := wtxIn.vMerkleBranch, nIndex := wtxIn.nIndex }
    else wtx
  let wtx := if wtxIn.fFromMe then { wtx with fFromMe := true } else wtx
  wtx.updateSpent wtxIn.vfSpent

/-- `AddToWallet` -/
def addToWallet (w : CWallet) (wtxIn : CWalletTx) : CWallet :=
  let hash := wtxIn.tx.getHash
  let wtx := match w.mapWallet[hash]? with
    | none => wtxIn
    | some wtx => mergeTx wtx wtxIn
  walletUpdateSpent { w with mapWallet := w.mapWallet.insert hash wtx } wtx.tx

/-- Whether `AddToWalletIfInvolvingMe` takes a transaction in. -/
def involves (w : CWallet) (tx : CTransaction) : Except Failure Bool :=
  if w.mapWallet.contains tx.getHash || w.isMine tx then .ok true else w.isFromMe tx

/-- `AddToWalletIfInvolvingMe(tx, pblock, true)` -/
def addToWalletIfInvolvingMe (w : CWallet) (tx : CTransaction) (block : CBlock) :
    Except Failure CWallet := do
  let fInvolves ← w.involves tx
  .ok (if fInvolves then w.addToWallet ((CWalletTx.ofTx tx).setMerkleBranch block)
    else w.walletUpdateSpent tx)

/-- `DisableTransaction`: a coinstake of ours that is disconnected gives
its inputs back. -/
def disableTransaction (w : CWallet) (tx : CTransaction) : Except Failure CWallet := do
  let fFromMe ← w.isFromMe tx
  .ok (if tx.isCoinStake && fFromMe then
    tx.vin.foldl (fun w txin => w.flagInput false txin.prevout) w else w)

end CWallet

variable [P : Platform]

/-- One operation on every registered wallet, in turn. An exception keeps
what was done to those before. -/
def eachWallet (f : CWallet → Except Failure CWallet) :
    Step (List CWallet) Failure Unit := fun ws =>
  match ws with
  | [] => (.ok (), [])
  | w :: rest =>
    match f w with
    | .error e => (.error e, w :: rest)
    | .ok w' =>
      let r := eachWallet f rest
      (r.1, w' :: r.2)

/-- `SyncWithWallets(tx, pblock, fUpdate, fConnect)`, as `ConnectBlock`
calls it (`fConnect`, with `fUpdate`) and as `DisconnectBlock` does. -/
def syncWithWallets (tx : CTransaction) (block : CBlock) (fConnect : Bool) :
    Step (List CWallet) Failure Unit :=
  if fConnect then eachWallet (·.addToWalletIfInvolvingMe tx block)
  else if tx.isCoinStake then eachWallet (·.disableTransaction tx)
  else pure ()

end CryptoBullion
