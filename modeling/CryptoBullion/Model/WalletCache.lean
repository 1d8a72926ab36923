import CryptoBullion.Model.Accounting
import CryptoBullion.Common.Step
/-!
# The wallet's caches

A transaction of the wallet keeps the sums it was asked for until they are
marked dirty: `fDebitCached` with `nDebitCached`, and the same for its
credit and for what of it can still be spent. Here the caches are there,
and so are the operations that set them, clear them and change what they
were computed from. `fChangeCached` is left out, and the best chain does
not move.
-/

namespace CryptoBullion

namespace Cached

/-- `CWalletTx`, with its caches. Of a cache whose flag is down there is
nothing. -/
structure CWalletTx extends toPlain : Accounting.CWalletTx where
  nDebitCached : Option ℤ
  nCreditCached : Option ℤ
  nAvailableCreditCached : Option ℤ
  deriving DecidableEq, Repr

/-- `CWallet` -/
structure CWallet where
  mapWallet : Map Uint256 CWalletTx
  keystore : CKeyStore
  fFileBacked : Bool

/-- What the sums are computed from: the transactions and the keys. -/
def CWallet.plain (w : CWallet) : Accounting.CWallet where
  mapWallet := w.mapWallet.map fun _ wtx => wtx.toPlain
  keystore := w.keystore
  mapAddressBook := []
  laccentries := []

/-! ## A transaction and its flags -/

namespace CWalletTx

/-- A `CWalletTx` that was not asked for anything yet. -/
def unasked (wtx : CryptoBullion.CWalletTx) : CWalletTx :=
  { wtx with
    vtxPrev := []
    strFromAccount := ""
    nDebitCached := none
    nCreditCached := none
    nAvailableCreditCached := none }

/-- `CWalletTx(pwallet, tx)`, and `SetMerkleBranch` where there is a block -/
def ofTx [Platform] (tx : CTransaction) (pblock : Option CBlock) : CWalletTx :=
  match pblock with
  | none => unasked (CryptoBullion.CWalletTx.ofTx tx)
  | some block => unasked ((CryptoBullion.CWalletTx.ofTx tx).setMerkleBranch block)

/-- `MarkDirty` -/
def markDirty (wtx : CWalletTx) : CWalletTx :=
  { wtx with nDebitCached := none, nCreditCached := none, nAvailableCreditCached := none }

/-- What `MarkSpent` and `MarkUnspent` do to an output there is: the flag
is assigned, and the cache falls if that changes it. -/
def setFlag (wtx : CWalletTx) (nOut : ℕ) (fSpent : Bool) : CWalletTx :=
  { wtx with
    vfSpent := (wtx.setSpent nOut fSpent).vfSpent
    nAvailableCreditCached := if wtx.isSpent nOut = fSpent then wtx.nAvailableCreditCached else none }

/-- `MarkSpent` -/
def markSpent (nOut : ℕ) : Step CWalletTx Failure Unit := do
  let wtx ← Step.get
  if wtx.tx.vout.length ≤ nOut then
    Step.fail (.exception "CWalletTx::MarkSpent() : nOut out of range")
  else Step.modify fun wtx => wtx.setFlag nOut true

/-- `MarkUnspent` -/
def markUnspent (nOut : ℕ) : Step CWalletTx Failure Unit := do
  let wtx ← Step.get
  if wtx.tx.vout.length ≤ nOut then
    Step.fail (.exception "CWalletTx::MarkUnspent() : nOut out of range")
  else Step.modify fun wtx => wtx.setFlag nOut false

/-- What `AddToWallet` merges into a transaction it has. `BindWallet` has
marked it dirty, so that `UpdateSpent` finds no cache to clear. -/
def merge (wtx wtxIn : CWalletTx) : CWalletTx :=
  let merged := CryptoBullion.CWallet.mergeTx wtx.toCWalletTx wtxIn.toCWalletTx
  { wtx.markDirty with
    hashBlock := merged.hashBlock
    vMerkleBranch := merged.vMerkleBranch
    nIndex := merged.nIndex
    fFromMe := merged.fFromMe
    vfSpent := merged.vfSpent }

/-- `fUpdated`: whether the merge changed anything -/
def updatedBy (wtx wtxIn : CWalletTx) : Bool :=
  (wtx.merge wtxIn).toPlain ≠ wtx.toPlain

/-! ## The sums, kept -/

variable [P : Platform]

/-- A sum that is kept: the one that was kept is given where it may be
used; otherwise it is computed, and kept if that went well. -/
def kept (fUseCache : Bool) (cache : CWalletTx → Option ℤ) (keep : ℤ → CWalletTx → CWalletTx)
    (sum : Accounting.CWalletTx → Except Failure ℤ) : Step CWalletTx Failure ℤ := fun wtx =>
  match if fUseCache then cache wtx else none with
  | some n => (.ok n, wtx)
  | none =>
    match sum wtx.toPlain with
    | .error f => (.error f, wtx)
    | .ok n => (.ok n, keep n wtx)

/-- `GetDebit` -/
def getDebit (w : Accounting.CWallet) : Step CWalletTx Failure ℤ := do
  let wtx ← Step.get
  if wtx.tx.vin = [] then pure 0
  else
    kept true (·.nDebitCached) (fun n wtx => { wtx with nDebitCached := some n })
      fun wtx => w.getDebit wtx.tx

/-- `(IsCoinBase() || IsCoinStake()) && GetBlocksToMaturity() > 0` -/
def isImmature (chain : WalletChain) (wtx : Accounting.CWalletTx) : Bool :=
  wtx.isGenerated && 0 < wtx.getBlocksToMaturity chain

/-- `GetCredit` -/
def getCredit (w : Accounting.CWallet) (chain : WalletChain) (fUseCache : Bool) :
    Step CWalletTx Failure ℤ := do
  let wtx ← Step.get
  if isImmature chain wtx.toPlain then pure 0
  else
    kept fUseCache (·.nCreditCached) (fun n wtx => { wtx with nCreditCached := some n })
      fun wtx => w.getCredit wtx.tx

/-- `GetAvailableCredit` -/
def getAvailableCredit (w : Accounting.CWallet) (chain : WalletChain) (fUseCache : Bool) :
    Step CWalletTx Failure ℤ := do
  let wtx ← Step.get
  if isImmature chain wtx.toPlain then pure 0
  else
    kept fUseCache (·.nAvailableCreditCached)
      (fun n wtx => { wtx with nAvailableCreditCached := some n })
      fun wtx => wtx.availableCreditLoop w 0 0 wtx.tx.vout

/-- `IsFromMe` -/
def isFromMe (w : Accounting.CWallet) : Step CWalletTx Failure Bool := do
  let nDebit ← getDebit w
  pure (decide (0 < nDebit))

/-- `IsConfirmed`, its loop for at most `fuel` turns -/
def isConfirmed (w : Accounting.CWallet) (chain : WalletChain) (fuel : ℕ) :
    Step CWalletTx Failure (Option Bool) := do
  let wtx ← Step.get
  if !wtx.isFinal chain then pure (some false)
  else if 6 ≤ wtx.getDepthInMainChain chain then pure (some true)
  else do
    let fFromMe ← isFromMe w
    if !fFromMe then pure (some false)
    else match Accounting.CWalletTx.confirmedLoop w chain wtx.mapPrev fuel [wtx.merkleTx] with
      | none => pure none
      | some r => do
        let fConfirmed ← Step.lift r
        pure (some fConfirmed)

end CWalletTx

/-! ## The wallet -/

namespace CWallet

variable [P : Platform]

/-- A step of the transaction an iterator stands at. -/
def onTx {α : Type} (hash : Uint256) (x : Accounting.CWallet → Step CWalletTx Failure α) :
    Step CWallet Failure α := fun w =>
  match w.mapWallet[hash]? with
  | none => (.error (.crash "mapWallet.end()"), w)
  | some wtx =>
    ((x w.plain wtx).1, { w with mapWallet := w.mapWallet.insert hash (x w.plain wtx).2 })

/-- `MarkDirty` -/
def markDirty (w : CWallet) : CWallet :=
  { w with mapWallet := w.mapWallet.map fun _ wtx => wtx.markDirty }

/-- The own output at a point, as `IsMine(txin)` looks it up. -/
def ownOutput (w : CWallet) (o : COutPoint) : Option CTxOut :=
  match w.mapWallet[o.hash]? with
  | none => none
  | some prev =>
    match prev.tx.vout[o.n]? with
    | none => none
    | some txout => if w.plain.isMine txout then some txout else none

/-- The body of the loop of `WalletUpdateSpent`. The log is told the credit
of the transaction, which is summed up for that. -/
def updateSpentBy (chain : WalletChain) (txin : CTxIn) : Step CWallet Failure Unit := do
  let w ← Step.get
  match w.mapWallet[txin.prevout.hash]?, w.ownOutput txin.prevout with
  | some wtx, some _ =>
    if wtx.isSpent txin.prevout.n then pure ()
    else do
      let _ ← onTx txin.prevout.hash fun w => CWalletTx.getCredit w chain true
      onTx txin.prevout.hash fun _ => CWalletTx.markSpent txin.prevout.n
  | _, _ => pure ()

/-- `WalletUpdateSpent` -/
def walletUpdateSpent (chain : WalletChain) (tx : CTransaction) : Step CWallet Failure Unit :=
  Step.forEach (updateSpentBy chain) tx.vin

/-- `AddToWallet`; `fWritten` is what `WriteToDisk` answers. -/
def addToWallet (chain : WalletChain) (wtxIn : CWalletTx) (fWritten : Bool) :
    Step CWallet Failure Bool := do
  let w ← Step.get
  let hash := wtxIn.tx.getHash
  let wtx := match w.mapWallet[hash]? with
    | none => wtxIn.markDirty
    | some wtx => wtx.merge wtxIn
  let fWrite := match w.mapWallet[hash]? with
    | none => true
    | some wtx => wtx.updatedBy wtxIn
  Step.modify fun w => { w with mapWallet := w.mapWallet.insert hash wtx }
  if fWrite && !fWritten then pure false
  else do
    -- since AddToWallet is called directly for self-originating transactions
    walletUpdateSpent chain wtx.tx
    pure true

/-- Whether `AddToWalletIfInvolvingMe` takes a transaction in. -/
def involves (w : CWallet) (tx : CTransaction) : Except Failure Bool :=
  if w.mapWallet.contains tx.getHash || tx.vout.any w.plain.isMine then .ok true
  else w.plain.isFromMe tx

/-- `AddToWalletIfInvolvingMe` -/
def addToWalletIfInvolvingMe (chain : WalletChain) (tx : CTransaction) (pblock : Option CBlock)
    (fUpdate fWritten : Bool) : Step CWallet Failure Bool := do
  let w ← Step.get
  if w.mapWallet.contains tx.getHash && !fUpdate then pure false
  else do
    let fInvolves ← Step.lift (w.involves tx)
    if fInvolves then addToWallet chain (CWalletTx.ofTx tx pblock) fWritten
    else do
      walletUpdateSpent chain tx
      pure false

/-- `EraseFromWallet` -/
def eraseFromWallet (hash : Uint256) : Step CWallet Failure Bool := do
  let w ← Step.get
  if !w.fFileBacked then pure false
  else do
    Step.modify fun w => { w with mapWallet := w.mapWallet.erase hash }
    pure true

/-- The body of the loop of `DisableTransaction`. -/
def giveBack (txin : CTxIn) : Step CWallet Failure Unit := do
  let w ← Step.get
  match w.ownOutput txin.prevout with
  | some _ => onTx txin.prevout.hash fun _ => CWalletTx.markUnspent txin.prevout.n
  | none => pure ()

/-- `DisableTransaction` -/
def disableTransaction (tx : CTransaction) : Step CWallet Failure Unit := do
  let w ← Step.get
  if !tx.isCoinStake then pure ()
  else do
    let fFromMe ← Step.lift (w.plain.isFromMe tx)
    if !fFromMe then pure ()
    else Step.forEach giveBack tx.vin

/-- `vSpent.size() > n && !vSpent[n].IsNull()` -/
def hasSpent (txindex : CTxIndex) (n : ℕ) : Bool :=
  match txindex.vSpent[n]? with
  | none => false
  | some pos => !pos.isNull

/-- What `FixSpentCoins` counts. -/
structure Mismatches where
  nMismatchFound : ℕ
  nBalanceInQuestion : ℤ
  deriving DecidableEq, Repr

/-- One more of them. -/
def Mismatches.add (m : Mismatches) (txout : CTxOut) : Mismatches :=
  ⟨m.nMismatchFound + 1, m.nBalanceInQuestion + txout.nValue⟩

/-- The body of the inner loop of `FixSpentCoins`: one output -/
def fixOutput (w : Accounting.CWallet) (txindex : CTxIndex) (fCheckOnly : Bool)
    (s : CWalletTx × Mismatches) (o : CTxOut × ℕ) : CWalletTx × Mismatches :=
  if w.isMine o.1 && s.1.isSpent o.2 && !hasSpent txindex o.2 then
    (if fCheckOnly then s.1 else s.1.setFlag o.2 false, s.2.add o.1)
  else if w.isMine o.1 && !s.1.isSpent o.2 && hasSpent txindex o.2 then
    (if fCheckOnly then s.1 else s.1.setFlag o.2 true, s.2.add o.1)
  else s

/-- The body of its outer loop: one coin, if the index has it -/
def fixCoin (w : Accounting.CWallet) (readTxIndex : Uint256 → Option CTxIndex) (fCheckOnly : Bool)
    (pcoin : CWalletTx) : CWalletTx × Mismatches :=
  match readTxIndex pcoin.tx.getHash with
  | none => (pcoin, ⟨0, 0⟩)
  | some txindex => pcoin.tx.vout.zipIdx.foldl (fixOutput w txindex fCheckOnly) (pcoin, ⟨0, 0⟩)

/-- `FixSpentCoins`. A coin is looked at by itself: what is repaired of
one is not asked of another. -/
def fixSpentCoins (readTxIndex : Uint256 → Option CTxIndex) (fCheckOnly : Bool) :
    Step CWallet Failure Mismatches := fun w =>
  let fixed := w.mapWallet.map fun _ pcoin => fixCoin w.plain readTxIndex fCheckOnly pcoin
  let counts := fixed.toList.map (·.2.2)
  (.ok ⟨(counts.map (·.nMismatchFound)).sum, (counts.map (·.nBalanceInQuestion)).sum⟩,
    { w with mapWallet := fixed.map fun _ s => s.1 })

/-- The loop of `GetBalance`. -/
def balanceLoop (chain : WalletChain) (fuel : ℕ) :
    ℤ → List Uint256 → Step CWallet Failure (Option ℤ)
  | nTotal, [] => pure (some nTotal)
  | nTotal, hash :: rest => do
    let fConfirmed ← onTx hash fun w => CWalletTx.isConfirmed w chain fuel
    match fConfirmed with
    | none => pure none
    | some false => balanceLoop chain fuel nTotal rest
    | some true => do
      let nCredit ← onTx hash fun w => CWalletTx.getAvailableCredit w chain true
      balanceLoop chain fuel (nTotal + nCredit) rest

/-- `GetBalance` -/
def getBalance (chain : WalletChain) (fuel : ℕ) : Step CWallet Failure (Option ℤ) := do
  let w ← Step.get
  balanceLoop chain fuel 0 w.mapWallet.keys

end CWallet

end Cached

end CryptoBullion
