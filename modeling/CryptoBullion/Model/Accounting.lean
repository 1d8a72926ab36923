import CryptoBullion.Model.Script
import CryptoBullion.Model.Wallet
/-!
# Balances and accounts

What a wallet says of its money: the sums over a transaction's inputs and
outputs, `GetAmounts`, and the two ways `rpcwallet.cpp` comes from there to
a balance. Here a wallet has its labels and its supporting transactions;
the sums are always computed, never taken from a cache. The best chain
enters as the depth it gives a transaction.
-/

namespace CryptoBullion

/-- A transaction, and the block it claims to be in. -/
structure CMerkleTx where
  tx : CTransaction
  hashBlock : Uint256
  vMerkleBranch : List Uint256
  nIndex : ℤ
  deriving DecidableEq, Repr

/-- The best chain as a wallet sees it. A transaction is in it at some
depth, or not at all. -/
structure WalletChain where
  nBestHeight : ℤ
  nAdjustedTime : ℤ
  getDepthInMainChain : CMerkleTx → ℤ
  depth_nonneg : ∀ tx, 0 ≤ getDepthInMainChain tx

/-- An entry of the accounting table. -/
structure CAccountingEntry where
  strAccount : String
  nCreditDebit : ℤ
  deriving DecidableEq, Repr

namespace Accounting

/-- `CWalletTx`, with what goes into balances -/
structure CWalletTx extends CryptoBullion.CWalletTx where
  vtxPrev : List CMerkleTx
  strFromAccount : String
  deriving DecidableEq, Repr

/-- `CWallet`, with its address book and its accounting entries -/
structure CWallet where
  mapWallet : Map Uint256 CWalletTx
  keystore : CKeyStore
  mapAddressBook : List (CTxDestination × String)
  laccentries : List CAccountingEntry

variable [P : Platform]

/-! ## Destinations -/

/-- `uint160` of bytes -/
def uint160 (vch : List UInt8) : BitVec 160 :=
  if vch.length = 20 then BitVec.ofNat 160 (ofLeBytes vch) else 0

/-- `ExtractDestination` -/
def extractDestination (scriptPubKey : CScript) : Option CTxDestination :=
  match P.solver scriptPubKey with
  | some (.pubKey, v :: _) => some (.keyID (P.hash160 v))
  | some (.pubKeyHash, v :: _) => some (.keyID (uint160 v))
  | some (.scriptHash, v :: _) => some (.scriptID (uint160 v))
  | _ => none

/-- `IsMine(keystore, dest)`: the key is there, or the redeem script -/
def isMineDest (keystore : CKeyStore) : CTxDestination → Bool
  | .noDestination => false
  | .keyID id => keystore.vchPubKeys.any fun vchPubKey => P.hash160 vchPubKey = id
  | .scriptID id => keystore.redeemScripts.any fun script => P.hash160 script = id

/-! ## Sums over a transaction -/

namespace CWallet

variable (w : CWallet)

/-- The transactions of `mapWallet`, in its order. -/
def txs : List CWalletTx := w.mapWallet.toList.map (·.2)

/-- `IsMine(txout)` -/
def isMine (txout : CTxOut) : Bool := P.isMine w.keystore txout.scriptPubKey

/-- `GetCredit(txout)` -/
def getCreditOut (txout : CTxOut) : Except Failure ℤ :=
  if !moneyRange txout.nValue then
    .error (.exception "CWallet::GetCredit() : value out of range")
  else .ok (if w.isMine txout then txout.nValue else 0)

/-- `GetCredit(tx)`, and its loop -/
def getCreditLoop : ℤ → List CTxOut → Except Failure ℤ
  | nCredit, [] => .ok nCredit
  | nCredit, txout :: rest => do
    let n ← w.getCreditOut txout
    if !moneyRange (nCredit + n) then
      .error (.exception "CWallet::GetCredit() : value out of range")
    else getCreditLoop (nCredit + n) rest

def getCredit (tx : CTransaction) : Except Failure ℤ := w.getCreditLoop 0 tx.vout

/-- `GetDebit(txin)`: what it spends of ours -/
def getDebitIn (txin : CTxIn) : ℤ :=
  match w.mapWallet[txin.prevout.hash]? with
  | none => 0
  | some prev =>
    match prev.tx.vout[txin.prevout.n]? with
    | none => 0
    | some txout => if w.isMine txout then txout.nValue else 0

/-- `GetDebit(tx)`, and its loop -/
def getDebitLoop : ℤ → List CTxIn → Except Failure ℤ
  | nDebit, [] => .ok nDebit
  | nDebit, txin :: rest =>
    if !moneyRange (nDebit + w.getDebitIn txin) then
      .error (.exception "CWallet::GetDebit() : value out of range")
    else getDebitLoop (nDebit + w.getDebitIn txin) rest

def getDebit (tx : CTransaction) : Except Failure ℤ := w.getDebitLoop 0 tx.vin

/-- `IsFromMe(tx)` -/
def isFromMe (tx : CTransaction) : Except Failure Bool := do
  let nDebit ← w.getDebit tx
  .ok (0 < nDebit)

/-- `IsChange`: to a destination of ours that is not in the address book -/
def isChange (txout : CTxOut) : Bool :=
  match extractDestination txout.scriptPubKey with
  | none => false
  | some address => isMineDest w.keystore address && (w.mapAddressBook.lookup address).isNone

end CWallet

/-! ## A transaction of the wallet -/

namespace CWalletTx

/-- `(CMerkleTx) wtx` -/
def merkleTx (wtx : CWalletTx) : CMerkleTx :=
  ⟨wtx.tx, wtx.hashBlock, wtx.vMerkleBranch, wtx.nIndex⟩

/-- `IsCoinBase() || IsCoinStake()` -/
def isGenerated (wtx : CWalletTx) : Bool := wtx.tx.isCoinBase || wtx.tx.isCoinStake

def getDepthInMainChain (wtx : CWalletTx) (chain : WalletChain) : ℤ :=
  chain.getDepthInMainChain wtx.merkleTx

/-- `IsFinal` -/
def isFinal (wtx : CWalletTx) (chain : WalletChain) : Bool :=
  wtx.tx.isFinal chain.nBestHeight chain.nAdjustedTime 0 0

/-- `GetBlocksToMaturity` -/
def getBlocksToMaturity (wtx : CWalletTx) (chain : WalletChain) : ℤ :=
  if !wtx.isGenerated then 0
  else max 0 (nCoinbaseMaturity + 20 - wtx.getDepthInMainChain chain)

/-- `GetDebit` -/
def getDebit (wtx : CWalletTx) (w : CWallet) : Except Failure ℤ :=
  if wtx.tx.vin = [] then .ok 0 else w.getDebit wtx.tx

/-- `GetCredit` -/
def getCredit (wtx : CWalletTx) (w : CWallet) (chain : WalletChain) : Except Failure ℤ :=
  if wtx.isGenerated && 0 < wtx.getBlocksToMaturity chain then .ok 0 else w.getCredit wtx.tx

end CWalletTx

/-- What `GetAmounts` fills in. -/
structure Amounts where
  nGeneratedImmature : ℤ
  nGeneratedMature : ℤ
  listReceived : List (CTxDestination × ℤ)
  listSent : List (CTxDestination × ℤ)
  nFee : ℤ
  strSentAccount : String
  deriving DecidableEq, Repr

/-- The destination of an output; there may be none. -/
def destinationOf (txout : CTxOut) : CTxDestination :=
  (extractDestination txout.scriptPubKey).getD .noDestination

/-- `GetAmounts` -/
def CWalletTx.getAmounts (wtx : CWalletTx) (w : CWallet) (chain : WalletChain) :
    Except Failure Amounts :=
  if wtx.isGenerated then
    if 0 < wtx.getBlocksToMaturity chain then do
      let nCredit ← w.getCredit wtx.tx
      let nDebit ← w.getDebit wtx.tx
      .ok ⟨nCredit - nDebit, 0, [], [], 0, wtx.strFromAccount⟩
    else do
      let nCredit ← wtx.getCredit w chain
      let nDebit ← wtx.getDebit w
      .ok ⟨0, nCredit - nDebit, [], [], 0, wtx.strFromAccount⟩
  else do
    let nDebit ← wtx.getDebit w
    -- debit > 0 means we signed this transaction
    let nFee ← if 0 < nDebit then do
        let nValueOut ← wtx.tx.getValueOut
        .ok (nDebit - nValueOut)
      else .ok 0
    -- change is not reported
    let reported := wtx.tx.vout.filter fun txout => !(decide (0 < nDebit) && w.isChange txout)
    let listSent := if 0 < nDebit then reported.map fun txout => (destinationOf txout, txout.nValue)
      else []
    let listReceived := (reported.filter w.isMine).map fun txout =>
      (destinationOf txout, txout.nValue)
    .ok ⟨0, 0, listReceived, listSent, nFee, wtx.strFromAccount⟩

/-! ## Total balances -/

namespace CWalletTx

/-- `GetAvailableCredit`, and its loop over the outputs from the `i`th
on -/
def availableCreditLoop (wtx : CWalletTx) (w : CWallet) : ℕ → ℤ → List CTxOut → Except Failure ℤ
  | _, nCredit, [] => .ok nCredit
  | i, nCredit, txout :: rest =>
    if wtx.isSpent i then wtx.availableCreditLoop w (i + 1) nCredit rest
    else do
      let n ← w.getCreditOut txout
      if !moneyRange (nCredit + n) then
        .error (.exception "CWalletTx::GetAvailableCredit() : value out of range")
      else wtx.availableCreditLoop w (i + 1) (nCredit + n) rest

def getAvailableCredit (wtx : CWalletTx) (w : CWallet) (chain : WalletChain) : Except Failure ℤ :=
  if wtx.isGenerated && 0 < wtx.getBlocksToMaturity chain then .ok 0
  else wtx.availableCreditLoop w 0 0 wtx.tx.vout

/-- The loop of `IsConfirmed` over its work queue, for at most `fuel`
turns. The supporting transactions are found by their hashes. -/
def confirmedLoop (w : CWallet) (chain : WalletChain) (mapPrev : Uint256 → Option CMerkleTx) :
    ℕ → List CMerkleTx → Option (Except Failure Bool)
  | _, [] => some (.ok true)
  | 0, _ => none
  | fuel + 1, ptx :: vWorkQueue =>
    if !ptx.tx.isFinal chain.nBestHeight chain.nAdjustedTime 0 0 then some (.ok false)
    else if 1 ≤ chain.getDepthInMainChain ptx then confirmedLoop w chain mapPrev fuel vWorkQueue
    else match w.isFromMe ptx.tx with
      | .error f => some (.error f)
      | .ok false => some (.ok false)
      | .ok true =>
        match ptx.tx.vin.mapM fun txin => mapPrev txin.prevout.hash with
        | none => some (.ok false)
        | some prevs => confirmedLoop w chain mapPrev fuel (vWorkQueue ++ prevs)

/-- `mapPrev`: the last of those with a hash -/
def mapPrev (wtx : CWalletTx) (hash : Uint256) : Option CMerkleTx :=
  wtx.vtxPrev.reverse.find? fun tx => tx.tx.getHash = hash

/-- `IsConfirmed` -/
def isConfirmed (wtx : CWalletTx) (w : CWallet) (chain : WalletChain) (fuel : ℕ) :
    Option (Except Failure Bool) :=
  if !wtx.isFinal chain then some (.ok false)
  else if 6 ≤ wtx.getDepthInMainChain chain then some (.ok true)
  else match wtx.getDebit w with
    | .error f => some (.error f)
    | .ok nDebit =>
      if ¬ 0 < nDebit then some (.ok false)
      else confirmedLoop w chain wtx.mapPrev fuel [wtx.merkleTx]

end CWalletTx

/-- `GetBalance`; what `IsConfirmed` answers is handed in. -/
def CWallet.getBalance (w : CWallet) (chain : WalletChain)
    (isConfirmed : CWalletTx → Except Failure Bool) : Except Failure ℤ :=
  w.txs.foldlM (fun nTotal pcoin => do
    let fConfirmed ← isConfirmed pcoin
    if fConfirmed then do
      let nCredit ← pcoin.getAvailableCredit w chain
      .ok (nTotal + nCredit)
    else .ok nTotal) 0

/-- `getbalance '*' nMinDepth` -/
def getbalanceAll (w : CWallet) (chain : WalletChain)
    (isConfirmed : CWalletTx → Except Failure Bool) (nMinDepth : ℤ) : Except Failure ℤ :=
  w.txs.foldlM (fun nBalance wtx => do
    let fConfirmed ← isConfirmed wtx
    if !fConfirmed || 0 < wtx.getBlocksToMaturity chain then .ok nBalance
    else do
      let a ← wtx.getAmounts w chain
      let nBalance := if nMinDepth ≤ wtx.getDepthInMainChain chain then
        nBalance + (a.listReceived.map (·.2)).sum else nBalance
      .ok (nBalance - (a.listSent.map (·.2)).sum - a.nFee + a.nGeneratedMature)) 0

/-! ## Accounts -/

/-- The account a destination is booked to: its label, and the default
account where it has none. -/
def CWallet.accountOf (w : CWallet) (address : CTxDestination) : String :=
  (w.mapAddressBook.lookup address).getD ""

/-- What `GetAccountAmounts` fills in. -/
structure AccountAmounts where
  nGenerated : ℤ
  nReceived : ℤ
  nSent : ℤ
  nFee : ℤ
  deriving DecidableEq, Repr

/-- `GetAccountAmounts`; `nGenerated` comes in as 0. -/
def CWalletTx.getAccountAmounts (wtx : CWalletTx) (w : CWallet) (chain : WalletChain)
    (strAccount : String) : Except Failure AccountAmounts := do
  let a ← wtx.getAmounts w chain
  let nGenerated := if strAccount = "" then a.nGeneratedMature else 0
  let nSent := if strAccount = a.strSentAccount then (a.listSent.map (·.2)).sum else 0
  let nFee := if strAccount = a.strSentAccount then a.nFee else 0
  let nReceived := (a.listReceived.map fun r =>
    if (w.mapAddressBook.lookup r.1).isSome then
      if w.mapAddressBook.lookup r.1 = some strAccount then r.2 else 0
    else if strAccount = "" then r.2 else 0).sum
  .ok ⟨nGenerated, nReceived, nSent, nFee⟩

namespace CWallet

/-- `ListAccountCreditDebit`: the records of an account are next to each
other; `*` is all accounts -/
def listAccountCreditDebit (w : CWallet) (strAccount : String) : List CAccountingEntry :=
  if strAccount = "*" then w.laccentries
  else w.laccentries.filter fun entry => entry.strAccount = strAccount

/-- `GetAccountCreditDebit` -/
def getAccountCreditDebit (w : CWallet) (strAccount : String) : ℤ :=
  ((w.listAccountCreditDebit strAccount).map (·.nCreditDebit)).sum

/-- `GetAccountBalance` -/
def getAccountBalance (w : CWallet) (chain : WalletChain) (strAccount : String)
    (nMinDepth : ℤ) : Except Failure ℤ := do
  let nBalance ← w.txs.foldlM (fun nBalance wtx =>
    if !wtx.isFinal chain then .ok nBalance
    else do
      let a ← wtx.getAccountAmounts w chain strAccount
      let nBalance := if a.nReceived ≠ 0 ∧ nMinDepth ≤ wtx.getDepthInMainChain chain then
        nBalance + a.nReceived else nBalance
      .ok (nBalance + (a.nGenerated - a.nSent - a.nFee))) 0
  .ok (nBalance + w.getAccountCreditDebit strAccount)

end CWallet

/-- `map<string, int64>` -/
abbrev AccountBalances := String → Option ℤ

/-- `mapAccountBalances[strAccount] += n` -/
def AccountBalances.add (m : AccountBalances) (strAccount : String) (n : ℤ) : AccountBalances :=
  Function.update m strAccount (some ((m strAccount).getD 0 + n))

/-- The body of the loop of `listaccounts`. -/
def listTx (w : CWallet) (chain : WalletChain) (nMinDepth : ℤ) (m : AccountBalances)
    (wtx : CWalletTx) : Except Failure AccountBalances :=
  let nDepth := wtx.getDepthInMainChain chain
  if 0 < wtx.getBlocksToMaturity chain ∨ nDepth < 0 then .ok m
  else do
    let a ← wtx.getAmounts w chain
    let m := m.add a.strSentAccount (-a.nFee)
    let m := a.listSent.foldl (fun m s => m.add a.strSentAccount (-s.2)) m
    .ok (if nMinDepth ≤ nDepth then
        a.listReceived.foldl (fun m r => m.add (w.accountOf r.1) r.2)
          (m.add "" a.nGeneratedMature)
      else m)

/-- `listaccounts` -/
def listaccounts (w : CWallet) (chain : WalletChain) (nMinDepth : ℤ) :
    Except Failure AccountBalances := do
  let m := w.mapAddressBook.foldl (fun (m : AccountBalances) entry =>
    if isMineDest w.keystore entry.1 then Function.update m entry.2 (some 0) else m)
      (fun _ => none)
  let m ← w.txs.foldlM (listTx w chain nMinDepth) m
  .ok ((w.listAccountCreditDebit "*").foldl (fun m entry =>
    m.add entry.strAccount entry.nCreditDebit) m)

end Accounting

end CryptoBullion
