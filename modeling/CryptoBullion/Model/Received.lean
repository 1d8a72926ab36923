import CryptoBullion.Model.Accounting
import CryptoBullion.Model.Solver
/-!
# Received amounts

`getreceivedbyaddress` and `getreceivedbyaccount`, and the lists of
`ListReceived`. One of them compares scripts and asks for the script whether
it is ours; the others extract the destination and ask for that. The tallies
are maps by the address and by the account, and are kept as functions.
-/

namespace CryptoBullion

variable [P : Platform]

/-! ## Whose a script is -/

/-- `HaveKey` -/
def CKeyStore.haveKey (keystore : CKeyStore) (id : BitVec 160) : Bool :=
  keystore.vchPubKeys.any fun vchPubKey => P.hash160 vchPubKey = id

/-- `GetCScript` -/
def CKeyStore.getCScript (keystore : CKeyStore) (id : BitVec 160) : Option CScript :=
  keystore.redeemScripts.find? fun script => P.hash160 script = id

/-- `HaveKeys` -/
def haveKeys (pubkeys : List (List UInt8)) (keystore : CKeyStore) : ℕ :=
  pubkeys.countP fun pubkey => keystore.haveKey (P.hash160 pubkey)

/-- `IsMine(keystore, scriptPubKey)`. A redeem script may pay to the hash of
another, so this goes on for as long as `fuel` lasts. -/
def isMineScript (keystore : CKeyStore) : ℕ → CScript → Option Bool
  | 0, _ => none
  | fuel + 1, scriptPubKey =>
    match solver scriptPubKey with
    | (true, .pubKey, vSolution :: _) => some (keystore.haveKey (P.hash160 vSolution))
    | (true, .pubKeyHash, vSolution :: _) => some (keystore.haveKey (uint160OfVch vSolution))
    | (true, .scriptHash, vSolution :: _) =>
      match keystore.getCScript (uint160OfVch vSolution) with
      | none => some false
      | some subscript => isMineScript keystore fuel subscript
    | (true, .multiSig, vSolutions) =>
      -- only ours if all the keys are
      let keys := vSolutions.tail.dropLast
      some (haveKeys keys keystore = keys.length)
    | _ => some false

namespace Accounting

namespace Received

/-- `wtx.IsCoinBase() || wtx.IsCoinStake() || !wtx.IsFinal()` -/
def passedOver (chain : WalletChain) (wtx : CWalletTx) : Bool :=
  wtx.isGenerated || !wtx.isFinal chain

/-! ## One address, one account -/

/-- `getreceivedbyaddress`; `none` if `IsMine` does not return -/
def getreceivedbyaddress (w : CWallet) (chain : WalletChain) (fuel : ℕ) (address : CTxDestination)
    (nMinDepth : ℤ) : Option (Except Failure ℤ) :=
  if address = .noDestination then some (.error (.exception "Invalid CryptoBullion address"))
  else
    let scriptPubKey := setDestination address
    match isMineScript w.keystore fuel scriptPubKey with
    | none => none
    | some false => some (.ok 0)
    | some true =>
      some (.ok (w.txs.foldl (fun nAmount wtx =>
        if passedOver chain wtx then nAmount
        else wtx.tx.vout.foldl (fun nAmount txout =>
          if txout.scriptPubKey = scriptPubKey then
            if nMinDepth ≤ wtx.getDepthInMainChain chain then nAmount + txout.nValue else nAmount
          else nAmount) nAmount) 0))

/-- `AccountFromValue` -/
def accountFromValue (strAccount : String) : Except Failure String :=
  if strAccount = "*" then .error (.exception "Invalid account name") else .ok strAccount

/-- `GetAccountAddresses` -/
def getAccountAddresses (w : CWallet) (strAccount : String) : List CTxDestination :=
  (w.mapAddressBook.filter fun item => item.2 = strAccount).map (·.1)

/-- `ExtractDestination(txout.scriptPubKey, address) && IsMine(*pwalletMain, address)` -/
def ourDestination (w : CWallet) (txout : CTxOut) : Option CTxDestination :=
  (CryptoBullion.extractDestination txout.scriptPubKey).filter (isMineDest w.keystore)

/-- `getreceivedbyaccount` -/
def getreceivedbyaccount (w : CWallet) (chain : WalletChain) (strAccount : String)
    (nMinDepth : ℤ) : Except Failure ℤ := do
  let strAccount ← accountFromValue strAccount
  let setAddress := getAccountAddresses w strAccount
  .ok (w.txs.foldl (fun nAmount wtx =>
    if passedOver chain wtx then nAmount
    else wtx.tx.vout.foldl (fun nAmount txout =>
      if (ourDestination w txout).any setAddress.contains then
        if nMinDepth ≤ wtx.getDepthInMainChain chain then nAmount + txout.nValue else nAmount
      else nAmount) nAmount) 0)

/-! ## All of them -/

/-- `tallyitem` -/
structure TallyItem where
  nAmount : ℤ := 0
  nConf : ℤ := 2147483647
  txids : List Uint256 := []
  deriving DecidableEq, Repr

/-- `mapTally[address]` for one more output -/
def tallyOut (w : CWallet) (wtx : CWalletTx) (nDepth : ℤ) (m : CTxDestination → Option TallyItem)
    (txout : CTxOut) : CTxDestination → Option TallyItem :=
  match ourDestination w txout with
  | none => m
  | some address =>
    let item := (m address).getD {}
    Function.update m address (some ⟨item.nAmount + txout.nValue, min item.nConf nDepth,
      item.txids ++ [wtx.tx.getHash]⟩)

/-- The first loop of `ListReceived` -/
def mapTally (w : CWallet) (chain : WalletChain) (nMinDepth : ℤ) :
    CTxDestination → Option TallyItem :=
  w.txs.foldl (fun m wtx =>
    if passedOver chain wtx then m
    else if wtx.getDepthInMainChain chain < nMinDepth then m
    else wtx.tx.vout.foldl (tallyOut w wtx (wtx.getDepthInMainChain chain)) m) fun _ => none

/-- What the second loop has to report on, entry by entry of the address
book. -/
def reported (w : CWallet) (chain : WalletChain) (nMinDepth : ℤ) (fIncludeEmpty : Bool) :
    List (CTxDestination × String × TallyItem) :=
  w.mapAddressBook.filterMap fun item =>
    match mapTally w chain nMinDepth item.1 with
    | none => if fIncludeEmpty then some (item.1, item.2, {}) else none
    | some tally => some (item.1, item.2, tally)

/-- `nConf == std::numeric_limits<int>::max() ? 0 : nConf` -/
def confirmations (nConf : ℤ) : ℤ := if nConf = 2147483647 then 0 else nConf

/-- An object of `listreceivedbyaddress` -/
structure AddressObject where
  address : CTxDestination
  account : String
  amount : ℤ
  confirmations : ℤ
  txids : List Uint256
  deriving DecidableEq, Repr

/-- `listreceivedbyaddress` -/
def listreceivedbyaddress (w : CWallet) (chain : WalletChain) (nMinDepth : ℤ)
    (fIncludeEmpty : Bool) : List AddressObject :=
  (reported w chain nMinDepth fIncludeEmpty).map fun r =>
    ⟨r.1, r.2.1, r.2.2.nAmount, confirmations r.2.2.nConf, r.2.2.txids⟩

/-- `mapAccountTally[strAccount]` for one more address -/
def tallyAddress (m : String → Option TallyItem) (r : CTxDestination × String × TallyItem) :
    String → Option TallyItem :=
  let item := (m r.2.1).getD {}
  Function.update m r.2.1
    (some { item with nAmount := item.nAmount + r.2.2.nAmount, nConf := min item.nConf r.2.2.nConf })

/-- An object of `listreceivedbyaccount`; there is one for each account of
the tally. -/
structure AccountObject where
  amount : ℤ
  confirmations : ℤ
  deriving DecidableEq, Repr

/-- `listreceivedbyaccount` -/
def listreceivedbyaccount (w : CWallet) (chain : WalletChain) (nMinDepth : ℤ)
    (fIncludeEmpty : Bool) (strAccount : String) : Option AccountObject :=
  ((reported w chain nMinDepth fIncludeEmpty).foldl tallyAddress (fun _ => none) strAccount).map
    fun item => ⟨item.nAmount, confirmations item.nConf⟩

end Received

end Accounting

end CryptoBullion
