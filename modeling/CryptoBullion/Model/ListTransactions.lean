import CryptoBullion.Model.Accounting
import Mathlib.Data.List.Sort
/-!
# Listing transactions

`listtransactions`: what a wallet transaction and an accounting entry
contribute for an account, and how the pages are cut out. An entry is kept
as the data its JSON object is made of; what `WalletTxToJSON` adds comes
from the transaction that is kept with it. An `int` that overflows wraps.
-/

namespace CryptoBullion

namespace Listing

/-- `CAccountingEntry` -/
structure CAccountingEntry where
  strAccount : String
  nCreditDebit : ℤ
  nTime : ℤ
  strOtherAccount : String
  strComment : String
  nOrderPos : ℤ
  deriving DecidableEq, Repr

/-- `CWallet`, the positions of its transactions, and the accounting entries
of its database -/
structure CWallet where
  wallet : Accounting.CWallet
  nOrderPos : Uint256 → ℤ
  acentries : List CAccountingEntry

/-- `TxPair`: one of its pointers is null. -/
inductive TxPair
  | tx (nOrderPos : ℤ) (pwtx : Accounting.CWalletTx)
  | acentry (pacentry : CAccountingEntry)
  deriving DecidableEq, Repr

/-- The key it is inserted with. -/
def TxPair.nOrderPos : TxPair → ℤ
  | .tx nOrderPos _ => nOrderPos
  | .acentry pacentry => pacentry.nOrderPos

/-- `ListAccountCreditDebit` -/
def CWallet.listAccountCreditDebit (w : CWallet) (strAccount : String) : List CAccountingEntry :=
  if strAccount = "*" then w.acentries
  else w.acentries.filter fun entry => entry.strAccount = strAccount

/-- What is put in order: the transactions, and then the entries. -/
def CWallet.items (w : CWallet) (strAccount : String) : List TxPair :=
  w.wallet.mapWallet.toList.map (fun p => .tx (w.nOrderPos p.1) p.2) ++
    (w.listAccountCreditDebit strAccount).map .acentry

/-- `txOrdered.insert`: after what has the same position -/
def insertOrdered (txOrdered : List TxPair) (item : TxPair) : List TxPair :=
  txOrdered.orderedInsert (fun a b => a.nOrderPos < b.nOrderPos) item

/-- `OrderedTxItems` -/
def CWallet.orderedTxItems (w : CWallet) (strAccount : String) : List TxPair :=
  (w.items strAccount).foldl insertOrdered []

/-! ## Entries -/

/-- An object that is listed for a transaction. -/
structure TxEntry where
  account : String
  /-- there is none where the output has no destination -/
  address : Option CTxDestination
  category : String
  amount : ℤ
  fee : Option ℤ
  /-- what `WalletTxToJSON` is called for -/
  wtx : Option Accounting.CWalletTx
  deriving DecidableEq, Repr

/-- An element of the result. -/
inductive Entry
  | tx (entry : TxEntry)
  | move (acentry : CAccountingEntry)
  deriving DecidableEq, Repr

/-- `MaybePushAddress` -/
def maybeAddress : CTxDestination → Option CTxDestination
  | .noDestination => none
  | dest => some dest

section
variable [P : Platform]

/-- "Generated blocks assigned to account """ -/
def generatedEntries (a : Accounting.Amounts) (nDepth : ℤ) (strAccount : String)
    (wtx : Option Accounting.CWalletTx) : List Entry :=
  if a.nGeneratedMature + a.nGeneratedImmature ≠ 0 ∧ (strAccount = "*" ∨ strAccount = "") then
    if a.nGeneratedImmature ≠ 0 then
      [.tx ⟨"", none, if nDepth ≠ 0 then "immature" else "orphan", a.nGeneratedImmature, none, wtx⟩]
    else [.tx ⟨"", none, "generate", a.nGeneratedMature, none, wtx⟩]
  else []

/-- "Sent" -/
def sentEntries (a : Accounting.Amounts) (strAccount : String) (wtx : Option Accounting.CWalletTx) :
    List Entry :=
  if (a.listSent ≠ [] ∨ a.nFee ≠ 0) ∧ (strAccount = "*" ∨ strAccount = a.strSentAccount) then
    a.listSent.map fun s =>
      .tx ⟨a.strSentAccount, maybeAddress s.1, "send", -s.2, some (-a.nFee), wtx⟩
  else []

/-- The category of what was received. -/
def receivedCategory (wtx : Accounting.CWalletTx) (chain : WalletChain) : String :=
  if wtx.tx.isCoinBase then
    if wtx.getDepthInMainChain chain < 1 then "orphan"
    else if 0 < wtx.getBlocksToMaturity chain then "immature"
    else "generate"
  else "receive"

/-- "Received" -/
def receivedEntries (w : CWallet) (a : Accounting.Amounts) (pwtx : Accounting.CWalletTx)
    (chain : WalletChain) (nMinDepth : ℤ) (strAccount : String)
    (wtx : Option Accounting.CWalletTx) : List Entry :=
  if a.listReceived ≠ [] ∧ nMinDepth ≤ pwtx.getDepthInMainChain chain then
    (a.listReceived.filter fun r =>
      strAccount = "*" || w.wallet.accountOf r.1 = strAccount).map fun r =>
        .tx ⟨w.wallet.accountOf r.1, maybeAddress r.1, receivedCategory pwtx chain, r.2, none, wtx⟩
  else []

/-- `ListTransactions`: what it appends -/
def listTransactions (w : CWallet) (chain : WalletChain) (wtx : Accounting.CWalletTx)
    (strAccount : String) (nMinDepth : ℤ) (fLong : Bool) : Except Failure (List Entry) := do
  let a ← wtx.getAmounts w.wallet chain
  let json := if fLong then some wtx else none
  .ok (generatedEntries a (wtx.getDepthInMainChain chain) strAccount json ++
    sentEntries a strAccount json ++ receivedEntries w a wtx chain nMinDepth strAccount json)

/-- `AcentryToJSON`: what it appends -/
def acentryToJSON (acentry : CAccountingEntry) (strAccount : String) : List Entry :=
  if strAccount = "*" ∨ acentry.strAccount = strAccount then [.move acentry] else []

/-- What an item contributes to the list of an account. -/
def entriesOf (w : CWallet) (chain : WalletChain) (strAccount : String) :
    TxPair → Except Failure (List Entry)
  | .tx _ pwtx => listTransactions w chain pwtx strAccount 0 true
  | .acentry pacentry => .ok (acentryToJSON pacentry strAccount)

end

/-! ## Pages -/

/-- "iterate backwards until we have nCount items to return" -/
def collect (entries : TxPair → Except Failure (List Entry)) (nCount nFrom : ℤ) :
    (ret : List Entry) → List TxPair → Except Failure (List Entry)
  | ret, [] => .ok ret
  | ret, item :: items => do
    let more ← entries item
    let ret := ret ++ more
    if toInt32 (nCount + nFrom) ≤ toInt32 ret.length then .ok ret
    else collect entries nCount nFrom ret items

/-- An iterator of an array, moved from its begin. -/
def advance (n : ℤ) (ret : List Entry) : Except Failure ℕ :=
  if 0 ≤ n ∧ n ≤ ret.length then .ok n.toNat else .error (.crash "iterator out of range")

/-- The end of `listtransactions`, from "ret is newest to oldest" on -/
def cutPage (nCount nFrom : ℤ) (ret : List Entry) : Except Failure (List Entry) := do
  let nFrom := if toInt32 ret.length < nFrom then toInt32 ret.length else nFrom
  let nCount := if toInt32 ret.length < toInt32 (nFrom + nCount)
    then toInt32 (ret.length - nFrom) else nCount
  let first ← advance nFrom ret
  let last ← advance (toInt32 (nFrom + nCount)) ret
  let ret := ret.take last
  -- what is behind `last` is erased, and `first` with it if it is there
  let first ← advance first ret
  .ok (ret.drop first).reverse

/-- `listtransactions` -/
def listtransactions [Platform] (w : CWallet) (chain : WalletChain) (strAccount : String)
    (nCount nFrom : ℤ) : Except Failure (List Entry) :=
  if nCount < 0 then .error (.exception "Negative count")
  else if nFrom < 0 then .error (.exception "Negative from")
  else do
    let ret ← collect (entriesOf w chain strAccount) nCount nFrom []
      (w.orderedTxItems strAccount).reverse
    cutPage nCount nFrom ret

end Listing

end CryptoBullion
