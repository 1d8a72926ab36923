import CryptoBullion.Model.Primitives
import CryptoBullion.Common.Step
/-!
# Ordered positions

`ReorderTransactions`, which gives the transactions of an old wallet and
its accounting entries their positions. The transactions are changed in
memory, the entries only in the database; an item is walked through with
the position it came with. What the database answers a write is handed in.
-/

namespace CryptoBullion

namespace Reorder

/-- `CWalletTx`, with what orders it -/
structure CWalletTx where
  nTimeReceived : ℕ
  nOrderPos : ℤ
  deriving DecidableEq, Repr

/-- `CAccountingEntry`, with what orders it -/
structure CAccountingEntry where
  strAccount : String
  nEntryNo : ℕ
  nTime : ℤ
  nOrderPos : ℤ
  deriving DecidableEq, Repr

/-- The key of its record, less `acentry`. -/
def CAccountingEntry.key (entry : CAccountingEntry) : String × ℕ := (entry.strAccount, entry.nEntryNo)

/-- `CWallet`, and the accounting entries of its database, in the order of
their records -/
structure CWallet where
  mapWallet : Map Uint256 CWalletTx
  acentries : List CAccountingEntry
  nOrderPosNext : ℤ
  /-- a key has one record -/
  nodup_acentries : (acentries.map CAccountingEntry.key).Nodup

/-- What an item is found by. -/
inductive ItemId
  | tx (hash : Uint256)
  | acentry (key : String × ℕ)
  deriving DecidableEq, Repr

/-- An item of `txByTime`. -/
structure Item where
  id : ItemId
  nTime : ℤ
  nOrderPos : ℤ
  deriving DecidableEq, Repr

namespace CWallet

/-- `ListAccountCreditDebit`, of one account: the records of an account are
next to each other -/
def listAccountCreditDebit (w : CWallet) (strAccount : String) : List CAccountingEntry :=
  w.acentries.filter fun entry => entry.strAccount = strAccount

/-- `txByTime.insert`: after what has the same time -/
def insertByTime (item : Item) : List Item → List Item
  | [] => [item]
  | first :: rest =>
    if item.nTime < first.nTime then item :: first :: rest else first :: insertByTime item rest

/-- The transactions, and then the entries of the default account. -/
def items (w : CWallet) : List Item :=
  w.mapWallet.toList.map (fun p => ⟨.tx p.1, p.2.nTimeReceived, p.2.nOrderPos⟩) ++
    (w.listAccountCreditDebit "").map fun entry => ⟨.acentry entry.key, entry.nTime, entry.nOrderPos⟩

/-- "get all CWalletTx and CAccountingEntry into a sorted-by-time multimap" -/
def txByTime (w : CWallet) : List Item :=
  w.items.foldl (fun txByTime item => insertByTime item txByTime) []

/-- `pwtx->nOrderPos`, assigned -/
def setTxPos (w : CWallet) (hash : Uint256) (nOrderPos : ℤ) : CWallet :=
  { w with mapWallet := w.mapWallet.modify hash fun wtx => { wtx with nOrderPos := nOrderPos } }

/-- `WriteAccountingEntry(nEntryNo, acentry)`, of an entry there is -/
def setEntryPos (w : CWallet) (key : String × ℕ) (nOrderPos : ℤ) : CWallet :=
  { w with
    acentries := w.acentries.map fun entry =>
      if entry.key = key then { entry with nOrderPos := nOrderPos } else entry
    nodup_acentries := by
      have hkey : CAccountingEntry.key ∘ (fun entry : CAccountingEntry =>
          if entry.key = key then { entry with nOrderPos := nOrderPos } else entry) =
          CAccountingEntry.key := by
        funext entry
        dsimp only [Function.comp_apply]
        split_ifs <;> rfl
      rw [List.map_map, hkey]
      exact w.nodup_acentries }

end CWallet

/-- What the loop works on. -/
structure State where
  wallet : CWallet
  nOrderPosOffsets : List ℤ

/-- An item gets a position: a transaction in memory, and its record is
written if that is asked for; an entry by its record alone. -/
def assign (fWritten : ItemId → Bool) (id : ItemId) (nOrderPos : ℤ) (fWriteTx fWriteEntry : Bool) :
    Step State Failure Unit :=
  match id with
  | .tx hash => do
    Step.modify fun s => { s with wallet := s.wallet.setTxPos hash nOrderPos }
    if fWriteTx && !fWritten id then Step.fail (.error "DB_LOAD_FAIL") else pure ()
  | .acentry key =>
    if !fWriteEntry then pure ()
    else if !fWritten id then Step.fail (.error "DB_LOAD_FAIL")
    else Step.modify fun s => { s with wallet := s.wallet.setEntryPos key nOrderPos }

/-- How many of the positions handed out an item has to make room for. -/
def nOrderPosOff (nOrderPosOffsets : List ℤ) (nOrderPos : ℤ) : ℕ :=
  nOrderPosOffsets.countP fun nOffsetStart => nOffsetStart ≤ nOrderPos

/-- The body of the loop. -/
def reorderItem (fWritten : ItemId → Bool) (item : Item) : Step State Failure Unit := do
  let s ← Step.get
  if item.nOrderPos = -1 then do
    let nOrderPos := s.wallet.nOrderPosNext
    Step.modify fun s =>
      { wallet := { s.wallet with nOrderPosNext := s.wallet.nOrderPosNext + 1 }
        nOrderPosOffsets := s.nOrderPosOffsets ++ [nOrderPos] }
    -- a transaction is not written back here
    assign fWritten item.id nOrderPos false true
  else do
    let nOff := nOrderPosOff s.nOrderPosOffsets item.nOrderPos
    let nOrderPos := item.nOrderPos + nOff
    Step.modify fun s => { s with
      wallet := { s.wallet with nOrderPosNext := max s.wallet.nOrderPosNext (nOrderPos + 1) } }
    assign fWritten item.id nOrderPos (decide (nOff ≠ 0)) (decide (nOff ≠ 0))

/-- `ReorderTransactions`. Where it returns `DB_LOAD_OK` the step succeeds. -/
def reorderTransactions (fWritten : ItemId → Bool) : Step CWallet Failure Unit := fun w =>
  let r := Step.forEach (reorderItem fWritten) w.txByTime ⟨{ w with nOrderPosNext := 0 }, []⟩
  (r.1, r.2.wallet)

end Reorder

end CryptoBullion
