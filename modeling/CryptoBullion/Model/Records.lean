import CryptoBullion.Model.Accounting
import CryptoBullion.Model.Money
import CryptoBullion.Model.Stream
/-!
# Records of wallet transactions and of accounting entries

Some fields of a wallet transaction are written as values of its string map,
under keys of their own that are taken out again afterwards; those of an
accounting entry follow a NUL in its comment. Writing changes the object
while it goes on, so a writer hands back the object, too.
-/

namespace CryptoBullion

namespace Records

/-- `mapValue_t`: strings are ordered byte by byte -/
abbrev MapValue := Map (List UInt8) (List UInt8)

/-! ## Numbers as text -/

/-- `%d` and `%u` -/
def printInt (n : ℤ) : List UInt8 :=
  if n < 0 then 45 :: printDecimal n.natAbs else printDecimal n.natAbs

/-- The sign `strtoll` finds, and what follows it. -/
def signOf : List UInt8 → Bool × List UInt8
  | [] => (false, [])
  | c :: s => if c = 45 then (true, s) else if c = 43 then (false, s) else (false, c :: s)

/-- `atoi64`: `strtoll` of any string, to base ten -/
def strtoll (str : List UInt8) : ℤ :=
  let (fMinus, s) := signOf ((cStr str).dropWhile isSpace)
  let n : ℤ := decimalValue (s.takeWhile isDigit)
  max (-2 ^ 63) (min (2 ^ 63 - 1) (if fMinus then -n else n))

/-! ## Maps of strings -/

/-- `std::pair` of two strings -/
def serializePair (item : List UInt8 × List UInt8) : List UInt8 :=
  serializeBytes item.1 ++ serializeBytes item.2

def unserializePair : Reader (List UInt8 × List UInt8) := unserializeBytes.pair unserializeBytes

def serializeMap (m : MapValue) : List UInt8 := serializeVector serializePair m.toList

/-- Items are inserted as they come; one whose key is there already changes
nothing. -/
def unserializeMap : Reader MapValue :=
  (fun items => items.foldl (fun m item => m.insertIfNew item.1 item.2) ∅) <$>
    unserializeVector unserializePair

/-! ## Positions -/

/-- `ReadOrderPos` -/
def readOrderPos (mapValue : MapValue) : ℤ :=
  match mapValue[text "n"]? with
  | none => -1
  | some s => strtoll s

/-- `WriteOrderPos` -/
def writeOrderPos (nOrderPos : ℤ) (mapValue : MapValue) : MapValue :=
  if nOrderPos = -1 then mapValue else mapValue.insert (text "n") (printInt nOrderPos)

/-! ## CMerkleTx -/

def serializeMerkleTx (wtx : CMerkleTx) : List UInt8 :=
  wtx.tx.serialize ++ serializeHash wtx.hashBlock ++ serializeVector serializeHash wtx.vMerkleBranch ++
    leInt 4 wtx.nIndex

def unserializeMerkleTx : Reader CMerkleTx := do
  let tx ← CTransaction.unserialize
  let hashBlock ← readHash
  let vMerkleBranch ← unserializeVector readHash
  let nIndex ← readInt 4
  return ⟨tx, hashBlock, vMerkleBranch, nIndex⟩

/-! ## CWalletTx -/

/-- `CWalletTx`, without what it caches -/
structure CWalletTx where
  merkleTx : CMerkleTx
  vtxPrev : List CMerkleTx
  mapValue : MapValue
  vOrderForm : List (List UInt8 × List UInt8)
  fTimeReceivedIsTxTime : ℕ
  nTimeReceived : ℕ
  nTimeSmart : ℕ
  fFromMe : UInt8
  strFromAccount : List UInt8
  vfSpent : List UInt8
  nOrderPos : ℤ

/-- The keys that are erased from the map in the end. -/
def eraseReserved (m : MapValue) : MapValue :=
  ((((m.erase (text "fromaccount")).erase (text "version")).erase (text "spent")).erase
    (text "n")).erase (text "timesmart")

/-- The map as it is written. -/
def CWalletTx.written (wtx : CWalletTx) : MapValue :=
  let m := wtx.mapValue.insert (text "fromaccount") wtx.strFromAccount
  let m := m.insert (text "spent") (wtx.vfSpent.map fun f => if f ≠ 0 then 49 else 48)
  let m := writeOrderPos wtx.nOrderPos m
  if wtx.nTimeSmart ≠ 0 then m.insert (text "timesmart") (printDecimal wtx.nTimeSmart) else m

/-- `CWalletTx::Serialize`: what is written, and the object afterwards -/
def CWalletTx.serialize (wtx : CWalletTx) : List UInt8 × CWalletTx :=
  let fSpent : UInt8 := if wtx.vfSpent.any (· ≠ 0) then 1 else 0
  (serializeMerkleTx wtx.merkleTx ++ serializeVector serializeMerkleTx wtx.vtxPrev ++
      serializeMap wtx.written ++ serializeVector serializePair wtx.vOrderForm ++
      leBytes 4 wtx.fTimeReceivedIsTxTime ++ leBytes 4 wtx.nTimeReceived ++ [wtx.fFromMe] ++ [fSpent],
    { wtx with mapValue := eraseReserved wtx.written })

/-- What `Unserialize` makes of the flags; records without them have one flag
for all the outputs. -/
def readSpent (mapValue : MapValue) (nOutputs : ℕ) (fSpent : UInt8) : List UInt8 :=
  match mapValue[text "spent"]? with
  | none => List.replicate nOutputs fSpent
  | some str => str.map fun c => if c ≠ 48 then 1 else 0

/-- And of the time. -/
def readTimeSmart (mapValue : MapValue) : ℕ :=
  match mapValue[text "timesmart"]? with
  | none => 0
  | some str => (strtoll str % 2 ^ 32).toNat

/-- A byte. -/
def readChar : Reader UInt8 := UInt8.ofNat <$> readLe 1

/-- `CWalletTx::Unserialize`, whatever is in the object read into. -/
def CWalletTx.unserialize : Reader CWalletTx := do
  let merkleTx ← unserializeMerkleTx
  let vtxPrev ← unserializeVector unserializeMerkleTx
  let mapValue ← unserializeMap
  let vOrderForm ← unserializeVector unserializePair
  let fTimeReceivedIsTxTime ← readLe 4
  let nTimeReceived ← readLe 4
  let fFromMe ← readChar
  let fSpent ← readChar
  return {
    merkleTx := merkleTx
    vtxPrev := vtxPrev
    mapValue := eraseReserved mapValue
    vOrderForm := vOrderForm
    fTimeReceivedIsTxTime := fTimeReceivedIsTxTime
    nTimeReceived := nTimeReceived
    nTimeSmart := readTimeSmart mapValue
    fFromMe := fFromMe
    strFromAccount := (mapValue[text "fromaccount"]?).getD []
    vfSpent := readSpent mapValue merkleTx.tx.vout.length fSpent
    nOrderPos := readOrderPos mapValue }

/-! ## CAccountingEntry -/

/-- `CAccountingEntry`, without the account and the number, which are in the
key of its record -/
structure CAccountingEntry where
  nCreditDebit : ℤ
  nTime : ℤ
  strOtherAccount : List UInt8
  strComment : List UInt8
  mapValue : MapValue
  nOrderPos : ℤ
  ssExtra : List UInt8

/-- `CAccountingEntry()` -/
def CAccountingEntry.new : CAccountingEntry := ⟨0, 0, [], [], ∅, -1, []⟩

/-- The comment as it is written. -/
def CAccountingEntry.written (entry : CAccountingEntry) : List UInt8 :=
  let mapValue := writeOrderPos entry.nOrderPos entry.mapValue
  if mapValue.isEmpty && entry.ssExtra.isEmpty then entry.strComment
  else entry.strComment ++ ([0] ++ serializeMap mapValue ++ entry.ssExtra)

/-- `CAccountingEntry::Serialize`: what is written, and the object afterwards -/
def CAccountingEntry.serialize (nType : ℕ) (nVersion : ℤ) (entry : CAccountingEntry) :
    List UInt8 × CAccountingEntry :=
  ((if nType &&& serGetHash = 0 then leInt 4 nVersion else []) ++ leInt 8 entry.nCreditDebit ++
      leInt 8 entry.nTime ++ serializeBytes entry.strOtherAccount ++ serializeBytes entry.written,
    { entry with
      strComment := entry.written.takeWhile (· ≠ 0)
      mapValue := (writeOrderPos entry.nOrderPos entry.mapValue).erase (text "n") })

/-- The map and what is behind it, read from the comment, from behind its
first NUL; without one, the extra bytes of the object read into stay. -/
def CAccountingEntry.readComment (me : CAccountingEntry) (strComment : List UInt8) :
    Except Failure (MapValue × List UInt8) :=
  match strComment.dropWhile (· ≠ 0) with
  | [] => .ok (∅, me.ssExtra)
  | _ :: vch => unserializeMap vch

/-- `READWRITE(nVersion)`, unless what is read was written for a hash -/
def readVersion (nType : ℕ) : Reader Unit :=
  if nType &&& serGetHash = 0 then (fun _ => ()) <$> readInt 4 else pure ()

/-- `CAccountingEntry::Unserialize`, into `me` -/
def CAccountingEntry.unserialize (nType : ℕ) (me : CAccountingEntry) : Reader CAccountingEntry := do
  readVersion nType
  let nCreditDebit ← readInt 8
  let nTime ← readInt 8
  let strOtherAccount ← unserializeBytes
  let strComment ← unserializeBytes
  match me.readComment strComment with
  | .error f => throw f
  | .ok (mapValue, ssExtra) =>
    return {
      nCreditDebit := nCreditDebit
      nTime := nTime
      strOtherAccount := strOtherAccount
      strComment := strComment.takeWhile (· ≠ 0)
      mapValue := mapValue.erase (text "n")
      nOrderPos := readOrderPos mapValue
      ssExtra := ssExtra }

end Records

end CryptoBullion
