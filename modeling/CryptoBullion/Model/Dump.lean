import CryptoBullion.Model.AddressGroupings
import CryptoBullion.Model.Base58
import CryptoBullion.Model.CryptoKeyStore
import CryptoBullion.Model.Records
/-!
# Wallet dumps

`DumpWallet` writes a key to a line of text: the secret, the time of its
birth, and its label or what stands in its place. `ImportWallet` splits each
line at its spaces. How dates are formatted and parsed is a parameter; the
rescan that follows an import, and what it finds, are left out.
-/

namespace CryptoBullion

namespace Dump

/-! ## Labels -/

/-- `hexmap` -/
def hexDigit (n : ℕ) : UInt8 := UInt8.ofNat (if n < 10 then 48 + n else 87 + n)

/-- `HexStr` of a byte -/
def hexStr (c : UInt8) : List UInt8 := [hexDigit (c.toNat / 16), hexDigit (c.toNat % 16)]

/-- `GetHex` -/
def getHex (h : Uint256) : List UInt8 := (serializeHash h).reverse.flatMap hexStr

/-- A byte of a label, as it is written. -/
def encodeDumpChar (c : UInt8) : List UInt8 :=
  if c ≤ 32 || 128 ≤ c || c = 37 then 37 :: hexStr c else [c]

/-- `EncodeDumpString` -/
def encodeDumpString (str : List UInt8) : List UInt8 := str.flatMap encodeDumpChar

/-- `(c>>6)*9+((c-'0')&15)` of a `char` -/
def hexValue (c : UInt8) : ℤ :=
  let c : ℤ := if c < 128 then c.toNat else c.toNat - 256
  c / 64 * 9 + (c - 48) % 16

/-- What two of them are combined to. -/
def hexByte (c c' : UInt8) : UInt8 :=
  UInt8.ofNat ((hexValue c * 16 % 256).toNat ||| (hexValue c' % 256).toNat)

/-- `DecodeDumpString` -/
def decodeDumpString : List UInt8 → List UInt8
  | c :: c₁ :: c₂ :: str =>
    if c = 37 then hexByte c₁ c₂ :: decodeDumpString str else c :: decodeDumpString (c₁ :: c₂ :: str)
  | c :: str => c :: decodeDumpString str
  | [] => []

/-! ## Times -/

/-- `EncodeDumpTime` and `DecodeDumpTime`: a date has digits and signs -/
structure DumpTime where
  encode : ℤ → List UInt8
  decode : List UInt8 → ℤ
  plain : ∀ nTime, ∀ c ∈ encode nTime, 32 < c

/-! ## The wallet -/

/-- `CWallet`, with the time of birth of `CKeyMetadata` -/
structure CWallet where
  store : CCryptoKeyStore
  mapKeyMetadata : Map CKeyID ℤ
  mapAddressBook : Map CTxDestination (List UInt8)

/-- Where a block is, and when it was made. -/
structure BlockAt where
  nHeight : ℤ
  nTime : ℕ
  deriving DecidableEq, Repr

/-- What a dump reads besides keys and labels. -/
structure DumpEnv where
  /-- `CLIENT_BUILD` and `CLIENT_DATE`, of one line -/
  clientBuild : List UInt8
  clientDate : List UInt8
  nTimeNow : ℤ
  nBestHeight : ℤ
  hashBestChain : Uint256
  nBestTime : ℕ
  /-- `FindBlockByHeight(std::max(0, nBestHeight - 144))` -/
  pindexMax : BlockAt
  /-- for each output of a wallet transaction in the main chain, its block and
  the keys `ExtractAffectedKeys` finds -/
  outputs : List (BlockAt × List CKeyID)
  /-- `GetAllReserveKeys` -/
  setKeyPool : List CKeyID
  oneLine : 10 ∉ clientBuild ∧ 10 ∉ clientDate

variable [P : Platform] [K : KeyCrypto]

omit P K in
/-- `GetKeys`, in order -/
def CWallet.keys (w : CWallet) : List CKeyID :=
  if !w.store.isCrypted then w.store.mapKeys.keys else w.store.mapCryptedKeys.keys

/-! ## GetKeyBirthTimes -/

/-- A key affected by an output: its first block is the lower one. -/
def lowerFirstBlock (pindex : BlockAt) (mapKeyFirstBlock : Map CKeyID BlockAt) (keyid : CKeyID) :
    Map CKeyID BlockAt :=
  match mapKeyFirstBlock[keyid]? with
  | none => mapKeyFirstBlock
  | some first =>
    if pindex.nHeight < first.nHeight then mapKeyFirstBlock.insert keyid pindex else mapKeyFirstBlock

/-- `mapKeyFirstBlock` in the end -/
def firstBlocks (env : DumpEnv) (keys : List CKeyID) : Map CKeyID BlockAt :=
  let mapKeyFirstBlock := keys.foldl (fun m keyid => m.insert keyid env.pindexMax) ∅
  env.outputs.foldl (fun m o => o.2.foldl (lowerFirstBlock o.1) m) mapKeyFirstBlock

omit P K in
/-- `GetKeyBirthTimes` -/
def CWallet.getKeyBirthTimes (w : CWallet) (env : DumpEnv) : Map CKeyID ℤ :=
  let mapKeyBirth := w.mapKeyMetadata.filter fun _ nCreateTime => nCreateTime ≠ 0
  let setKeys := w.keys.filter fun keyid => !mapKeyBirth.contains keyid
  -- block times can be 2h off
  (firstBlocks env setKeys).toList.foldl
    (fun m e => m.insert e.1 (toUint (e.2.nTime + 2 ^ 32 - 7200) : ℤ)) mapKeyBirth

/-! ## DumpWallet -/

/-- Pairs are ordered by time, then by key. -/
def birthLe (a b : ℤ × CKeyID) : Prop := a.1 < b.1 ∨ a.1 = b.1 ∧ a.2.toNat ≤ b.2.toNat

instance : DecidableRel birthLe := fun _ _ => inferInstanceAs (Decidable (_ ∨ _))

omit P K in
/-- `vKeyBirth`, sorted -/
def CWallet.keyBirths (w : CWallet) (env : DumpEnv) : List (ℤ × CKeyID) :=
  ((w.getKeyBirthTimes env).toList.map fun e => (e.2, e.1)).insertionSort birthLe

omit P K in
/-- What a line says of a key's label. -/
def CWallet.labelText (w : CWallet) (env : DumpEnv) (keyid : CKeyID) : List UInt8 :=
  match w.mapAddressBook[CTxDestination.keyID keyid]? with
  | some label => text "label=" ++ encodeDumpString label
  | none => if env.setKeyPool.contains keyid then text "reserve=1" else text "change=1"

/-- The line of a key; there is none of a key that `GetKey` does not give. -/
def CWallet.dumpKey (w : CWallet) (env : DumpEnv) (times : DumpTime) (it : ℤ × CKeyID) :
    Except Failure (List (List UInt8)) :=
  match w.store.getKey it.2 false with
  | none => .ok []
  | some key => do
    let vchSecret ← CCryptobullionSecret.setSecret key.secret.1 key.fCompressedPubKey
    let strAddr := (CCryptobullionAddress.ofDest (.keyID it.2)).toStr
    .ok [vchSecret.toStr ++ [32] ++ times.encode it.1 ++ [32] ++ w.labelText env it.2 ++ [32, 35, 32] ++
      text "addr=" ++ strAddr]

omit K in
/-- What stands before the keys. -/
def dumpHeader (env : DumpEnv) (times : DumpTime) : List (List UInt8) :=
  [text "# Wallet dump created by CryptoBullion " ++ env.clientBuild ++ text " (" ++ env.clientDate ++
      text ")",
    text "# * Created on " ++ times.encode env.nTimeNow,
    text "# * Best block at time of backup was " ++ Records.printInt env.nBestHeight ++ text " (" ++
      getHex env.hashBestChain ++ text "),",
    text "#   mined on " ++ times.encode env.nBestTime,
    []]

/-- `DumpWallet`: the file -/
def CWallet.dump (w : CWallet) (env : DumpEnv) (times : DumpTime) : Except Failure (List UInt8) := do
  let keyLines ← (w.keyBirths env).mapM (w.dumpKey env times)
  let lines := dumpHeader env times ++ keyLines.flatten ++ [[], text "# End of dump"]
  .ok (lines.flatMap fun line => line ++ [10])

/-! ## ImportWallet -/

/-- `boost::algorithm::starts_with` -/
def startsWith (str test : List UInt8) : Bool := test.isPrefixOf str

/-- The loop over what follows secret and time: `strLabel` and `fLabel`. -/
def readLabel : List (List UInt8) → List UInt8 × Bool → List UInt8 × Bool
  | [], s => s
  | str :: vstr, (strLabel, fLabel) =>
    if startsWith str [35] then (strLabel, fLabel)
    else
      let fLabel := if str = text "change=1" then false else fLabel
      let fLabel := if str = text "reserve=1" then false else fLabel
      if startsWith str (text "label=") then readLabel vstr (decodeDumpString (str.drop 6), true)
      else readLabel vstr (strLabel, fLabel)

/-- A key of the file is added, unless it is there: the wallet and `fGood`. -/
def CWallet.importKey (w : CWallet) (fGood : Bool) (key : CKey) (nTime : ℤ)
    (label : List UInt8 × Bool) : CWallet × Bool :=
  let keyid := getID key.getPubKey
  if w.store.haveKey keyid then (w, fGood)
  else match w.store.addKey key with
    | (false, store) => ({ w with store := store }, false)
    | (true, store) =>
      let mapKeyMetadata := w.mapKeyMetadata.insert keyid nTime
      let mapAddressBook := if label.2 then w.mapAddressBook.insert (.keyID keyid) label.1
        else w.mapAddressBook
      (⟨store, mapKeyMetadata, mapAddressBook⟩, fGood)

/-- A line of the file. -/
def CWallet.importLine (times : DumpTime) (s : CWallet × Bool) (line : List UInt8) : CWallet × Bool :=
  if line.isEmpty || line.head? = some 35 then s
  else match line.splitOn 32 with
    | str :: strTime :: vstr =>
      match CCryptobullionSecret.setString str with
      | (_, false) => s
      | (vchSecret, true) =>
        let (secret, fCompressed) := CCryptobullionSecret.getSecret vchSecret
        -- a valid secret has thirty-two bytes
        if h : secret.length = 32 then
          s.1.importKey s.2 ⟨⟨secret, h⟩, fCompressed⟩ (times.decode strTime) (readLabel vstr ([], true))
        else s
    | _ => s

/-- `ImportWallet`, up to the rescan: the wallet, and `fGood` -/
def CWallet.importFile (w : CWallet) (times : DumpTime) (file : List UInt8) : CWallet × Bool :=
  (file.splitOn 10).foldl (CWallet.importLine times) (w, true)

end Dump

end CryptoBullion
