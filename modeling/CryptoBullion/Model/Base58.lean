import CryptoBullion.Model.Interpreter
import CryptoBullion.Model.Text
/-!
# Base58

`base58.h`: byte strings as numbers in base 58, with a checksum, and what is
printed that way: addresses and secret keys.
-/

namespace CryptoBullion

def pszBase58 : List UInt8 := text "123456789ABCDEFGHJKLMNPQRSTUVWXYZabcdefghijkmnopqrstuvwxyz"

/-- `pszBase58[c]` -/
def base58Char (c : ℕ) : UInt8 := pszBase58.getD c 0

/-- The division loop of `EncodeBase58`: the characters, the least
significant first. -/
def base58Digits (bn : ℕ) : List UInt8 :=
  if h : bn = 0 then [] else base58Char (bn % 58) :: base58Digits (bn / 58)
termination_by bn
decreasing_by exact Nat.div_lt_self (Nat.pos_of_ne_zero h) (by norm_num)

/-- `EncodeBase58` -/
def encodeBase58 (vch : List UInt8) : List UInt8 :=
  -- extra zero at the end make sure bignum will interpret as a positive number
  let bn := bnOfVch (vch.reverse ++ [0])
  let str := base58Digits bn.toNat
  -- leading zeroes encoded as base58 zeros
  let str := str ++ (vch.takeWhile fun c => c = 0).map fun _ => base58Char 0
  str.reverse

/-- `strchr(pszBase58, c)`, less `pszBase58` -/
def base58Index (c : UInt8) : Option ℕ := pszBase58.findIdx? fun c' => c' = c

/-- The loop of `DecodeBase58`; behind the last character there may be
space. -/
def decodeBase58Loop : (p : List UInt8) → (bn : ℕ) → Option ℕ
  | [], bn => some bn
  | c :: p, bn =>
    match base58Index c with
    | none => if (c :: p).dropWhile isSpace = [] then some bn else none
    | some i => decodeBase58Loop p (bn * 58 + i)

/-- Trim off sign byte if present. -/
def trimSign (vchTmp : List UInt8) : List UInt8 :=
  if 2 ≤ vchTmp.length && vchTmp.getD (vchTmp.length - 1) 0 = 0 &&
      0x80 ≤ vchTmp.getD (vchTmp.length - 2) 0 then vchTmp.take (vchTmp.length - 1)
  else vchTmp

/-- `DecodeBase58(const char*, vector&)` -/
def decodeBase58Psz (psz : List UInt8) : Option (List UInt8) :=
  let psz := psz.dropWhile isSpace
  (decodeBase58Loop psz 0).map fun (bn : ℕ) =>
    (psz.takeWhile fun c => c = base58Char 0).map (fun _ => 0) ++ (trimSign (getVch bn)).reverse

/-- `DecodeBase58(const string&, vector&)` -/
def decodeBase58 (str : List UInt8) : Option (List UInt8) := decodeBase58Psz (cStr str)

section Check

variable [P : Platform]

/-- The first four bytes of a hash -/
def checksum (vch : List UInt8) : List UInt8 := (serializeHash (P.hash vch)).take 4

/-- `EncodeBase58Check` -/
def encodeBase58Check (vchIn : List UInt8) : List UInt8 := encodeBase58 (vchIn ++ checksum vchIn)

/-- `DecodeBase58Check` -/
def decodeBase58Check (str : List UInt8) : Option (List UInt8) :=
  match decodeBase58 str with
  | none => none
  | some vchRet =>
    if vchRet.length < 4 then none
    else if checksum (vchRet.take (vchRet.length - 4)) ≠ vchRet.drop (vchRet.length - 4) then none
    else some (vchRet.take (vchRet.length - 4))

/-- `CBase58Data`: the version byte and the data -/
structure CBase58Data where
  nVersion : UInt8
  vchData : List UInt8
  deriving DecidableEq, Repr

namespace CBase58Data

/-- `CBase58Data()` -/
def init : CBase58Data := ⟨0, []⟩

/-- `SetData` -/
def setData (nVersionIn : ℕ) (pdata : List UInt8) : CBase58Data := ⟨UInt8.ofNat nVersionIn, pdata⟩

/-- `SetString`: what it leaves, and what it returns -/
def setString (str : List UInt8) : CBase58Data × Bool :=
  match decodeBase58Check str with
  | some (nVersion :: vchData) => (⟨nVersion, vchData⟩, true)
  | _ => (init, false)

/-- `ToString` -/
def toStr (d : CBase58Data) : List UInt8 := encodeBase58Check (d.nVersion :: d.vchData)

end CBase58Data

/-! ## Addresses -/

namespace CCryptobullionAddress

/-- `PUBKEY_ADDRESS`, an address that begins with a 'C' -/
def pubkeyAddress : ℕ := 11
/-- `SCRIPT_ADDRESS` -/
def scriptAddress : ℕ := 8
/-- `PUBKEY_ADDRESS_TEST` -/
def pubkeyAddressTest : ℕ := 111
/-- `SCRIPT_ADDRESS_TEST` -/
def scriptAddressTest : ℕ := 196

/-- `CCryptobullionAddress(const CTxDestination&)` -/
def ofDest : CTxDestination → CBase58Data
  | .noDestination => .init
  | .keyID id =>
    .setData (if P.fTestNet then pubkeyAddressTest else pubkeyAddress) (leBytes 20 id.toNat)
  | .scriptID id =>
    .setData (if P.fTestNet then scriptAddressTest else scriptAddress) (leBytes 20 id.toNat)

/-- `CCryptobullionAddress(const std::string&)` -/
def ofString (strAddress : List UInt8) : CBase58Data := (CBase58Data.setString strAddress).1

/-- `IsValid` -/
def isValid (d : CBase58Data) : Bool :=
  let nVersion := d.nVersion.toNat
  let valid (fExpectTestNet : Bool) : Bool := fExpectTestNet = P.fTestNet && d.vchData.length = 20
  if nVersion = pubkeyAddress then valid false
  else if nVersion = scriptAddress then valid false
  else if nVersion = pubkeyAddressTest then valid true
  else if nVersion = scriptAddressTest then valid true
  else false

/-- `Get` -/
def get (d : CBase58Data) : CTxDestination :=
  let nVersion := d.nVersion.toNat
  let id := BitVec.ofNat 160 (ofLeBytes (d.vchData.take 20))
  if !isValid d then .noDestination
  else if nVersion = pubkeyAddress ∨ nVersion = pubkeyAddressTest then .keyID id
  else if nVersion = scriptAddress ∨ nVersion = scriptAddressTest then .scriptID id
  else .noDestination

end CCryptobullionAddress

/-! ## Secret keys -/

namespace CCryptobullionSecret

/-- The version byte of a secret: that of an address, and 128. -/
def secretVersion : ℕ :=
  128 + if P.fTestNet then CCryptobullionAddress.pubkeyAddressTest
    else CCryptobullionAddress.pubkeyAddress

/-- `SetSecret` -/
def setSecret (vchSecret : List UInt8) (fCompressed : Bool) : Except Failure CBase58Data :=
  if vchSecret.length ≠ 32 then .error (.crash "vchSecret.size() == 32")
  else .ok (.setData secretVersion (if fCompressed then vchSecret ++ [1] else vchSecret))

/-- `GetSecret`: the secret, and `fCompressedOut` -/
def getSecret (d : CBase58Data) : List UInt8 × Bool := (d.vchData.take 32, d.vchData.length = 33)

/-- `IsValid` -/
def isValid (d : CBase58Data) : Bool :=
  let nVersion := d.nVersion.toNat
  let valid (fExpectTestNet : Bool) : Bool := fExpectTestNet = P.fTestNet &&
    (d.vchData.length = 32 || (d.vchData.length = 33 && d.vchData.getD 32 0 = 1))
  if nVersion = 128 + CCryptobullionAddress.pubkeyAddress then valid false
  else if nVersion = 128 + CCryptobullionAddress.pubkeyAddressTest then valid true
  else false

/-- `SetString`: what it leaves, and what it returns -/
def setString (strSecret : List UInt8) : CBase58Data × Bool :=
  let (d, fRead) := CBase58Data.setString strSecret
  (d, fRead && isValid d)

end CCryptobullionSecret

end Check

end CryptoBullion
