import CryptoBullion.Model.Platform
/-!
# Keys

`CKey` of `key.cpp`: a key of the cryptographic library and two members
beside it. How a public key is written is kept twice, as the conversion
form inside the library's key and as `fCompressedPubKey`. The library's
calls are parameters; running out of memory is left out.
-/

namespace CryptoBullion

namespace Key

/-- `POINT_CONVERSION_COMPRESSED` -/
def pointConversionCompressed : ℕ := 2

/-- What `CKey` calls of the library. -/
class OpenSSL where
  EC_KEY : Type
  EC_POINT : Type
  /-- `EC_KEY_new_by_curve_name(NID_secp256k1)` -/
  newByCurveName : EC_KEY
  /-- `EC_KEY_set_conv_form` -/
  setConvForm : EC_KEY → ℕ → EC_KEY
  /-- `EC_KEY_get_conv_form` -/
  getConvForm : EC_KEY → ℕ
  /-- `EC_KEY_get0_public_key` -/
  getPublicKey : EC_KEY → Option EC_POINT
  /-- `EC_KEY_set_public_key` -/
  setPublicKey : EC_KEY → EC_POINT → EC_KEY
  /-- `EC_KEY_get0_private_key` -/
  getPrivateKey : EC_KEY → Option ℕ
  /-- `EC_KEY_set_private_key` -/
  setPrivateKey : EC_KEY → ℕ → EC_KEY
  /-- `EC_POINT_mul` of the generator -/
  pointMul : ℕ → Option EC_POINT
  /-- `EC_POINT_is_at_infinity` -/
  isAtInfinity : EC_POINT → Bool
  /-- `EC_KEY_generate_key`, for what the random generator gives -/
  generateKey : EC_KEY → ℕ → Option EC_KEY
  /-- `EC_KEY_dup` -/
  dup : EC_KEY → EC_KEY
  /-- `EC_KEY_copy(dest, src)` -/
  copy : EC_KEY → EC_KEY → EC_KEY
  /-- `i2o_ECPublicKey`: nothing where it returns 0 -/
  i2o : EC_KEY → Option (List UInt8)
  /-- `o2i_ECPublicKey`: nothing where it fails -/
  o2i : EC_KEY → List UInt8 → Option EC_KEY

variable [L : OpenSSL]

/-- `CKey` -/
structure CKey where
  pkey : L.EC_KEY
  fSet : Bool
  fCompressedPubKey : Bool

namespace CKey

variable (k : CKey)

/-- `SetCompressedPubKey` -/
def setCompressedPubKey : CKey :=
  { k with pkey := L.setConvForm k.pkey pointConversionCompressed, fCompressedPubKey := true }

/-- `Reset`, whatever the key was -/
def reset : CKey := ⟨L.newByCurveName, false, false⟩

/-- `CKey()` -/
def init : CKey := reset

/-- `CKey(const CKey& b)`. It does not write `fCompressedPubKey`, which
holds what was in its memory. -/
def copyOf (b : CKey) (memory : Bool) : CKey :=
  ⟨L.dup b.pkey, b.fSet, memory⟩

/-- `operator=(const CKey& b)`. It does not write `fCompressedPubKey`. -/
def assign (b : CKey) : CKey :=
  { k with pkey := L.copy k.pkey b.pkey, fSet := b.fSet }

/-- `IsCompressed` -/
def isCompressed : Bool := k.fCompressedPubKey

/-- `MakeNewKey`: the key it leaves, and whether it threw -/
def makeNewKey (random : ℕ) (fCompressed : Bool) : CKey × Except Failure Unit :=
  match L.generateKey k.pkey random with
  | none => (k, .error (.exception "CKey::MakeNewKey() : EC_KEY_generate_key failed"))
  | some pkey =>
    let k := { k with pkey := pkey }
    let k := if fCompressed then k.setCompressedPubKey else k
    ({ k with fSet := true }, .ok ())

/-- `EC_KEY_regenerate_key` -/
def regenerateKey (eckey : L.EC_KEY) (priv_key : ℕ) : Option L.EC_KEY :=
  (L.pointMul priv_key).map fun pub_key => L.setPublicKey (L.setPrivateKey eckey priv_key) pub_key

/-- `SetSecret`: the key it leaves, and what it returns or threw -/
def setSecret (vchSecret : List UInt8) (fCompressed : Bool) :
    CKey × Except Failure Bool :=
  let k := { k with pkey := L.newByCurveName }
  if vchSecret.length ≠ 32 then
    (k, .error (.exception "CKey::SetSecret() : secret must be 32 bytes"))
  else
    match regenerateKey k.pkey (ofLeBytes vchSecret.reverse) with
    | none => (k, .error (.exception "CKey::SetSecret() : EC_KEY_regenerate_key failed"))
    | some pkey =>
      let k := { k with pkey := pkey, fSet := true }
      (if fCompressed || k.fCompressedPubKey then k.setCompressedPubKey else k, .ok true)

/-- `GetSecret`: the secret, and `fCompressed` -/
def getSecret : Except Failure (List UInt8 × Bool) :=
  match L.getPrivateKey k.pkey with
  | none => .error (.crash "BN_num_bytes")
  | some bn => .ok ((leBytes 32 bn).reverse, k.fCompressedPubKey)

/-- `SetPubKey`: the key it leaves, and what it returns -/
def setPubKey (vchPubKey : List UInt8) : CKey × Bool :=
  match L.o2i k.pkey vchPubKey with
  | some pkey =>
    let k := { k with pkey := pkey, fSet := true }
    (if vchPubKey.length = 33 then k.setCompressedPubKey else k, true)
  | none => (reset, false)

/-- `GetPubKey` -/
def getPubKey : Except Failure (List UInt8) :=
  match L.i2o k.pkey with
  | none => .error (.exception "CKey::GetPubKey() : i2o_ECPublicKey failed")
  | some vchPubKey => .ok vchPubKey

end CKey

/-! ## Key objects -/

/-- What a program does with its key objects, which are told by their
numbers. -/
inductive KeyOp
  | construct
  | copyConstruct (b : ℕ) (memory : Bool)
  | assign (a b : ℕ)
  | makeNewKey (a random : ℕ) (fCompressed : Bool)
  | setSecret (a : ℕ) (vchSecret : List UInt8) (fCompressed : Bool)
  | setPubKey (a : ℕ) (vchPubKey : List UInt8)
  | setCompressedPubKey (a : ℕ)
  | reset (a : ℕ)

/-- One of them, on all the key objects there are. -/
def KeyOp.step : KeyOp → List CKey → List CKey
  | construct, keys => keys ++ [.init]
  | copyConstruct b memory, keys => keys ++ (keys[b]?.map (·.copyOf memory)).toList
  | assign a b, keys => keys.modify a fun k => (keys[b]?.map k.assign).getD k
  | makeNewKey a random fCompressed, keys => keys.modify a fun k => (k.makeNewKey random fCompressed).1
  | setSecret a vchSecret fCompressed, keys =>
    keys.modify a fun k => (k.setSecret vchSecret fCompressed).1
  | setPubKey a vchPubKey, keys => keys.modify a fun k => (k.setPubKey vchPubKey).1
  | setCompressedPubKey a, keys => keys.modify a (·.setCompressedPubKey)
  | reset a, keys => keys.modify a fun _ => CKey.reset

end Key

end CryptoBullion
