import CryptoBullion.Model.Platform
/-!
# The encrypted key store

`keystore.cpp`: keys in the plain, by the hash of their public key, or
encrypted under one master key. The store does not say which master key is
the right one: `Unlock` tries the one it is given on the first key there
is.
-/

namespace CryptoBullion

/-- `CSecret` of a key: thirty-two bytes -/
abbrev CSecret := { vch : List UInt8 // vch.length = 32 }

/-- `CKeyID` -/
abbrev CKeyID := BitVec 160

/-- What the store takes from the cipher and the curve. -/
class KeyCrypto where
  /-- the public key of a secret, compressed or not -/
  pubKey : CSecret → Bool → List UInt8
  /-- `CCrypter::Encrypt` under a key and an initialisation vector -/
  encrypt : List UInt8 → Uint256 → List UInt8 → Option (List UInt8)
  /-- `CCrypter::Decrypt` -/
  decrypt : List UInt8 → Uint256 → List UInt8 → Option (List UInt8)
  length_pubKey : ∀ secret fCompressed,
    (pubKey secret fCompressed).length = if fCompressed then 33 else 65
  decrypt_encrypt : ∀ key iv plain cipher,
    encrypt key iv plain = some cipher → decrypt key iv cipher = some plain

/-- A key with its secret. -/
structure CKey where
  secret : CSecret
  fCompressedPubKey : Bool

/-- `CBasicKeyStore::mapKeys` -/
abbrev KeyMap := Map CKeyID (CSecret × Bool)

/-- `CCryptoKeyStore` -/
structure CCryptoKeyStore where
  mapKeys : KeyMap
  /-- public key and encrypted secret -/
  mapCryptedKeys : Map CKeyID (List UInt8 × List UInt8)
  vMasterKey : List UInt8
  fUseCrypto : Bool

variable [P : Platform] [K : KeyCrypto]

/-! ## Keys -/

/-- `CKey::GetPubKey` -/
def CKey.getPubKey (key : CKey) : List UInt8 := K.pubKey key.secret key.fCompressedPubKey

/-- `CPubKey::GetID` -/
def getID (vchPubKey : List UInt8) : CKeyID := P.hash160 vchPubKey

/-- `EncryptSecret`: the master key has to have thirty-two bytes -/
def encryptSecret (vMasterKey : List UInt8) (vchPlaintext : CSecret) (nIV : Uint256) :
    Option (List UInt8) :=
  if vMasterKey.length = 32 then K.encrypt vMasterKey nIV vchPlaintext.1 else none

/-- `DecryptSecret` -/
def decryptSecret (vMasterKey vchCiphertext : List UInt8) (nIV : Uint256) : Option (List UInt8) :=
  if vMasterKey.length = 32 then K.decrypt vMasterKey nIV vchCiphertext else none

/-- `DecryptSecret` of a stored key, and the size it has to have. -/
def openSecret (vMasterKey : List UInt8) (entry : List UInt8 × List UInt8) : Option CSecret :=
  match decryptSecret vMasterKey entry.2 (P.hash entry.1) with
  | none => none
  | some vchSecret => if h : vchSecret.length = 32 then some ⟨vchSecret, h⟩ else none

/-- `SetPubKey` and `SetSecret` on a key object that may have been in use:
the flag of a compressed key stays set. -/
def setKey (fCompressedPubKey : Bool) (vchPubKey : List UInt8) (secret : CSecret) : CKey :=
  ⟨secret, fCompressedPubKey || vchPubKey.length = 33⟩

/-! ## CBasicKeyStore -/

namespace KeyMap

/-- `CBasicKeyStore::AddKey` -/
def addKey (mapKeys : KeyMap) (key : CKey) : KeyMap :=
  mapKeys.insert (getID key.getPubKey) (key.secret, key.fCompressedPubKey)

omit P K in
/-- `CBasicKeyStore::HaveKey` -/
def haveKey (mapKeys : KeyMap) (address : CKeyID) : Bool := mapKeys.contains address

omit P K in
/-- `CBasicKeyStore::GetKeys` -/
def getKeys (mapKeys : KeyMap) : Finset CKeyID := mapKeys.keys.toFinset

omit P K in
/-- `CBasicKeyStore::GetKey`: the key object is reset first -/
def getKey (mapKeys : KeyMap) (address : CKeyID) : Option CKey :=
  (mapKeys[address]?).map fun k => ⟨k.1, k.2⟩

omit P in
/-- `CKeyStore::GetPubKey` -/
def getPubKey (mapKeys : KeyMap) (address : CKeyID) : Option (List UInt8) :=
  (getKey mapKeys address).map (·.getPubKey)

end KeyMap

/-! ## CCryptoKeyStore -/

namespace CCryptoKeyStore

/-- `CCryptoKeyStore()` -/
def new : CCryptoKeyStore := ⟨∅, ∅, [], false⟩

variable (s : CCryptoKeyStore)

/-- `IsCrypted` -/
def isCrypted : Bool := s.fUseCrypto

/-- `IsLocked` -/
def isLocked : Bool := if s.isCrypted then s.vMasterKey.isEmpty else false

/-- `SetCrypted` -/
def setCrypted : Bool × CCryptoKeyStore :=
  if s.fUseCrypto then (true, s)
  else if !s.mapKeys.isEmpty then (false, s)
  else (true, { s with fUseCrypto := true })

/-- `Lock` -/
def lock : Bool × CCryptoKeyStore :=
  match s.setCrypted with
  | (false, s) => (false, s)
  | (true, s) => (true, { s with vMasterKey := [] })

/-- What `Unlock` asks of a master key: that it opens a stored key. -/
def opens (vMasterKeyIn : List UInt8) (entry : List UInt8 × List UInt8) : Bool :=
  match openSecret vMasterKeyIn entry with
  | none => false
  | some secret => (setKey false entry.1 secret).getPubKey = entry.1

/-- `Unlock`: the first key decides -/
def unlock (vMasterKeyIn : List UInt8) : Bool × CCryptoKeyStore :=
  match s.setCrypted with
  | (false, s) => (false, s)
  | (true, s) =>
    if (s.mapCryptedKeys.toList.head?.map fun e => opens vMasterKeyIn e.2).getD true then
      (true, { s with vMasterKey := vMasterKeyIn })
    else (false, s)

/-- `AddCryptedKey` -/
def addCryptedKey (vchPubKey vchCryptedSecret : List UInt8) : Bool × CCryptoKeyStore :=
  match s.setCrypted with
  | (false, s) => (false, s)
  | (true, s) => (true, { s with
      mapCryptedKeys := s.mapCryptedKeys.insert (getID vchPubKey) (vchPubKey, vchCryptedSecret) })

/-- `AddKey` -/
def addKey (key : CKey) : Bool × CCryptoKeyStore :=
  if !s.isCrypted then (true, { s with mapKeys := s.mapKeys.addKey key })
  else if s.isLocked then (false, s)
  else match encryptSecret s.vMasterKey key.secret (P.hash key.getPubKey) with
    | none => (false, s)
    | some vchCryptedSecret => s.addCryptedKey key.getPubKey vchCryptedSecret

/-- `HaveKey` -/
def haveKey (address : CKeyID) : Bool :=
  if !s.isCrypted then s.mapKeys.haveKey address else s.mapCryptedKeys.contains address

/-- `GetKeys` -/
def getKeys : Finset CKeyID :=
  if !s.isCrypted then s.mapKeys.getKeys else s.mapCryptedKeys.keys.toFinset

/-- `GetKey`, into a key object whose flag is `fCompressedOut` -/
def getKey (address : CKeyID) (fCompressedOut : Bool) : Option CKey :=
  if !s.isCrypted then s.mapKeys.getKey address
  else (s.mapCryptedKeys[address]?).bind fun entry =>
    (openSecret s.vMasterKey entry).map (setKey fCompressedOut entry.1)

/-- `GetPubKey` -/
def getPubKey (address : CKeyID) : Option (List UInt8) :=
  if !s.isCrypted then s.mapKeys.getPubKey address else (s.mapCryptedKeys[address]?).map (·.1)

/-- The loop of `EncryptKeys`. -/
def encryptLoop (vMasterKeyIn : List UInt8) :
    List (CKeyID × CSecret × Bool) → CCryptoKeyStore → Bool × CCryptoKeyStore
  | [], s => (true, s)
  | (_, secret, fCompressed) :: rest, s =>
    let vchPubKey := K.pubKey secret fCompressed
    match encryptSecret vMasterKeyIn secret (P.hash vchPubKey) with
    | none => (false, s)
    | some vchCryptedSecret =>
      match s.addCryptedKey vchPubKey vchCryptedSecret with
      | (false, s) => (false, s)
      | (true, s) => encryptLoop vMasterKeyIn rest s

/-- `EncryptKeys` -/
def encryptKeys (vMasterKeyIn : List UInt8) : Bool × CCryptoKeyStore :=
  if !s.mapCryptedKeys.isEmpty || s.isCrypted then (false, s)
  else
    match encryptLoop vMasterKeyIn s.mapKeys.toList { s with fUseCrypto := true } with
    | (false, s) => (false, s)
    | (true, s) => (true, { s with mapKeys := ∅ })

end CCryptoKeyStore

end CryptoBullion
