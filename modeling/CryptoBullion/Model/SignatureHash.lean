import CryptoBullion.Model.Interpreter
/-!
# What a signature signs, and the signatures that were found valid

`SignatureHash` hashes a copy of the transaction with parts of it blanked
out, as the hash type says. `CheckSig` verifies a signature of that hash
and remembers the valid ones in a cache, whose size is limited by an
argument that is read again each time. The cache is a `std::set`: a finite
set, the order of its elements deciding which is evicted.
-/

namespace CryptoBullion

/-! ## SignatureHash -/

/-- `SIGHASH_ALL`, `SIGHASH_NONE`, `SIGHASH_SINGLE` -/
def sighashAll : ℤ := 1
def sighashNone : ℤ := 2
def sighashSingle : ℤ := 3

/-- `nHashType & 0x1f` -/
def baseType (nHashType : ℤ) : ℤ := nHashType % 32

/-- `nHashType & SIGHASH_ANYONECANPAY` -/
def anyoneCanPay (nHashType : ℤ) : Bool := 128 ≤ nHashType % 256

/-- `CTxOut::SetNull` -/
def CTxOut.null : CTxOut := ⟨-1, []⟩

/-- "Let the others update at will" -/
def freeSequences (nIn : ℕ) (vin : List CTxIn) : List CTxIn :=
  vin.mapIdx fun i txin => if i ≠ nIn then { txin with nSequence := 0 } else txin

/-- "Blank out other inputs' signatures" -/
def blankScriptSigs (scriptCode : CScript) (nIn : ℕ) (txTmp : CTransaction) : CTransaction :=
  let vin := txTmp.vin.map fun txin => { txin with scriptSig := [] }
  { txTmp with vin := vin.modify nIn fun txin => { txin with scriptSig := scriptCode } }

/-- "Blank out some of the outputs"; `none` where there is no output to
lock in. -/
def blankOutputs (nIn : ℕ) (nHashType : ℤ) (txTmp : CTransaction) : Option CTransaction :=
  if baseType nHashType = sighashNone then
    some { txTmp with vout := [], vin := freeSequences nIn txTmp.vin }
  else if baseType nHashType = sighashSingle then
    let nOut := nIn
    if txTmp.vout.length ≤ nOut then none
    else some { txTmp with
      vout := (txTmp.vout.take (nOut + 1)).mapIdx fun i o => if i < nOut then CTxOut.null else o
      vin := freeSequences nIn txTmp.vin }
  else some txTmp

/-- "Blank out other inputs completely, not recommended for open
transactions" -/
def blankInputs (nIn : ℕ) (nHashType : ℤ) (txTmp : CTransaction) : CTransaction :=
  if anyoneCanPay nHashType then
    match txTmp.vin[nIn]? with
    | none => txTmp
    | some txin => { txTmp with vin := (txTmp.vin.set 0 txin).take 1 }
  else txTmp

/-- `txTmp` in the end: what is signed of a transaction, `none` where an
index is out of range. -/
def signedTx (scriptCode : CScript) (txTo : CTransaction) (nIn : ℕ) (nHashType : ℤ) :
    Option CTransaction :=
  if txTo.vin.length ≤ nIn then none
  else
    let scriptCode := findAndDelete [171] scriptCode
    (blankOutputs nIn nHashType (blankScriptSigs scriptCode nIn txTo)).map (blankInputs nIn nHashType)

/-- `SignatureHash`, for any hash function; `one` is what stands for a hash
where there is none. -/
def signatureHashOf {H : Type} (hash : List UInt8 → H) (one : H) (scriptCode : CScript)
    (txTo : CTransaction) (nIn : ℕ) (nHashType : ℤ) : H :=
  match signedTx scriptCode txTo nIn nHashType with
  | none => one
  | some txTmp => hash (txTmp.serialize ++ leInt 4 nHashType)

/-! ## CSignatureCache -/

/-- `sigdata_type`: signature hash, signature, public key -/
structure SigData where
  hash : Uint256
  vchSig : List UInt8
  pubKey : List UInt8
  deriving DecidableEq, Repr

/-- A tuple is ordered by its first component, then by the others. -/
def SigData.encode (k : SigData) : ℕ ×ₗ List ℕ ×ₗ List ℕ :=
  toLex (k.hash.toNat, toLex (k.vchSig.map UInt8.toNat, k.pubKey.map UInt8.toNat))

theorem SigData.encode_injective : Function.Injective SigData.encode := by
  have hbytes : Function.Injective (List.map UInt8.toNat) :=
    List.map_injective_iff.2 fun a b h => UInt8.toNat_inj.1 h
  rintro ⟨h₁, s₁, p₁⟩ ⟨h₂, s₂, p₂⟩ h
  obtain ⟨hh, h⟩ := Prod.mk.inj (toLex.injective h)
  obtain ⟨hs, hp⟩ := Prod.mk.inj (toLex.injective h)
  obtain rfl : h₁ = h₂ := BitVec.eq_of_toNat_eq hh
  obtain rfl : s₁ = s₂ := hbytes hs
  obtain rfl : p₁ = p₂ := hbytes hp
  rfl

instance : LinearOrder SigData := LinearOrder.lift' SigData.encode SigData.encode_injective

/-- `setValid` -/
structure CSignatureCache where
  setValid : Finset SigData
  deriving DecidableEq

namespace CSignatureCache

/-- The cache of a node that has just started. -/
def empty : CSignatureCache := ⟨∅⟩

/-- `Get` -/
def get (cache : CSignatureCache) (k : SigData) : Bool := k ∈ cache.setValid

/-- What is evicted: `lower_bound` of a random hash, or `begin`; `none` for
`end`, of an empty set. -/
def victim (randomHash : Uint256) (setValid : Finset SigData) : Option SigData :=
  let above := setValid.filter fun k => ⟨randomHash, [], []⟩ ≤ k
  if h : above.Nonempty then some (above.min' h)
  else if h : setValid.Nonempty then some (setValid.min' h)
  else none

/-- The loop of `Set`, with the random hashes it is going to get; `none`
where it has run out of turns or dereferences `end`. -/
def evictLoop (nMaxCacheSize : ℤ) : ℕ → (ℕ → Uint256) → Finset SigData → Option (Finset SigData)
  | 0, _, setValid => if nMaxCacheSize < setValid.card then none else some setValid
  | fuel + 1, randomHash, setValid =>
    if nMaxCacheSize < setValid.card then
      match victim (randomHash 0) setValid with
      | none => none
      | some k => evictLoop nMaxCacheSize fuel (fun n => randomHash (n + 1)) (setValid.erase k)
    else some setValid

/-- `Set`. `nMaxCacheSize` is `-maxsigcachesize`, read anew. -/
def set (nMaxCacheSize : ℤ) (randomHash : ℕ → Uint256) (k : SigData) (cache : CSignatureCache) :
    Option CSignatureCache :=
  if nMaxCacheSize ≤ 0 then some cache
  else (evictLoop nMaxCacheSize cache.setValid.card randomHash cache.setValid).map fun setValid =>
    ⟨insert k setValid⟩

end CSignatureCache

/-! ## CheckSig -/

section
variable [P : Platform]

/-- `SignatureHash` -/
def signatureHash (scriptCode : CScript) (txTo : CTransaction) (nIn : ℕ) (nHashType : ℤ) : Uint256 :=
  signatureHashOf P.hash 1 scriptCode txTo nIn nHashType

/-- "Hash type is one byte tacked on to the end of the signature": what is
verified, unless the types differ. -/
def sigDataOf (txTo : CTransaction) (nIn : ℕ) (nHashType : ℤ) (vchSig vchPubKey : List UInt8)
    (scriptCode : CScript) : Option SigData :=
  match vchSig.getLast? with
  | none => none
  | some b =>
    if nHashType ≠ 0 ∧ nHashType ≠ b.toNat then none
    else
      let nHashType := if nHashType = 0 then (b.toNat : ℤ) else nHashType
      some ⟨signatureHash scriptCode txTo nIn nHashType, vchSig.dropLast, vchPubKey⟩

/-- `key.SetPubKey(vchPubKey)` and `key.Verify(sighash, vchSig)` -/
def SigData.verifies (k : SigData) : Bool := P.setPubKey k.pubKey && P.verify k.pubKey k.hash k.vchSig

/-- `CheckSig` of a node without a cache, as the interpreter calls it. -/
def checkSig (txTo : CTransaction) (nIn : ℕ) (nHashType : ℤ) : SigChecker :=
  fun vchSig vchPubKey scriptCode =>
    match sigDataOf txTo nIn nHashType vchSig vchPubKey scriptCode with
    | none => false
    | some k => k.verifies

/-- The arguments of a call of `CheckSig`, and what it reads from outside. -/
structure CheckSigCall where
  vchSig : List UInt8
  vchPubKey : List UInt8
  scriptCode : CScript
  txTo : CTransaction
  nIn : ℕ
  nHashType : ℤ
  nMaxCacheSize : ℤ
  randomHash : ℕ → Uint256

/-- `CheckSig`, with the cache it looks in and leaves. -/
def CheckSigCall.run (c : CheckSigCall) (cache : CSignatureCache) : Option (Bool × CSignatureCache) :=
  match sigDataOf c.txTo c.nIn c.nHashType c.vchSig c.vchPubKey c.scriptCode with
  | none => some (false, cache)
  | some k =>
    if cache.get k then some (true, cache)
    else if !k.verifies then some (false, cache)
    else (cache.set c.nMaxCacheSize c.randomHash k).map fun cache => (true, cache)

/-- What it returns without a cache. -/
def CheckSigCall.uncached (c : CheckSigCall) : Bool :=
  checkSig c.txTo c.nIn c.nHashType c.vchSig c.vchPubKey c.scriptCode

/-- One call after another: the answers, and the cache after each. -/
def CheckSigCall.runAll : List CheckSigCall → CSignatureCache → Option (List (Bool × CSignatureCache))
  | [], _ => some []
  | c :: cs, cache => do
    let (fOk, cache) ← c.run cache
    let rest ← CheckSigCall.runAll cs cache
    some ((fOk, cache) :: rest)

end

end CryptoBullion
