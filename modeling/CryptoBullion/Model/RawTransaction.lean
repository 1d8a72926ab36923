import CryptoBullion.Model.Combine
import CryptoBullion.Model.CryptoKeyStore
/-!
# signrawtransaction

`SignSignature` writes the script of one input into the transaction it
signs. The call merges several transactions into the first of them: for each
input the script is signed anew, and what the others have there is combined
with it.
-/

namespace CryptoBullion

/-- What signing asks of a key store. -/
structure SigningStore where
  /-- `GetKey` and `CKey::Sign`: a signature is random, so the input and the
  turn of the loop that asks for it are told, too -/
  sign : (nIn turn : ℕ) → CKeyID → Uint256 → Option (List UInt8)
  getPubKey : CKeyID → Option (List UInt8)
  getCScript : BitVec 160 → Option CScript

/-- `txTo.vin[nIn].scriptSig = scriptSig` -/
def CTransaction.setScriptSig (txTo : CTransaction) (nIn : ℕ) (scriptSig : CScript) : CTransaction :=
  { txTo with vin := txTo.vin.modify nIn fun txin => { txin with scriptSig := scriptSig } }

section
variable [P : Platform] (keystore : SigningStore)

/-! ## SignSignature -/

omit P in
/-- `Sign1` -/
def sign1 (nIn turn : ℕ) (address : CKeyID) (hash : Uint256) (nHashType : ℤ)
    (scriptSigRet : CScript) : Bool × CScript :=
  match keystore.sign nIn turn address hash with
  | none => (false, scriptSigRet)
  | some vchSig => (true, scriptSigRet ++ pushBytes (vchSig ++ [UInt8.ofNat (nHashType % 256).toNat]))

/-- The loop of `SignN`, over the keys that are left. -/
def signLoop (nIn : ℕ) (hash : Uint256) (nHashType : ℤ) (nRequired : ℕ) :
    (turn : ℕ) → List (List UInt8) → (nSigned : ℕ) → CScript → ℕ × CScript
  | _, [], nSigned, scriptSigRet => (nSigned, scriptSigRet)
  | turn, pubkey :: keys, nSigned, scriptSigRet =>
    if nSigned < nRequired then
      match sign1 keystore nIn turn (getID pubkey) hash nHashType scriptSigRet with
      | (fOk, scriptSigRet) =>
        signLoop nIn hash nHashType nRequired (turn + 1) keys (if fOk then nSigned + 1 else nSigned)
          scriptSigRet
    else (nSigned, scriptSigRet)

/-- `SignN` -/
def signN (nIn : ℕ) (multisigdata : List (List UInt8)) (hash : Uint256) (nHashType : ℤ)
    (scriptSigRet : CScript) : Bool × CScript :=
  let nRequired := ((multisigdata.head?.bind List.head?).getD 0).toNat
  let keys := (multisigdata.drop 1).take (multisigdata.length - 2)
  let (nSigned, scriptSigRet) := signLoop keystore nIn hash nHashType nRequired 1 keys 0 scriptSigRet
  (nSigned = nRequired, scriptSigRet)

/-- `Solver` with a key store: what it returns, the script and the type -/
def signSolver (nIn : ℕ) (scriptPubKey : CScript) (hash : Uint256) (nHashType : ℤ) :
    Bool × CScript × TxnOutType :=
  match solver scriptPubKey with
  | (true, .pubKey, vSolution :: _) =>
    let (fOk, scriptSig) := sign1 keystore nIn 0 (getID vSolution) hash nHashType []
    (fOk, scriptSig, .pubKey)
  | (true, .pubKeyHash, vSolution :: _) =>
    let keyID := uint160OfVch vSolution
    match sign1 keystore nIn 0 keyID hash nHashType [] with
    | (false, scriptSig) => (false, scriptSig, .pubKeyHash)
    | (true, scriptSig) =>
      (true, scriptSig ++ pushBytes ((keystore.getPubKey keyID).getD []), .pubKeyHash)
  | (true, .scriptHash, vSolution :: _) =>
    match keystore.getCScript (uint160OfVch vSolution) with
    | none => (false, [], .scriptHash)
    | some scriptSig => (true, scriptSig, .scriptHash)
  | (true, .multiSig, vSolutions) =>
    let (fOk, scriptSig) := signN keystore nIn vSolutions hash nHashType [0]
    (fOk, scriptSig, .multiSig)
  | (_, whichType, _) => (false, [], whichType)

variable [D : Digests]

/-- `SignSignature`: what it returns, and the transaction it has written to -/
def signSignature (fromPubKey : CScript) (txTo : CTransaction) (nIn : ℕ) (nHashType : ℤ) :
    Bool × CTransaction :=
  let hash := signatureHash fromPubKey txTo nIn nHashType
  match signSolver keystore nIn fromPubKey hash nHashType with
  | (false, scriptSig, _) => (false, txTo.setScriptSig nIn scriptSig)
  | (true, subscript, .scriptHash) =>
    -- `hash2`, of the subscript in place of scriptPubKey
    let hash2 := signatureHash subscript (txTo.setScriptSig nIn subscript) nIn nHashType
    let (fOk, scriptSig, subType) := signSolver keystore nIn subscript hash2 nHashType
    let scriptSig := scriptSig ++ pushBytes subscript
    let txTo := txTo.setScriptSig nIn scriptSig
    (fOk && subType ≠ .scriptHash && verifyScript (checkSig txTo nIn 0) scriptSig fromPubKey true,
      txTo)
  | (true, scriptSig, _) =>
    let txTo := txTo.setScriptSig nIn scriptSig
    (verifyScript (checkSig txTo nIn 0) scriptSig fromPubKey true, txTo)

/-! ## The merge loop -/

/-- `nHashType & ~SIGHASH_ANYONECANPAY` is `SIGHASH_SINGLE` -/
def fHashSingle (nHashType : ℤ) : Bool :=
  nHashType = sighashSingle || nHashType = sighashSingle + 128

/-- "... and merge in other signatures" -/
def mergeVariants (prevPubKey : CScript) (i : ℕ) :
    List CTransaction → CTransaction → Except Failure CTransaction
  | [], mergedTx => .ok mergedTx
  | txv :: txVariants, mergedTx =>
    match mergedTx.vin[i]?, txv.vin[i]? with
    | some txin, some txin' =>
      mergeVariants prevPubKey i txVariants
        (mergedTx.setScriptSig i
          (combineSignatures prevPubKey mergedTx i txin.scriptSig txin'.scriptSig))
    | none, _ => .error (.crash "mergedTx.vin[i]")
    | _, none => .error (.crash "txv.vin[i]")

/-- A turn of the loop that signs and merges: the transaction, and
`fComplete`. -/
def mergeInput (txVariants : List CTransaction) (mapPrevOut : Map COutPoint CScript) (nHashType : ℤ)
    (s : CTransaction × Bool) (i : ℕ) : Except Failure (CTransaction × Bool) :=
  let (mergedTx, fComplete) := s
  match mergedTx.vin[i]? with
  | none => .error (.crash "mergedTx.vin[i]")
  | some txin =>
    match mapPrevOut[txin.prevout]? with
    | none => .ok (mergedTx, false)
    | some prevPubKey => do
      let mergedTx := mergedTx.setScriptSig i []
      -- only sign SIGHASH_SINGLE if there's a corresponding output
      let mergedTx := if !fHashSingle nHashType || i < mergedTx.vout.length then
        (signSignature keystore prevPubKey mergedTx i nHashType).2 else mergedTx
      let mergedTx ← mergeVariants prevPubKey i txVariants mergedTx
      let scriptSig := ((mergedTx.vin[i]?).map (·.scriptSig)).getD []
      let fOk := verifyScript (checkSig mergedTx i 0) scriptSig prevPubKey true
      .ok (mergedTx, fComplete && fOk)

/-- `signrawtransaction` from where the arguments are read: `hex` and
`complete`. -/
def signRawTransaction (txVariants : List CTransaction) (mapPrevOut : Map COutPoint CScript)
    (nHashType : ℤ) : Except Failure (CTransaction × Bool) :=
  match txVariants with
  | [] => .error (.exception "Missing transaction")
  | tx :: _ =>
    (List.range tx.vin.length).foldlM (mergeInput keystore txVariants mapPrevOut nHashType) (tx, true)

end

end CryptoBullion
