import CryptoBullion.Model.Primitives
/-!
# What the model takes from elsewhere

Hash functions, signatures, script evaluation and the command line are not
part of the chain logic. They enter as one class whose fields carry no law
at all: every theorem holds whatever they compute, collisions included.
The counting of signature operations and the shape tests on scripts are
small enough to be modelled.
-/

namespace CryptoBullion

/-- `txnouttype`: the standard shapes of an output script -/
inductive TxnOutType
  | nonStandard | pubKey | pubKeyHash | scriptHash | multiSig | nullData
  deriving DecidableEq, Repr

/-- The keys and redeem scripts a wallet holds. -/
structure CKeyStore where
  vchPubKeys : List (List UInt8)
  redeemScripts : List CScript
  deriving DecidableEq, Repr

class Platform where
  /-- `Hash`: of a transaction's bytes, or of two merkle nodes -/
  hash : List UInt8 → Uint256
  /-- `Hash160` -/
  hash160 : List UInt8 → BitVec 160
  /-- `scrypt_hash` of a block header -/
  scryptHash : List UInt8 → Uint256
  /-- `VerifyScript(scriptSig, scriptPubKey, txTo, nIn, fValidatePayToScriptHash, nHashType)` -/
  verifyScript : CScript → CScript → CTransaction → ℕ → Bool → ℤ → Bool
  /-- `Solver`: a script's shape and the data it pushes -/
  solver : CScript → Option (TxnOutType × List (List UInt8))
  /-- `CKey::SetPubKey` accepts the bytes -/
  setPubKey : List UInt8 → Bool
  /-- `CKey::Verify` of a signature on a hash -/
  verify : List UInt8 → Uint256 → List UInt8 → Bool
  /-- `CKey::Sign` of a hash, by the key of this public key -/
  sign : List UInt8 → Uint256 → Option (List UInt8)
  /-- `SignSignature`'s script for input `nIn` of `txTo` -/
  signSignature : CKeyStore → CTransaction → CTransaction → ℕ → Option CScript
  /-- `IsMine(keystore, scriptPubKey)` -/
  isMine : CKeyStore → CScript → Bool
  /-- `fTestNet` -/
  fTestNet : Bool
  /-- `fDisableSignatureChecking`, set while a database is upgraded -/
  fDisableSignatureChecking : Bool

/-- A number from its bytes, least significant first. -/
def ofLeBytes : List UInt8 → ℕ
  | [] => 0
  | b :: bs => b.toNat + 256 * ofLeBytes bs

/-- A platform plain enough to be evaluated, on the test net: a
transaction's hash is its time, a block's is its nonce unless it has the
genesis block's time; every script is a public key, a keystore owns the
scripts it lists, and every signature is good. -/
@[reducible] def Platform.toy : Platform where
  hash bytes := BitVec.ofNat 256 (ofLeBytes ((bytes.drop 4).take 4))
  hash160 _ := 0
  scryptHash bytes :=
    if ofLeBytes ((bytes.drop 68).take 4) = 1372351925 then
      0x61d0019e85d49d536ede59e12c4390f11ef5380be5abb3e8698fcaf0519d3c52
    else BitVec.ofNat 256 (ofLeBytes (bytes.drop 76))
  verifyScript _ _ _ _ _ _ := true
  solver script := some (.pubKey, [script])
  setPubKey _ := true
  verify _ _ _ := true
  sign _ _ := some [0]
  signSignature _ _ _ _ := some []
  isMine keystore script := keystore.redeemScripts.contains script
  fTestNet := true
  fDisableSignatureChecking := false

variable [P : Platform]

/-- `CTransaction::GetHash` -/
def CTransaction.getHash (tx : CTransaction) : Uint256 := P.hash tx.serialize

/-- `CBlock::GetHash`: of the header alone -/
def CBlock.getHash (b : CBlock) : Uint256 := P.scryptHash b.serializeHeader

/-! ## Merkle trees -/

/-- `Hash(BEGIN(h), END(h), BEGIN(h'), END(h'))`: the hash of two nodes -/
def pairHash (h h' : Uint256) : Uint256 := P.hash (serializeHash h ++ serializeHash h')

/-- The row above a row of hashes; the last of an odd row is paired with
itself. -/
def merkleRow : List Uint256 → List Uint256
  | [] => []
  | [h] => [P.hash (serializeHash h ++ serializeHash h)]
  | h :: h' :: hs => P.hash (serializeHash h ++ serializeHash h') :: merkleRow hs

/-- The rows of the tree from `hs` up to the root, at most `fuel` of them. -/
def merkleRows : ℕ → List Uint256 → List (List Uint256)
  | 0, _ => []
  | fuel + 1, hs => hs :: if hs.length ≤ 1 then [] else merkleRows fuel (merkleRow hs)

/-- `vMerkleTree`, a row at a time: there are never more rows than
transactions, and one for none. -/
def CBlock.vMerkleTree (b : CBlock) : List (List Uint256) :=
  merkleRows (b.vtx.length + 1) (b.vtx.map CTransaction.getHash)

/-- `BuildMerkleTree`: the root, zero for no transactions -/
def CBlock.buildMerkleTree (b : CBlock) : Uint256 :=
  ((b.vMerkleTree.getLast?.bind List.getLast?)).getD 0

/-- The siblings on the way up from position `n`. -/
def merkleBranch : ℕ → List (List Uint256) → List Uint256
  | _, [] => []
  | n, row :: rows =>
    if row.length ≤ 1 then []
    else (row[min (n ^^^ 1) (row.length - 1)]?.getD 0) :: merkleBranch (n / 2) rows

/-- `GetMerkleBranch` -/
def CBlock.getMerkleBranch (b : CBlock) (nIndex : ℕ) : List Uint256 :=
  merkleBranch nIndex b.vMerkleTree

/-! ## Scripts -/

/-- `GetOp2`: the first instruction, its operand, and what follows. -/
def getOp : CScript → Option (ℕ × List UInt8 × CScript)
  | [] => none
  | op :: rest =>
    let opcode := op.toNat
    let operand : Option (ℕ × CScript) :=
      if opcode < 76 then some (opcode, rest)
      else if opcode = 76 then
        match rest with
        | a :: r => some (a.toNat, r)
        | _ => none
      else if opcode = 77 then
        match rest with
        | a :: b :: r => some (a.toNat + 256 * b.toNat, r)
        | _ => none
      else if opcode = 78 then
        match rest with
        | a :: b :: c :: d :: r =>
          some (a.toNat + 256 * b.toNat + 65536 * c.toNat + 16777216 * d.toNat, r)
        | _ => none
      else some (0, rest)
    match operand with
    | none => none
    | some (nSize, r) => if r.length < nSize then none else some (opcode, r.take nSize, r.drop nSize)

/-- `OP_1`, `OP_16`, `OP_INVALIDOPCODE` -/
def op1 : ℕ := 81
def op16 : ℕ := 96
def opInvalid : ℕ := 255

/-- The loop of `GetSigOpCount(fAccurate)`. Each turn consumes a byte, so
a script's own length is fuel enough. -/
def sigOpLoop (fAccurate : Bool) : ℕ → (n lastOpcode : ℕ) → CScript → ℕ
  | 0, n, _, _ => n
  | fuel + 1, n, lastOpcode, script =>
    match getOp script with
    | none => n
    | some (opcode, _, rest) =>
      let more :=
        if opcode = 172 ∨ opcode = 173 then 1
        else if opcode = 174 ∨ opcode = 175 then
          if fAccurate && op1 ≤ lastOpcode && lastOpcode ≤ op16 then lastOpcode - (op1 - 1) else 20
        else 0
      sigOpLoop fAccurate fuel (n + more) opcode rest

/-- `CScript::GetSigOpCount(bool fAccurate)` -/
def sigOpCount (script : CScript) (fAccurate : Bool) : ℕ :=
  sigOpLoop fAccurate script.length 0 opInvalid script

/-- `IsPayToScriptHash` -/
def isPayToScriptHash (script : CScript) : Bool :=
  script.length = 23 && script[0]? = some 169 && script[1]? = some 20 && script[22]? = some 135

/-- The last item a push-only script pushes; `none` where it is not one. -/
def lastPush : ℕ → List UInt8 → CScript → Option (List UInt8)
  | 0, data, _ => some data
  | fuel + 1, data, script =>
    if script.isEmpty then some data
    else match getOp script with
      | none => none
      | some (opcode, data', rest) => if op16 < opcode then none else lastPush fuel data' rest

/-- `CScript::GetSigOpCount(const CScript& scriptSig)` -/
def p2shSigOpCount (scriptPubKey scriptSig : CScript) : ℕ :=
  if !isPayToScriptHash scriptPubKey then sigOpCount scriptPubKey true
  else match lastPush scriptSig.length [] scriptSig with
    | none => 0
    | some data => sigOpCount data true

/-- `IsPushOnly` -/
def isPushOnly (script : CScript) : Bool := (lastPush script.length [] script).isSome

/-- The loop of `HasCanonicalPushes`. -/
def canonicalPushLoop : ℕ → CScript → Bool
  | 0, _ => true
  | fuel + 1, script =>
    if script.isEmpty then true
    else match getOp script with
      | none => false
      | some (opcode, data, rest) =>
        let bad :=
          (opcode < 76 && 0 < opcode && data.length = 1 && data.all (· ≤ 16)) ||
          (opcode = 76 && data.length < 76) ||
          (opcode = 77 && data.length ≤ 255) ||
          (opcode = 78 && data.length ≤ 65535)
        if opcode ≤ op16 && bad then false else canonicalPushLoop fuel rest

/-- `HasCanonicalPushes` -/
def hasCanonicalPushes (script : CScript) : Bool := canonicalPushLoop script.length script

/-- `VerifySignature(txFrom, txTo, nIn, fValidatePayToScriptHash, nHashType)` -/
def verifySignature (txFrom txTo : CTransaction) (nIn : ℕ) (fValidatePayToScriptHash : Bool)
    (nHashType : ℤ) : Except Failure Bool :=
  match txTo.vin[nIn]? with
  | none => .error (.crash "nIn < txTo.vin.size()")
  | some txin =>
    match txFrom.vout[txin.prevout.n]? with
    | none => .ok false
    | some txout =>
      if txin.prevout.hash ≠ txFrom.getHash then .ok false
      else .ok (P.verifyScript txin.scriptSig txout.scriptPubKey txTo nIn
        fValidatePayToScriptHash nHashType)

end CryptoBullion
