import CryptoBullion.Model.Interpreter
/-!
# Standard scripts

`Solver` compares a script with the templates of standard scripts,
instruction by instruction, and hands back what fills their holes. The
other way round, `SetDestination` and `SetMultisig` build such scripts.
Every caller of `Solver` hands in an empty vector for the solutions.
-/

namespace CryptoBullion

/-! ## Templates -/

/-- `OP_SMALLINTEGER`, `OP_PUBKEYS`, `OP_PUBKEYHASH`, `OP_PUBKEY`: the holes
of a template -/
def opSmallInteger : ℕ := 250
def opPubKeys : ℕ := 251
def opPubKeyHash : ℕ := 253
def opPubKey : ℕ := 254

/-- `mTemplates`, in the order of the map -/
def templates : List (TxnOutType × CScript) :=
  [(.pubKey, [254, 172]), (.pubKeyHash, [118, 169, 253, 136, 172]), (.multiSig, [250, 251, 250, 174])]

/-- `DecodeOP_N` of an opcode that is one of those asserted -/
def decodeOpN (opcode : ℕ) : ℕ := if opcode = 0 then 0 else opcode - (op1 - 1)

/-- `EncodeOP_N` of a number that is one of those asserted -/
def encodeOpN (n : ℕ) : UInt8 := if n = 0 then 0 else UInt8.ofNat (op1 + n - 1)

/-! ## The comparison -/

/-- An instruction read, and where `pc1` stands behind it. -/
structure ScriptCursor where
  opcode : ℕ
  vch : List UInt8
  pc : CScript
  deriving DecidableEq, Repr

/-- `vch1.size() >= 33 && vch1.size() <= 120` -/
def isKeySize (vch : List UInt8) : Bool := 33 ≤ vch.length && vch.length ≤ 120

/-- The loop of `OP_PUBKEYS`: keys are taken while there are any. When no
instruction is left, `GetOp` has set the opcode to `OP_INVALIDOPCODE`. -/
def pubKeysLoop : ℕ → ScriptCursor → List (List UInt8) → ScriptCursor × List (List UInt8)
  | 0, cursor, vSolutions => (cursor, vSolutions)
  | fuel + 1, cursor, vSolutions =>
    if isKeySize cursor.vch then
      match getOp cursor.pc with
      | none => (⟨opInvalid, [], []⟩, vSolutions ++ [cursor.vch])
      | some (opcode1, vch1, pc1) =>
        pubKeysLoop fuel ⟨opcode1, vch1, pc1⟩ (vSolutions ++ [cursor.vch])
    else (cursor, vSolutions)

/-- The instructions of script and template side by side; `none` is a
`break`. -/
def matchOp (opcode1 opcode2 : ℕ) (vch1 vch2 : List UInt8) (vSolutions : List (List UInt8)) :
    Option (List (List UInt8)) :=
  if opcode2 = opPubKey then if isKeySize vch1 then some (vSolutions ++ [vch1]) else none
  else if opcode2 = opPubKeyHash then if vch1.length = 20 then some (vSolutions ++ [vch1]) else none
  else if opcode2 = opSmallInteger then
    if opcode1 = 0 ∨ (op1 ≤ opcode1 ∧ opcode1 ≤ op16) then
      some (vSolutions ++ [[UInt8.ofNat (decodeOpN opcode1)]])
    else none
  else if opcode1 = opcode2 ∧ vch1 = vch2 then some vSolutions else none

/-- The loop of the comparison. Each turn takes an instruction off the
template. -/
def matchLoop : ℕ → (pc1 pc2 : CScript) → List (List UInt8) → Option (List (List UInt8))
  | 0, _, _, _ => none
  | fuel + 1, pc1, pc2, vSolutions =>
    if pc1.isEmpty && pc2.isEmpty then some vSolutions
    else match getOp pc1, getOp pc2 with
    | some (opcode1, vch1, pc1), some (opcode2, vch2, pc2) =>
      if opcode2 = opPubKeys then
        let (cursor, vSolutions) := pubKeysLoop (pc1.length + 1) ⟨opcode1, vch1, pc1⟩ vSolutions
        match getOp pc2 with
        | none => none
        | some (opcode2, vch2, pc2) =>
          (matchOp cursor.opcode opcode2 cursor.vch vch2 vSolutions).bind
            (matchLoop fuel cursor.pc pc2)
      else (matchOp opcode1 opcode2 vch1 vch2 vSolutions).bind (matchLoop fuel pc1 pc2)
    | _, _ => none

/-- "Additional checks for TX_MULTISIG" -/
def badMultiSig (vSolutions : List (List UInt8)) : Bool :=
  let m := ((vSolutions.head?.bind List.head?).getD 0).toNat
  let n := ((vSolutions.getLast?.bind List.head?).getD 0).toNat
  m < 1 || n < 1 || n < m || vSolutions.length - 2 ≠ n

/-- "Scan templates" -/
def scanTemplates (script : CScript) :
    List (TxnOutType × CScript) → Bool × TxnOutType × List (List UInt8)
  | [] => (false, .nonStandard, [])
  | (t, tplate) :: rest =>
    match matchLoop (tplate.length + 1) script tplate [] with
    | none => scanTemplates script rest
    | some vSolutions => (!(t = .multiSig && badMultiSig vSolutions), t, vSolutions)

/-- `Solver`: what it returns, the type and the solutions -/
def solver (scriptPubKey : CScript) : Bool × TxnOutType × List (List UInt8) :=
  if isPayToScriptHash scriptPubKey then (true, .scriptHash, [(scriptPubKey.drop 2).take 20])
  else scanTemplates scriptPubKey templates

/-! ## Destinations -/

/-- `uint160(vch)` -/
def uint160OfVch (vch : List UInt8) : BitVec 160 :=
  if vch.length = 20 then BitVec.ofNat 160 (ofLeBytes vch) else 0

/-- `CScript::operator<<` of a `uint160` -/
def pushUint160 (b : BitVec 160) : CScript := 20 :: leBytes 20 b.toNat

/-- `ExtractDestination` -/
def extractDestination [P : Platform] (scriptPubKey : CScript) : Option CTxDestination :=
  match solver scriptPubKey with
  | (true, .pubKey, vSolution :: _) => some (.keyID (P.hash160 vSolution))
  | (true, .pubKeyHash, vSolution :: _) => some (.keyID (uint160OfVch vSolution))
  | (true, .scriptHash, vSolution :: _) => some (.scriptID (uint160OfVch vSolution))
  | _ => none

/-- `CScript::SetDestination` -/
def setDestination : CTxDestination → CScript
  | .noDestination => []
  | .keyID id => [118, 169] ++ pushUint160 id ++ [136, 172]
  | .scriptID id => [169] ++ pushUint160 id ++ [135]

/-- `CScript::SetMultisig`, of the keys' public keys -/
def setMultisig (nRequired : ℕ) (keys : List (List UInt8)) : CScript :=
  [encodeOpN nRequired] ++ keys.flatMap pushBytes ++ [encodeOpN keys.length, 174]

end CryptoBullion
