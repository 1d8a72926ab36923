import CryptoBullion.Common.Step
import CryptoBullion.Model.Platform
import CryptoBullion.Model.Script
/-!
# The script interpreter

`EvalScript` and `VerifyScript`. A stack is a list with its top in front,
so `stacktop(-i)` is element `i - 1`. Every access is a step that fails
where the code would throw or read outside a vector: `returnFalse` is a
`return false` of the code, `overflow` the exception of `CastToBigNum`,
and `outOfRange` everything that must not happen. `CheckSig` is handed in
as a function; how often it is called is counted on the side.
-/

namespace CryptoBullion

/-- The hash functions only scripts use. -/
class Digests where
  /-- `RIPEMD160` -/
  ripemd160 : List UInt8 → BitVec 160
  /-- `SHA1` -/
  sha1 : List UInt8 → BitVec 160
  /-- `SHA256` -/
  sha256 : List UInt8 → BitVec 256

/-- Digests plain enough to be evaluated. -/
@[reducible] def Digests.toy : Digests where
  ripemd160 _ := 0
  sha1 _ := 0
  sha256 _ := 0

/-! ## Opcodes -/

/-- `opcodetype`, from `OP_NOP` on. The opcodes of values are handled by
number. -/
inductive OpCode
  -- control
  | nop | ver | if | notIf | verIf | verNotIf | else | endIf | verify | return
  -- stack ops
  | toAltStack | fromAltStack | drop2 | dup2 | dup3 | over2 | rot2 | swap2 | ifDup | depth
  | drop | dup | nip | over | pick | roll | rot | swap | tuck
  -- splice ops
  | cat | substr | left | right | size
  -- bit logic
  | invert | and | or | xor | equal | equalVerify | reserved1 | reserved2
  -- numeric
  | add1 | sub1 | mul2 | div2 | negate | abs | not | notEqual0 | add | sub | mul | div | mod
  | lShift | rShift | boolAnd | boolOr | numEqual | numEqualVerify | numNotEqual | lessThan
  | greaterThan | lessThanOrEqual | greaterThanOrEqual | min | max | within
  -- crypto
  | ripemd160 | sha1 | sha256 | hash160 | hash256 | codeSeparator | checkSig | checkSigVerify
  | checkMultiSig | checkMultiSigVerify
  -- expansion
  | nop1 | nop2 | nop3 | nop4 | nop5 | nop6 | nop7 | nop8 | nop9 | nop10
  -- everything else
  | invalid
  deriving DecidableEq, Repr

/-- The opcodes from `OP_NOP = 0x61` to `OP_NOP10 = 0xb9`, in order. -/
def opCodes : List OpCode :=
  [.nop, .ver, .if, .notIf, .verIf, .verNotIf, .else, .endIf, .verify, .return,
    .toAltStack, .fromAltStack, .drop2, .dup2, .dup3, .over2, .rot2, .swap2, .ifDup, .depth,
    .drop, .dup, .nip, .over, .pick, .roll, .rot, .swap, .tuck,
    .cat, .substr, .left, .right, .size,
    .invert, .and, .or, .xor, .equal, .equalVerify, .reserved1, .reserved2,
    .add1, .sub1, .mul2, .div2, .negate, .abs, .not, .notEqual0, .add, .sub, .mul, .div, .mod,
    .lShift, .rShift, .boolAnd, .boolOr, .numEqual, .numEqualVerify, .numNotEqual, .lessThan,
    .greaterThan, .lessThanOrEqual, .greaterThanOrEqual, .min, .max, .within,
    .ripemd160, .sha1, .sha256, .hash160, .hash256, .codeSeparator, .checkSig, .checkSigVerify,
    .checkMultiSig, .checkMultiSigVerify,
    .nop1, .nop2, .nop3, .nop4, .nop5, .nop6, .nop7, .nop8, .nop9, .nop10]

/-- `OP_NOP` -/
def opNop : ℕ := 97
/-- `OP_PUSHDATA4` -/
def opPushData4 : ℕ := 78
/-- `OP_1NEGATE` -/
def op1Negate : ℕ := 79
/-- `OP_RESERVED` -/
def opReserved : ℕ := 80
/-- `OP_IF` -/
def opIf : ℕ := 99
/-- `OP_ENDIF` -/
def opEndIf : ℕ := 104

/-- The opcode a byte above `OP_16` stands for. -/
def opCodeOf (opcode : ℕ) : OpCode := opCodes.getD (opcode - opNop) .invalid

/-- The opcodes that are disabled, executed or not. -/
def OpCode.isDisabled (op : OpCode) : Bool :=
  op = .cat || op = .substr || op = .left || op = .right || op = .invert || op = .and || op = .or ||
    op = .xor || op = .mul2 || op = .div2 || op = .mul || op = .div || op = .mod || op = .lShift ||
    op = .rShift

/-! ## Values -/

/-- `vchFalse`, `vchTrue` -/
def vchFalse : List UInt8 := []
def vchTrue : List UInt8 := [1]

def vchBool (fValue : Bool) : List UInt8 := if fValue then vchTrue else vchFalse

/-- `CBigNum::setvch`: the magnitude, least significant byte first, with the
sign in the top bit of the last. -/
def bnOfVch (vch : List UInt8) : ℤ :=
  match vch.getLast? with
  | none => 0
  | some b =>
    if 128 ≤ b.toNat then -((ofLeBytes vch - 2 ^ (8 * vch.length - 1) : ℕ) : ℤ)
    else (ofLeBytes vch : ℤ)

/-- `CBigNum::getint` -/
def getInt (bn : ℤ) : ℤ :=
  if 0 ≤ bn then (if bn > 2147483647 then 2147483647 else bn)
  else if -bn > 2147483647 then -2147483648 else bn

/-- `CastToBool`: some byte is not zero, and that is not the sign alone. -/
def castToBool : List UInt8 → Bool
  | [] => false
  | b :: bs => if b ≠ 0 then !(bs.isEmpty && b = 128) else castToBool bs

/-- `nMaxNumSize` -/
def nMaxNumSize : ℕ := 4

/-- What a condition is as a number. -/
def bnBool (fValue : Bool) : ℤ := if fValue then 1 else 0

/-! ## FindAndDelete -/

/-- The inner loop: what stands at `pc` is deleted while it is `b`. -/
def deleteHere (b : CScript) : ℕ → CScript → CScript
  | 0, pc => pc
  | fuel + 1, pc => if b.isPrefixOf pc then deleteHere b fuel (pc.drop b.length) else pc

/-- The outer loop, an instruction a turn. -/
def findAndDeleteLoop (b : CScript) : ℕ → CScript → CScript
  | 0, pc => pc
  | fuel + 1, pc =>
    let pc := deleteHere b pc.length pc
    match getOp pc with
    | none => pc
    | some (_, _, rest) => pc.take (pc.length - rest.length) ++ findAndDeleteLoop b fuel rest

/-- `CScript::FindAndDelete`: the script without `b`, wherever an
instruction begins with it. -/
def findAndDelete (b script : CScript) : CScript :=
  if b.isEmpty then script else findAndDeleteLoop b (script.length + 1) script

/-! ## The state of an evaluation -/

/-- Why an evaluation stops short. -/
inductive ScriptFailure
  /-- `return false` -/
  | returnFalse
  /-- "CastToBigNum() : overflow" -/
  | overflow
  /-- an access outside a vector -/
  | outOfRange
  /-- a loop of the model has run out of turns -/
  | outOfTurns
  deriving DecidableEq, Repr

/-- The variables of `EvalScript`; `pbegincodehash` is the script from there
to its end, and `nCheckSigs` counts the calls of `CheckSig`. -/
structure ScriptState where
  stack : List (List UInt8)
  altstack : List (List UInt8)
  vfExec : List Bool
  nOpCount : ℕ
  pbegincodehash : CScript
  nCheckSigs : ℕ
  deriving DecidableEq, Repr

/-- `CheckSig(vchSig, vchPubKey, scriptCode, txTo, nIn, nHashType)`, with
the last three arguments filled in. -/
abbrev SigChecker := List UInt8 → List UInt8 → CScript → Bool

abbrev ScriptStep := Step ScriptState ScriptFailure

namespace ScriptStep

/-- `if (!p) return false;` -/
def require (p : Prop) [Decidable p] : ScriptStep Unit :=
  if p then pure () else Step.fail .returnFalse

/-- `if (stack.size() < n) return false;` -/
def needs (n : ℕ) : ScriptStep Unit := do
  let s ← Step.get
  require (n ≤ s.stack.length)

/-- `stacktop(-i)` -/
def stackTop (i : ℕ) : ScriptStep (List UInt8) := do
  let s ← Step.get
  match s.stack[i - 1]? with
  | none => Step.fail .outOfRange
  | some vch => if i = 0 then Step.fail .outOfRange else pure vch

/-- `stacktop(-i) = vch` -/
def setTop (i : ℕ) (vch : List UInt8) : ScriptStep Unit := do
  let s ← Step.get
  if i = 0 ∨ s.stack.length < i then Step.fail .outOfRange
  else Step.modify fun s => { s with stack := s.stack.set (i - 1) vch }

/-- `stack.push_back(vch)` -/
def pushStack (vch : List UInt8) : ScriptStep Unit :=
  Step.modify fun s => { s with stack := vch :: s.stack }

/-- `popstack(stack)` -/
def popStack : ScriptStep Unit := do
  let s ← Step.get
  match s.stack with
  | [] => Step.fail .outOfRange
  | _ :: stack => Step.modify fun s => { s with stack := stack }

/-- `popstack(stack)`, `n` times -/
def popStacks : ℕ → ScriptStep Unit
  | 0 => pure ()
  | n + 1 => do
    popStack
    popStacks n

/-- `stack.erase(stack.end() - i)` -/
def eraseTop (i : ℕ) : ScriptStep Unit := do
  let s ← Step.get
  if i = 0 ∨ s.stack.length < i then Step.fail .outOfRange
  else Step.modify fun s => { s with stack := s.stack.eraseIdx (i - 1) }

/-- `stack.insert(stack.end() - i, vch)` -/
def insertTop (i : ℕ) (vch : List UInt8) : ScriptStep Unit := do
  let s ← Step.get
  if s.stack.length < i then Step.fail .outOfRange
  else Step.modify fun s => { s with stack := s.stack.insertIdx i vch }

/-- `swap(stacktop(-i), stacktop(-j))` -/
def swapTop (i j : ℕ) : ScriptStep Unit := do
  let vch₁ ← stackTop i
  let vch₂ ← stackTop j
  setTop i vch₂
  setTop j vch₁

/-- `CastToBigNum` -/
def castToBigNum (vch : List UInt8) : ScriptStep ℤ :=
  if nMaxNumSize < vch.length then Step.fail .overflow else pure (bnOfVch vch)

/-- `CastToBigNum(stacktop(-i))` -/
def bigNumTop (i : ℕ) : ScriptStep ℤ := do
  let vch ← stackTop i
  castToBigNum vch

/-- The `VERIFY` half of an opcode: the result is taken off again, or the
script fails. -/
def verifyResult (fVerify fOk : Bool) : ScriptStep Unit :=
  if fVerify then (if fOk then popStack else Step.fail .returnFalse) else pure ()

/-- `nOpCount += n; if (nOpCount > 201) return false;` -/
def countOps (n : ℕ) : ScriptStep Unit := do
  Step.modify fun s => { s with nOpCount := s.nOpCount + n }
  let s ← Step.get
  require (s.nOpCount ≤ 201)

/-- `if (opcode > OP_16 && ++nOpCount > 201) return false;` -/
def countOp (opcode : ℕ) : ScriptStep Unit := if op16 < opcode then countOps 1 else pure ()

/-! ## Control -/

/-- `OP_IF`, `OP_NOTIF`: the condition, false where nothing is executed. -/
def ifValue (fNot fExec : Bool) : ScriptStep Bool :=
  if fExec then do
    needs 1
    let vch ← stackTop 1
    popStack
    pure (if fNot then !castToBool vch else castToBool vch)
  else pure false

def ifOp (fNot fExec : Bool) : ScriptStep Unit := do
  let fValue ← ifValue fNot fExec
  Step.modify fun s => { s with vfExec := fValue :: s.vfExec }

/-- `if (vfExec.empty()) return false;` -/
def needsExec : ScriptStep Unit := do
  let s ← Step.get
  require (s.vfExec ≠ [])

/-- `vfExec.back() = !vfExec.back()` -/
def flipExec : ScriptStep Unit := do
  let s ← Step.get
  match s.vfExec with
  | [] => Step.fail .outOfRange
  | f :: vfExec => Step.modify fun s => { s with vfExec := (!f) :: vfExec }

/-- `vfExec.pop_back()` -/
def popExec : ScriptStep Unit := do
  let s ← Step.get
  match s.vfExec with
  | [] => Step.fail .outOfRange
  | _ :: vfExec => Step.modify fun s => { s with vfExec := vfExec }

def elseOp : ScriptStep Unit := do
  needsExec
  flipExec

def endIfOp : ScriptStep Unit := do
  needsExec
  popExec

def verifyOp : ScriptStep Unit := do
  needs 1
  let vch ← stackTop 1
  verifyResult true (castToBool vch)

/-! ## Stack ops -/

def toAltStackOp : ScriptStep Unit := do
  needs 1
  let vch ← stackTop 1
  Step.modify fun s => { s with altstack := vch :: s.altstack }
  popStack

/-- `altstacktop(-1)`, and `popstack(altstack)` -/
def fromAltStackOp : ScriptStep Unit := do
  let s ← Step.get
  require (1 ≤ s.altstack.length)
  match s.altstack with
  | [] => Step.fail .outOfRange
  | vch :: altstack => do
    pushStack vch
    Step.modify fun s => { s with altstack := altstack }

/-- `OP_2DROP`, `OP_DROP` -/
def dropOp (n : ℕ) : ScriptStep Unit := do
  needs n
  popStacks n

/-- `OP_2DUP`, `OP_3DUP`, `OP_2OVER`, `OP_DUP`, `OP_OVER`: of `n` elements
some are pushed again. -/
def copyOp (n : ℕ) (tops : List ℕ) : ScriptStep Unit := do
  needs n
  let vchs ← Step.collect stackTop tops
  Step.forEach pushStack vchs

/-- `OP_2SWAP`, `OP_ROT`, `OP_SWAP` -/
def swapOp (n : ℕ) (pairs : List (ℕ × ℕ)) : ScriptStep Unit := do
  needs n
  Step.forEach (fun p => swapTop p.1 p.2) pairs

/-- `OP_2ROT`: the two erased are next to each other. -/
def rot2Op : ScriptStep Unit := do
  needs 6
  let vch₁ ← stackTop 6
  let vch₂ ← stackTop 5
  eraseTop 6
  eraseTop 5
  pushStack vch₁
  pushStack vch₂

def ifDupOp : ScriptStep Unit := do
  needs 1
  let vch ← stackTop 1
  if castToBool vch then pushStack vch else pure ()

def depthOp : ScriptStep Unit := do
  let s ← Step.get
  pushStack (getVch s.stack.length)

def nipOp : ScriptStep Unit := do
  needs 2
  eraseTop 2

/-- `if (opcode == OP_ROLL) stack.erase(stack.end() - i);` -/
def rollTop (fRoll : Bool) (i : ℕ) : ScriptStep Unit := if fRoll then eraseTop i else pure ()

/-- `OP_PICK`, `OP_ROLL` -/
def pickOp (fRoll : Bool) : ScriptStep Unit := do
  needs 2
  let bn ← bigNumTop 1
  let n := getInt bn
  popStack
  let s ← Step.get
  require (¬ (n < 0 ∨ n ≥ s.stack.length))
  let vch ← stackTop (n.toNat + 1)
  rollTop fRoll (n.toNat + 1)
  pushStack vch

def tuckOp : ScriptStep Unit := do
  needs 2
  let vch ← stackTop 1
  insertTop 2 vch

def sizeOp : ScriptStep Unit := do
  needs 1
  let vch ← stackTop 1
  pushStack (getVch vch.length)

/-- `OP_EQUAL`, `OP_EQUALVERIFY` -/
def equalOp (fVerify : Bool) : ScriptStep Unit := do
  needs 2
  let vch₁ ← stackTop 2
  let vch₂ ← stackTop 1
  let fEqual := decide (vch₁ = vch₂)
  popStack
  popStack
  pushStack (vchBool fEqual)
  verifyResult fVerify fEqual

/-! ## Numeric -/

/-- One number in, one out. -/
def unaryOp (f : ℤ → ℤ) : ScriptStep Unit := do
  needs 1
  let bn ← bigNumTop 1
  popStack
  pushStack (getVch (f bn))

/-- Two numbers in, one out. -/
def binaryOp (fVerify : Bool) (f : ℤ → ℤ → ℤ) : ScriptStep Unit := do
  needs 2
  let bn₁ ← bigNumTop 2
  let bn₂ ← bigNumTop 1
  popStack
  popStack
  pushStack (getVch (f bn₁ bn₂))
  if fVerify then do
    let vch ← stackTop 1
    verifyResult true (castToBool vch)
  else pure ()

def withinOp : ScriptStep Unit := do
  needs 3
  let bn₁ ← bigNumTop 3
  let bn₂ ← bigNumTop 2
  let bn₃ ← bigNumTop 1
  popStack
  popStack
  popStack
  pushStack (vchBool (bn₂ ≤ bn₁ && bn₁ < bn₃))

/-! ## Crypto -/

/-- The five hash opcodes. -/
def hashOp (f : List UInt8 → List UInt8) : ScriptStep Unit := do
  needs 1
  let vch ← stackTop 1
  popStack
  pushStack (f vch)

/-- A call of `CheckSig`. -/
def callCheckSig (checkSig : SigChecker) (vchSig vchPubKey : List UInt8) (scriptCode : CScript) :
    ScriptStep Bool := do
  Step.modify fun s => { s with nCheckSigs := s.nCheckSigs + 1 }
  pure (checkSig vchSig vchPubKey scriptCode)

/-- `OP_CHECKSIG`, `OP_CHECKSIGVERIFY` -/
def checkSigOp (checkSig : SigChecker) (fVerify : Bool) : ScriptStep Unit := do
  needs 2
  let vchSig ← stackTop 2
  let vchPubKey ← stackTop 1
  let s ← Step.get
  let scriptCode := findAndDelete (pushBytes vchSig) s.pbegincodehash
  let fSuccess ← callCheckSig checkSig vchSig vchPubKey scriptCode
  popStack
  popStack
  pushStack (vchBool fSuccess)
  verifyResult fVerify fSuccess

/-- "Drop the signatures, since there's no way for a signature to sign
itself" -/
def dropSigs : ℕ → ℕ → CScript → ScriptStep CScript
  | 0, _, scriptCode => pure scriptCode
  | n + 1, i, scriptCode => do
    let vchSig ← stackTop i
    dropSigs n (i + 1) (findAndDelete (pushBytes vchSig) scriptCode)

/-- The loop of `OP_CHECKMULTISIG` with `nKeysCount` keys and `nSigsCount`
signatures left, the next of them at `ikey` and `isig`. -/
def multiSigLoop (checkSig : SigChecker) (scriptCode : CScript) :
    (nKeysCount nSigsCount isig ikey : ℕ) → ScriptStep Bool
  | _, 0, _, _ => pure true
  | 0, _ + 1, isig, ikey => do
    -- one key fewer than none: too many signatures have failed
    let vchSig ← stackTop isig
    let vchPubKey ← stackTop ikey
    let _ ← callCheckSig checkSig vchSig vchPubKey scriptCode
    pure false
  | nKeysCount + 1, nSigsCount + 1, isig, ikey => do
    let vchSig ← stackTop isig
    let vchPubKey ← stackTop ikey
    let fOk ← callCheckSig checkSig vchSig vchPubKey scriptCode
    let nSigsLeft := if fOk then nSigsCount else nSigsCount + 1
    let isig := if fOk then isig + 1 else isig
    if nSigsLeft > nKeysCount then pure false
    else multiSigLoop checkSig scriptCode nKeysCount nSigsLeft isig (ikey + 1)

/-- `OP_CHECKMULTISIG`, `OP_CHECKMULTISIGVERIFY`. The element under the
signatures is taken off as well. -/
def checkMultiSigOp (checkSig : SigChecker) (fVerify : Bool) : ScriptStep Unit := do
  needs 1
  let bnKeys ← bigNumTop 1
  let nKeysCount := getInt bnKeys
  require (¬ (nKeysCount < 0 ∨ nKeysCount > 20))
  countOps nKeysCount.toNat
  let ikey := 2
  let i := ikey + nKeysCount.toNat
  needs i
  let bnSigs ← bigNumTop i
  let nSigsCount := getInt bnSigs
  require (¬ (nSigsCount < 0 ∨ nSigsCount > nKeysCount))
  let isig := i + 1
  let i := isig + nSigsCount.toNat
  needs i
  let s ← Step.get
  let scriptCode ← dropSigs nSigsCount.toNat isig s.pbegincodehash
  let fSuccess ← multiSigLoop checkSig scriptCode nKeysCount.toNat nSigsCount.toNat isig ikey
  popStacks i
  pushStack (vchBool fSuccess)
  verifyResult fVerify fSuccess

end ScriptStep

/-! ## EvalScript -/

section
variable [P : Platform] [D : Digests] (checkSig : SigChecker)

open ScriptStep

/-- The switch of `EvalScript`, from `OP_NOP` on. `pc` stands behind the
instruction. -/
def execOp (op : OpCode) (fExec : Bool) (pc : CScript) : ScriptStep Unit :=
  match op with
  | .nop | .nop1 | .nop2 | .nop3 | .nop4 | .nop5 | .nop6 | .nop7 | .nop8 | .nop9 | .nop10 => pure ()
  | .if => ifOp false fExec
  | .notIf => ifOp true fExec
  | .else => elseOp
  | .endIf => endIfOp
  | .verify => verifyOp
  | .return => Step.fail .returnFalse
  | .toAltStack => toAltStackOp
  | .fromAltStack => fromAltStackOp
  | .drop2 => dropOp 2
  | .dup2 => copyOp 2 [2, 1]
  | .dup3 => copyOp 3 [3, 2, 1]
  | .over2 => copyOp 4 [4, 3]
  | .rot2 => rot2Op
  | .swap2 => swapOp 4 [(4, 2), (3, 1)]
  | .ifDup => ifDupOp
  | .depth => depthOp
  | .drop => dropOp 1
  | .dup => copyOp 1 [1]
  | .nip => nipOp
  | .over => copyOp 2 [2]
  | .pick => pickOp false
  | .roll => pickOp true
  | .rot => swapOp 3 [(3, 2), (2, 1)]
  | .swap => swapOp 2 [(2, 1)]
  | .tuck => tuckOp
  | .size => sizeOp
  | .equal => equalOp false
  | .equalVerify => equalOp true
  | .add1 => unaryOp (· + 1)
  | .sub1 => unaryOp (· - 1)
  | .negate => unaryOp (- ·)
  | .abs => unaryOp fun bn => if bn < 0 then -bn else bn
  | .not => unaryOp fun bn => bnBool (bn = 0)
  | .notEqual0 => unaryOp fun bn => bnBool (bn ≠ 0)
  | .add => binaryOp false (· + ·)
  | .sub => binaryOp false (· - ·)
  | .boolAnd => binaryOp false fun bn₁ bn₂ => bnBool (bn₁ ≠ 0 && bn₂ ≠ 0)
  | .boolOr => binaryOp false fun bn₁ bn₂ => bnBool (bn₁ ≠ 0 || bn₂ ≠ 0)
  | .numEqual => binaryOp false fun bn₁ bn₂ => bnBool (bn₁ = bn₂)
  | .numEqualVerify => binaryOp true fun bn₁ bn₂ => bnBool (bn₁ = bn₂)
  | .numNotEqual => binaryOp false fun bn₁ bn₂ => bnBool (bn₁ ≠ bn₂)
  | .lessThan => binaryOp false fun bn₁ bn₂ => bnBool (bn₁ < bn₂)
  | .greaterThan => binaryOp false fun bn₁ bn₂ => bnBool (bn₁ > bn₂)
  | .lessThanOrEqual => binaryOp false fun bn₁ bn₂ => bnBool (bn₁ ≤ bn₂)
  | .greaterThanOrEqual => binaryOp false fun bn₁ bn₂ => bnBool (bn₁ ≥ bn₂)
  | .min => binaryOp false fun bn₁ bn₂ => if bn₁ < bn₂ then bn₁ else bn₂
  | .max => binaryOp false fun bn₁ bn₂ => if bn₁ > bn₂ then bn₁ else bn₂
  | .within => withinOp
  | .ripemd160 => hashOp fun vch => leBytes 20 (D.ripemd160 vch).toNat
  | .sha1 => hashOp fun vch => leBytes 20 (D.sha1 vch).toNat
  | .sha256 => hashOp fun vch => leBytes 32 (D.sha256 vch).toNat
  | .hash160 => hashOp fun vch => leBytes 20 (P.hash160 vch).toNat
  | .hash256 => hashOp fun vch => serializeHash (P.hash vch)
  | .codeSeparator => Step.modify fun s => { s with pbegincodehash := pc }
  | .checkSig => checkSigOp checkSig false
  | .checkSigVerify => checkSigOp checkSig true
  | .checkMultiSig => checkMultiSigOp checkSig false
  | .checkMultiSigVerify => checkMultiSigOp checkSig true
  | _ => Step.fail .returnFalse

/-- An instruction that has been read: a value pushed, or an opcode
executed. The conditionals are executed in any case. -/
def execInstruction (opcode : ℕ) (vchPushValue : List UInt8) (fExec : Bool) (pc : CScript) :
    ScriptStep Unit :=
  if fExec ∧ opcode ≤ opPushData4 then pushStack vchPushValue
  else if fExec ∨ (opIf ≤ opcode ∧ opcode ≤ opEndIf) then
    if opcode = op1Negate ∨ (op1 ≤ opcode ∧ opcode ≤ op16) then
      pushStack (getVch ((opcode : ℤ) - (op1 - 1)))
    else if opcode = opReserved then Step.fail .returnFalse
    else execOp checkSig (opCodeOf opcode) fExec pc
  else pure ()

/-- `stack.size() + altstack.size() > 1000` -/
def sizeLimit : ScriptStep Unit := do
  let s ← Step.get
  require (s.stack.length + s.altstack.length ≤ 1000)

/-- A turn of the loop: from one `pc` to the next. -/
def evalTurn (pc : CScript) : ScriptStep CScript := do
  let s ← Step.get
  let fExec := s.vfExec.all id
  match getOp pc with
  | none => Step.fail .returnFalse
  | some (opcode, vchPushValue, pc) => do
    require (vchPushValue.length ≤ 520)
    countOp opcode
    require (¬ (op16 < opcode ∧ (opCodeOf opcode).isDisabled))
    execInstruction checkSig opcode vchPushValue fExec pc
    sizeLimit
    pure pc

/-- The loop of `EvalScript`. -/
def evalLoop : ℕ → CScript → ScriptStep Unit
  | _, [] => pure ()
  | 0, _ :: _ => Step.fail .outOfTurns
  | fuel + 1, b :: pc => do
    let pc ← evalTurn checkSig (b :: pc)
    evalLoop fuel pc

/-- `EvalScript` on its own variables. -/
def evalBody (script : CScript) : ScriptStep Unit := do
  require (script.length ≤ 10000)
  evalLoop checkSig script.length script
  let s ← Step.get
  require (s.vfExec = [])

/-- What outlives an evaluation: the stack, and the count of calls. -/
structure ScriptMachine where
  stack : List (List UInt8)
  nCheckSigs : ℕ
  deriving DecidableEq, Repr

/-- Where an evaluation starts. -/
def ScriptMachine.enter (m : ScriptMachine) (script : CScript) : ScriptState :=
  ⟨m.stack, [], [], 0, script, m.nCheckSigs⟩

/-- `EvalScript`: what it leaves on the stack stays there, whatever it
returns. -/
def evalScript (script : CScript) : Step ScriptMachine ScriptFailure Unit :=
  Step.zoom (fun m => m.enter script) (fun s _ => ⟨s.stack, s.nCheckSigs⟩)
    (evalBody checkSig script)

/-! ## VerifyScript -/

/-- `if (stack.empty()) return false; CastToBool(stack.back())` -/
def endsTrue : Step ScriptMachine ScriptFailure Unit := do
  let m ← Step.get
  match m.stack with
  | [] => Step.fail .returnFalse
  | vch :: _ => if castToBool vch then pure () else Step.fail .returnFalse

/-- "Additional validation for spend-to-script-hash transactions" -/
def evalSubscript (scriptSig : CScript) (stackCopy : List (List UInt8)) :
    Step ScriptMachine ScriptFailure Unit :=
  if !isPushOnly scriptSig then Step.fail .returnFalse
  else match stackCopy with
    | [] => Step.fail .outOfRange
    | pubKeySerialized :: stackCopy => do
      Step.modify fun m => { m with stack := stackCopy }
      evalScript checkSig pubKeySerialized
      endsTrue

/-- `VerifyScript` -/
def verifySteps (scriptSig scriptPubKey : CScript) (fValidatePayToScriptHash : Bool) :
    Step ScriptMachine ScriptFailure Unit := do
  evalScript checkSig scriptSig
  let m ← Step.get
  evalScript checkSig scriptPubKey
  endsTrue
  if fValidatePayToScriptHash && isPayToScriptHash scriptPubKey then
    evalSubscript checkSig scriptSig m.stack
  else pure ()

/-- What `VerifyScript` returns. -/
def verifyScript (scriptSig scriptPubKey : CScript) (fValidatePayToScriptHash : Bool) : Bool :=
  (verifySteps checkSig scriptSig scriptPubKey fValidatePayToScriptHash ⟨[], 0⟩).1.toBool

/-- How often `VerifyScript` calls `CheckSig`. -/
def verifyCheckSigs (scriptSig scriptPubKey : CScript) (fValidatePayToScriptHash : Bool) : ℕ :=
  (verifySteps checkSig scriptSig scriptPubKey fValidatePayToScriptHash ⟨[], 0⟩).2.nCheckSigs

end

end CryptoBullion
