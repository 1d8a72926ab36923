import CryptoBullion.Model.Platform
import CryptoBullion.Model.Script
/-!
# Writing and reading a script by position

The operators that append to a script, and `GetOp2` as it moves an iterator
over the script's bytes: what it reads is checked against the end.
-/

namespace CryptoBullion

/-! ## Appending -/

/-- An item of a script: an opcode that has no operand, or bytes to push. -/
inductive ScriptItem
  | opcode (op : UInt8) (h : 78 < op.toNat)
  | data (b : List UInt8) (h : b.length < 2 ^ 32)

/-- `operator<<(opcodetype)`, which throws for what is not a byte -/
def appendOpcode (script : CScript) (opcode : ℤ) : Option CScript :=
  if opcode < 0 ∨ 0xff < opcode then none else some (script ++ [UInt8.ofNat opcode.toNat])

/-- `operator<<` of an item -/
def appendItem (script : CScript) : ScriptItem → Option CScript
  | .opcode op _ => appendOpcode script op.toNat
  | .data b _ => some (script ++ pushBytes b)

/-- One `operator<<` after another, from an empty script. -/
def written (items : List ScriptItem) : Option CScript := items.foldlM appendItem []

/-! ## Reading -/

/-- A read behind the end. -/
inductive PastEnd
  | pastEnd
  deriving DecidableEq, Repr

/-- `*pc` -/
def deref (script : CScript) (pc : ℕ) : Except PastEnd UInt8 :=
  match script[pc]? with
  | none => .error .pastEnd
  | some b => .ok b

/-- The bytes from `pc` to `pc + n`. -/
def slice (script : CScript) (pc n : ℕ) : Except PastEnd (List UInt8) :=
  if pc + n ≤ script.length then .ok ((script.drop pc).take n) else .error .pastEnd

/-- What a call of `GetOp2` leaves in its arguments, and its result. -/
structure GetOpResult where
  fRet : Bool
  pc : ℕ
  opcodeRet : ℕ
  vchRet : List UInt8
  deriving DecidableEq, Repr

/-- The size of the operand, and `pc` behind it. -/
def readSize (script : CScript) (opcode pc : ℕ) : Except PastEnd (Option (ℕ × ℕ)) :=
  if opcode < 76 then .ok (some (opcode, pc))
  else
    let width := if opcode = 76 then 1 else if opcode = 77 then 2 else 4
    if script.length - pc < width then .ok none
    else (slice script pc width).map fun v => some (ofLeBytes v, pc + width)

/-- `GetOp2`. What is left of the script is compared with the size as an
`unsigned int`. -/
def GetOp2 (script : CScript) (pc : ℕ) : Except PastEnd GetOpResult :=
  if script.length ≤ pc then .ok ⟨false, pc, opInvalid, []⟩
  else do
    let op ← deref script pc
    let opcode := op.toNat
    let pc := pc + 1
    if opcode ≤ 78 then
      match ← readSize script opcode pc with
      | none => return ⟨false, pc, opInvalid, []⟩
      | some (nSize, pc) =>
        if script.length < pc ∨ (script.length - pc) % 4294967296 < nSize then
          return ⟨false, pc, opInvalid, []⟩
        else
          let vch ← slice script pc nSize
          return ⟨true, pc + nSize, opcode, vch⟩
    else return ⟨true, pc, opcode, []⟩

/-- `while (pc < end())`, a call of `GetOp` in each turn: the instructions
that were read, whether every call succeeded, and where `pc` stands. -/
def readLoop (script : CScript) :
    (fuel pc : ℕ) → Option (Except PastEnd (List (ℕ × List UInt8) × Bool × ℕ))
  | 0, _ => none
  | fuel + 1, pc =>
    if pc < script.length then
      match GetOp2 script pc with
      | .error e => some (.error e)
      | .ok r =>
        if r.fRet then
          (readLoop script fuel r.pc).map fun rest =>
            rest.map fun out => ((r.opcodeRet, r.vchRet) :: out.1, out.2)
        else some (.ok ([], false, r.pc))
    else some (.ok ([], true, pc))

end CryptoBullion
