import CryptoBullion.Model.Work
/-!
# Writing scripts

How numbers and bytes are pushed onto a script that is being built, and the
destinations a script can pay to.
-/

namespace CryptoBullion

/-- `CTxDestination` -/
inductive CTxDestination
  | noDestination
  | keyID (id : BitVec 160)
  | scriptID (id : BitVec 160)
  deriving DecidableEq, Repr

/-- `CBigNum::getvch`: as many bytes as the magnitude needs, least
significant first, the sign in the top bit of the last. -/
def getVch (n : ℤ) : List UInt8 :=
  let nSize := mpiSize n.natAbs
  leBytes nSize (n.natAbs + if n < 0 then 2 ^ (8 * nSize - 1) else 0)

/-- `CScript::operator<<` of bytes -/
def pushBytes (b : List UInt8) : CScript :=
  if b.length < 76 then leBytes 1 b.length ++ b
  else if b.length ≤ 0xff then 76 :: leBytes 1 b.length ++ b
  else if b.length ≤ 0xffff then 77 :: leBytes 2 b.length ++ b
  else 78 :: leBytes 4 b.length ++ b

/-- `CScript::push_int64` -/
def pushInt64 (n : ℤ) : CScript :=
  if n = -1 ∨ (1 ≤ n ∧ n ≤ 16) then [UInt8.ofNat (n + (op1 - 1)).toNat] else pushBytes (getVch n)

end CryptoBullion
