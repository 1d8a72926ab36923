import CryptoBullion.Model.Serialize
import CryptoBullion.Model.Script
/-!
# Big numbers and their bytes

The conversions of `CBigNum`. Each goes through OpenSSL's MPI format: four
bytes with the length, and a magnitude, the most significant byte first,
with the sign in its top bit.
-/

namespace CryptoBullion

/-- The low `k` bytes of a number, most significant first. -/
def beBytes (k n : ℕ) : List UInt8 := (leBytes k n).reverse

/-- The number that bytes spell, most significant first. -/
def ofBeBytes (l : List UInt8) : ℕ := ofLeBytes l.reverse

/-! ## OpenSSL -/

/-- `BN_num_bits` -/
def numBits (n : ℕ) : ℕ := if n = 0 then 0 else Nat.log2 n + 1

/-- `BN_bn2bin` -/
def bn2bin (n : ℕ) : List UInt8 := beBytes ((numBits n + 7) / 8) n

/-- `d[0] |= 0x80` -/
def setSign : List UInt8 → List UInt8
  | [] => []
  | c :: d => (c ||| 0x80) :: d

/-- `BN_bn2mpi`: an empty byte in front where the top bit is not free for
the sign -/
def bn2mpi (a : ℤ) : List UInt8 :=
  let bits := numBits a.natAbs
  let num := (bits + 7) / 8
  let ext := if 0 < bits ∧ bits % 8 = 0 then 1 else 0
  let d := List.replicate ext 0 ++ bn2bin a.natAbs
  beBytes 4 (num + ext) ++ if a < 0 then setSign d else d

/-- `BN_mpi2bn`, where the length is right -/
def mpi2bn (d : List UInt8) : Option ℤ :=
  if d.length < 4 ∨ ofBeBytes (d.take 4) + 4 ≠ d.length then none
  else match d.drop 4 with
    | [] => some 0
    | c :: body =>
      let a := ofBeBytes (c :: body)
      -- the sign's bit is not one of the number
      if c &&& 0x80 ≠ 0 then some (-((a - 2 ^ (numBits a - 1) : ℕ) : ℤ)) else some (a : ℤ)

/-- `CBigNum`. `BN_num_bits` is an `int`, and so is as large as a number
gets. -/
structure CBigNum where
  val : ℤ
  numBits_lt : numBits val.natAbs < 2 ^ 31

namespace CBigNum

/-- `BN_mpi2bn(d, n, this)`, which leaves the number alone where it
fails -/
def ofMpi (self : CBigNum) (d : List UInt8) : CBigNum :=
  match mpi2bn d with
  | none => self
  | some n => if h : numBits n.natAbs < 2 ^ 31 then ⟨n, h⟩ else self

/-! ## Words -/

/-- The loop of the setters over the bytes of a word, most significant
first: leading zeros are left out, and the sign gets a byte of its own
where the top bit is taken. -/
def setLoop (fNegative : Bool) : Bool → List UInt8 → List UInt8
  | _, [] => []
  | fLeadingZeroes, c :: bytes =>
    if fLeadingZeroes then
      if c = 0 then setLoop fNegative true bytes
      else if c &&& 0x80 ≠ 0 then
        (if fNegative then 0x80 else 0) :: c :: setLoop fNegative false bytes
      else (if fNegative then c ||| 0x80 else c) :: setLoop fNegative false bytes
    else c :: setLoop fNegative false bytes

/-- `c = (n >> 56) & 0xff; n <<= 8`, over and over -/
def topBytes : ℕ → BitVec 64 → List UInt8
  | 0, _ => []
  | k + 1, n => UInt8.ofNat (n >>> 56).toNat :: topBytes k (n <<< 8)

/-- The buffer: the length of what was written, and that. -/
def withSize (body : List UInt8) : List UInt8 := beBytes 4 body.length ++ body

/-- `setint64` -/
def setint64 (self : CBigNum) (sn : BitVec 64) : CBigNum :=
  let n := if sn.slt 0 then -(sn + 1) + 1 else sn
  self.ofMpi (withSize (setLoop (sn.slt 0) true (topBytes 8 n)))

/-- `setuint64` -/
def setuint64 (self : CBigNum) (n : BitVec 64) : CBigNum :=
  self.ofMpi (withSize (setLoop false true (topBytes 8 n)))

/-- `setuint256`, which walks down the bytes in memory -/
def setuint256 (self : CBigNum) (n : Uint256) : CBigNum :=
  self.ofMpi (withSize (setLoop false true (leBytes 32 n.toNat).reverse))

/-- `vch[4] &= 0x7f` -/
def clearSign : List UInt8 → List UInt8
  | [] => []
  | c :: body => (c &&& 0x7f) :: body

/-- The bytes of the magnitude that the getters take, least significant
first. -/
def lowBytes (self : CBigNum) (k : ℕ) : List UInt8 :=
  (clearSign ((bn2mpi self.val).drop 4)).reverse.take k

/-- `getuint64` -/
def getuint64 (self : CBigNum) : BitVec 64 := BitVec.ofNat 64 (ofLeBytes (self.lowBytes 8))

/-- `getuint256` -/
def getuint256 (self : CBigNum) : Uint256 := BitVec.ofNat 256 (ofLeBytes (self.lowBytes 32))

/-! ## Vectors -/

/-- `setvch` -/
def setvch (self : CBigNum) (vch : List UInt8) : CBigNum :=
  self.ofMpi (beBytes 4 vch.length ++ vch.reverse)

/-- `getvch` -/
def getvch (self : CBigNum) : List UInt8 :=
  if (bn2mpi self.val).length ≤ 4 then [] else ((bn2mpi self.val).drop 4).reverse

/-! ## Compact numbers -/

/-- `SetCompact` -/
def SetCompact (self : CBigNum) (nCompact : ℕ) : CBigNum :=
  let nSize := nCompact / 16777216 % 256
  let vch := (List.replicate (4 + nSize) 0).set 3 (UInt8.ofNat nSize)
  let vch := if 1 ≤ nSize then vch.set 4 (UInt8.ofNat (nCompact / 65536 % 256)) else vch
  let vch := if 2 ≤ nSize then vch.set 5 (UInt8.ofNat (nCompact / 256 % 256)) else vch
  let vch := if 3 ≤ nSize then vch.set 6 (UInt8.ofNat (nCompact % 256)) else vch
  self.ofMpi vch

/-- `GetCompact` -/
def GetCompact (self : CBigNum) : ℕ :=
  let vch := bn2mpi self.val
  let nSize := vch.length - 4
  let nCompact := nSize * 16777216 % 4294967296
  let nCompact := if 1 ≤ nSize then nCompact ||| (vch.getD 4 0).toNat * 65536 else nCompact
  let nCompact := if 2 ≤ nSize then nCompact ||| (vch.getD 5 0).toNat * 256 else nCompact
  if 3 ≤ nSize then nCompact ||| (vch.getD 6 0).toNat else nCompact

end CBigNum

end CryptoBullion
