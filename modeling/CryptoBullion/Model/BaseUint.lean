import CryptoBullion.Common.Words
import CryptoBullion.Model.Dump
/-!
# Integers of a fixed width

`base_uint<BITS>`: `WIDTH` words of 32 bits, the lowest first. The loops
run over the words as the source has them; a loop with one word of each
array in a turn is a recursion over the words.
-/

namespace CryptoBullion

/-- `base_uint<32 * WIDTH>`: `uint160` has five words, `uint256` eight. -/
structure BaseUint (WIDTH : ℕ) where
  pn : List (BitVec 32)
  length_pn : pn.length = WIDTH

namespace BaseUint

/-- The loop of `operator+=`: `n` is a `uint64`. -/
def addLoop : BitVec 64 → List (BitVec 32) → List (BitVec 32) → List (BitVec 32)
  | carry, p :: pn, q :: b =>
    let n := carry + p.setWidth 64 + q.setWidth 64
    (n &&& 0xffffffff).setWidth 32 :: addLoop (n >>> 32) pn b
  | _, _, _ => []

/-- `while (++pn[i] == 0 && i < WIDTH-1)` -/
def incrLoop : List (BitVec 32) → List (BitVec 32)
  | [] => []
  | p :: pn => (p + 1) :: if p + 1 = 0 ∧ pn ≠ [] then incrLoop pn else pn

/-- `while (--pn[i] == -1 && i < WIDTH-1)` -/
def decrLoop : List (BitVec 32) → List (BitVec 32)
  | [] => []
  | p :: pn => (p - 1) :: if p - 1 = 0xffffffff ∧ pn ≠ [] then decrLoop pn else pn

/-- The loop of `operator<` and `operator<=`, from the highest word: what is
returned where no words differ is `equal`. -/
def lessLoop (equal : Bool) : List (BitVec 32) → List (BitVec 32) → Bool
  | p :: a, q :: b => if p < q then true else if q < p then false else lessLoop equal a b
  | _, _ => equal

/-- The loop of `operator==` -/
def equalLoop : List (BitVec 32) → List (BitVec 32) → Bool
  | p :: a, q :: b => if p ≠ q then false else equalLoop a b
  | _, _ => true

/-- A turn of the loop of `operator<<=` -/
def shlTurn (WIDTH k shift : ℕ) (a pn : List (BitVec 32)) (i : ℕ) : List (BitVec 32) :=
  let pn := if i + k + 1 < WIDTH ∧ shift ≠ 0 then
    Words.orAt pn (i + k + 1) (a.getD i 0 >>> (32 - shift)) else pn
  if i + k < WIDTH then Words.orAt pn (i + k) (a.getD i 0 <<< shift) else pn

/-- A turn of the loop of `operator>>=` -/
def shrTurn (k shift : ℕ) (a pn : List (BitVec 32)) (i : ℕ) : List (BitVec 32) :=
  let pn := if k + 1 ≤ i ∧ shift ≠ 0 then
    Words.orAt pn (i - k - 1) (a.getD i 0 <<< (32 - shift)) else pn
  if k ≤ i then Words.orAt pn (i - k) (a.getD i 0 >>> shift) else pn

/-! ## Hexadecimal -/

/-- `phexdigit` -/
def phexdigit : List UInt8 :=
  List.replicate 48 0 ++ [0, 1, 2, 3, 4, 5, 6, 7, 8, 9] ++ List.replicate 7 0 ++
    [0xa, 0xb, 0xc, 0xd, 0xe, 0xf] ++ List.replicate 26 0 ++ [0xa, 0xb, 0xc, 0xd, 0xe, 0xf] ++
      List.replicate 153 0

def hexdigit (c : UInt8) : UInt8 := phexdigit.getD c.toNat 0

/-- The bytes of the words in memory. -/
def bytes (pn : List (BitVec 32)) : List UInt8 := pn.flatMap fun p => leBytes 4 p.toNat

/-- The words of bytes in memory. -/
def wordsOf : ℕ → List UInt8 → List (BitVec 32)
  | 0, _ => []
  | n + 1, v => BitVec.ofNat 32 (ofLeBytes (v.take 4)) :: wordsOf n (v.drop 4)

/-- The loop of `SetHex`, backwards from the last digit: two digits a byte,
and zeros in the bytes that are not come to. -/
def hexBytes : (room : ℕ) → (digits : List UInt8) → List UInt8
  | 0, _ => []
  | room + 1, [] => 0 :: hexBytes room []
  | room + 1, [c] => hexdigit c :: hexBytes room []
  | room + 1, c :: d :: digits => (hexdigit c ||| hexdigit d <<< 4) :: hexBytes room digits

/-- The digits that `SetHex` finds. -/
def hexDigits (str : List UInt8) : List UInt8 :=
  let psz := (cStr str).dropWhile isSpace
  -- skip 0x
  let psz :=
    if psz.getD 0 0 = 48 ∧ (psz.getD 1 0 = 120 ∨ psz.getD 1 0 = 88) then psz.drop 2 else psz
  psz.takeWhile fun c => hexdigit c ≠ 0 || c = 48

/-! ## Operations -/

variable {WIDTH : ℕ}

theorem length_addLoop (carry : BitVec 64) {a b : List (BitVec 32)} (h : a.length = b.length) :
    (addLoop carry a b).length = a.length := by
  induction a generalizing b carry with
  | nil => cases b <;> rfl
  | cons p a ih =>
    rcases b with _ | ⟨q, b⟩
    · exact absurd h (by simp)
    · rw [addLoop, List.length_cons, List.length_cons, ih _ (by simpa using h)]

theorem length_incrLoop (pn : List (BitVec 32)) : (incrLoop pn).length = pn.length := by
  induction pn with
  | nil => rfl
  | cons p pn ih =>
    rw [incrLoop, List.length_cons, List.length_cons]
    split_ifs
    · rw [ih]
    · rfl

theorem length_decrLoop (pn : List (BitVec 32)) : (decrLoop pn).length = pn.length := by
  induction pn with
  | nil => rfl
  | cons p pn ih =>
    rw [decrLoop, List.length_cons, List.length_cons]
    split_ifs
    · rw [ih]
    · rfl

theorem length_foldl {turn : List (BitVec 32) → ℕ → List (BitVec 32)}
    (h : ∀ pn i, (turn pn i).length = pn.length) (is : List ℕ) (pn : List (BitVec 32)) :
    (is.foldl turn pn).length = pn.length := by
  induction is generalizing pn with
  | nil => rfl
  | cons i is ih => rw [List.foldl_cons, ih, h]

theorem length_shlTurn (k shift : ℕ) (a pn : List (BitVec 32)) (i : ℕ) :
    (shlTurn WIDTH k shift a pn i).length = pn.length := by
  unfold shlTurn
  dsimp only
  split_ifs <;> simp only [Words.length_orAt]

theorem length_shrTurn (k shift : ℕ) (a pn : List (BitVec 32)) (i : ℕ) :
    (shrTurn k shift a pn i).length = pn.length := by
  unfold shrTurn
  dsimp only
  split_ifs <;> simp only [Words.length_orAt]

theorem length_wordsOf (n : ℕ) (v : List UInt8) : (wordsOf n v).length = n := by
  induction n generalizing v with
  | zero => rfl
  | succ n ih => rw [wordsOf, List.length_cons, ih]

/-- `operator+=` -/
def addAssign (self b : BaseUint WIDTH) : BaseUint WIDTH :=
  ⟨addLoop 0 self.pn b.pn, by
    rw [length_addLoop 0 (self.length_pn.trans b.length_pn.symm), self.length_pn]⟩

/-- `operator++`, the prefix one -/
def preIncr (self : BaseUint WIDTH) : BaseUint WIDTH :=
  ⟨incrLoop self.pn, by rw [length_incrLoop, self.length_pn]⟩

/-- `operator++(int)`: what it returns, and what it leaves -/
def postIncr (self : BaseUint WIDTH) : BaseUint WIDTH × BaseUint WIDTH := (self, self.preIncr)

/-- `operator--`, the prefix one -/
def preDecr (self : BaseUint WIDTH) : BaseUint WIDTH :=
  ⟨decrLoop self.pn, by rw [length_decrLoop, self.length_pn]⟩

/-- `operator--(int)`: what it returns, and what it leaves -/
def postDecr (self : BaseUint WIDTH) : BaseUint WIDTH × BaseUint WIDTH := (self, self.preDecr)

/-- `operator-()` -/
def neg (self : BaseUint WIDTH) : BaseUint WIDTH :=
  let ret : BaseUint WIDTH := ⟨self.pn.map fun p => ~~~p, by rw [List.length_map, self.length_pn]⟩
  ret.postIncr.2

/-- `operator-=` -/
def subAssign (self b : BaseUint WIDTH) : BaseUint WIDTH := self.addAssign b.neg

/-- `operator<<=` -/
def shlAssign (self : BaseUint WIDTH) (shift : ℕ) : BaseUint WIDTH :=
  ⟨(List.range WIDTH).foldl (shlTurn WIDTH (shift / 32) (shift % 32) self.pn)
    (List.replicate WIDTH 0), by
    rw [length_foldl (length_shlTurn _ _ _), List.length_replicate]⟩

/-- `operator>>=` -/
def shrAssign (self : BaseUint WIDTH) (shift : ℕ) : BaseUint WIDTH :=
  ⟨(List.range WIDTH).foldl (shrTurn (shift / 32) (shift % 32) self.pn) (List.replicate WIDTH 0), by
    rw [length_foldl (length_shrTurn _ _ _), List.length_replicate]⟩

/-- `operator+` and `operator-` of two, `operator<<` and `operator>>` -/
def add (a b : BaseUint WIDTH) : BaseUint WIDTH := a.addAssign b
def sub (a b : BaseUint WIDTH) : BaseUint WIDTH := a.subAssign b
def shl (a : BaseUint WIDTH) (shift : ℕ) : BaseUint WIDTH := a.shlAssign shift
def shr (a : BaseUint WIDTH) (shift : ℕ) : BaseUint WIDTH := a.shrAssign shift

/-- `operator<` and `operator<=` -/
def lt (a b : BaseUint WIDTH) : Bool := lessLoop false a.pn.reverse b.pn.reverse
def le (a b : BaseUint WIDTH) : Bool := lessLoop true a.pn.reverse b.pn.reverse

/-- `operator>` and `operator>=` test the words the other way round. -/
def gt (a b : BaseUint WIDTH) : Bool := lessLoop false b.pn.reverse a.pn.reverse
def ge (a b : BaseUint WIDTH) : Bool := lessLoop true b.pn.reverse a.pn.reverse

/-- `operator==` and `operator!=` -/
def eq (a b : BaseUint WIDTH) : Bool := equalLoop a.pn b.pn
def ne (a b : BaseUint WIDTH) : Bool := !a.eq b

/-- `GetHex` -/
def GetHex (self : BaseUint WIDTH) : List UInt8 := (bytes self.pn).reverse.flatMap Dump.hexStr

/-- `SetHex`, which does not look at what was there -/
def SetHex (_self : BaseUint WIDTH) (str : List UInt8) : BaseUint WIDTH :=
  ⟨wordsOf WIDTH (hexBytes (4 * WIDTH) (hexDigits str).reverse), length_wordsOf _ _⟩

/-- The number. -/
def toNat (self : BaseUint WIDTH) : ℕ := Words.value self.pn

end BaseUint

end CryptoBullion
