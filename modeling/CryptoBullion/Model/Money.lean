import CryptoBullion.Model.Primitives
import CryptoBullion.Model.Text
/-!
# Amounts as text

`FormatMoney` and `ParseMoney` of `util.cpp`. Signed arithmetic that may
overflow goes through `int64`, where overflow is an end of its own.
-/

namespace CryptoBullion

/-- The value of a signed 64-bit operation, undefined where it does not
fit. -/
def int64 (n : ℤ) : Except Failure ℤ :=
  if -2 ^ 63 ≤ n ∧ n < 2 ^ 63 then .ok n else .error (.crash "signed overflow")

/-- `'.'` -/
def pointChar : UInt8 := 46

/-- `*p - '0'` -/
def digitVal (c : UInt8) : ℕ := c.toNat - 48

/-- `%d`, of a number that is not negative -/
def printDecimal (n : ℕ) : List UInt8 :=
  if n = 0 then [48] else (Nat.digits 10 n).reverse.map fun d => UInt8.ofNat (48 + d)

/-- `%0wd` -/
def printPadded (w n : ℕ) : List UInt8 :=
  List.replicate (w - (printDecimal n).length) 48 ++ printDecimal n

/-! ## FormatMoney -/

/-- The loop over the zeros at the end, down from the place `i`: those with
a digit two places before them. -/
def trimZeros (str : List UInt8) : (i : ℕ) → ℕ
  | 0 => 0
  | i + 1 =>
    if str.getD (i + 1) 0 = 48 && isDigit (str.getD (i + 1 - 2) 0) then trimZeros str i + 1 else 0

/-- `FormatMoney` -/
def formatMoney (n : ℤ) (fPlus : Bool) : List UInt8 :=
  let quotient := n.natAbs / coin.toNat
  let remainder := n.natAbs % coin.toNat
  let str := printDecimal quotient ++ pointChar :: printPadded 6 remainder
  let nTrim := trimZeros str (str.length - 1)
  let str := str.take (str.length - nTrim)
  if n < 0 then 45 :: str else if fPlus && 0 < n then 43 :: str else str

/-! ## ParseMoney -/

/-- What a string of digits is worth. -/
def decimalValue (str : List UInt8) : ℕ := str.foldl (fun v c => 10 * v + digitVal c) 0

/-- `atoi64`, of a string of digits: `strtoll` stops at the largest value
there is. -/
def atoi64 (str : List UInt8) : ℤ := min (decimalValue str) (2 ^ 63 - 1)

/-- The digits behind the point, each worth a tenth of the one before. -/
def parseUnits : (p : List UInt8) → (nMult nUnits : ℤ) → Except Failure (ℤ × List UInt8)
  | [], _, nUnits => .ok (nUnits, [])
  | c :: p, nMult, nUnits =>
    if isDigit c && 0 < nMult then do
      let term ← int64 (nMult * digitVal c)
      let nUnits ← int64 (nUnits + term)
      parseUnits p (nMult.tdiv 10) nUnits
    else .ok (nUnits, c :: p)

/-- The loop over the digits in front of the point: those, the units behind
it, and where it stops. -/
def parseWhole : (p strWhole : List UInt8) → Except Failure (List UInt8 × ℤ × List UInt8)
  | [], strWhole => .ok (strWhole, 0, [])
  | c :: p, strWhole =>
    if c = pointChar then do
      let (nUnits, p) ← parseUnits p (cent * 10) 0
      .ok (strWhole, nUnits, p)
    else if isSpace c then .ok (strWhole, 0, c :: p)
    else if !isDigit c then .error .quiet
    else parseWhole p (strWhole ++ [c])

/-- `ParseMoney(const char*, int64&)` -/
def parseMoneyPsz (pszIn : List UInt8) : Except Failure ℤ := do
  let (strWhole, nUnits, p) ← parseWhole (pszIn.dropWhile isSpace) []
  reject (p.any fun c => !isSpace c) .quiet
  -- guard against 63 bit overflow
  reject (10 < strWhole.length) .quiet
  reject (nUnits < 0 ∨ coin < nUnits) .quiet
  let nWhole := atoi64 strWhole
  let nScaled ← int64 (nWhole * coin)
  int64 (nScaled + nUnits)

/-- `ParseMoney(const string&, int64&)` -/
def parseMoney (str : List UInt8) : Except Failure ℤ := parseMoneyPsz (cStr str)

end CryptoBullion
