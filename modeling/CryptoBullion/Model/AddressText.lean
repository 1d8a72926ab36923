import CryptoBullion.Model.BigNum
import CryptoBullion.Model.Dump
import CryptoBullion.Model.NetAddr
import CryptoBullion.Model.Text
/-!
# Addresses as text

How `netbase.cpp` prints an address and a service, and how the text is
split at its port and read for the overlay networks. `getnameinfo`, which
prints the other addresses, is a parameter.
-/

namespace CryptoBullion

/-! ## Printing -/

/-- `%x` -/
def printHex (n : ℕ) : List UInt8 :=
  if n = 0 then [48] else (Nat.digits 16 n).reverse.map Dump.hexDigit

namespace CNetAddr

/-- What `getnameinfo` makes of an address, where it succeeds. -/
abbrev NameInfo := CNetAddr → Option (List UInt8)

/-- `GetByte(n + 1) << 8 | GetByte(n)` -/
def getPair (addr : CNetAddr) (n : ℕ) : ℕ :=
  (getByte addr (n + 1)).toNat <<< 8 ||| (getByte addr n).toNat

/-- `ToStringIP` -/
def toStringIP (getnameinfo : NameInfo) (addr : CNetAddr) : List UInt8 :=
  if isTor addr then encodeBase32 (((ip addr).drop 6).take 10) ++ text ".onion"
  else if isI2P addr then encodeBase32 (((ip addr).drop 6).take 10) ++ text ".oc.b32.i2p"
  else match getnameinfo addr with
    | some name => name
    | none =>
      if isIPv4 addr then
        (text ".").intercalate ([3, 2, 1, 0].map fun n => printDecimal (getByte addr n).toNat)
      else
        (text ":").intercalate ([14, 12, 10, 8, 6, 4, 2, 0].map fun n => printHex (getPair addr n))

/-- The sixteen bytes of `ip`. -/
def ofIp (ip : List UInt8) : CNetAddr := BitVec.ofNat 128 (ofBeBytes ip)

/-- `SetSpecial`: its result, and the address as it is then. -/
def setSpecial (addr : CNetAddr) (strName : List UInt8) : Bool × CNetAddr :=
  if 6 < strName.length ∧ strName.drop (strName.length - 6) = text ".onion" then
    let vchAddr := (decodeBase32 (cStr (strName.take (strName.length - 6)))).1
    if vchAddr.length ≠ 16 - pchOnionCat.length then (false, addr)
    else (true, ofIp (pchOnionCat ++ vchAddr))
  else if 11 < strName.length ∧ strName.drop (strName.length - 11) = text ".oc.b32.i2p" then
    let vchAddr := (decodeBase32 (cStr (strName.take (strName.length - 11)))).1
    if vchAddr.length ≠ 16 - pchGarliCat.length then (false, addr)
    -- the bytes of the other network
    else (true, ofIp (pchOnionCat.take pchGarliCat.length ++ vchAddr))
  else (false, addr)

end CNetAddr

/-- `ToStringPort` -/
def CService.toStringPort (a : CService) : List UInt8 := printDecimal a.port.toNat

/-- `ToStringIPPort` -/
def CService.toStringIPPort (getnameinfo : CNetAddr.NameInfo) (a : CService) : List UInt8 :=
  if CNetAddr.isIPv4 a.ip || CNetAddr.isTor a.ip || CNetAddr.isI2P a.ip then
    CNetAddr.toStringIP getnameinfo a.ip ++ text ":" ++ a.toStringPort
  else text "[" ++ CNetAddr.toStringIP getnameinfo a.ip ++ text "]:" ++ a.toStringPort

/-! ## Splitting -/

/-- `find_last_of` -/
def findLastOf (c : UInt8) : List UInt8 → Option ℕ
  | [] => none
  | d :: s =>
    match findLastOf c s with
    | some i => some (i + 1)
    | none => if d = c then some 0 else none

/-- `*endp == 0` behind a `strtol` to base ten: nothing is left over. Where
there is no digit, `endp` is where the string starts. -/
def strtolEnds (str : List UInt8) : Bool :=
  let s := (Records.signOf ((cStr str).dropWhile isSpace)).2
  if s.takeWhile isDigit = [] then cStr str = [] else s.dropWhile isDigit = []

/-- `SplitHostPort`: `portOut` and `hostOut` -/
def splitHostPort (s : List UInt8) (portOut : ℤ) : ℤ × List UInt8 :=
  let (portOut, s) := match findLastOf 58 s with
    | none => (portOut, s)
    | some colon =>
      let fBracketed := s.getD 0 0 == 91 && s.getD (colon - 1) 0 == 93
      -- behind a colon in front, the search is of the whole string
      let fMultiColon := colon == 0 || (findLastOf 58 (s.take colon)).isSome
      if colon == 0 || fBracketed || !fMultiColon then
        let n := toInt32 (Records.strtoll (s.drop (colon + 1)))
        if strtolEnds (s.drop (colon + 1)) && decide (0 ≤ n) then
          (if 0 < n ∧ n < 0x10000 then n else portOut, s.take colon)
        else (portOut, s)
      else (portOut, s)
  if 0 < s.length ∧ s.getD 0 0 = 91 ∧ s.getD (s.length - 1) 0 = 93 then
    (portOut, (s.drop 1).take (s.length - 2))
  else (portOut, s)

end CryptoBullion
