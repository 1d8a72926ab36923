import CryptoBullion.Model.Clock
import CryptoBullion.Model.Platform
/-!
# Network addresses

What `CNetAddr` says of its sixteen bytes, and the two keys the address
manager hashes: the group of an address and the bytes of a service.
-/

namespace CryptoBullion

namespace CNetAddr

variable (addr : CNetAddr)

/-- `GetByte`, counted from the last -/
def getByte (n : ℕ) : UInt8 := UInt8.ofNat (addr >>> (8 * n)).toNat

/-- `ip` -/
def ip : List UInt8 := (List.range 16).map fun n => getByte addr (15 - n)

/-- `memcmp(ip, pch, sizeof(pch)) == 0` -/
def startsWith (pch : List UInt8) : Bool := (ip addr).take pch.length = pch

/-! ## Ranges -/

def pchIPv4 : List UInt8 := [0, 0, 0, 0, 0, 0, 0, 0, 0, 0, 0xff, 0xff]
def pchOnionCat : List UInt8 := [0xFD, 0x87, 0xD8, 0x7E, 0xEB, 0x43]
def pchGarliCat : List UInt8 := [0xFD, 0x60, 0xDB, 0x4D, 0xDD, 0xB5]

def isIPv4 : Bool := startsWith addr pchIPv4

def isRFC1918 : Bool := isIPv4 addr &&
  (getByte addr 3 == 10 ||
    (getByte addr 3 == 192 && getByte addr 2 == 168) ||
    (getByte addr 3 == 172 && (getByte addr 2 ≥ 16 && getByte addr 2 ≤ 31)))

def isRFC3927 : Bool := isIPv4 addr && (getByte addr 3 == 169 && getByte addr 2 == 254)

def isRFC3849 : Bool := getByte addr 15 == 0x20 && getByte addr 14 == 0x01 &&
  getByte addr 13 == 0x0D && getByte addr 12 == 0xB8

def isRFC3964 : Bool := getByte addr 15 == 0x20 && getByte addr 14 == 0x02

def isRFC6052 : Bool := startsWith addr [0, 0x64, 0xFF, 0x9B, 0, 0, 0, 0, 0, 0, 0, 0]

def isRFC4380 : Bool := getByte addr 15 == 0x20 && getByte addr 14 == 0x01 &&
  getByte addr 13 == 0 && getByte addr 12 == 0

def isRFC4862 : Bool := startsWith addr [0xFE, 0x80, 0, 0, 0, 0, 0, 0]

def isRFC4193 : Bool := (getByte addr 15 &&& 0xFE) == 0xFC

def isRFC6145 : Bool := startsWith addr [0, 0, 0, 0, 0, 0, 0, 0, 0xFF, 0xFF, 0, 0]

def isRFC4843 : Bool := getByte addr 15 == 0x20 && getByte addr 14 == 0x01 &&
  getByte addr 13 == 0x00 && (getByte addr 12 &&& 0xF0) == 0x10

def isTor : Bool := startsWith addr pchOnionCat

def isI2P : Bool := startsWith addr pchGarliCat

/-- `IsLocal`: the loopback addresses -/
def isLocal : Bool :=
  (isIPv4 addr && (getByte addr 3 == 127 || getByte addr 3 == 0)) || addr == 1

/-- `IsValid` -/
def isValid : Bool :=
  -- three bytes off, from an address message read askew
  if startsWith addr (pchIPv4.drop 3) then false
  else if addr == 0 then false
  else if isRFC3849 addr then false
  -- INADDR_NONE and 0
  else if isIPv4 addr && ((ip addr).drop 12 == [255, 255, 255, 255] ||
    (ip addr).drop 12 == [0, 0, 0, 0]) then false
  else true

/-- `IsRoutable` -/
def isRoutable : Bool := isValid addr && !(isRFC1918 addr || isRFC3927 addr || isRFC4862 addr ||
  (isRFC4193 addr && !isTor addr && !isI2P addr) || isRFC4843 addr || isLocal addr)

/-- A local address is not routable. -/
theorem isRoutable_of_isLocal (h : isLocal addr = true) : isRoutable addr = false := by
  simp [isRoutable, h]

/-! ## Groups -/

/-- `NET_UNROUTABLE`, `NET_IPV4`, `NET_IPV6`, `NET_TOR`, `NET_I2P` -/
def netUnroutable : UInt8 := 0
def netIPv4 : UInt8 := 1
def netIPv6 : UInt8 := 2
def netTor : UInt8 := 3
def netI2P : UInt8 := 4

/-- The class and the leading `nBits` bits from `nStartByte` on: whole
bytes, then a byte with its low bits set. -/
def groupBits (nClass : UInt8) (nStartByte nBits : ℕ) : List UInt8 :=
  nClass :: (List.range (nBits / 8)).map (fun n => getByte addr (15 - (nStartByte + n))) ++
    if nBits % 8 > 0 then
      [getByte addr (15 - (nStartByte + nBits / 8)) ||| UInt8.ofNat (1 <<< (nBits % 8) - 1)]
    else []

/-- `GetGroup`; what makes a local address one of its own class is
overwritten, as none is routable. -/
def getGroup : List UInt8 :=
  if !isRoutable addr then groupBits addr netUnroutable 0 0
  -- mapped IPv4, SIIT translated IPv4 and the well-known range
  else if isIPv4 addr || isRFC6145 addr || isRFC6052 addr then groupBits addr netIPv4 12 16
  -- 6to4 tunnelled
  else if isRFC3964 addr then groupBits addr netIPv4 2 16
  -- Teredo tunnelled
  else if isRFC4380 addr then [netIPv4, getByte addr 3 ^^^ 0xFF, getByte addr 2 ^^^ 0xFF]
  else if isTor addr then groupBits addr netTor 6 4
  else if isI2P addr then groupBits addr netI2P 6 4
  -- he.net
  else if getByte addr 15 == 0x20 && getByte addr 14 == 0x11 && getByte addr 13 == 0x04 &&
    getByte addr 12 == 0x70 then groupBits addr netIPv6 0 36
  else groupBits addr netIPv6 0 32

end CNetAddr

/-- `CService` -/
structure CService where
  ip : CNetAddr
  port : UInt16
  deriving DecidableEq

/-- `GetKey` -/
def CService.getKey (a : CService) : List UInt8 :=
  a.ip.ip ++ [UInt8.ofNat (a.port.toNat / 0x100), UInt8.ofNat (a.port.toNat % 0x100)]

end CryptoBullion
