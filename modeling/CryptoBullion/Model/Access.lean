import CryptoBullion.Model.Text
/-!
# Who may call

`WildcardMatch` of `util.cpp` and `ClientAllowed`, which admits a client by
its address. Addresses and their text are `boost::asio`'s.
-/

namespace CryptoBullion

/-! ## Masks -/

/-- `'*'` -/
def starChar : UInt8 := 42

/-- `'?'` -/
def questionChar : UInt8 := 63

/-- `WildcardMatch(const char*, const char*)`: the loop over two cursors,
each at what is left of its string, and the two calls at a star. -/
def wildcardLoop : (psz mask : List UInt8) → Bool
  | psz, [] => psz.isEmpty
  | psz, c :: mask =>
    if c = starChar then
      wildcardLoop psz mask ||
        match psz with
        | [] => false
        | _ :: psz => wildcardLoop psz (c :: mask)
    else if c = questionChar then
      match psz with
      | [] => false
      | _ :: psz => wildcardLoop psz mask
    else
      match psz with
      -- the terminator is not the mask's character either
      | [] => false
      | d :: psz => if d ≠ c then false else wildcardLoop psz mask
termination_by psz mask => (mask.length, psz.length)

/-- `WildcardMatch` of two strings -/
def wildcardMatch (str mask : List UInt8) : Bool := wildcardLoop (cStr str) (cStr mask)

/-! ## Clients -/

/-- `asio::ip::address`, without the scope of an IPv6 address -/
inductive Address
  | v4 (addr : BitVec 32)
  | v6 (addr : BitVec 128)
deriving DecidableEq, Repr

namespace Address

/-- `asio::ip::address_v4::loopback()` -/
def loopbackV4 : Address := .v4 0x7f000001

/-- `asio::ip::address_v6::loopback()` -/
def loopbackV6 : Address := .v6 1

/-- `is_v4_compatible`: twelve zero bytes, and neither `::` nor `::1` -/
def isV4Compatible (addr : BitVec 128) : Bool :=
  addr >>> 32 = 0 && !(addr = 0 || addr = 1)

/-- `is_v4_mapped` -/
def isV4Mapped (addr : BitVec 128) : Bool := addr >>> 32 = 0xffff

end Address

/-- `ClientAllowed`, with what `to_string()` says of an address and the
masks given as `-rpcallowip` -/
def clientAllowed (toText : Address → List UInt8) (vAllow : List (List UInt8)) : Address → Bool
  | .v6 addr =>
    if Address.isV4Compatible addr || Address.isV4Mapped addr then
      clientAllowedV4 (addr.setWidth 32)
    else if .v6 addr = Address.loopbackV6 then true
    else vAllow.any fun strAllow => wildcardMatch (toText (.v6 addr)) strAllow
  | .v4 addr => clientAllowedV4 addr
where
  /-- the call on an IPv4 address -/
  clientAllowedV4 (addr : BitVec 32) : Bool :=
    if .v4 addr = Address.loopbackV4 || addr &&& 0xff000000 = 0x7f000000 then true
    else vAllow.any fun strAllow => wildcardMatch (toText (.v4 addr)) strAllow

end CryptoBullion
