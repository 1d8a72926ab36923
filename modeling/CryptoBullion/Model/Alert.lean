import CryptoBullion.Common.Step
import CryptoBullion.Model.Serialize
import CryptoBullion.Model.Clock
/-!
# Alerts

`CAlert::ProcessAlert` takes a signed alert into `mapAlerts`, under the
hash of what was signed. Alerts cancel others by number. The user interface
is told of alerts that come and go; that is left out. All that is asked of
the clock during one call is asked at one adjusted time.
-/

namespace CryptoBullion

/-- `CUnsignedAlert` -/
structure CUnsignedAlert where
  nVersion : Int32
  nRelayUntil : Int64
  nExpiration : Int64
  nID : Int32
  nCancel : Int32
  setCancel : Finset Int32
  nMinVer : Int32
  nMaxVer : Int32
  setSubVer : Finset (List UInt8)
  nPriority : Int32
  strComment : List UInt8
  strStatusBar : List UInt8
  strReserved : List UInt8
  deriving DecidableEq

/-- `CAlert`: what was signed is kept beside its parts. -/
structure CAlert extends CUnsignedAlert where
  vchMsg : List UInt8
  vchSig : List UInt8
  deriving DecidableEq

/-! ## Reading an alert -/

/-- `int` and `int64` -/
def readInt32 : Reader Int32 := Int32.ofInt <$> readInt 4
def readInt64 : Reader Int64 := Int64.ofInt <$> readInt 8

/-- A set: its size, then its elements. -/
def unserializeSet {α : Type} [DecidableEq α] (d : Reader α) : Reader (Finset α) :=
  List.toFinset <$> unserializeVector d

def CUnsignedAlert.unserialize : Reader CUnsignedAlert := do
  let nVersion ← readInt32
  let nRelayUntil ← readInt64
  let nExpiration ← readInt64
  let nID ← readInt32
  let nCancel ← readInt32
  let setCancel ← unserializeSet readInt32
  let nMinVer ← readInt32
  let nMaxVer ← readInt32
  let setSubVer ← unserializeSet unserializeBytes
  let nPriority ← readInt32
  let strComment ← unserializeBytes
  let strStatusBar ← unserializeBytes
  let strReserved ← unserializeBytes
  return ⟨nVersion, nRelayUntil, nExpiration, nID, nCancel, setCancel, nMinVer, nMaxVer, setSubVer,
    nPriority, strComment, strStatusBar, strReserved⟩

/-! ## What an alert says -/

namespace CUnsignedAlert

variable (nNow : Int64)

/-- `IsInEffect`, at the adjusted time `nNow` -/
def isInEffect (a : CUnsignedAlert) : Bool := nNow < a.nExpiration

/-- `Cancels` -/
def cancels (a alert : CUnsignedAlert) : Bool :=
  if !a.isInEffect nNow then false
  else alert.nID ≤ a.nCancel || alert.nID ∈ a.setCancel

/-- `std::numeric_limits<int>::max()` -/
def maxInt : Int32 := Int32.maxValue

/-- "URGENT: Alert key compromised, upgrade required" -/
def strKeyCompromised : List UInt8 :=
  [85, 82, 71, 69, 78, 84, 58, 32, 65, 108, 101, 114, 116, 32, 107, 101, 121, 32, 99, 111, 109, 112,
    114, 111, 109, 105, 115, 101, 100, 44, 32, 117, 112, 103, 114, 97, 100, 101, 32, 114, 101, 113,
    117, 105, 114, 101, 100]

/-- What an alert of the reserved number has to contain. -/
def isReserved (a : CUnsignedAlert) : Bool :=
  a.nExpiration = maxInt.toInt64 && a.nCancel = maxInt - 1 && a.nMinVer = 0 && a.nMaxVer = maxInt &&
    a.setSubVer = ∅ && a.nPriority = maxInt && a.strStatusBar = strKeyCompromised

end CUnsignedAlert

/-! ## Taking it in -/

/-- `pszMainKey`, `pszTestKey` -/
def pszMainKey : List UInt8 :=
  (leBytes 65 0x043fa441fd4203d03f5df2b75ea14e36f20d39f43e7a61aa7552ab9bcd7ecb0e77a3be4585b13fcdaa22ef6e51f1ff6f2929bec2494385b086fb86610e33193195).reverse
def pszTestKey : List UInt8 :=
  (leBytes 65 0x0471dc165db490094d35cde15b1f5d755fa6ad6f2b5ed0f340e3f17f57389c3c2af113a8cbcc885bde73305a553b5640c83021128008ddf882e856336269080496).reverse

variable [P : Platform]

namespace CAlert

/-- `GetHash` -/
def getHash (a : CAlert) : Uint256 := P.hash a.vchMsg

/-- `CheckSignature`: the alert with its parts read from what was signed -/
def checkSignature (a : CAlert) : Except Failure CAlert := do
  let key := if P.fTestNet then pszTestKey else pszMainKey
  reject (P.setPubKey key = false) (.error "CAlert::CheckSignature() : SetPubKey failed")
  reject (P.verify key (P.hash a.vchMsg) a.vchSig = false)
    (.error "CAlert::CheckSignature() : verify signature failed")
  -- now unserialize the data
  let (parts, _) ← CUnsignedAlert.unserialize a.vchMsg
  return { a with toCUnsignedAlert := parts }

/-- The checks made before `mapAlerts` is looked at -/
def checkAlert (nNow : Int64) (a : CAlert) : Except Failure CAlert := do
  let a ← a.checkSignature
  reject (a.isInEffect nNow = false) .quiet
  reject (a.nID = CUnsignedAlert.maxInt ∧ a.isReserved = false) .quiet
  return a

end CAlert

/-- `mapAlerts` -/
abbrev MapAlerts := Map Uint256 CAlert

/-- "Cancel previous alerts", and those that have expired -/
def MapAlerts.cancel (mapAlerts : MapAlerts) (nNow : Int64) (a : CAlert) : MapAlerts :=
  mapAlerts.filter fun _ alert =>
    !(a.cancels nNow alert.toCUnsignedAlert) && alert.isInEffect nNow

/-- "Check if this alert has been cancelled" -/
def MapAlerts.hasCancelled (mapAlerts : MapAlerts) (nNow : Int64) (a : CAlert) : Bool :=
  mapAlerts.toList.any fun item => item.2.cancels nNow a.toCUnsignedAlert

/-- `CAlert::ProcessAlert`, at the adjusted time `nNow` -/
def CAlert.processAlert (nNow : Int64) (a : CAlert) : Step MapAlerts Failure Unit := do
  let a ← Step.lift (a.checkAlert nNow)
  Step.modify (MapAlerts.cancel · nNow a)
  let mapAlerts ← Step.get
  if mapAlerts.hasCancelled nNow a then Step.fail .quiet
  -- add to mapAlerts
  else Step.modify fun mapAlerts => mapAlerts.insertIfNew a.getHash a

end CryptoBullion
