import CryptoBullion.Model.Messages
import CryptoBullion.Model.Target
/-!
# The version message

The part of `ProcessMessage` that decides whether a peer is spoken to: the
test for obsolete peers, the branch for `version`, and the test for peers
that have not sent one. The fields of `CNode` this writes are here; the
handlers behind it are told apart from it by `Fate.handler` alone. What the
node answers, and what it learns of addresses, concerns neither.
-/

namespace CryptoBullion

/-- `MIN_PROTO_VERSION` -/
def minProtoVersion : ℤ := 209
/-- `HARDFORK_PROTOCOL_VERSION` -/
def hardforkProtocolVersion : ℤ := 60008
/-- `HARDFORK_PROTOCOL_VERSIONV3` -/
def hardforkProtocolVersionV3 : ℤ := 60009
/-- `HARDFORK_PROTOCOL_VERSIONV4` -/
def hardforkProtocolVersionV4 : ℤ := 60010

/-! ## What the message holds -/

/-- `CAddress`, as it comes under a protocol version that knows no times -/
structure CAddress where
  nServices : ℕ
  ip : List UInt8
  port : ℕ
  deriving DecidableEq, Repr

/-- The port is in network order. -/
def CAddress.unserialize : Reader CAddress := do
  let nServices ← readLe 8
  let ip ← readBytes 16
  let portN ← readBytes 2
  return ⟨nServices, ip, ofLeBytes portN.reverse⟩

/-- A default-constructed address: of `NODE_NETWORK`, and nowhere -/
def CAddress.init : CAddress := ⟨1, List.replicate 16 0, 0⟩

/-- `if (!vRecv.empty()) vRecv >> …`, over what there was before -/
def readIfAny {α : Type} (d : Reader α) (a : α) : Reader α :=
  fun vRecv => if vRecv = [] then .ok (a, vRecv) else d vRecv

/-! ## The peer -/

/-- The fields of `CNode` that the version message fills in. -/
structure Handshake where
  nVersion : ℤ
  nServices : ℕ
  strSubVer : List UInt8
  nStartingHeight : ℤ
  fClient : Bool
  fSuccessfullyConnected : Bool
  fDisconnect : Bool
  deriving DecidableEq, Repr

/-- As `CNode` is constructed. -/
def Handshake.init : Handshake := ⟨0, 0, [], -1, false, false, false⟩

/-- The rest of the node, when a message is handled. -/
structure Present where
  /-- `-dropmessagestest` drops the message -/
  fDropped : Bool
  /-- height and time of `pindexBest` -/
  pindexBest : Option (ℤ × ℕ)
  nLocalHostNonce : ℕ
  /-- the handler of the message asks for the socket to be closed -/
  fHandlerDisconnects : Bool
  deriving DecidableEq, Repr

/-- Blocks have reached the height of the last fork. -/
def Present.atForkV4 (here : Present) : Bool :=
  here.pindexBest.any fun best => (hardforkHeightV4 : ℤ) ≤ best.1

/-- Their times have reached the one before. -/
def Present.atForkV3 (here : Present) : Bool :=
  here.pindexBest.any fun best => hardforkTimeV3 ≤ best.2

/-- How the branch for `version` ends. -/
inductive VersionEnd
  /-- an exception -/
  | thrown (f : Failure)
  /-- an obsolete version -/
  | obsolete
  /-- this node itself -/
  | self
  | connected
  deriving DecidableEq, Repr

/-- What becomes of a message. -/
inductive Fate
  | dropped
  /-- turned away before a branch of its own -/
  | refused
  | version (e : VersionEnd)
  /-- passed to the branch for its command -/
  | handler
  deriving DecidableEq, Repr

/-- The four tests of a version, in the order they come in. -/
def Present.refuses (here : Present) (nVersion : ℤ) : Bool :=
  nVersion < minProtoVersion ||
    (here.atForkV4 && nVersion < hardforkProtocolVersionV4) ||
    (here.atForkV3 && nVersion < hardforkProtocolVersionV3) ||
    nVersion < hardforkProtocolVersion

namespace Handshake

/-- What follows once nothing more is read. -/
def connect (here : Present) (nNonce : ℕ) (pfrom : Handshake) : Handshake × VersionEnd :=
  if nNonce = here.nLocalHostNonce ∧ 1 < nNonce then
    -- connected to self
    ({ pfrom with fDisconnect := true }, .self)
  else
    let fClient := pfrom.nServices % 2 = 0
    ({ pfrom with fClient, fSuccessfullyConnected := true }, .connected)

/-- The fields that old versions left out. -/
def readRest (here : Present) (vRecv : List UInt8) (pfrom : Handshake) : Handshake × VersionEnd :=
  match readIfAny (CAddress.unserialize.pair (readLe 8)) (CAddress.init, 1) vRecv with
  | .error f => (pfrom, .thrown f)
  | .ok ((_, nNonce), vRecv) =>
    match readIfAny unserializeBytes pfrom.strSubVer vRecv with
    | .error f => (pfrom, .thrown f)
    | .ok (strSubVer, vRecv) =>
      let pfrom := { pfrom with strSubVer }
      match readIfAny (readInt 4) pfrom.nStartingHeight vRecv with
      | .error f => (pfrom, .thrown f)
      | .ok (nStartingHeight, _) => connect here nNonce { pfrom with nStartingHeight }

/-- The branch for `version`. The first two fields are read into the peer
itself. -/
def processVersion (here : Present) (vRecv : List UInt8) (pfrom : Handshake) :
    Handshake × VersionEnd :=
  match readInt 4 vRecv with
  | .error f => (pfrom, .thrown f)
  | .ok (nVersion, vRecv) =>
    let pfrom := { pfrom with nVersion }
    match readLe 8 vRecv with
    | .error f => (pfrom, .thrown f)
    | .ok (nServices, vRecv) =>
      let pfrom := { pfrom with nServices }
      match ((readInt 8).pair CAddress.unserialize) vRecv with
      | .error f => (pfrom, .thrown f)
      | .ok (_, vRecv) =>
        if here.refuses nVersion then ({ pfrom with fDisconnect := true }, .obsolete)
        else if nVersion = 10300 then readRest here vRecv { pfrom with nVersion := 300 }
        else readRest here vRecv pfrom

/-- `version` -/
def versionCommand : List UInt8 := [118, 101, 114, 115, 105, 111, 110]

/-- `ProcessMessage`, up to the branches for the other commands -/
def processMessage (here : Present) (m : Message) (pfrom : Handshake) : Handshake × Fate :=
  if here.fDropped then (pfrom, .dropped)
  else if pfrom.nVersion ≠ 0 ∧ here.atForkV4 ∧ pfrom.nVersion < hardforkProtocolVersionV4 then
    ({ pfrom with fDisconnect := true }, .refused)
  else if m.strCommand = versionCommand then
    -- each connection can only send one version message
    if pfrom.nVersion ≠ 0 then (pfrom, .refused)
    else ((processVersion here m.vMsg pfrom).1, .version (processVersion here m.vMsg pfrom).2)
  else if pfrom.nVersion = 0 then
    -- must have a version message before anything else
    (pfrom, .refused)
  else ({ pfrom with fDisconnect := pfrom.fDisconnect || here.fHandlerDisconnects }, .handler)

/-- The peer after the messages of a list, where `now` says how the node
is when the last message of a list is handled. -/
def after (now : List Message → Present) (ms : List Message) : Handshake :=
  (ms.foldl (fun (s : List Message × Handshake) m =>
    (s.1 ++ [m], (processMessage (now (s.1 ++ [m])) m s.2).1)) ([], init)).2

/-- What becomes of `m` after the messages of `pre`. -/
def fate (now : List Message → Present) (pre : List Message) (m : Message) : Fate :=
  (processMessage (now (pre ++ [m])) m (after now pre)).2

end Handshake

end CryptoBullion
