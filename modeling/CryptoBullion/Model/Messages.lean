import CryptoBullion.Common.Framer
import CryptoBullion.Model.Serialize
/-!
# Messages out of a peer's bytes

`CDataStream` as a buffer with a read position, and `ProcessMessages`,
which takes the messages out of what a peer has sent so far: it looks for
the four bytes that start a message, reads the header, waits until the
rest is there and checks its checksum. What handling a message does to the
peer itself, and the two conditions under which the loop is left early,
come from outside.
-/

namespace CryptoBullion

/-! ## CDataStream -/

/-- Bytes, and how many of them have been read. -/
structure CDataStream where
  vch : List UInt8
  nReadPos : ℕ
  nReadPos_le : nReadPos ≤ vch.length
  deriving DecidableEq, Repr

namespace CDataStream

/-- A stream of these bytes, none of them read; `clear` leaves that of
none. -/
def ofBytes (vch : List UInt8) : CDataStream := ⟨vch, 0, Nat.zero_le _⟩

def clear : CDataStream := ofBytes []

/-- From `begin()` to `end()`. -/
def unread (v : CDataStream) : List UInt8 := v.vch.drop v.nReadPos

def size (v : CDataStream) : ℕ := v.vch.length - v.nReadPos

/-- `erase(begin(), begin() + k)`: at the end of the buffer it takes the
opportunity to clear it -/
def eraseFront (v : CDataStream) (k : ℕ) : CDataStream :=
  if h : v.nReadPos + k < v.vch.length then ⟨v.vch, v.nReadPos + k, h.le⟩ else clear

/-- `insert(begin(), …)`: over what was read already, when there is room -/
def insertFront (v : CDataStream) (xs : List UInt8) : CDataStream :=
  if h : xs.length ≤ v.nReadPos then
    ⟨v.vch.take (v.nReadPos - xs.length) ++ (xs ++ v.unread), v.nReadPos - xs.length, by
      have := v.nReadPos_le
      simp only [List.length_append, List.length_take]
      omega⟩
  else
    ⟨v.vch.take v.nReadPos ++ (xs ++ v.unread), v.nReadPos, by
      have := v.nReadPos_le
      simp only [List.length_append, List.length_take]
      omega⟩

/-- Where `read` and `ignore` leave the read position; a buffer that was
read to its end is cleared. -/
def advance (v : CDataStream) (nSize : ℕ) (e : Failure) : Except Failure CDataStream :=
  if h : v.vch.length ≤ v.nReadPos + nSize then
    if v.vch.length < v.nReadPos + nSize then .error e else .ok clear
  else .ok ⟨v.vch, v.nReadPos + nSize, by omega⟩

/-- `read` -/
def read (v : CDataStream) (nSize : ℕ) : Except Failure (List UInt8 × CDataStream) := do
  let v' ← v.advance nSize (.exception "CDataStream::read() : end of data")
  .ok (v.unread.take nSize, v')

/-- `ignore` -/
def ignore (v : CDataStream) (nSize : ℕ) : Except Failure CDataStream :=
  v.advance nSize (.exception "CDataStream::ignore() : end of data")

/-- `Compact` -/
def compact (v : CDataStream) : CDataStream := ofBytes v.unread

/-- `resize(nPos + nBytes)`, and the new bytes copied to the end -/
def append (v : CDataStream) (bytes : List UInt8) : CDataStream :=
  ⟨v.vch ++ bytes, v.nReadPos, by
    have := v.nReadPos_le
    rw [List.length_append]
    omega⟩

end CDataStream

/-! ## The header -/

structure CMessageHeader where
  pchMessageStart : List UInt8
  pchCommand : List UInt8
  nMessageSize : ℕ
  nChecksum : ℕ
  deriving DecidableEq, Repr

/-- The size of a header: its start, command, size and checksum. -/
def nHeaderSize : ℕ := 4 + 12 + 4 + 4

/-- `vRecv >> hdr` -/
def CMessageHeader.unserialize (v : CDataStream) :
    Except Failure (CMessageHeader × CDataStream) := do
  let (pchMessageStart, v) ← v.read 4
  let (pchCommand, v) ← v.read 12
  let (nMessageSize, v) ← v.read 4
  let (nChecksum, v) ← v.read 4
  .ok (⟨pchMessageStart, pchCommand, ofLeBytes nMessageSize, ofLeBytes nChecksum⟩, v)

/-- `GetCommand`: up to the first zero, where the last byte is one -/
def CMessageHeader.getCommand (hdr : CMessageHeader) : List UInt8 :=
  if hdr.pchCommand.getLast? = some 0 then hdr.pchCommand.takeWhile (· ≠ 0) else hdr.pchCommand

/-- The command is text, and all zeros after the first zero. -/
def isCommandText (pchCommand : List UInt8) : Bool :=
  (pchCommand.takeWhile (· ≠ 0)).all (fun c => 32 ≤ c && c ≤ 126) &&
    (pchCommand.dropWhile (· ≠ 0)).all (· = 0)

variable [P : Platform]

/-- `::pchMessageStart`: designed to be unlikely to occur in normal data -/
def messageStart : List UInt8 :=
  if P.fTestNet then [0xcd, 0xf2, 0xc0, 0xef] else [0xe4, 0xe8, 0xe9, 0xe5]

/-- `CMessageHeader::IsValid` -/
def CMessageHeader.isValid (hdr : CMessageHeader) : Bool :=
  hdr.pchMessageStart = messageStart && isCommandText hdr.pchCommand &&
    hdr.nMessageSize ≤ maxSize

/-! ## ProcessMessages -/

/-- What `ProcessMessage` is called with. -/
structure Message where
  strCommand : List UInt8
  vMsg : List UInt8
  deriving DecidableEq, Repr

omit P in
/-- `std::search`: how far in `pat` first begins, the length where it does
not -/
def search (pat : List UInt8) : List UInt8 → ℕ
  | [] => 0
  | b :: bs => if pat.isPrefixOf (b :: bs) then 0 else search pat bs + 1

/-- The first four bytes of the hash, as a word -/
def payloadChecksum (payload : List UInt8) : ℕ := (P.hash payload).toNat % 2 ^ 32

/-- One turn of the loop, from the scan for a message start to the message
copied to its own buffer. -/
def processTurn (vRecv : CDataStream) : Except Failure (FramerTurn CDataStream Message) :=
  let pstart := search messageStart vRecv.unread
  if vRecv.size - pstart < nHeaderSize then
    -- message start not found
    .ok (.wait (if nHeaderSize < vRecv.size then vRecv.eraseFront (vRecv.size - nHeaderSize)
      else vRecv))
  else do
    let vRecv := vRecv.eraseFront pstart
    let vHeaderSave := vRecv.unread.take nHeaderSize
    let (hdr, vRecv) ← CMessageHeader.unserialize vRecv
    if !hdr.isValid then .ok (.skip vRecv)
    else if maxSize < hdr.nMessageSize then .ok (.skip vRecv)
    else if vRecv.size < hdr.nMessageSize then
      -- rewind and wait for rest of message
      .ok (.wait (vRecv.insertFront vHeaderSave))
    else
      let payload := vRecv.unread.take hdr.nMessageSize
      if payloadChecksum payload ≠ hdr.nChecksum then .ok (.skip vRecv)
      else do
        let vRecv ← vRecv.ignore hdr.nMessageSize
        .ok (.message ⟨hdr.getCommand, payload⟩ vRecv)

/-- What `ProcessMessages` meets on its way, once the messages of a list
have been handled, the last of them most recently. Whatever else handling
one does, an exception included, does not concern the buffer. -/
structure Surroundings where
  /-- `vSend.size() >= SendBufferSize()` -/
  fSendFull : List Message → Bool
  fShutdown : List Message → Bool
  /-- handling the last message ended in `CloseSocketDisconnect` -/
  fClosed : List Message → Bool

/-- A peer's buffer, whether its socket is open, and every message passed
to `ProcessMessage` so far. -/
structure CNode where
  vRecv : CDataStream
  fSocketOpen : Bool
  processed : List Message
  deriving DecidableEq, Repr

omit P in
/-- After a message was handled: `CloseSocketDisconnect` clears the
buffer. -/
def CNode.afterMessage (env : Surroundings) (m : Message) (vRecv : CDataStream) (pfrom : CNode) :
    CNode :=
  let processed := pfrom.processed ++ [m]
  if env.fClosed processed then ⟨CDataStream.clear, false, processed⟩
  else ⟨vRecv, pfrom.fSocketOpen, processed⟩

/-- The loop, for at most `fuel` turns: `none` where it is not over by
then. -/
def processLoop (env : Surroundings) : ℕ → CNode → Option (Except Failure CNode)
  | 0, _ => none
  | fuel + 1, pfrom =>
    if env.fSendFull pfrom.processed then
      some (.ok { pfrom with vRecv := pfrom.vRecv.compact })
    else match processTurn pfrom.vRecv with
      | .error f => some (.error f)
      | .ok (.wait vRecv) => some (.ok { pfrom with vRecv := vRecv.compact })
      | .ok (.skip vRecv) => processLoop env fuel { pfrom with vRecv := vRecv }
      | .ok (.message m vRecv) =>
        let pfrom := pfrom.afterMessage env m vRecv
        if env.fShutdown pfrom.processed then some (.ok pfrom)
        else processLoop env fuel pfrom

/-- `ProcessMessages`. A turn that does not end the loop takes a header
off the buffer. -/
def processMessages (env : Surroundings) (pfrom : CNode) : Option (Except Failure CNode) :=
  if pfrom.vRecv.size = 0 then some (.ok pfrom)
  else processLoop env (pfrom.vRecv.size / nHeaderSize + 1) pfrom

/-- What the socket gives is put behind the buffer, and `ProcessMessages`
is called. From a closed socket nothing comes. -/
def receiveChunk (env : Surroundings) (pfrom : CNode) (chunk : List UInt8) :
    Option (Except Failure CNode) :=
  processMessages env
    (if pfrom.fSocketOpen then { pfrom with vRecv := pfrom.vRecv.append chunk } else pfrom)

/-- One chunk after the other. -/
def receiveChunks (env : Surroundings) : CNode → List (List UInt8) → Option (Except Failure CNode)
  | pfrom, [] => some (.ok pfrom)
  | pfrom, chunk :: chunks =>
    match receiveChunk env pfrom chunk with
    | some (.ok pfrom) => receiveChunks env pfrom chunks
    | r => r

omit P in
/-- A peer that has just connected. -/
def CNode.connected : CNode := ⟨CDataStream.clear, true, []⟩

end CryptoBullion
