import CryptoBullion.Model.Messages
/-!
# Messages into a peer's send buffer

`BeginMessage`, `EndMessage` and `AbortMessage`: a header is written without
knowing the size and the checksum of what follows, and both are filled in
afterwards, at offsets that were remembered. What is serialised in between
is bytes here, and `-dropmessagestest` is off. Sizes do not wrap; a send
buffer does not come near two gigabytes.
-/

namespace CryptoBullion

namespace CDataStream

/-- `resize` -/
def resize (v : CDataStream) (n : ℕ) : CDataStream :=
  ⟨v.vch.take (n + v.nReadPos) ++ List.replicate (n + v.nReadPos - v.vch.length) 0, v.nReadPos, by
    have := v.nReadPos_le
    simp only [List.length_append, List.length_take, List.length_replicate]
    omega⟩

/-- `memcpy` to `&v[k]` -/
def memcpy (v : CDataStream) (k : ℕ) (bytes : List UInt8) : CDataStream :=
  ⟨v.vch.take (v.nReadPos + k) ++ (bytes ++ v.vch.drop (v.nReadPos + k + bytes.length)),
    v.nReadPos, by
    have := v.nReadPos_le
    simp only [List.length_append, List.length_take, List.length_drop]
    omega⟩

end CDataStream

/-- `strncpy` of a string without zeros -/
def strncpy (s : List UInt8) (n : ℕ) : List UInt8 := s.take n ++ List.replicate (n - s.length) 0

/-- `<<` -/
def CMessageHeader.serialize (hdr : CMessageHeader) : List UInt8 :=
  hdr.pchMessageStart ++ hdr.pchCommand ++ leBytes 4 hdr.nMessageSize ++ leBytes 4 hdr.nChecksum

/-- `MESSAGE_SIZE_OFFSET` -/
def messageSizeOffset : ℕ := 4 + 12

/-- `CHECKSUM_OFFSET` -/
def checksumOffset : ℕ := messageSizeOffset + 4

/-- The part of `CNode` that sends, and what the socket has taken. -/
structure SendBuffer where
  vSend : CDataStream
  nHeaderStart : ℤ
  nMessageStart : ℕ
  wire : List UInt8
  deriving DecidableEq, Repr

variable [P : Platform]

/-- `CMessageHeader(pszCommand, nMessageSizeIn)` -/
def CMessageHeader.ofCommand (pszCommand : List UInt8) (nMessageSizeIn : ℕ) : CMessageHeader :=
  ⟨messageStart, strncpy pszCommand 12, nMessageSizeIn, 0⟩

namespace SendBuffer

omit P in
/-- As `CNode` is constructed: the second -1 is unsigned. -/
def init : SendBuffer := ⟨CDataStream.clear, -1, 2 ^ 32 - 1, []⟩

omit P in
/-- `AbortMessage` -/
def abortMessage (s : SendBuffer) : SendBuffer :=
  if s.nHeaderStart < 0 then s
  else { s with vSend := s.vSend.resize s.nHeaderStart.toNat,
                nHeaderStart := -1, nMessageStart := 2 ^ 32 - 1 }

/-- `BeginMessage` -/
def beginMessage (pszCommand : List UInt8) (s : SendBuffer) : SendBuffer :=
  let s := if s.nHeaderStart ≠ -1 then s.abortMessage else s
  let vSend := s.vSend.append (CMessageHeader.ofCommand pszCommand 0).serialize
  { s with vSend, nHeaderStart := s.vSend.size, nMessageStart := vSend.size }

omit P in
/-- `vSend << …` -/
def write (bytes : List UInt8) (s : SendBuffer) : SendBuffer :=
  { s with vSend := s.vSend.append bytes }

/-- `EndMessage` -/
def endMessage (s : SendBuffer) : SendBuffer :=
  if s.nHeaderStart < 0 then s
  else
    -- set the size
    let nSize := s.vSend.size - s.nMessageStart
    let vSend := s.vSend.memcpy (s.nHeaderStart.toNat + messageSizeOffset) (leBytes 4 nSize)
    -- set the checksum
    let nChecksum := payloadChecksum (vSend.unread.drop s.nMessageStart)
    let vSend := vSend.memcpy (s.nHeaderStart.toNat + checksumOffset) (leBytes 4 nChecksum)
    { s with vSend, nHeaderStart := -1, nMessageStart := 2 ^ 32 - 1 }

omit P in
/-- The socket takes up to `nBytes` off the front, unless a message is
being written: its thread does not get `cs_vSend` then. -/
def socketSend (nBytes : ℕ) (s : SendBuffer) : SendBuffer :=
  if s.nHeaderStart < 0 then
    { s with vSend := s.vSend.eraseFront nBytes, wire := s.wire ++ s.vSend.unread.take nBytes }
  else s

end SendBuffer

/-- What is done to a send buffer. -/
inductive SendOp
  | beginMessage (pszCommand : List UInt8)
  | write (bytes : List UInt8)
  | endMessage
  | abortMessage
  | socketSend (nBytes : ℕ)
  deriving DecidableEq, Repr

def SendBuffer.step (s : SendBuffer) : SendOp → SendBuffer
  | .beginMessage pszCommand => s.beginMessage pszCommand
  | .write bytes => s.write bytes
  | .endMessage => s.endMessage
  | .abortMessage => s.abortMessage
  | .socketSend nBytes => s.socketSend nBytes

/-- One after the other, from a new connection. -/
def SendBuffer.run (ops : List SendOp) : SendBuffer := ops.foldl SendBuffer.step SendBuffer.init

/-- All that was put into the buffer and not taken back. -/
def SendBuffer.stream (s : SendBuffer) : List UInt8 := s.wire ++ s.vSend.unread

end CryptoBullion
