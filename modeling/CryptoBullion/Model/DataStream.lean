import CryptoBullion.Model.Stream
/-!
# CDataStream

The whole of the buffer of `serialize.h`: bytes, an `unsigned int` read
position in front of which they count as read, and the error state. An
iterator is told by its distance from `begin()`.
-/

namespace CryptoBullion

namespace DataStream

/-- `std::ios::failbit` -/
def failbit : ℕ := 4

/-- `CDataStream` -/
structure CDataStream where
  vch : List UInt8
  nReadPos : ℕ
  state : ℕ
  exceptmask : ℕ
  deriving DecidableEq, Repr

namespace CDataStream

variable (s : CDataStream)

/-- From `begin()` to `end()` -/
def contents : List UInt8 := s.vch.drop s.nReadPos

/-- `size` -/
def size : ℕ := s.vch.length - s.nReadPos

/-- `resize` -/
def resize (n : ℕ) (c : UInt8) : CDataStream :=
  let m := n + s.nReadPos
  { s with vch := s.vch.take m ++ List.replicate (m - s.vch.length) c }

/-- `clear()` -/
def clear : CDataStream := { s with vch := [], nReadPos := 0 }

/-- `insert(it, first, last)` -/
def insert (it : ℕ) (range : List UInt8) : CDataStream :=
  if s.nReadPos + it = s.nReadPos ∧ toUint range.length ≤ s.nReadPos then
    -- special case for inserting at the front when there's room
    let nReadPos := toUint (s.nReadPos + 2 ^ 32 - toUint range.length)
    { s with
      vch := s.vch.take nReadPos ++ range ++ s.vch.drop (nReadPos + range.length)
      nReadPos := nReadPos }
  else
    { s with vch := s.vch.take (s.nReadPos + it) ++ range ++ s.vch.drop (s.nReadPos + it) }

/-- `erase(it)` -/
def erase (it : ℕ) : CDataStream :=
  if s.nReadPos + it = s.nReadPos then
    -- special case for erasing from the front
    let nReadPos := toUint (s.nReadPos + 1)
    if s.vch.length ≤ nReadPos then s.clear else { s with nReadPos := nReadPos }
  else { s with vch := s.vch.eraseIdx (s.nReadPos + it) }

/-- `erase(first, last)` -/
def eraseRange (first last : ℕ) : CDataStream :=
  if s.nReadPos + first = s.nReadPos then
    if s.nReadPos + last = s.vch.length then s.clear
    else { s with nReadPos := toUint (s.nReadPos + last) }
  else { s with vch := s.vch.take (s.nReadPos + first) ++ s.vch.drop (s.nReadPos + last) }

/-- `Compact` -/
def compact : CDataStream := { s with vch := s.vch.drop s.nReadPos, nReadPos := 0 }

/-- `setstate`: whether it throws, too -/
def setstate (bits : ℕ) : CDataStream × Bool :=
  let state := s.state ||| bits
  ({ s with state := state }, state &&& s.exceptmask ≠ 0)

/-- `read`: what is in `pch` afterwards -/
def read (nSize : ℕ) : CDataStream × Except Failure (List UInt8) :=
  let nReadPosNext := toUint (s.nReadPos + nSize)
  if s.vch.length ≤ nReadPosNext then
    if s.vch.length < nReadPosNext then
      let (s, fThrow) := s.setstate failbit
      if fThrow then (s, .error (.exception "CDataStream::read() : end of data"))
      else
        let nRest := s.vch.length - s.nReadPos
        (s.clear, .ok ((s.vch.drop s.nReadPos).take nRest ++ List.replicate (nSize - nRest) 0))
    else (s.clear, .ok ((s.vch.drop s.nReadPos).take nSize))
  else ({ s with nReadPos := nReadPosNext }, .ok ((s.vch.drop s.nReadPos).take nSize))

/-- `ignore` -/
def ignore (nSize : ℕ) : CDataStream × Except Failure (List UInt8) :=
  let nReadPosNext := toUint (s.nReadPos + nSize)
  if s.vch.length ≤ nReadPosNext then
    if s.vch.length < nReadPosNext then
      let (s, fThrow) := s.setstate failbit
      if fThrow then (s, .error (.exception "CDataStream::ignore() : end of data"))
      else (s.clear, .ok [])
    else (s.clear, .ok [])
  else ({ s with nReadPos := nReadPosNext }, .ok [])

/-- `write` -/
def write (pch : List UInt8) : CDataStream := { s with vch := s.vch ++ pch }

end CDataStream

/-! ## Runs -/

/-- An operation on a stream. -/
inductive StreamOp
  | write (pch : List UInt8)
  | read (nSize : ℕ)
  | ignore (nSize : ℕ)
  | insert (it : ℕ) (range : List UInt8)
  | erase (it : ℕ)
  | eraseRange (first last : ℕ)
  | resize (n : ℕ) (c : UInt8)
  | compact
  | clear

/-- What it does, and what it delivers or throws. -/
def StreamOp.step : StreamOp → CDataStream → CDataStream × Except Failure (List UInt8)
  | write pch, s => (s.write pch, .ok [])
  | read nSize, s => s.read nSize
  | ignore nSize, s => s.ignore nSize
  | insert it range, s => (s.insert it range, .ok [])
  | erase it, s => (s.erase it, .ok [])
  | eraseRange first last, s => (s.eraseRange first last, .ok [])
  | resize n c, s => (s.resize n c, .ok [])
  | compact, s => (s.compact, .ok [])
  | clear, s => (s.clear, .ok [])

/-- Several of them, and what each delivers. -/
def run : List StreamOp → CDataStream → CDataStream × List (Except Failure (List UInt8))
  | [], s => (s, [])
  | op :: ops, s =>
    let (s, out) := op.step s
    let (s, outs) := run ops s
    (s, out :: outs)

end DataStream

end CryptoBullion
