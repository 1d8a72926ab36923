import CryptoBullion.Model.BlockFile
/-!
# Loading blocks from an external file

`LoadExternalBlockFile` looks for a message start, a buffer at a time,
reads the length and the block behind it and hands the block to
`ProcessBlock`. Past a block that was accepted it skips the frame; past
one that was refused, and past a length out of range, it goes on looking
right behind the message start. What does not deserialise ends the load:
the exception is caught outside the loops. The file stays as it is, and no
shutdown is requested meanwhile.
-/

namespace CryptoBullion

/-- `memchr`: how far in the first `c` of the first `n` bytes is -/
def memchr (p : List UInt8) (c : UInt8) (n : ℕ) : Option ℕ := (p.take n).findIdx? (· = c)

/-- A block given to `ProcessBlock`, and the position of its length in the
file. -/
structure HandedBlock where
  nPos : ℕ
  block : CBlock
  deriving DecidableEq

/-- What one look at a buffer makes of the position. -/
inductive Look where
  /-- eight bytes or fewer were left -/
  | ended
  /-- no message start yet -/
  | further (nPos : ℕ)
  /-- the position is right behind a message start -/
  | found (nPos : ℕ)

variable [P : Platform]

/-- One turn of the inner loop of `LoadExternalBlockFile`. -/
def lookTurn (file : List UInt8) (nPos : ℕ) : Look :=
  let pchData := (file.drop nPos).take 65536
  let nRead := pchData.length
  if nRead ≤ 8 then .ended
  else
    match memchr pchData (messageStart.headD 0) (nRead + 1 - 4) with
    | some nFind =>
      if (pchData.drop nFind).take 4 = messageStart then .found (toUint (nPos + (nFind + 4)))
      else .further (toUint (nPos + (nFind + 1)))
    | none => .further (toUint (nPos + (65536 - 4 + 1)))

/-- `ProcessBlock`'s answer to a block, by the position it is handed from:
as long as positions do not wrap, none is handed from twice. -/
abbrev Acceptance := ℕ → CBlock → Bool

omit P in
/-- The outer loop behind a message start: what is handed over, and where
the scan goes on. -/
def loadFrame (T : RecordSizes) (nVersion : ℤ) (accept : Acceptance) (file : List UInt8)
    (nPos : ℕ) : Except Failure (List HandedBlock × ℕ) := do
  let (nSize, blkdat) ← (Serial.uint 4).unserialize serDisk nVersion (file.drop nPos)
  if 0 < nSize ∧ nSize ≤ maxBlockSize then
    let (block, _) ← (CBlock.serial T).unserialize serDisk nVersion blkdat
    return ([⟨nPos, block⟩], if accept nPos block then toUint (nPos + (4 + nSize)) else nPos)
  else return ([], nPos)

/-- The blocks that are handed over, from `nPos` on; nothing where the
turns do not suffice. Positions are tested only between rounds of the
outer loop. -/
def loadLoop (T : RecordSizes) (nVersion : ℤ) (accept : Acceptance) (file : List UInt8) :
    ℕ → ℕ → Option (List HandedBlock)
  | 0, _ => none
  | turns + 1, nPos =>
    match lookTurn file nPos with
    | .ended => some []
    | .further nPos => loadLoop T nVersion accept file turns nPos
    | .found nPos =>
      if nPos = uintMax then some []
      else
        match loadFrame T nVersion accept file nPos with
        | .error _ => some []
        | .ok (handed, nPos) =>
          if nPos = uintMax then some handed
          else (handed ++ ·) <$> loadLoop T nVersion accept file turns nPos

/-- `LoadExternalBlockFile`: the blocks handed over, in order, and whether
one was accepted -/
def loadExternalBlockFile (T : RecordSizes) (nVersion : ℤ) (accept : Acceptance)
    (file : List UInt8) (turns : ℕ) : Option (List HandedBlock × Bool) :=
  (loadLoop T nVersion accept file turns 0).map fun handed =>
    (handed, handed.any fun h => accept h.nPos h.block)

end CryptoBullion
