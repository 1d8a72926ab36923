import CryptoBullion.Model.Stream
import CryptoBullion.Model.Messages
/-!
# Block files, byte by byte

`blk0001.dat` and those after it: how `WriteToDisk` appends a block, the
position `ConnectBlock` gives each of its transactions without looking at
the file, and how `ReadFromDisk` finds a transaction at a position. A file
that was never written is empty; disks do not fail.
-/

namespace CryptoBullion

variable [P : Platform]

/-- The bytes of the file of each number. -/
abbrev BlockFiles := ℕ → List UInt8

/-- `CLIENT_VERSION` -/
def clientVersion : ℤ := 1000000 * 2 + 10000 * 4 + 100 * 4 + 1 * 0

/-- `OpenBlockFile` has a file of this number to open. -/
def isBlockFile (nFile : ℕ) : Bool := !(nFile < 1 || uintMax ≤ nFile)

/-- `AppendBlockFile`: the first file from the current one on that stays
under two gigabytes -/
def appendBlockFile (files : BlockFiles) (nCurrentBlockFile : ℕ) : Option ℕ :=
  if h : isBlockFile nCurrentBlockFile then
    if (files nCurrentBlockFile).length < 0x7F000000 - maxSize then some nCurrentBlockFile
    else appendBlockFile files (nCurrentBlockFile + 1)
  else none
termination_by uintMax - nCurrentBlockFile
decreasing_by
  simp only [isBlockFile, Bool.not_eq_true', Bool.or_eq_false_iff, decide_eq_false_iff_not] at h
  omega

/-- What `WriteToDisk` returns, and the files after it. -/
structure WrittenBlock where
  nFile : ℕ
  nBlockPos : ℕ
  files : BlockFiles

/-- `CBlock::WriteToDisk` -/
def CBlock.writeToDisk (T : RecordSizes) (files : BlockFiles) (nCurrentBlockFile : ℕ)
    (b : CBlock) : Except Failure WrittenBlock :=
  match appendBlockFile files nCurrentBlockFile with
  | none => .error (.error "CBlock::WriteToDisk() : AppendBlockFile failed")
  | some nFile =>
    let nSize := (CBlock.serial T).getSerializeSize serDisk clientVersion b
    let fileout := files nFile ++ messageStart ++ leBytes 4 nSize
    let nBlockPos := toUint fileout.length
    let fileout := fileout ++ (CBlock.serial T).serialize serDisk clientVersion b
    .ok ⟨nFile, nBlockPos, Function.update files nFile fileout⟩

/-- `CBlock()` -/
def CBlock.null : CBlock := ⟨4, 0, 0, 0, 0, 0, [], []⟩

/-- `nTxPos` in the loop of `ConnectBlock`: each transaction starts where
the one before it ended. -/
def nTxPosLoop (T : RecordSizes) : ℕ → List CTransaction → List ℕ
  | _, [] => []
  | nTxPos, tx :: vtx => nTxPos ::
      nTxPosLoop T
        (toUint (nTxPos + (CTransaction.serial T).getSerializeSize serDisk clientVersion tx)) vtx

/-- The `nTxPos` of each transaction of a block that is connected and not
just checked. The first is behind the empty block's header, with the two
counts of nothing taken off and the count of the transactions put on. -/
def CBlock.nTxPos (T : RecordSizes) (nBlockPos : ℕ) (b : CBlock) : List ℕ :=
  nTxPosLoop T (toUint (nBlockPos +
    (CBlock.serial T).getSerializeSize serDisk clientVersion CBlock.null -
    2 * getSizeOfCompactSize 0 + getSizeOfCompactSize b.vtx.length)) b.vtx

/-- `CTransaction::ReadFromDisk` -/
def CTransaction.readFromDisk (T : RecordSizes) (files : BlockFiles) (pos : CDiskTxPos) :
    Except Failure CTransaction :=
  if !isBlockFile pos.nFile then
    .error (.error "CTransaction::ReadFromDisk() : OpenBlockFile failed")
  else
    match (CTransaction.serial T).unserialize serDisk clientVersion
      ((files pos.nFile).drop pos.nTxPos) with
    | .ok (tx, _) => .ok tx
    | .error _ => .error (.error "ReadFromDisk() : deserialize or I/O error")

end CryptoBullion
