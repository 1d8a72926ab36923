import CryptoBullion.Model.Serialize
/-!
# Sizes, writers and readers

`IMPLEMENT_SERIALIZE` expands the list of a record's fields three times,
into `GetSerializeSize`, `Serialize` and `Unserialize`. Each is told the
type and version of the stream; a transaction and a block put their own
version in the stream's place once it is known. Sizes are added up in an
`unsigned int`, and a vector is read in pieces, so that a bogus length
does not allocate.

The stream is a file: what is written is appended to its bytes, and
reading takes bytes off the front of what is left.
-/

namespace CryptoBullion

/-- `SER_NETWORK` -/
def serNetwork : ℕ := 1 <<< 0
/-- `SER_DISK` -/
def serDisk : ℕ := 1 <<< 1
/-- `SER_GETHASH` -/
def serGetHash : ℕ := 1 <<< 2
/-- `SER_BLOCKHEADERONLY` -/
def serBlockHeaderOnly : ℕ := 1 <<< 17

/-- What an `unsigned int` keeps of a number. -/
def toUint (n : ℕ) : ℕ := n % 2 ^ 32

/-- What serialising a type comes to: its size, its writer and its reader,
each told `nType` and `nVersion`. -/
structure Serial (α : Type) where
  getSerializeSize : ℕ → ℤ → α → ℕ
  serialize : ℕ → ℤ → α → List UInt8
  unserialize : ℕ → ℤ → Reader α

/-- `sizeof` of a record: some bytes, and no more than are read at a time. -/
structure RecordSize where
  bytes : ℕ
  pos : 0 < bytes
  le : bytes ≤ 5000000

/-- `sizeof(CTxIn)`, `sizeof(CTxOut)` and `sizeof(CTransaction)`, as the
compiler lays them out. -/
structure RecordSizes where
  txIn : RecordSize
  txOut : RecordSize
  transaction : RecordSize

/-- The sum in `nSerSize`, one `READWRITE` after the other. -/
def nSerSize (sizes : List ℕ) : ℕ := sizes.foldl (fun nSerSize n => toUint (nSerSize + n)) 0

namespace Serial

variable {α : Type}

/-- `WRITEDATA` and `READDATA` of an unsigned word of `k` bytes -/
def uint (k : ℕ) : Serial ℕ where
  getSerializeSize _ _ _ := k
  serialize _ _ n := leBytes k n
  unserialize _ _ := readLe k

/-- The same of a signed word. -/
def int (k : ℕ) : Serial ℤ where
  getSerializeSize _ _ _ := k
  serialize _ _ n := leInt k n
  unserialize _ _ := readInt k

/-- `uint256` -/
def hash : Serial Uint256 where
  getSerializeSize _ _ _ := 32
  serialize _ _ h := serializeHash h
  unserialize _ _ := readHash

/-- `FLATDATA` of an outpoint: the object as it is in memory -/
def outPoint : Serial COutPoint where
  getSerializeSize _ _ _ := 36
  serialize _ _ o := leBytes 32 o.hash.toNat ++ leBytes 4 o.n
  unserialize _ _ := do
    let v ← readBytes 36
    return ⟨BitVec.ofNat 256 (ofLeBytes (v.take 32)), ofLeBytes (v.drop 32)⟩

/-- A vector of bytes: written at once, read in pieces. -/
def bytes : Serial (List UInt8) where
  getSerializeSize _ _ v := toUint (getSizeOfCompactSize v.length + v.length * 1)
  serialize _ _ v := writeCompactSize v.length ++ if v.isEmpty then [] else v
  unserialize _ _ := do
    let nSize ← readCompactSize
    Decoder.pieces (1 + 4999999 / 1) (by decide) readBytes nSize 0

/-- A vector of records. -/
def vector (T : RecordSize) (s : Serial α) : Serial (List α) where
  getSerializeSize nType nVersion v :=
    v.foldl (fun nSize a => toUint (nSize + s.getSerializeSize nType nVersion a))
      (getSizeOfCompactSize v.length)
  serialize nType nVersion v :=
    writeCompactSize v.length ++ v.flatMap (s.serialize nType nVersion)
  unserialize nType nVersion := do
    let nSize ← readCompactSize
    Decoder.pieces (5000000 / T.bytes) (Nat.div_pos T.le T.pos)
      (s.unserialize nType nVersion).many nSize 0

end Serial

/-! ## The records -/

def CTxIn.serial : Serial CTxIn where
  getSerializeSize nType nVersion i := nSerSize
    [Serial.outPoint.getSerializeSize nType nVersion i.prevout,
      Serial.bytes.getSerializeSize nType nVersion i.scriptSig,
      (Serial.uint 4).getSerializeSize nType nVersion i.nSequence]
  serialize nType nVersion i :=
    Serial.outPoint.serialize nType nVersion i.prevout ++
      Serial.bytes.serialize nType nVersion i.scriptSig ++
      (Serial.uint 4).serialize nType nVersion i.nSequence
  unserialize nType nVersion := do
    let prevout ← Serial.outPoint.unserialize nType nVersion
    let scriptSig ← Serial.bytes.unserialize nType nVersion
    let nSequence ← (Serial.uint 4).unserialize nType nVersion
    return ⟨prevout, scriptSig, nSequence⟩

def CTxOut.serial : Serial CTxOut where
  getSerializeSize nType nVersion o := nSerSize
    [(Serial.int 8).getSerializeSize nType nVersion o.nValue,
      Serial.bytes.getSerializeSize nType nVersion o.scriptPubKey]
  serialize nType nVersion o :=
    (Serial.int 8).serialize nType nVersion o.nValue ++
      Serial.bytes.serialize nType nVersion o.scriptPubKey
  unserialize nType nVersion := do
    let nValue ← (Serial.int 8).unserialize nType nVersion
    let scriptPubKey ← Serial.bytes.unserialize nType nVersion
    return ⟨nValue, scriptPubKey⟩

/-- Behind its own first field, the transaction's version is the stream's. -/
def CTransaction.serial (T : RecordSizes) : Serial CTransaction where
  getSerializeSize nType nVersion tx :=
    let vin := Serial.vector T.txIn CTxIn.serial
    let vout := Serial.vector T.txOut CTxOut.serial
    nSerSize
      [(Serial.int 4).getSerializeSize nType nVersion tx.nVersion,
        (Serial.uint 4).getSerializeSize nType tx.nVersion tx.nTime,
        vin.getSerializeSize nType tx.nVersion tx.vin,
        vout.getSerializeSize nType tx.nVersion tx.vout,
        (Serial.uint 4).getSerializeSize nType tx.nVersion tx.nLockTime]
  serialize nType nVersion tx :=
    let vin := Serial.vector T.txIn CTxIn.serial
    let vout := Serial.vector T.txOut CTxOut.serial
    (Serial.int 4).serialize nType nVersion tx.nVersion ++
      (Serial.uint 4).serialize nType tx.nVersion tx.nTime ++
      vin.serialize nType tx.nVersion tx.vin ++ vout.serialize nType tx.nVersion tx.vout ++
      (Serial.uint 4).serialize nType tx.nVersion tx.nLockTime
  unserialize nType nVersion := do
    let nVersion ← (Serial.int 4).unserialize nType nVersion
    let nTime ← (Serial.uint 4).unserialize nType nVersion
    let vin ← (Serial.vector T.txIn CTxIn.serial).unserialize nType nVersion
    let vout ← (Serial.vector T.txOut CTxOut.serial).unserialize nType nVersion
    let nLockTime ← (Serial.uint 4).unserialize nType nVersion
    return ⟨nVersion, nTime, vin, vout, nLockTime⟩

/-- The stream carries the header and no more. -/
def headerOnly (nType : ℕ) : Bool := nType &&& (serGetHash ||| serBlockHeaderOnly) ≠ 0

/-- The transactions and the signature are left out of a hash and of a
header; reading one clears them. -/
def CBlock.serial (T : RecordSizes) : Serial CBlock where
  getSerializeSize nType nVersion b :=
    let vtx := Serial.vector T.transaction (CTransaction.serial T)
    nSerSize ([(Serial.int 4).getSerializeSize nType nVersion b.nVersion,
      Serial.hash.getSerializeSize nType b.nVersion b.hashPrevBlock,
      Serial.hash.getSerializeSize nType b.nVersion b.hashMerkleRoot,
      (Serial.uint 4).getSerializeSize nType b.nVersion b.nTime,
      (Serial.uint 4).getSerializeSize nType b.nVersion b.nBits,
      (Serial.uint 4).getSerializeSize nType b.nVersion b.nNonce] ++
      if headerOnly nType then []
      else [vtx.getSerializeSize nType b.nVersion b.vtx,
        Serial.bytes.getSerializeSize nType b.nVersion b.vchBlockSig])
  serialize nType nVersion b :=
    let vtx := Serial.vector T.transaction (CTransaction.serial T)
    (Serial.int 4).serialize nType nVersion b.nVersion ++
      Serial.hash.serialize nType b.nVersion b.hashPrevBlock ++
      Serial.hash.serialize nType b.nVersion b.hashMerkleRoot ++
      (Serial.uint 4).serialize nType b.nVersion b.nTime ++
      (Serial.uint 4).serialize nType b.nVersion b.nBits ++
      (Serial.uint 4).serialize nType b.nVersion b.nNonce ++
      if headerOnly nType then []
      else vtx.serialize nType b.nVersion b.vtx ++
        Serial.bytes.serialize nType b.nVersion b.vchBlockSig
  unserialize nType nVersion := do
    let nVersion ← (Serial.int 4).unserialize nType nVersion
    let hashPrevBlock ← Serial.hash.unserialize nType nVersion
    let hashMerkleRoot ← Serial.hash.unserialize nType nVersion
    let nTime ← (Serial.uint 4).unserialize nType nVersion
    let nBits ← (Serial.uint 4).unserialize nType nVersion
    let nNonce ← (Serial.uint 4).unserialize nType nVersion
    if headerOnly nType then
      return ⟨nVersion, hashPrevBlock, hashMerkleRoot, nTime, nBits, nNonce, [], []⟩
    else
      let vtx ← (Serial.vector T.transaction (CTransaction.serial T)).unserialize nType nVersion
      let vchBlockSig ← Serial.bytes.unserialize nType nVersion
      return ⟨nVersion, hashPrevBlock, hashMerkleRoot, nTime, nBits, nNonce, vtx, vchBlockSig⟩

/-! ## Words -/

theorem toUint_of_lt {n : ℕ} (h : n < 2 ^ 32) : toUint n = n := Nat.mod_eq_of_lt h

@[simp] theorem toUint_toUint_add {m n : ℕ} : toUint (toUint m + n) = toUint (m + n) :=
  Nat.mod_add_mod ..

@[simp] theorem toUint_add_toUint {m n : ℕ} : toUint (m + toUint n) = toUint (m + n) :=
  Nat.add_mod_mod ..

theorem toUint_lt {n : ℕ} : toUint n < 2 ^ 32 := Nat.mod_lt _ (by decide)

/-- **A running sum is the sum**, as far as the word holds it. -/
theorem foldl_toUint {α : Type} {f g : α → ℕ} {l : List α} {n : ℕ} (hn : n < 2 ^ 32)
    (hf : ∀ a, toUint (f a) = toUint (g a)) :
    l.foldl (fun nSize a => toUint (nSize + f a)) n = toUint (n + (l.map g).sum) := by
  induction l generalizing n with
  | nil => simp [toUint_of_lt hn]
  | cons a l ih =>
    have hswap : toUint (n + f a + (l.map g).sum) = toUint (n + g a + (l.map g).sum) := by
      rw [Nat.add_right_comm, ← toUint_add_toUint, hf, toUint_add_toUint, Nat.add_right_comm]
    rw [List.foldl_cons, ih toUint_lt, toUint_toUint_add, hswap, List.map_cons, List.sum_cons,
      Nat.add_assoc]

/-- **What fields come to one by one** is what they come to in a row. -/
theorem nSerSize_lengths (fields : List (List UInt8)) :
    nSerSize (fields.map fun field => toUint field.length) = toUint fields.flatten.length := by
  rw [nSerSize, List.foldl_map, foldl_toUint (g := List.length) (by decide) fun _ =>
    toUint_of_lt toUint_lt, Nat.zero_add, List.length_flatten]

end CryptoBullion
