import CryptoBullion.Model.Stream
/-!
# One format, three paths

The size, the writer and the reader of a record agree: what the reader
takes off a stream is what the writer put there, the size is the number of
bytes written, as far as an `unsigned int` holds it, and neither the
version in force nor the pieces a vector is read in make a difference.
`Serial.Is` says so of a record and the format `Model.Serialize` gives it,
and each record's is assembled from its fields'.
-/

namespace CryptoBullion

variable {α : Type} {nType : ℕ} {nVersion : ℤ}

/-- The three paths are those of the format that `d` reads and `enc`
writes. -/
structure Serial.Is (s : Serial α) (nType : ℕ) (d : Reader α) (enc : α → List UInt8) : Prop where
  size : ∀ nVersion a, s.getSerializeSize nType nVersion a = toUint (enc a).length
  write : ∀ nVersion a, s.serialize nType nVersion a = enc a
  read : ∀ nVersion, s.unserialize nType nVersion = d

namespace Serial

theorem is_uint {k : ℕ} (hk : k < 2 ^ 32) : (uint k).Is nType (readLe k) (leBytes k) where
  size _ _ := by rw [length_leBytes, toUint_of_lt hk]; rfl
  write _ _ := rfl
  read _ := rfl

theorem is_int {k : ℕ} (hk : k < 2 ^ 32) : (int k).Is nType (readInt k) (leInt k) where
  size _ _ := by rw [length_leInt, toUint_of_lt hk]; rfl
  write _ _ := rfl
  read _ := rfl

theorem is_hash : hash.Is nType readHash serializeHash where
  size _ _ := by rw [serializeHash, length_leBytes, toUint_of_lt (by decide)]; rfl
  write _ _ := rfl
  read _ := rfl

/-- **An outpoint in memory** is its hash, then its index. -/
theorem is_outPoint : outPoint.Is nType
    (do let hash ← readHash; let n ← readLe 4; return ⟨hash, n⟩)
    (fun o => serializeHash o.hash ++ leBytes 4 o.n) where
  size _ _ := by
    rw [serializeHash, List.length_append, length_leBytes, length_leBytes,
      toUint_of_lt (by decide)]
    rfl
  write _ _ := rfl
  read _ := by
    have hsplit : readBytes 36 =
        (do let v ← readBytes 32; let w ← readBytes 4; return v ++ w : Reader (List UInt8)) :=
      Decoder.takeN_add 32 4
    unfold outPoint readHash readLe
    simp only [hsplit, map_eq_pure_bind, bind_assoc, pure_bind]
    refine Decoder.takeN_bind_congr fun v hv => bind_congr fun w => ?_
    rw [List.take_left' hv, List.drop_left' hv]

theorem is_bytes : bytes.Is nType unserializeBytes serializeBytes where
  size _ v := by
    rw [serializeBytes, List.length_append, length_writeCompactSize]
    simp only [bytes, Nat.mul_one]
  write _ v := by
    unfold bytes serializeBytes
    cases v <;> rfl
  read _ := by
    refine bind_congr fun nSize => ?_
    refine (Decoder.pieces_eq _ ?_ Decoder.takeN_add nSize 0).trans (by rw [Nat.sub_zero]; rfl)
    funext p
    exact if_neg (by omega)

theorem is_vector {T : RecordSize} {s : Serial α} {d : Reader α} {enc : α → List UInt8}
    (hs : s.Is nType d enc) :
    (vector T s).Is nType (unserializeVector d) (serializeVector enc) where
  size nVersion v := by
    have hcount : getSizeOfCompactSize v.length < 2 ^ 32 := by
      unfold getSizeOfCompactSize
      split_ifs <;> decide
    have hsum := foldl_toUint (f := s.getSerializeSize nType nVersion)
      (g := fun a => (enc a).length) (l := v) hcount fun a => by
        rw [hs.size nVersion a, toUint_of_lt toUint_lt]
    rw [serializeVector, List.length_append, length_writeCompactSize, List.length_flatMap]
    exact hsum
  write nVersion v := by
    unfold vector serializeVector
    simp only [funext (hs.write nVersion)]
  read nVersion := by
    refine bind_congr fun nSize => ?_
    rw [hs.read nVersion]
    exact (Decoder.pieces_eq _ rfl Decoder.many_add nSize 0).trans (by rw [Nat.sub_zero])

end Serial

/-! ## The records -/

theorem is_txIn : CTxIn.serial.Is nType CTxIn.unserialize CTxIn.serialize where
  size nVersion i := by
    have hfields : i.serialize = [serializeHash i.prevout.hash ++ leBytes 4 i.prevout.n,
        serializeBytes i.scriptSig, leBytes 4 i.nSequence].flatten := by
      simp [CTxIn.serialize]
    unfold CTxIn.serial
    simp only [Serial.is_outPoint.size, Serial.is_bytes.size,
      (Serial.is_uint (k := 4) (by decide)).size]
    rw [hfields, ← nSerSize_lengths]
    rfl
  write nVersion i := by
    unfold CTxIn.serial CTxIn.serialize
    simp only [Serial.is_outPoint.write, Serial.is_bytes.write,
      (Serial.is_uint (k := 4) (by decide)).write]
  read nVersion := by
    unfold CTxIn.serial CTxIn.unserialize
    simp only [Serial.is_outPoint.read, Serial.is_bytes.read,
      (Serial.is_uint (k := 4) (by decide)).read, bind_assoc, pure_bind]

theorem is_txOut : CTxOut.serial.Is nType CTxOut.unserialize CTxOut.serialize where
  size nVersion o := by
    have hfields : o.serialize = [leInt 8 o.nValue, serializeBytes o.scriptPubKey].flatten := by
      simp [CTxOut.serialize]
    unfold CTxOut.serial
    simp only [Serial.is_bytes.size, (Serial.is_int (k := 8) (by decide)).size]
    rw [hfields, ← nSerSize_lengths]
    rfl
  write nVersion o := by
    unfold CTxOut.serial CTxOut.serialize
    simp only [Serial.is_bytes.write, (Serial.is_int (k := 8) (by decide)).write]
  read nVersion := by
    unfold CTxOut.serial CTxOut.unserialize
    simp only [Serial.is_bytes.read, (Serial.is_int (k := 8) (by decide)).read]

variable {T : RecordSizes}

/-- **A transaction's three paths are one format**, under its own version
as under any. -/
theorem is_transaction :
    (CTransaction.serial T).Is nType CTransaction.unserialize CTransaction.serialize where
  size nVersion tx := by
    have hfields : tx.serialize = [leInt 4 tx.nVersion, leBytes 4 tx.nTime,
        serializeVector CTxIn.serialize tx.vin, serializeVector CTxOut.serialize tx.vout,
        leBytes 4 tx.nLockTime].flatten := by
      simp [CTransaction.serialize]
    unfold CTransaction.serial
    simp only [(Serial.is_vector is_txIn).size, (Serial.is_vector is_txOut).size,
      (Serial.is_int (k := 4) (by decide)).size, (Serial.is_uint (k := 4) (by decide)).size]
    rw [hfields, ← nSerSize_lengths]
    rfl
  write nVersion tx := by
    unfold CTransaction.serial CTransaction.serialize
    simp only [(Serial.is_vector is_txIn).write, (Serial.is_vector is_txOut).write,
      (Serial.is_int (k := 4) (by decide)).write, (Serial.is_uint (k := 4) (by decide)).write]
  read nVersion := by
    unfold CTransaction.serial CTransaction.unserialize
    simp only [(Serial.is_vector is_txIn).read, (Serial.is_vector is_txOut).read,
      (Serial.is_int (k := 4) (by decide)).read, (Serial.is_uint (k := 4) (by decide)).read]

/-- **A block's three paths are one format**, but for a hash and a header
alone, -/
theorem is_block (h : headerOnly nType = false) :
    (CBlock.serial T).Is nType CBlock.unserialize CBlock.serialize where
  size nVersion b := by
    have hfields : b.serialize = [leInt 4 b.nVersion, serializeHash b.hashPrevBlock,
        serializeHash b.hashMerkleRoot, leBytes 4 b.nTime, leBytes 4 b.nBits, leBytes 4 b.nNonce,
        serializeVector CTransaction.serialize b.vtx, serializeBytes b.vchBlockSig].flatten := by
      simp [CBlock.serialize, CBlock.serializeHeader]
    unfold CBlock.serial
    simp only [h, (Serial.is_vector is_transaction).size, Serial.is_hash.size,
      Serial.is_bytes.size, (Serial.is_int (k := 4) (by decide)).size,
      (Serial.is_uint (k := 4) (by decide)).size]
    rw [hfields, ← nSerSize_lengths]
    rfl
  write nVersion b := by
    unfold CBlock.serial CBlock.serialize CBlock.serializeHeader
    simp only [h, (Serial.is_vector is_transaction).write, Serial.is_hash.write,
      Serial.is_bytes.write, (Serial.is_int (k := 4) (by decide)).write,
      (Serial.is_uint (k := 4) (by decide)).write, List.append_assoc]
    rfl
  read nVersion := by
    unfold CBlock.serial CBlock.unserialize CBlock.unserializeHeader
    simp only [h, (Serial.is_vector is_transaction).read, Serial.is_hash.read,
      Serial.is_bytes.read, (Serial.is_int (k := 4) (by decide)).read,
      (Serial.is_uint (k := 4) (by decide)).read, bind_assoc, pure_bind]
    rfl

/-- where it is the header's. -/
theorem is_header (h : headerOnly nType = true) :
    (CBlock.serial T).Is nType CBlock.unserializeHeader CBlock.serializeHeader where
  size nVersion b := by
    have hfields : b.serializeHeader = [leInt 4 b.nVersion, serializeHash b.hashPrevBlock,
        serializeHash b.hashMerkleRoot, leBytes 4 b.nTime, leBytes 4 b.nBits,
        leBytes 4 b.nNonce].flatten := by
      simp [CBlock.serializeHeader]
    unfold CBlock.serial
    simp only [h, Serial.is_hash.size, (Serial.is_int (k := 4) (by decide)).size,
      (Serial.is_uint (k := 4) (by decide)).size]
    rw [hfields, ← nSerSize_lengths]
    rfl
  write nVersion b := by
    unfold CBlock.serial CBlock.serializeHeader
    simp only [h, Serial.is_hash.write, (Serial.is_int (k := 4) (by decide)).write,
      (Serial.is_uint (k := 4) (by decide)).write, if_true, List.append_nil]
  read nVersion := by
    unfold CBlock.serial CBlock.unserializeHeader
    simp only [h, Serial.is_hash.read, (Serial.is_int (k := 4) (by decide)).read,
      (Serial.is_uint (k := 4) (by decide)).read, if_true]

/-! ## What is kept -/

/-- What is written of `a` is read back as `b`, and nothing behind it is;
the size says how many bytes were written. -/
def Serial.Keeps (s : Serial α) (nType : ℕ) (nVersion : ℤ) (a b : α) : Prop :=
  (∀ rest, s.unserialize nType nVersion (s.serialize nType nVersion a ++ rest) = .ok (b, rest)) ∧
    s.getSerializeSize nType nVersion a = toUint (s.serialize nType nVersion a).length

theorem Serial.Is.keeps {s : Serial α} {d : Reader α} {enc : α → List UInt8} {ok : α → Prop}
    {a b : α} (hs : s.Is nType d enc) (hd : Codec d enc ok) (hb : ok b) (hab : enc a = enc b) :
    s.Keeps nType nVersion a b := by
  refine ⟨fun rest => ?_, by rw [hs.size, hs.write]⟩
  rw [hs.read, hs.write, hab]
  exact hd.writes hb

/-- **Transactions and blocks are read back as they were written**, under
every type and version of the stream and however large the pieces they are
read in; a stream of headers keeps the header. The size is the number of
bytes written modulo `2 ^ 32`, and no transaction's encoding begins
another's. -/
theorem kept_by_serialization (T : RecordSizes) (nType : ℕ) (nVersion : ℤ) :
    (∀ tx, tx.WellTyped → (CTransaction.serial T).Keeps nType nVersion tx tx) ∧
    (∀ b, b.WellTyped → (CBlock.serial T).Keeps nType nVersion b
      (if headerOnly nType then b.header else b)) ∧
    ∀ tx tx' rest, tx.WellTyped → tx'.WellTyped → tx ≠ tx' →
      ¬ (CTransaction.serial T).serialize nType nVersion tx <+:
        (CTransaction.serial T).serialize nType nVersion tx' ++ rest := by
  refine ⟨fun tx htx => ?_, fun b hb => ?_, fun tx tx' rest htx htx' hne h => hne ?_⟩
  · exact is_transaction.keeps codec_transaction htx rfl
  · split
    · rename_i hheader
      exact (is_header hheader).keeps codec_header ⟨hb.1, rfl⟩ rfl
    · rename_i hheader
      exact (is_block (by simpa using hheader)).keeps codec_block hb rfl
  · rw [is_transaction.write, is_transaction.write] at h
    exact codec_transaction.eq_of_prefix htx htx' h

/-- The records of a 64-bit build. -/
def RecordSizes.amd64 : RecordSizes :=
  ⟨⟨72, by decide, by decide⟩, ⟨32, by decide, by decide⟩, ⟨64, by decide, by decide⟩⟩

namespace PlainBlock

def tx : CTransaction := ⟨1, 0, [⟨⟨1, 0⟩, [0x51], uintMax⟩], [⟨5, [0x51]⟩], 0⟩

def otherTx : CTransaction := ⟨1, 0, [], [⟨5, [0x51]⟩], 0⟩

def block : CBlock := ⟨4, 1, 2, 3, 4, 5, [tx], [0x30]⟩

theorem wellTyped_tx : tx.WellTyped := by
  simp [CTransaction.WellTyped, CTxIn.WellTyped, CTxOut.WellTyped, tx, uintMax, maxSize]

theorem wellTyped_otherTx : otherTx.WellTyped := by
  simp [CTransaction.WellTyped, CTxOut.WellTyped, otherTx, maxSize]

theorem wellTyped_block : block.WellTyped := by
  simp [CBlock.WellTyped, CBlock.HeaderWellTyped, block, wellTyped_tx, maxSize]

theorem kept_block :
    (CTransaction.serial .amd64).Keeps serNetwork 60006 tx tx ∧
    (CBlock.serial .amd64).Keeps serDisk 60006 block block ∧
    (CBlock.serial .amd64).Keeps serGetHash 60006 block block.header ∧
    ¬ (CTransaction.serial .amd64).serialize serDisk 60006 tx <+:
      (CTransaction.serial .amd64).serialize serDisk 60006 otherTx ++ [0x51] :=
  ⟨(kept_by_serialization .amd64 serNetwork 60006).1 tx wellTyped_tx,
    (kept_by_serialization .amd64 serDisk 60006).2.1 block wellTyped_block,
    (kept_by_serialization .amd64 serGetHash 60006).2.1 block wellTyped_block,
    (kept_by_serialization .amd64 serDisk 60006).2.2 tx otherTx [0x51] wellTyped_tx
      wellTyped_otherTx (by decide)⟩

end PlainBlock

/-- What has more bytes than a word counts is not as long as its size says. -/
theorem Serial.Is.getSerializeSize_ne {s : Serial α} {d : Reader α} {enc : α → List UInt8}
    {a : α} (hs : s.Is nType d enc) (ha : 2 ^ 32 ≤ (enc a).length) :
    s.getSerializeSize nType nVersion a ≠ (s.serialize nType nVersion a).length := by
  rw [hs.size, hs.write]
  exact (toUint_lt.trans_le ha).ne

theorem mul_length_le_serializeVector {f : α → List UInt8} {n : ℕ} {a : α} :
    n * (f a).length ≤ (serializeVector f (List.replicate n a)).length := by
  rw [serializeVector, List.length_append, List.length_flatMap, List.map_replicate,
    List.sum_replicate, smul_eq_mul]
  exact Nat.le_add_left ..

namespace HugeTx

/-- An input with the longest script there may be. -/
def input : CTxIn := ⟨⟨1, 0⟩, List.replicate maxSize 0, 0⟩

/-- Scripts of four gigabytes, each of them short enough. -/
def tx : CTransaction := ⟨1, 0, List.replicate 128 input, [], 0⟩

theorem wellTyped_input : input.WellTyped :=
  ⟨by decide, List.length_replicate.le, by decide⟩

theorem wellTyped_tx : tx.WellTyped := by
  have hvin : tx.vin.length ≤ maxSize := by
    rw [tx, List.length_replicate]
    decide
  exact ⟨by decide, by decide, ⟨hvin, fun i hi => List.eq_of_mem_replicate hi ▸ wellTyped_input⟩,
    ⟨by decide, by simp [tx]⟩, by decide⟩

theorem le_length_input : maxSize ≤ input.serialize.length := by
  have hscript : input.scriptSig.length = maxSize := List.length_replicate
  unfold CTxIn.serialize serializeBytes
  simp only [List.length_append, hscript]
  omega

theorem le_length_tx : 2 ^ 32 ≤ tx.serialize.length := by
  have hvin : tx.vin = List.replicate 128 input := rfl
  have htx : 128 * input.serialize.length ≤ tx.serialize.length := by
    unfold CTransaction.serialize
    rw [hvin]
    have hinputs := mul_length_le_serializeVector (f := CTxIn.serialize) (n := 128) (a := input)
    simp only [List.length_append]
    omega
  calc 2 ^ 32 = 128 * maxSize := rfl
    _ ≤ 128 * input.serialize.length := Nat.mul_le_mul_left _ le_length_input
    _ ≤ tx.serialize.length := htx

/-- **A size does not always fit its word.** -/
theorem getSerializeSize_ne_length :
    ¬ ∀ (T : RecordSizes) (nType : ℕ) (nVersion : ℤ) (tx : CTransaction), tx.WellTyped →
      (CTransaction.serial T).getSerializeSize nType nVersion tx =
        ((CTransaction.serial T).serialize nType nVersion tx).length := fun h =>
  is_transaction.getSerializeSize_ne le_length_tx (h .amd64 serDisk 1 tx wellTyped_tx)

end HugeTx

end CryptoBullion
