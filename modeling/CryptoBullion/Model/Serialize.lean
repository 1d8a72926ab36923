import CryptoBullion.Common.Codec
import CryptoBullion.Model.Platform
/-!
# Reading what was serialised

The `Unserialize` side of `serialize.h`, for transactions. A count is
taken in any of the forms `ReadCompactSize` knows, however short a form
the number has; everything else has one encoding. Reading past the end of
a stream throws.
-/

namespace CryptoBullion

/-- `>>` from a `CDataStream` -/
abbrev Reader (α : Type) := Decoder Failure UInt8 α

/-- `MAX_SIZE` -/
def maxSize : ℕ := 0x02000000

/-- `CDataStream::read` of `nSize` bytes -/
def readBytes (nSize : ℕ) : Reader (List UInt8) :=
  Decoder.takeN (.exception "CDataStream::read() : end of data") nSize

/-- An unsigned word of `k` bytes. -/
def readLe (k : ℕ) : Reader ℕ := ofLeBytes <$> readBytes k

/-- A signed word of `k` bytes, from two's complement. -/
def signed (k n : ℕ) : ℤ := if n < 2 ^ (8 * k - 1) then n else n - 2 ^ (8 * k)

def readInt (k : ℕ) : Reader ℤ := signed k <$> readLe k

def readHash : Reader Uint256 := BitVec.ofNat 256 <$> readLe 32

/-- The number `ReadCompactSize` finds, in whichever of the four forms. -/
def readSizeForm : Reader ℕ := do
  let chSize ← readLe 1
  if chSize < 253 then return chSize
  else if chSize = 253 then readLe 2
  else if chSize = 254 then readLe 4
  else readLe 8

/-- `ReadCompactSize` -/
def readCompactSize : Reader ℕ :=
  readSizeForm.check (· ≤ maxSize) (.exception "ReadCompactSize() : size too large")

/-- A vector: its length, then its elements. -/
def unserializeVector {α : Type} (d : Reader α) : Reader (List α) := readCompactSize >>= d.many

/-- Bytes, with their number in front. They are read in pieces of five
million; a piece that is missing throws like the whole. -/
def unserializeBytes : Reader (List UInt8) := readCompactSize >>= readBytes

def CTxIn.unserialize : Reader CTxIn := do
  let hash ← readHash
  let n ← readLe 4
  let scriptSig ← unserializeBytes
  let nSequence ← readLe 4
  return ⟨⟨hash, n⟩, scriptSig, nSequence⟩

def CTxOut.unserialize : Reader CTxOut := do
  let nValue ← readInt 8
  let scriptPubKey ← unserializeBytes
  return ⟨nValue, scriptPubKey⟩

def CTransaction.unserialize : Reader CTransaction := do
  let nVersion ← readInt 4
  let nTime ← readLe 4
  let vin ← unserializeVector CTxIn.unserialize
  let vout ← unserializeVector CTxOut.unserialize
  let nLockTime ← readLe 4
  return ⟨nVersion, nTime, vin, vout, nLockTime⟩

/-- The header's fields, over a block with nothing else in it. -/
def CBlock.unserializeHeader : Reader CBlock := do
  let nVersion ← readInt 4
  let hashPrevBlock ← readHash
  let hashMerkleRoot ← readHash
  let nTime ← readLe 4
  let nBits ← readLe 4
  let nNonce ← readLe 4
  return ⟨nVersion, hashPrevBlock, hashMerkleRoot, nTime, nBits, nNonce, [], []⟩

def CBlock.unserialize : Reader CBlock := do
  let header ← CBlock.unserializeHeader
  let vtx ← unserializeVector CTransaction.unserialize
  let vchBlockSig ← unserializeBytes
  return { header with vtx, vchBlockSig }

/-! ## Words -/

theorem ofLeBytes_lt : ∀ {v : List UInt8}, ofLeBytes v < 256 ^ v.length
  | [] => by simp [ofLeBytes]
  | b :: bs => by
    have hb := b.toNat_lt
    have hbs := ofLeBytes_lt (v := bs)
    rw [ofLeBytes, List.length_cons, pow_succ]
    omega

/-- Bytes are the number they spell. -/
theorem leBytes_ofLeBytes : ∀ {v : List UInt8}, leBytes v.length (ofLeBytes v) = v
  | [] => rfl
  | b :: bs => by
    have hb := b.toNat_lt
    rw [List.length_cons, leBytes, ofLeBytes, Nat.add_mul_mod_self_left, Nat.mod_eq_of_lt hb,
      Nat.add_mul_div_left _ _ (by omega), Nat.div_eq_of_lt hb, Nat.zero_add, leBytes_ofLeBytes,
      UInt8.ofNat_toNat]

theorem ofLeBytes_leBytes : ∀ {k n : ℕ}, n < 256 ^ k → ofLeBytes (leBytes k n) = n
  | 0, n, h => by
    have : n = 0 := by simpa using h
    rw [this]
    rfl
  | k + 1, n, h => by
    have hdiv : n / 256 < 256 ^ k := by
      rw [pow_succ] at h
      omega
    have hbyte : (UInt8.ofNat (n % 256)).toNat = n % 256 := by simp
    rw [leBytes, ofLeBytes, ofLeBytes_leBytes hdiv, hbyte]
    omega

/-- The last byte is the highest. -/
theorem leBytes_succ_last : ∀ k n : ℕ,
    leBytes (k + 1) n = leBytes k n ++ [UInt8.ofNat (n / 256 ^ k % 256)]
  | 0, n => by simp [leBytes]
  | k + 1, n => by
    rw [leBytes, leBytes_succ_last k (n / 256), leBytes, List.cons_append, Nat.div_div_eq_div_mul,
      ← pow_succ']

theorem ofLeBytes_append (v w : List UInt8) :
    ofLeBytes (v ++ w) = ofLeBytes v + 256 ^ v.length * ofLeBytes w := by
  induction v with
  | nil => simp [ofLeBytes]
  | cons b v ih =>
    rw [List.cons_append, ofLeBytes, ih, ofLeBytes, List.length_cons, pow_succ]
    ring

/-- The first bytes are the number without the others. -/
theorem ofLeBytes_take (k : ℕ) (v : List UInt8) : ofLeBytes (v.take k) = ofLeBytes v % 256 ^ k := by
  rcases le_or_gt v.length k with h | h
  · rw [List.take_of_length_le h, Nat.mod_eq_of_lt]
    exact ofLeBytes_lt.trans_le (Nat.pow_le_pow_right (by norm_num) h)
  · have hlen : (v.take k).length = k := by rw [List.length_take, min_eq_left h.le]
    have hlt : ofLeBytes (v.take k) < 256 ^ k := by
      have hall : ofLeBytes (v.take k) < 256 ^ (v.take k).length := ofLeBytes_lt
      rwa [hlen] at hall
    conv_rhs => rw [← List.take_append_drop k v, ofLeBytes_append, hlen, Nat.add_mul_mod_self_left,
      Nat.mod_eq_of_lt hlt]

/-- **A word is read where it was written.** -/
theorem readLe_eq_ok {k n : ℕ} {p r : List UInt8} :
    readLe k p = .ok (n, r) ↔ n < 256 ^ k ∧ p = leBytes k n ++ r := by
  unfold readLe
  rw [map_eq_pure_bind, Decoder.bind_eq_ok]
  constructor
  · rintro ⟨v, q, hv, h⟩
    obtain ⟨rfl, rfl⟩ := Decoder.takeN_eq_ok.1 hv
    obtain ⟨rfl, rfl⟩ : ofLeBytes v = n ∧ q = r := by simpa [Decoder.pure_apply] using h
    exact ⟨ofLeBytes_lt, by rw [leBytes_ofLeBytes]⟩
  · rintro ⟨hn, rfl⟩
    exact ⟨leBytes k n, r, Decoder.takeN_eq_ok.2 ⟨length_leBytes, rfl⟩, by
      rw [ofLeBytes_leBytes hn]
      rfl⟩

theorem codec_readLe {k : ℕ} : Codec (readLe k) (leBytes k) (· < 256 ^ k) :=
  .of_exact fun _ _ _ => readLe_eq_ok

theorem codec_readInt {k : ℕ} (hk : 0 < k) :
    Codec (readInt k) (leInt k) (fun n => -2 ^ (8 * k - 1) ≤ n ∧ n < 2 ^ (8 * k - 1)) := by
  -- a word has as many values below the sign bit as with it
  have hpow : 2 ^ (8 * k) = 2 * 2 ^ (8 * k - 1) := by
    rw [← pow_succ', Nat.sub_add_cancel (by omega)]
  have h256 : 256 ^ k = 2 ^ (8 * k) := by
    rw [pow_mul]
    norm_num
  have hint : (2 : ℤ) ^ (8 * k) = ((2 ^ (8 * k) : ℕ) : ℤ) := by push_cast; rfl
  have hhalf : (2 : ℤ) ^ (8 * k - 1) = ((2 ^ (8 * k - 1) : ℕ) : ℤ) := by push_cast; rfl
  refine codec_readLe.map (fun n hn => ?_) (fun n hn => ?_)
  · rw [h256] at hn
    unfold signed
    rw [hhalf, hint]
    split
    · refine ⟨by omega, ?_⟩
      rw [Int.emod_eq_of_lt (by omega) (by omega), Int.toNat_natCast]
    · refine ⟨by omega, ?_⟩
      rw [← Int.add_emod_right, Int.emod_eq_of_lt (by omega) (by omega)]
      omega
  · rw [hhalf] at hn
    unfold signed
    rw [h256, hint]
    have hpos : (0 : ℤ) < ((2 ^ (8 * k) : ℕ) : ℤ) := by positivity
    have hlo := Int.emod_nonneg n hpos.ne'
    have hhi := Int.emod_lt_of_pos n hpos
    refine ⟨by omega, ?_⟩
    by_cases h : 0 ≤ n
    · rw [Int.emod_eq_of_lt h (by omega)]
      split <;> omega
    · have hneg : n % ((2 ^ (8 * k) : ℕ) : ℤ) = n + ((2 ^ (8 * k) : ℕ) : ℤ) := by
        rw [← Int.add_emod_right, Int.emod_eq_of_lt (by omega) (by omega)]
      rw [hneg]
      split <;> omega

theorem codec_readHash : Codec readHash serializeHash (fun _ => True) := by
  have h256 : 256 ^ 32 = 2 ^ 256 := by norm_num
  refine codec_readLe.map (fun n hn => ⟨trivial, ?_⟩) (fun h _ => ⟨?_, ?_⟩)
  · rw [h256] at hn
    rw [BitVec.toNat_ofNat, Nat.mod_eq_of_lt hn]
  · rw [h256]
    exact h.isLt
  · rw [BitVec.ofNat_toNat, BitVec.setWidth_eq]

/-! ## Counts -/

/-- Of the four forms a number may come in, `WriteCompactSize` takes the
shortest. -/
theorem codec_readSizeForm : Codec readSizeForm writeCompactSize (· < 2 ^ 64) := by
  have hmax : uintMax = 4294967295 := rfl
  have hmark : ∀ ch, ch < 256 → ∀ r, readSizeForm (leBytes 1 ch ++ r) =
      (if ch < 253 then Pure.pure ch else if ch = 253 then readLe 2
        else if ch = 254 then readLe 4 else readLe 8 : Reader ℕ) r := by
    intro ch hch r
    exact Decoder.bind_of_ok (readLe_eq_ok.2 ⟨by omega, rfl⟩)
  constructor
  · intro p n r h
    obtain ⟨ch, q, hch, hq⟩ := Decoder.bind_eq_ok.1 h
    obtain ⟨hlt, rfl⟩ := readLe_eq_ok.1 hch
    have hlt : ch < 256 := by omega
    -- a marker and a word of `k` bytes
    have hform : ∀ k, (∀ r', readSizeForm (leBytes 1 ch ++ r') = readLe k r') →
        readLe k q = .ok (n, r) → 256 ^ k ≤ 2 ^ 64 → (writeCompactSize n).length ≤ 1 + k →
        (1 + k = (writeCompactSize n).length → leBytes 1 ch ++ leBytes k n = writeCompactSize n) →
        ∃ c, leBytes 1 ch ++ q = c ++ r ∧ n < 2 ^ 64 ∧ (writeCompactSize n).length ≤ c.length ∧
          (c.length = (writeCompactSize n).length → c = writeCompactSize n) ∧
          ∀ r', readSizeForm (c ++ r') = .ok (n, r') := by
      intro k hread hword hbound hlen heq
      obtain ⟨hn, rfl⟩ := readLe_eq_ok.1 hword
      refine ⟨leBytes 1 ch ++ leBytes k n, (List.append_assoc ..).symm, by omega, ?_, ?_, ?_⟩
      · simpa only [List.length_append, length_leBytes] using hlen
      · simpa only [List.length_append, length_leBytes] using heq
      · intro r'
        rw [List.append_assoc, hread]
        exact readLe_eq_ok.2 ⟨hn, rfl⟩
    split_ifs at hq with h1 h2 h3
    · obtain ⟨rfl, rfl⟩ : ch = n ∧ q = r := by simpa [Decoder.pure_apply] using hq
      unfold writeCompactSize
      rw [if_pos h1]
      exact ⟨leBytes 1 ch, rfl, by omega, le_rfl, fun _ => rfl, fun r' => by
        rw [hmark ch hlt, if_pos h1]
        rfl⟩
    · have hn := (readLe_eq_ok.1 hq).1
      refine hform 2 (fun r' => by rw [hmark ch hlt, if_neg h1, if_pos h2]) hq (by norm_num) ?_ ?_
      · rw [length_writeCompactSize, getSizeOfCompactSize]
        split_ifs <;> omega
      · intro h
        have hrange : ¬ n < 253 ∧ n ≤ 65535 := by
          rw [length_writeCompactSize, getSizeOfCompactSize] at h
          split_ifs at h <;> omega
        unfold writeCompactSize
        rw [if_neg hrange.1, if_pos hrange.2, h2]
        rfl
    · have hn := (readLe_eq_ok.1 hq).1
      refine hform 4 (fun r' => by rw [hmark ch hlt, if_neg h1, if_neg h2, if_pos h3]) hq
        (by norm_num) ?_ ?_
      · rw [length_writeCompactSize, getSizeOfCompactSize]
        split_ifs <;> omega
      · intro h
        have hrange : ¬ n < 253 ∧ ¬ n ≤ 65535 ∧ n ≤ uintMax := by
          rw [length_writeCompactSize, getSizeOfCompactSize] at h
          split_ifs at h <;> omega
        unfold writeCompactSize
        rw [if_neg hrange.1, if_neg hrange.2.1, if_pos hrange.2.2, h3]
        rfl
    · have hn := (readLe_eq_ok.1 hq).1
      refine hform 8 (fun r' => by rw [hmark ch hlt, if_neg h1, if_neg h2, if_neg h3]) hq
        (by norm_num) ?_ ?_
      · rw [length_writeCompactSize, getSizeOfCompactSize]
        split_ifs <;> omega
      · intro h
        have hrange : ¬ n < 253 ∧ ¬ n ≤ 65535 ∧ ¬ n ≤ uintMax := by
          rw [length_writeCompactSize, getSizeOfCompactSize] at h
          split_ifs at h <;> omega
        have hch : ch = 255 := by omega
        unfold writeCompactSize
        rw [if_neg hrange.1, if_neg hrange.2.1, if_neg hrange.2.2, hch]
        rfl
  · intro n r hn
    unfold writeCompactSize
    split_ifs with h1 h2 h3
    · rw [hmark n (by omega), if_pos h1]
      rfl
    · rw [List.cons_append]
      refine (hmark 253 (by omega) (leBytes 2 n ++ r)).trans ?_
      exact readLe_eq_ok.2 ⟨by omega, rfl⟩
    · refine (hmark 254 (by omega) (leBytes 4 n ++ r)).trans ?_
      exact readLe_eq_ok.2 ⟨by omega, rfl⟩
    · refine (hmark 255 (by omega) (leBytes 8 n ++ r)).trans ?_
      exact readLe_eq_ok.2 ⟨by omega, rfl⟩

/-- **`ReadCompactSize` takes more than `WriteCompactSize` writes.** -/
theorem codec_readCompactSize : Codec readCompactSize writeCompactSize (· ≤ maxSize) :=
  codec_readSizeForm.check.of_iff fun n => by
    have : maxSize < 2 ^ 64 := by decide
    simp only [decide_eq_true_eq]
    omega

theorem codec_unserializeBytes :
    Codec unserializeBytes serializeBytes (fun v => v.length ≤ maxSize) :=
  codec_readCompactSize.countedN

theorem codec_unserializeVector {α : Type} {d : Reader α} {enc : α → List UInt8} {ok : α → Prop}
    (hd : Codec d enc ok) : Codec (unserializeVector d) (serializeVector enc)
      (fun v => v.length ≤ maxSize ∧ ∀ a ∈ v, ok a) :=
  codec_readCompactSize.counted hd

/-! ## Transactions -/

/-- The fields are in the range of their types. -/
def CTxIn.WellTyped (i : CTxIn) : Prop :=
  i.prevout.n < 2 ^ 32 ∧ i.scriptSig.length ≤ maxSize ∧ i.nSequence < 2 ^ 32

def CTxOut.WellTyped (o : CTxOut) : Prop :=
  (-2 ^ 63 ≤ o.nValue ∧ o.nValue < 2 ^ 63) ∧ o.scriptPubKey.length ≤ maxSize

def CTransaction.WellTyped (tx : CTransaction) : Prop :=
  (-2 ^ 31 ≤ tx.nVersion ∧ tx.nVersion < 2 ^ 31) ∧ tx.nTime < 2 ^ 32 ∧
    (tx.vin.length ≤ maxSize ∧ ∀ i ∈ tx.vin, i.WellTyped) ∧
    (tx.vout.length ≤ maxSize ∧ ∀ o ∈ tx.vout, o.WellTyped) ∧ tx.nLockTime < 2 ^ 32

theorem codec_txIn : Codec CTxIn.unserialize CTxIn.serialize CTxIn.WellTyped := by
  have hfields : Codec _ _ CTxIn.WellTyped := (codec_readHash.pair ((codec_readLe (k := 4)).pair
    (codec_unserializeBytes.pair (codec_readLe (k := 4))))).map
    (f := fun x => CTxIn.mk ⟨x.1, x.2.1⟩ x.2.2.1 x.2.2.2)
    (g := fun i => (i.prevout.hash, i.prevout.n, i.scriptSig, i.nSequence))
    (fun x hx => ⟨by simpa [CTxIn.WellTyped] using hx, rfl⟩)
    (fun i hi => ⟨by simpa [CTxIn.WellTyped] using hi, rfl⟩)
  have hread : CTxIn.unserialize = (fun x => CTxIn.mk ⟨x.1, x.2.1⟩ x.2.2.1 x.2.2.2) <$>
      readHash.pair ((readLe 4).pair (unserializeBytes.pair (readLe 4))) := by
    simp [CTxIn.unserialize, Decoder.pair]
  have hwrite : CTxIn.serialize = fun i => serializeHash i.prevout.hash ++
      (leBytes 4 i.prevout.n ++ (serializeBytes i.scriptSig ++ leBytes 4 i.nSequence)) := by
    funext i
    simp only [CTxIn.serialize, List.append_assoc]
  rw [hread, hwrite]
  exact hfields

theorem codec_txOut : Codec CTxOut.unserialize CTxOut.serialize CTxOut.WellTyped := by
  have hfields : Codec _ _ CTxOut.WellTyped := ((codec_readInt (k := 8) (by omega)).pair codec_unserializeBytes).map
    (f := fun x => CTxOut.mk x.1 x.2) (g := fun o => (o.nValue, o.scriptPubKey))
    (fun x hx => ⟨by simpa [CTxOut.WellTyped] using hx, rfl⟩)
    (fun o ho => ⟨by simpa [CTxOut.WellTyped] using ho, rfl⟩)
  have hread : CTxOut.unserialize = (fun x => CTxOut.mk x.1 x.2) <$>
      (readInt 8).pair unserializeBytes := by
    simp [CTxOut.unserialize, Decoder.pair]
  rw [hread]
  exact hfields

/-- **What is read as a transaction** was written in some form of it. -/
theorem codec_transaction :
    Codec CTransaction.unserialize CTransaction.serialize CTransaction.WellTyped := by
  have hfields : Codec _ _ CTransaction.WellTyped := ((codec_readInt (k := 4) (by omega)).pair ((codec_readLe (k := 4)).pair
    ((codec_unserializeVector codec_txIn).pair ((codec_unserializeVector codec_txOut).pair
    (codec_readLe (k := 4)))))).map
    (f := fun x => CTransaction.mk x.1 x.2.1 x.2.2.1 x.2.2.2.1 x.2.2.2.2)
    (g := fun tx => (tx.nVersion, tx.nTime, tx.vin, tx.vout, tx.nLockTime))
    (fun x hx => ⟨by simpa [CTransaction.WellTyped] using hx, rfl⟩)
    (fun tx htx => ⟨by simpa [CTransaction.WellTyped] using htx, rfl⟩)
  have hread : CTransaction.unserialize =
      (fun x => CTransaction.mk x.1 x.2.1 x.2.2.1 x.2.2.2.1 x.2.2.2.2) <$>
      (readInt 4).pair ((readLe 4).pair ((unserializeVector CTxIn.unserialize).pair
        ((unserializeVector CTxOut.unserialize).pair (readLe 4)))) := by
    simp [CTransaction.unserialize, Decoder.pair]
  have hwrite : CTransaction.serialize = fun tx => leInt 4 tx.nVersion ++ (leBytes 4 tx.nTime ++
      (serializeVector CTxIn.serialize tx.vin ++ (serializeVector CTxOut.serialize tx.vout ++
        leBytes 4 tx.nLockTime))) := by
    funext tx
    simp only [CTransaction.serialize, List.append_assoc]
  rw [hread, hwrite]
  exact hfields

/-! ## Blocks -/

/-- The block without what its hash is not taken of. -/
def CBlock.header (b : CBlock) : CBlock := { b with vtx := [], vchBlockSig := [] }

def CBlock.HeaderWellTyped (b : CBlock) : Prop :=
  (-2 ^ 31 ≤ b.nVersion ∧ b.nVersion < 2 ^ 31) ∧ b.nTime < 2 ^ 32 ∧ b.nBits < 2 ^ 32 ∧
    b.nNonce < 2 ^ 32

def CBlock.WellTyped (b : CBlock) : Prop :=
  b.HeaderWellTyped ∧ (b.vtx.length ≤ maxSize ∧ ∀ tx ∈ b.vtx, tx.WellTyped) ∧
    b.vchBlockSig.length ≤ maxSize

/-- **A header has one encoding.** -/
theorem codec_header : Codec CBlock.unserializeHeader CBlock.serializeHeader
    (fun b => b.HeaderWellTyped ∧ b.header = b) := by
  have hfields : Codec _ _ (fun b : CBlock => b.HeaderWellTyped ∧ b.header = b) :=
    ((codec_readInt (k := 4) (by omega)).pair
      (codec_readHash.pair (codec_readHash.pair ((codec_readLe (k := 4)).pair
        ((codec_readLe (k := 4)).pair (codec_readLe (k := 4))))))).map
    (f := fun x => CBlock.mk x.1 x.2.1 x.2.2.1 x.2.2.2.1 x.2.2.2.2.1 x.2.2.2.2.2 [] [])
    (g := fun b => (b.nVersion, b.hashPrevBlock, b.hashMerkleRoot, b.nTime, b.nBits, b.nNonce))
    (fun x hx => ⟨⟨by simpa [CBlock.HeaderWellTyped] using hx, rfl⟩, rfl⟩)
    (fun b hb => ⟨by simpa [CBlock.HeaderWellTyped] using hb.1, hb.2⟩)
  have hread : CBlock.unserializeHeader =
      (fun x => CBlock.mk x.1 x.2.1 x.2.2.1 x.2.2.2.1 x.2.2.2.2.1 x.2.2.2.2.2 [] []) <$>
      (readInt 4).pair (readHash.pair (readHash.pair ((readLe 4).pair
        ((readLe 4).pair (readLe 4))))) := by
    simp [CBlock.unserializeHeader, Decoder.pair]
  have hwrite : CBlock.serializeHeader = fun b => leInt 4 b.nVersion ++
      (serializeHash b.hashPrevBlock ++ (serializeHash b.hashMerkleRoot ++
        (leBytes 4 b.nTime ++ (leBytes 4 b.nBits ++ leBytes 4 b.nNonce)))) := by
    funext b
    simp only [CBlock.serializeHeader, List.append_assoc]
  rw [hread, hwrite]
  exact hfields

/-- **What is read as a block** was written in some form of it. -/
theorem codec_block : Codec CBlock.unserialize CBlock.serialize CBlock.WellTyped := by
  have hfields : Codec _ _ CBlock.WellTyped :=
    (codec_header.pair ((codec_unserializeVector codec_transaction).pair
      codec_unserializeBytes)).map
    (f := fun x => { x.1 with vtx := x.2.1, vchBlockSig := x.2.2 })
    (g := fun b => (b.header, b.vtx, b.vchBlockSig))
    (fun x hx => ⟨⟨hx.1.1, hx.2⟩, by
      refine Prod.ext ?_ rfl
      exact hx.1.2⟩)
    (fun b hb => ⟨⟨⟨hb.1, rfl⟩, hb.2⟩, rfl⟩)
  have hread : CBlock.unserialize =
      (fun x => { x.1 with vtx := x.2.1, vchBlockSig := x.2.2 }) <$>
      CBlock.unserializeHeader.pair ((unserializeVector CTransaction.unserialize).pair
        unserializeBytes) := by
    simp [CBlock.unserialize, Decoder.pair]
  have hwrite : CBlock.serialize = fun b => b.header.serializeHeader ++
      (serializeVector CTransaction.serialize b.vtx ++ serializeBytes b.vchBlockSig) := by
    funext b
    rw [CBlock.serialize, List.append_assoc]
    rfl
  rw [hread, hwrite]
  exact hfields

end CryptoBullion
