import Mathlib
/-!
# Transactions, blocks and what names them on disk

The records of `main.h` and `serialize.h`: outpoints, inputs, outputs,
transactions and blocks, the positions and index entries the transaction
database keeps, and the byte strings they serialise to. An `unsigned int`
is a natural number and a signed integer an integer; a place where the
width of the machine word decides something says so where it does.
-/

namespace CryptoBullion

/-! ## Money and limits -/

/-- `COIN` -/
def coin : ℤ := 1000000
/-- `CENT` -/
def cent : ℤ := 10000
/-- `MIN_TX_FEE`, a tenth of a cent -/
def minTxFee : ℤ := 1000
/-- `MIN_RELAY_TX_FEE` -/
def minRelayTxFee : ℤ := 1000
/-- `MIN_TXOUT_AMOUNT` -/
def minTxoutAmount : ℤ := minTxFee
/-- `MAX_MONEY` -/
def maxMoney : ℤ := 2000000 * coin
/-- `MAX_BLOCK_SIZE` -/
def maxBlockSize : ℕ := 1000000
/-- `MAX_BLOCK_SIZE_GEN` -/
def maxBlockSizeGen : ℕ := maxBlockSize / 2
/-- `MAX_BLOCK_SIGOPS` -/
def maxBlockSigops : ℕ := maxBlockSize / 50
/-- `MAX_STANDARD_TX_SIZE` -/
def maxStandardTxSize : ℕ := 100000
/-- `LOCKTIME_THRESHOLD`: below it a lock time counts blocks -/
def locktimeThreshold : ℤ := 500000000
/-- `(unsigned int) -1`, also `std::numeric_limits<unsigned int>::max()` -/
def uintMax : ℕ := 4294967295

/-- `MoneyRange` -/
def moneyRange (nValue : ℤ) : Bool := 0 ≤ nValue && nValue ≤ maxMoney

theorem moneyRange_iff {n : ℤ} : moneyRange n = true ↔ 0 ≤ n ∧ n ≤ maxMoney := by
  simp [moneyRange]

/-! ## Transactions -/

/-- `uint256` -/
abbrev Uint256 := BitVec 256

/-- `CScript`: the bytes of a script -/
abbrev CScript := List UInt8

/-- An ordered map keyed as `std::map` keys it. -/
abbrev Map (κ α : Type) [Ord κ] := Std.ExtTreeMap κ α compare

instance instTransOrdUint256 : Std.TransOrd Uint256 := BitVec.instTransOrd

instance instTransOrdUint160 : Std.TransOrd (BitVec 160) := BitVec.instTransOrd

structure COutPoint where
  hash : Uint256
  n : ℕ
  deriving DecidableEq, Repr

/-- `COutPoint()`: no hash, the largest index -/
def COutPoint.null : COutPoint := ⟨0, uintMax⟩

def COutPoint.isNull (o : COutPoint) : Bool := o.hash = 0 && o.n = uintMax

/-- `operator<`: by hash, then by index -/
instance : Ord COutPoint := ⟨compareLex (compareOn COutPoint.hash) (compareOn COutPoint.n)⟩

instance : Std.TransOrd COutPoint :=
  inferInstanceAs (Std.TransCmp (compareLex (compareOn COutPoint.hash) (compareOn COutPoint.n)))

instance : Std.LawfulEqOrd COutPoint where
  compare_self := (inferInstance : Std.ReflCmp
    (compareLex (compareOn COutPoint.hash) (compareOn COutPoint.n))).compare_self
  eq_of_compare {a b} h := by
    obtain ⟨ah, an⟩ := a
    obtain ⟨bh, bn⟩ := b
    simp only [compare, compareLex, compareOn, Ordering.then_eq_eq] at h
    obtain ⟨h₁, h₂⟩ := h
    rw [COutPoint.mk.injEq]
    exact ⟨Std.LawfulEqOrd.eq_of_compare h₁, Std.LawfulEqOrd.eq_of_compare h₂⟩

structure CTxIn where
  prevout : COutPoint
  scriptSig : CScript
  nSequence : ℕ
  deriving DecidableEq, Repr

def CTxIn.isFinal (i : CTxIn) : Bool := i.nSequence = uintMax

structure CTxOut where
  nValue : ℤ
  scriptPubKey : CScript
  deriving DecidableEq, Repr

def CTxOut.isEmpty (o : CTxOut) : Bool := o.nValue = 0 && o.scriptPubKey.isEmpty

/-- `SetEmpty` -/
def CTxOut.empty : CTxOut := ⟨0, []⟩

structure CTransaction where
  nVersion : ℤ
  nTime : ℕ
  vin : List CTxIn
  vout : List CTxOut
  nLockTime : ℕ
  deriving DecidableEq, Repr

instance : Inhabited CTransaction := ⟨⟨1, 0, [], [], 0⟩⟩

/-- The first input is null and alone. -/
def CTransaction.isCoinBase (tx : CTransaction) : Bool :=
  match tx.vin with
  | [i] => i.prevout.isNull && 1 ≤ tx.vout.length
  | _ => false

/-- The first input is not null and the first output is empty. -/
def CTransaction.isCoinStake (tx : CTransaction) : Bool :=
  match tx.vin, tx.vout with
  | i :: _, o :: _ :: _ => !i.prevout.isNull && o.isEmpty
  | _, _ => false

/-! ## Blocks -/

structure CBlock where
  nVersion : ℤ
  hashPrevBlock : Uint256
  hashMerkleRoot : Uint256
  nTime : ℕ
  nBits : ℕ
  nNonce : ℕ
  vtx : List CTransaction
  vchBlockSig : List UInt8
  deriving DecidableEq, Repr

def CBlock.getBlockTime (b : CBlock) : ℤ := b.nTime

def CBlock.isProofOfStake (b : CBlock) : Bool :=
  match b.vtx with
  | _ :: tx :: _ => tx.isCoinStake
  | _ => false

def CBlock.isProofOfWork (b : CBlock) : Bool := !b.isProofOfStake

/-- The largest transaction time, zero for none. -/
def CBlock.getMaxTransactionTime (b : CBlock) : ℤ :=
  b.vtx.foldl (fun t tx => max t (tx.nTime : ℤ)) 0

/-! ## Positions and index entries -/

/-- Where a transaction is on disk: its file, its block's offset and its
own. -/
structure CDiskTxPos where
  nFile : ℕ
  nBlockPos : ℕ
  nTxPos : ℕ
  deriving DecidableEq, Repr

/-- `SetNull` -/
def CDiskTxPos.null : CDiskTxPos := ⟨uintMax, 0, 0⟩

def CDiskTxPos.isNull (p : CDiskTxPos) : Bool := p.nFile = uintMax

/-- `CDiskTxPos(1,1,1)`: look in the memory pool -/
def CDiskTxPos.inMemPool : CDiskTxPos := ⟨1, 1, 1⟩

/-- Where a transaction is and what spent each of its outputs. -/
structure CTxIndex where
  pos : CDiskTxPos
  vSpent : List CDiskTxPos
  deriving DecidableEq, Repr

/-- `CTxIndex(posIn, nOutputs)`: nothing spent yet -/
def CTxIndex.fresh (pos : CDiskTxPos) (nOutputs : ℕ) : CTxIndex :=
  ⟨pos, List.replicate nOutputs CDiskTxPos.null⟩

/-! ## Serialisation -/

/-- The low `k` bytes of a number, least significant first. -/
def leBytes : ℕ → ℕ → List UInt8
  | 0, _ => []
  | k + 1, n => UInt8.ofNat (n % 256) :: leBytes k (n / 256)

@[simp] theorem length_leBytes : ∀ {k n : ℕ}, (leBytes k n).length = k
  | 0, _ => rfl
  | k + 1, n => by rw [leBytes, List.length_cons, length_leBytes]

/-- A signed integer in two's complement. -/
def leInt (k : ℕ) (n : ℤ) : List UInt8 := leBytes k (n % 2 ^ (8 * k)).toNat

@[simp] theorem length_leInt {k : ℕ} {n : ℤ} : (leInt k n).length = k := length_leBytes

/-- `GetSizeOfCompactSize` -/
def getSizeOfCompactSize (n : ℕ) : ℕ :=
  if n < 253 then 1 else if n ≤ 65535 then 3 else if n ≤ uintMax then 5 else 9

/-- `WriteCompactSize` -/
def writeCompactSize (n : ℕ) : List UInt8 :=
  if n < 253 then leBytes 1 n
  else if n ≤ 65535 then 253 :: leBytes 2 n
  else if n ≤ uintMax then 254 :: leBytes 4 n
  else 255 :: leBytes 8 n

@[simp] theorem length_writeCompactSize {n : ℕ} :
    (writeCompactSize n).length = getSizeOfCompactSize n := by
  rw [writeCompactSize, getSizeOfCompactSize]
  split_ifs <;> simp

/-- A vector: its length, then its elements. -/
def serializeVector {α : Type} (f : α → List UInt8) (v : List α) : List UInt8 :=
  writeCompactSize v.length ++ v.flatMap f

/-- Bytes, with their number in front. -/
def serializeBytes (v : List UInt8) : List UInt8 := writeCompactSize v.length ++ v

def serializeHash (h : Uint256) : List UInt8 := leBytes 32 h.toNat

def CTxIn.serialize (i : CTxIn) : List UInt8 :=
  serializeHash i.prevout.hash ++ leBytes 4 i.prevout.n ++ serializeBytes i.scriptSig ++
    leBytes 4 i.nSequence

def CTxOut.serialize (o : CTxOut) : List UInt8 :=
  leInt 8 o.nValue ++ serializeBytes o.scriptPubKey

def CTransaction.serialize (tx : CTransaction) : List UInt8 :=
  leInt 4 tx.nVersion ++ leBytes 4 tx.nTime ++ serializeVector CTxIn.serialize tx.vin ++
    serializeVector CTxOut.serialize tx.vout ++ leBytes 4 tx.nLockTime

/-- `GetSerializeSize` of a transaction -/
def CTransaction.getSerializeSize (tx : CTransaction) : ℕ := tx.serialize.length

/-- The header: what a block's hash is taken of. -/
def CBlock.serializeHeader (b : CBlock) : List UInt8 :=
  leInt 4 b.nVersion ++ serializeHash b.hashPrevBlock ++ serializeHash b.hashMerkleRoot ++
    leBytes 4 b.nTime ++ leBytes 4 b.nBits ++ leBytes 4 b.nNonce

@[simp] theorem length_serializeHeader {b : CBlock} : b.serializeHeader.length = 80 := by
  simp [CBlock.serializeHeader, serializeHash]

def CBlock.serialize (b : CBlock) : List UInt8 :=
  b.serializeHeader ++ serializeVector CTransaction.serialize b.vtx ++ serializeBytes b.vchBlockSig

/-- `GetSerializeSize` of a block -/
def CBlock.getSerializeSize (b : CBlock) : ℕ := b.serialize.length

/-- Where a block's first transaction starts, counted from the block's
own start: behind the header and the transaction count. -/
def CBlock.firstTxOffset (b : CBlock) : ℕ := 80 + getSizeOfCompactSize b.vtx.length

/-! ## How a call ends badly -/

/-- The ways a function of the node fails to give its result. The first
three are `return false`; a caller that only looks at the returned flag
cannot tell them apart. The last two are no return at all. -/
inductive Failure
  /-- `return error(…)` -/
  | error (msg : String)
  /-- `return DoS(n, error(…))`: the sender is charged `n` -/
  | doS (n : ℕ) (msg : String)
  /-- a bare `return false` -/
  | quiet
  /-- a C++ exception leaves the function -/
  | exception (what : String)
  /-- a failed `assert`, or a null pointer followed -/
  | crash (what : String)
  deriving DecidableEq, Repr

/-- The call came back, with `false`. -/
def Failure.returnsFalse : Failure → Bool
  | .error _ | .doS _ _ | .quiet => true
  | .exception _ | .crash _ => false

/-- The process is gone. -/
def Failure.isCrash : Failure → Bool
  | .crash _ => true
  | _ => false

theorem Failure.isCrash_of_returnsFalse {f : Failure} (h : f.returnsFalse) : f.isCrash = false := by
  cases f <;> simp_all [Failure.returnsFalse, Failure.isCrash]

/-- `if (!f(…)) return g;`: a `false` becomes the caller's own failure, an
exception passes through. -/
def Failure.orElse (f : Failure) (g : Failure) : Failure :=
  if f.returnsFalse then g else f

/-- A crash is passed on. -/
theorem Failure.isCrash_orElse {f g : Failure} (h : f.isCrash) : (f.orElse g).isCrash := by
  cases f <;> simp_all [Failure.orElse, Failure.returnsFalse, Failure.isCrash]

/-- What fails with `false` after `orElse` did so before. -/
theorem Failure.returnsFalse_of_orElse {f g : Failure} (h : (f.orElse g).returnsFalse) :
    f.returnsFalse := by
  cases f <;> simp_all [Failure.orElse, Failure.returnsFalse]

/-- `if (!f(…)) return g;` over a result. -/
def onFalse {α : Type} (r : Except Failure α) (g : Failure) : Except Failure α :=
  r.mapError (·.orElse g)

/-- `if (c) return f;` -/
def reject (c : Prop) [Decidable c] (f : Failure) : Except Failure Unit :=
  if c then .error f else .ok ()

section Except

variable {α β : Type} {r : Except Failure α} {k : α → Except Failure β} {f g : Failure} {a : α}
variable {b : β} {c : Prop} [Decidable c]

@[simp] theorem reject_eq_ok {u : Unit} : reject c f = .ok u ↔ ¬ c := by
  rw [reject]
  split <;> simp_all

@[simp] theorem onFalse_eq_ok : onFalse r g = .ok a ↔ r = .ok a := by
  rw [onFalse]
  cases r <;> simp [Except.mapError]

/-- A sequence of checks passes when each does. -/
theorem except_bind_eq_ok : (r >>= k) = .ok b ↔ ∃ a, r = .ok a ∧ k a = .ok b := by
  cases r <;> simp [bind, Except.bind]

/-- The same where the first check only passes or fails. -/
theorem except_unit_bind_eq_ok {r : Except Failure Unit} {k : Unit → Except Failure β} :
    (r >>= k) = .ok b ↔ r = .ok () ∧ k () = .ok b := by
  cases r <;> simp [bind, Except.bind]

/-- A sequence of checks fails where one does. -/
theorem except_bind_eq_error :
    (r >>= k) = .error f ↔ r = .error f ∨ ∃ a, r = .ok a ∧ k a = .error f := by
  cases r <;> simp [bind, Except.bind]

@[simp] theorem reject_eq_error : reject c f = .error g ↔ c ∧ f = g := by
  rw [reject]
  split <;> simp_all

end Except

end CryptoBullion
