import CryptoBullion.Common.Store
import CryptoBullion.Model.Platform
/-!
# The state of a node

What the globals of `main.cpp`, the transaction database, the block
files, the memory pool and the registered wallets hold between two steps.
A `CBlockIndex*` is the hash its entry has in `mapBlockIndex`; a null
pointer is `none`. Entries are never removed, so a pointer once taken
stays good.

What the outside world answers, the clock and whether a disk operation
succeeds, is a stream the node reads one answer at a time. `trace` is a
history no function looks at: it records what was attempted, for
statements that speak of a run's events.
-/

namespace CryptoBullion

/-! ## The block index -/

/-- An entry of `mapBlockIndex`. The bits of `nFlags` are three fields. -/
structure CBlockIndex where
  pprev : Option Uint256
  pnext : Option Uint256
  nFile : ℕ
  nBlockPos : ℕ
  bnChainTrust : ℕ
  nHeight : ℤ
  nMint : ℤ
  nMoneySupply : ℤ
  /-- `BLOCK_PROOF_OF_STAKE` -/
  fProofOfStake : Bool
  /-- `BLOCK_STAKE_ENTROPY` -/
  fStakeEntropy : Bool
  /-- `BLOCK_STAKE_MODIFIER` -/
  fGeneratedStakeModifier : Bool
  nStakeModifier : ℕ
  nStakeModifierChecksum : ℕ
  prevoutStake : COutPoint
  nStakeTime : ℕ
  hashProofOfStake : Uint256
  nVersion : ℤ
  hashMerkleRoot : Uint256
  nTime : ℕ
  nBits : ℕ
  nNonce : ℕ
  deriving DecidableEq, Repr

/-- `CBlockIndex()` -/
def CBlockIndex.null : CBlockIndex where
  pprev := none
  pnext := none
  nFile := 0
  nBlockPos := 0
  bnChainTrust := 0
  nHeight := 0
  nMint := 0
  nMoneySupply := 0
  fProofOfStake := false
  fStakeEntropy := false
  fGeneratedStakeModifier := false
  nStakeModifier := 0
  nStakeModifierChecksum := 0
  prevoutStake := COutPoint.null
  nStakeTime := 0
  hashProofOfStake := 0
  nVersion := 0
  hashMerkleRoot := 0
  nTime := 0
  nBits := 0
  nNonce := 0

instance : Inhabited CBlockIndex := ⟨CBlockIndex.null⟩

/-- `CBlockIndex(nFileIn, nBlockPosIn, block)` -/
def CBlockIndex.ofBlock (nFile nBlockPos : ℕ) (block : CBlock) : CBlockIndex :=
  { CBlockIndex.null with
    nFile := nFile
    nBlockPos := nBlockPos
    fProofOfStake := block.isProofOfStake
    prevoutStake :=
      if block.isProofOfStake then
        ((block.vtx[1]?.bind (·.vin.head?)).map (·.prevout)).getD COutPoint.null
      else COutPoint.null
    nStakeTime := if block.isProofOfStake then (block.vtx[1]?.map (·.nTime)).getD 0 else 0
    nVersion := block.nVersion
    hashMerkleRoot := block.hashMerkleRoot
    nTime := block.nTime
    nBits := block.nBits
    nNonce := block.nNonce }

def CBlockIndex.getBlockTime (i : CBlockIndex) : ℤ := i.nTime

/-- `GetBlockHeader`: the header again, its hash taken from the parent's
entry -/
def CBlockIndex.getBlockHeader (i : CBlockIndex) : CBlock where
  nVersion := i.nVersion
  hashPrevBlock := i.pprev.getD 0
  hashMerkleRoot := i.hashMerkleRoot
  nTime := i.nTime
  nBits := i.nBits
  nNonce := i.nNonce
  vtx := []
  vchBlockSig := []

/-- `CDiskBlockIndex`: an entry with its pointers written as hashes, zero
for null. Its trust and checksum stay in memory. -/
structure CDiskBlockIndex where
  hashPrev : Uint256
  hashNext : Uint256
  nFile : ℕ
  nBlockPos : ℕ
  nHeight : ℤ
  nMint : ℤ
  nMoneySupply : ℤ
  fProofOfStake : Bool
  fStakeEntropy : Bool
  fGeneratedStakeModifier : Bool
  nStakeModifier : ℕ
  prevoutStake : COutPoint
  nStakeTime : ℕ
  hashProofOfStake : Uint256
  nVersion : ℤ
  hashMerkleRoot : Uint256
  nTime : ℕ
  nBits : ℕ
  nNonce : ℕ
  deriving DecidableEq, Repr

/-- `CDiskBlockIndex(pindex)` -/
def CDiskBlockIndex.ofIndex (i : CBlockIndex) : CDiskBlockIndex where
  hashPrev := i.pprev.getD 0
  hashNext := i.pnext.getD 0
  nFile := i.nFile
  nBlockPos := i.nBlockPos
  nHeight := i.nHeight
  nMint := i.nMint
  nMoneySupply := i.nMoneySupply
  fProofOfStake := i.fProofOfStake
  fStakeEntropy := i.fStakeEntropy
  fGeneratedStakeModifier := i.fGeneratedStakeModifier
  nStakeModifier := i.nStakeModifier
  prevoutStake := i.prevoutStake
  nStakeTime := i.nStakeTime
  hashProofOfStake := i.hashProofOfStake
  nVersion := i.nVersion
  hashMerkleRoot := i.hashMerkleRoot
  nTime := i.nTime
  nBits := i.nBits
  nNonce := i.nNonce

/-! ## The transaction database -/

/-- The keys the chain code uses. -/
inductive DbKey
  | tx (hash : Uint256)
  | blockindex (hash : Uint256)
  | hashBestChain
  | bnBestInvalidTrust
  deriving DecidableEq, Repr

/-- Keys as pairs of a tag and a hash, which orders them. -/
def DbKey.encode : DbKey → ℕ × Uint256
  | .tx h => (0, h)
  | .blockindex h => (1, h)
  | .hashBestChain => (2, 0)
  | .bnBestInvalidTrust => (3, 0)

theorem DbKey.encode_injective : Function.Injective DbKey.encode := by
  intro a b h
  cases a <;> cases b <;> simp_all [DbKey.encode]

instance : Ord DbKey :=
  ⟨compareLex (compareOn fun k => k.encode.1) (compareOn fun k => k.encode.2)⟩

instance : Std.TransOrd DbKey :=
  inferInstanceAs (Std.TransCmp
    (compareLex (compareOn fun k : DbKey => k.encode.1) (compareOn fun k => k.encode.2)))

instance : Std.LawfulEqOrd DbKey where
  compare_self := (inferInstance : Std.ReflCmp
    (compareLex (compareOn fun k : DbKey => k.encode.1) (compareOn fun k => k.encode.2))).compare_self
  eq_of_compare {a b} h := by
    simp only [compare, compareLex, compareOn, Ordering.then_eq_eq] at h
    obtain ⟨h₁, h₂⟩ := h
    exact DbKey.encode_injective (Prod.ext (Std.LawfulEqOrd.eq_of_compare h₁)
      (Std.LawfulEqOrd.eq_of_compare h₂))

inductive DbValue
  | txIndex (i : CTxIndex)
  | blockIndex (i : CDiskBlockIndex)
  | hash (h : Uint256)
  | bigNum (n : ℕ)
  deriving DecidableEq, Repr

/-- The database and the `CTxDB` object a step works through. -/
abbrev CTxDB := Store DbKey DbValue

namespace CTxDB

/-- `ReadTxIndex` -/
def readTxIndex (txdb : CTxDB) (hash : Uint256) : Option CTxIndex :=
  match txdb.read (.tx hash) with
  | some (.txIndex i) => some i
  | _ => none

/-- `ReadHashBestChain` -/
def readHashBestChain (txdb : CTxDB) : Option Uint256 :=
  match txdb.read .hashBestChain with
  | some (.hash h) => some h
  | _ => none

/-- `UpdateTxIndex` -/
def updateTxIndex (txdb : CTxDB) (hash : Uint256) (i : CTxIndex) : CTxDB :=
  txdb.write (.tx hash, some (.txIndex i))

/-- `EraseTxIndex` -/
def eraseTxIndex (txdb : CTxDB) (hash : Uint256) : CTxDB := txdb.write (.tx hash, none)

/-- `WriteHashBestChain` -/
def writeHashBestChain (txdb : CTxDB) (hash : Uint256) : CTxDB :=
  txdb.write (.hashBestChain, some (.hash hash))

end CTxDB

section

variable [P : Platform]

/-- `CDiskBlockIndex::GetBlockHash`: of the header the record holds -/
def CDiskBlockIndex.getBlockHash (i : CDiskBlockIndex) : Uint256 :=
  CBlock.getHash
    { nVersion := i.nVersion, hashPrevBlock := i.hashPrev, hashMerkleRoot := i.hashMerkleRoot,
      nTime := i.nTime, nBits := i.nBits, nNonce := i.nNonce, vtx := [], vchBlockSig := [] }

/-- `WriteBlockIndex` -/
def CTxDB.writeBlockIndex (txdb : CTxDB) (i : CDiskBlockIndex) : CTxDB :=
  txdb.write (.blockindex i.getBlockHash, some (.blockIndex i))

end

/-! ## Memory pool and wallets -/

/-- The pool's transactions by hash, and for each outpoint they spend the
spender and its input. -/
structure CTxMemPool where
  mapTx : Map Uint256 CTransaction
  mapNextTx : Map COutPoint (Uint256 × ℕ)

/-- A wallet's own copy of a transaction: the block it was seen in and its
place there, and which of its outputs the wallet takes to be spent. -/
structure CWalletTx where
  tx : CTransaction
  hashBlock : Uint256
  vMerkleBranch : List Uint256
  nIndex : ℤ
  fFromMe : Bool
  vfSpent : List Bool
  deriving DecidableEq, Repr

structure CWallet where
  mapWallet : Map Uint256 CWalletTx
  keystore : CKeyStore

/-! ## Block files -/

/-- A block as `WriteToDisk` left it: the file, and the offset of its
first byte. -/
structure StoredBlock where
  nFile : ℕ
  nBlockPos : ℕ
  block : CBlock
  deriving DecidableEq, Repr

/-- The transactions of a block with the offset each starts at. -/
def withOffsets : ℕ → List CTransaction → List (ℕ × CTransaction)
  | _, [] => []
  | off, tx :: txs => (off, tx) :: withOffsets (off + tx.getSerializeSize) txs

/-- The stored transactions with their offsets in the file. -/
def StoredBlock.txs (b : StoredBlock) : List (ℕ × CTransaction) :=
  withOffsets (b.nBlockPos + b.block.firstTxOffset) b.block.vtx

/-! ## The node -/

/-- What the world outside answers during one operation. -/
structure Answer where
  /-- `GetAdjustedTime()` -/
  nAdjustedTime : ℤ
  /-- the status of a write or of a batch commit -/
  fDbOk : Bool
  /-- whether the bytes at an offset of a block file can be read -/
  fReadOk : ℕ → ℕ → Bool

/-- What was attempted, and with what outcome. -/
inductive Event
  | connect (pindex : Uint256) (fOk : Bool)
  | disconnect (pindex : Uint256) (fOk : Bool)
  | postponedFailed (pindex : Uint256)
  deriving DecidableEq, Repr

structure NodeState where
  mapBlockIndex : Map Uint256 CBlockIndex
  setStakeSeen : Finset (COutPoint × ℕ)
  mapProofOfStake : Map Uint256 Uint256
  pindexGenesisBlock : Option Uint256
  pindexBest : Option Uint256
  hashBestChain : Uint256
  nBestHeight : ℤ
  bnBestChainTrust : ℕ
  bnBestInvalidTrust : ℕ
  pblockindexFBBHLast : Option Uint256
  txdb : CTxDB
  mempool : CTxMemPool
  /-- `setpwalletRegistered` -/
  wallets : List CWallet
  blockFiles : List StoredBlock
  /-- the answers still to come -/
  outside : ℕ → Answer
  /-- history, newest first; read by nothing -/
  trace : List Event

namespace NodeState

/-- A node that has nothing yet, with the answers it is going to get. -/
def blank (outside : ℕ → Answer) : NodeState where
  mapBlockIndex := ∅
  setStakeSeen := ∅
  mapProofOfStake := ∅
  pindexGenesisBlock := none
  pindexBest := none
  hashBestChain := 0
  nBestHeight := -1
  bnBestChainTrust := 0
  bnBestInvalidTrust := 0
  pblockindexFBBHLast := none
  txdb := { committed := ∅, activeBatch := none }
  mempool := { mapTx := ∅, mapNextTx := ∅ }
  wallets := []
  blockFiles := []
  outside := outside
  trace := []

/-- Follow a `CBlockIndex*`. -/
def entry (s : NodeState) (pindex : Uint256) : CBlockIndex := (s.mapBlockIndex[pindex]?).getD default

/-- `pindex->pprev` -/
def pprev (s : NodeState) (pindex : Uint256) : Option Uint256 := (s.entry pindex).pprev

/-- `pindex->pnext` -/
def pnext (s : NodeState) (pindex : Uint256) : Option Uint256 := (s.entry pindex).pnext

/-- `pindex->nHeight` -/
def nHeight (s : NodeState) (pindex : Uint256) : ℤ := (s.entry pindex).nHeight

/-- `pindex->bnChainTrust` -/
def bnChainTrust (s : NodeState) (pindex : Uint256) : ℕ := (s.entry pindex).bnChainTrust

/-- Assign to fields of `*pindex`. -/
def setEntry (s : NodeState) (pindex : Uint256) (f : CBlockIndex → CBlockIndex) : NodeState :=
  { s with mapBlockIndex := s.mapBlockIndex.modify pindex f }

/-- Take the next answer. -/
def ask (s : NodeState) : Answer × NodeState :=
  (s.outside 0, { s with outside := fun n => s.outside (n + 1) })

/-- Note an event. -/
def log (s : NodeState) (e : Event) : NodeState := { s with trace := e :: s.trace }

variable {s : NodeState} {pindex h : Uint256} {f : CBlockIndex → CBlockIndex}

theorem getElem?_setEntry :
    (s.setEntry pindex f).mapBlockIndex[h]? =
      if pindex = h then (s.mapBlockIndex[h]?).map f else s.mapBlockIndex[h]? := by
  simp only [setEntry, Std.ExtTreeMap.getElem?_modify, Std.compare_eq_iff_eq]
  split <;> simp_all

theorem contains_setEntry :
    (s.setEntry pindex f).mapBlockIndex.contains h = s.mapBlockIndex.contains h := by
  simp only [setEntry, Std.ExtTreeMap.contains_modify]

/-- **Assigning to an entry** changes that entry, where there is one. -/
theorem entry_setEntry :
    (s.setEntry pindex f).entry h =
      if pindex = h ∧ s.mapBlockIndex.contains h then f (s.entry h) else s.entry h := by
  rw [entry, entry, getElem?_setEntry, Std.ExtTreeMap.contains_eq_isSome_getElem?]
  rcases s.mapBlockIndex[h]? with _ | i <;> by_cases hp : pindex = h <;> simp [hp]

/-- `CBlockIndex::IsInMainChain`: has a successor, or is the tip -/
def isInMainChain (s : NodeState) (pindex : Uint256) : Bool :=
  (s.pnext pindex).isSome || s.pindexBest = some pindex

end NodeState

end CryptoBullion
