import CryptoBullion.Model.BlockIndex
/-!
# Runs of a node

A node starts from an empty data directory: `LoadBlockIndex` builds the
genesis block, stores it and adds it to the index. After that, blocks are
written to disk and indexed, and `SetBestChain` is called on entries of
the index: by `AddToBlockIndex` on the entry it has just made, by the
checkpoint code and the start-up verification on any entry. Between two
such steps everything that does not belong to the chain may change.
-/

namespace CryptoBullion

variable [P : Platform]

/-! ## The genesis block -/

/-- "San Francisco Gets Ready to Marry ‘Anyone Who Wants To’ -Jun 26, 2013
10:01 PM MT" -/
def pszTimestamp : List UInt8 :=
  [83, 97, 110, 32, 70, 114, 97, 110, 99, 105, 115, 99, 111, 32, 71, 101, 116, 115, 32, 82, 101,
    97, 100, 121, 32, 116, 111, 32, 77, 97, 114, 114, 121, 32, 226, 128, 152, 65, 110, 121, 111,
    110, 101, 32, 87, 104, 111, 32, 87, 97, 110, 116, 115, 32, 84, 111, 226, 128, 153, 32, 45, 74,
    117, 110, 32, 50, 54, 44, 32, 50, 48, 49, 51, 32, 49, 48, 58, 48, 49, 32, 80, 77, 32, 77, 84]

/-- `nChainStartTime` -/
def nChainStartTime : ℕ := 1372351910

/-- The coinbase of the genesis block pays nothing. -/
def genesisCoinBase : CTransaction where
  nVersion := 1
  nTime := nChainStartTime
  vin :=
    [{ prevout := COutPoint.null
       scriptSig := [4, 255, 255, 0, 29, 2, 15, 39, 76, 85] ++ pszTimestamp
       nSequence := uintMax }]
  vout := [CTxOut.empty]
  nLockTime := 0

/-- The block `LoadBlockIndex` builds. -/
def genesisBlock : CBlock where
  nVersion := 1
  hashPrevBlock := 0
  hashMerkleRoot := genesisCoinBase.getHash
  nTime := nChainStartTime + 15
  nBits := getCompact bnProofOfWorkLimit
  nNonce := 173202
  vtx := [genesisCoinBase]
  vchBlockSig := []

/-! ## Storing a block -/

/-- The bytes a stored block occupies end here. -/
def StoredBlock.endPos (b : StoredBlock) : ℕ := b.nBlockPos + b.block.getSerializeSize

/-- `WriteToDisk` appends: behind every block of the file, an eight-byte
frame in between. `OpenBlockFile` knows no file zero and no file `-1`. -/
structure Appendable (files : List StoredBlock) (b : StoredBlock) : Prop where
  nFile_pos : 1 ≤ b.nFile
  nFile_lt : b.nFile < uintMax
  frame : 8 ≤ b.nBlockPos
  behind : ∀ c ∈ files, c.nFile = b.nFile → c.endPos + 8 ≤ b.nBlockPos

/-! ## Steps -/

namespace NodeState

/-- The block an entry of the index points at. -/
def Stores (s : NodeState) (pindex : Uint256) (block : CBlock) : Prop :=
  pindex ∈ s.mapBlockIndex ∧
    ⟨(s.entry pindex).nFile, (s.entry pindex).nBlockPos, block⟩ ∈ s.blockFiles

/-- Nothing of the chain differs: not the index, the database, the block
files nor the globals that point into them. -/
def SameChain (s s' : NodeState) : Prop :=
  s' = { s with
    mempool := s'.mempool
    wallets := s'.wallets
    outside := s'.outside
    mapProofOfStake := s'.mapProofOfStake
    setStakeSeen := s'.setStakeSeen
    pblockindexFBBHLast := s'.pblockindexFBBHLast }

/-- An empty data directory, before `LoadBlockIndex`. -/
structure Empty (s : NodeState) : Prop where
  mapBlockIndex : s.mapBlockIndex = ∅
  pindexGenesisBlock : s.pindexGenesisBlock = none
  pindexBest : s.pindexBest = none
  bnBestChainTrust : s.bnBestChainTrust = 0
  committed : s.txdb.committed = ∅
  activeBatch : s.txdb.activeBatch = none
  trace : s.trace = []

end NodeState

/-- One step of a running node. -/
inductive NodeStep : NodeState → NodeState → Prop
  /-- `WriteToDisk` of a block -/
  | write {s : NodeState} (b : StoredBlock) (h : Appendable s.blockFiles b) :
      NodeStep s { s with blockFiles := s.blockFiles ++ [b] }
  /-- the first half of `AddToBlockIndex`: a stored block whose parent is
  known gets its entry -/
  | index {s : NodeState} (b : StoredBlock) (hb : b ∈ s.blockFiles)
      (hp : b.block.hashPrevBlock ∈ s.mapBlockIndex) :
      NodeStep s (closeTxDb (indexBlock b.block b.nFile b.nBlockPos) s).2
  /-- `SetBestChain` on an entry, with the block the entry points at; a
  node that crashes takes no more steps -/
  | best {s : NodeState} (block : CBlock) (pindex : Uint256) (h : s.Stores pindex block)
      (hrun : ∀ f, (setBestChain block pindex s).1 = .error f → f.isCrash = false) :
      NodeStep s (closeTxDb (setBestChain block pindex) s).2
  /-- everything else -/
  | other {s s' : NodeState} (h : s.SameChain s') : NodeStep s s'

/-- **The states a node can reach.** -/
inductive Reachable : NodeState → Prop
  /-- the genesis block stored and added to an empty index -/
  | genesis {s s' : NodeState} (b : StoredBlock) (hs : s.Empty) (hfiles : s.blockFiles = [b])
      (happ : Appendable [] b) (hb : b.block = genesisBlock)
      (hhash : genesisBlock.getHash = hashGenesisBlock)
      (h : addToBlockIndex b.block b.nFile b.nBlockPos s = (.ok (), s')) : Reachable s'
  | step {s s' : NodeState} (h : Reachable s) (hs : NodeStep s s') : Reachable s'

end CryptoBullion
