import CryptoBullion.Model.Run
/-!
# Blocks by height

`FindBlockByHeight` walks along the links of the index from whichever of
three blocks is nearest: the genesis block, the tip, or the block it found
last, which it remembers in `pblockindexFBBHLast`. Only a new best block
makes it forget. Heights are too small for an `int` to wrap.
-/

namespace CryptoBullion

namespace NodeState

/-- `while (pblockindex->nHeight > nHeight) pblockindex = pblockindex->pprev;`
Each turn goes down, so the distance is fuel enough. -/
def walkDown (s : NodeState) (nHeight : ℤ) : ℕ → Option Uint256 → Except Failure Uint256
  | _, none => .error (.crash "pblockindex")
  | 0, some _ => .error (.crash "endless loop")
  | fuel + 1, some pblockindex =>
    if nHeight < s.nHeight pblockindex then s.walkDown nHeight fuel (s.pprev pblockindex)
    else .ok pblockindex

/-- `while (pblockindex->nHeight < nHeight) pblockindex = pblockindex->pnext;` -/
def walkUp (s : NodeState) (nHeight : ℤ) : ℕ → Option Uint256 → Except Failure Uint256
  | _, none => .error (.crash "pblockindex")
  | 0, some _ => .error (.crash "endless loop")
  | fuel + 1, some pblockindex =>
    if s.nHeight pblockindex < nHeight then s.walkUp nHeight fuel (s.pnext pblockindex)
    else .ok pblockindex

/-- `abs(nHeight - pindex->nHeight)` -/
def distanceTo (s : NodeState) (nHeight : ℤ) (pindex : Uint256) : ℕ :=
  (nHeight - s.nHeight pindex).natAbs

/-- Where the walk starts: the genesis block or the tip, or the block found
last where that is nearer. -/
def startFrom (s : NodeState) (nHeight : ℤ) : Option Uint256 :=
  let pblockindex :=
    if nHeight < s.nBestHeight.tdiv 2 then s.pindexGenesisBlock else s.pindexBest
  match s.pblockindexFBBHLast, pblockindex with
  | some pindexLast, some pindex =>
    if s.distanceTo nHeight pindexLast < s.distanceTo nHeight pindex then some pindexLast
    else some pindex
  | _, pblockindex => pblockindex

end NodeState

/-- `FindBlockByHeight` -/
def findBlockByHeight (nHeight : ℤ) : Step NodeState Failure Uint256 := do
  let s ← Step.get
  match s.startFrom nHeight with
  | none => Step.fail (.crash "pblockindex")
  | some pblockindex => do
    let fuel := s.distanceTo nHeight pblockindex + 1
    let pblockindex ← Step.lift (s.walkDown nHeight fuel (some pblockindex))
    let pblockindex ← Step.lift (s.walkUp nHeight fuel (some pblockindex))
    Step.modify fun s => { s with pblockindexFBBHLast := some pblockindex }
    pure pblockindex

/-! ## Runs with lookups -/

variable [P : Platform]

/-- A step of a node that is also asked for blocks by height. -/
inductive LookupStep : NodeState → NodeState → Prop
  | write {s : NodeState} (b : StoredBlock) (h : Appendable s.blockFiles b) :
      LookupStep s { s with blockFiles := s.blockFiles ++ [b] }
  | index {s : NodeState} (b : StoredBlock) (hb : b ∈ s.blockFiles)
      (hp : b.block.hashPrevBlock ∈ s.mapBlockIndex) :
      LookupStep s (closeTxDb (indexBlock b.block b.nFile b.nBlockPos) s).2
  | best {s : NodeState} (block : CBlock) (pindex : Uint256) (h : s.Stores pindex block)
      (hrun : ∀ f, (setBestChain block pindex s).1 = .error f → f.isCrash = false) :
      LookupStep s (closeTxDb (setBestChain block pindex) s).2
  /-- a lookup that returns; a node that crashes takes no more steps -/
  | find {s s' : NodeState} (nHeight : ℤ) (pindex : Uint256) (h₀ : 0 ≤ nHeight)
      (hle : nHeight ≤ s.nBestHeight) (h : findBlockByHeight nHeight s = (.ok pindex, s')) :
      LookupStep s s'
  /-- everything else, which knows nothing of the block found last -/
  | other {s s' : NodeState} (h : s.SameChain s')
      (hlast : s'.pblockindexFBBHLast = s.pblockindexFBBHLast) : LookupStep s s'

/-- The states such a node can reach: nothing has been looked up before the
genesis block is there. -/
inductive LookupReachable : NodeState → Prop
  | genesis {s s' : NodeState} (b : StoredBlock) (hs : s.Empty) (hfiles : s.blockFiles = [b])
      (happ : Appendable [] b) (hb : b.block = genesisBlock)
      (hhash : genesisBlock.getHash = hashGenesisBlock)
      (hlast : s.pblockindexFBBHLast = none)
      (h : addToBlockIndex b.block b.nFile b.nBlockPos s = (.ok (), s')) : LookupReachable s'
  | step {s s' : NodeState} (h : LookupReachable s) (hs : LookupStep s s') : LookupReachable s'

end CryptoBullion
