import CryptoBullion.Model.CheckBlock
/-!
# Block locators

`CBlockLocator` describes a place in the block chain by a sample of hashes,
newest first: a node that has another chain finds the first of them that is
in its own. The lists and distances here are too short for an `int` to
wrap.
-/

namespace CryptoBullion

/-- `vHave` of a `CBlockLocator` -/
abbrev CBlockLocator := List Uint256

namespace NodeState

/-- `for (int i = 0; pindex && i < nStep; i++) pindex = pindex->pprev;` -/
def stepBack (s : NodeState) : ℕ → Option Uint256 → Option Uint256
  | 0, pindex => pindex
  | _ + 1, none => none
  | nStep + 1, some pindex => s.stepBack nStep (s.pprev pindex)

/-- The loop of `Set`. Each turn goes back a block at least, so the height
of the first is fuel enough. -/
def setLoop (s : NodeState) : (fuel nStep : ℕ) → Option Uint256 → CBlockLocator → CBlockLocator
  | 0, _, _, vHave => vHave
  | _ + 1, _, none, vHave => vHave
  | fuel + 1, nStep, some pindex, vHave =>
    let vHave := vHave ++ [pindex]
    -- exponentially larger steps back
    s.setLoop fuel (if 10 < vHave.length then nStep * 2 else nStep)
      (s.stepBack nStep (some pindex)) vHave

/-- `CBlockLocator(pindex)` -/
def locator [P : Platform] (s : NodeState) (pindex : Uint256) : CBlockLocator :=
  s.setLoop ((s.nHeight pindex).toNat + 1) 1 (some pindex) [] ++ [hashGenesisBlock]

/-- "Find the first block the caller has in the main chain": such a block -/
def hasInMainChain (s : NodeState) (hash : Uint256) : Bool :=
  s.mapBlockIndex.contains hash && s.isInMainChain hash

/-- The loop of `GetDistanceBack` -/
def distanceLoop (s : NodeState) : (nDistance nStep : ℕ) → CBlockLocator → ℕ
  | nDistance, _, [] => nDistance
  | nDistance, nStep, hash :: vHave =>
    if s.hasInMainChain hash then nDistance
    else s.distanceLoop (nDistance + nStep) (if 10 < nDistance + nStep then nStep * 2 else nStep) vHave

/-- `GetDistanceBack`: "Retrace how far back it was in the sender's
branch" -/
def getDistanceBack (s : NodeState) (vHave : CBlockLocator) : ℕ := s.distanceLoop 0 1 vHave

/-- `GetBlockIndex` -/
def getBlockIndex (s : NodeState) (vHave : CBlockLocator) : Option Uint256 :=
  (vHave.find? s.hasInMainChain).or s.pindexGenesisBlock

end NodeState

end CryptoBullion
