import CryptoBullion.Model.Platform
/-!
# The merkle tree as a vector

`vMerkleTree` holds the rows of a block's merkle tree one behind the other,
the transactions' hashes first. `BuildMerkleTree` fills it, and
`GetMerkleBranch` reads it, or has it filled where it is empty; so a block
carries it along. Reading past the end of the vector gives nothing here.
No block has so many transactions that an `int` would wrap.
-/

namespace CryptoBullion

variable [P : Platform]

/-- A block with what its `vMerkleTree` holds. -/
structure CachedBlock extends CBlock where
  vMerkleTree : List Uint256

/-- `for (int i = 0; i < nSize; i += 2)`, from `i` on: push the hash of each
pair of the row that starts at `j`. -/
def pushRow (j nSize : ℕ) : (fuel i : ℕ) → List Uint256 → Option (List Uint256)
  | 0, _, vMerkleTree => some vMerkleTree
  | fuel + 1, i, vMerkleTree =>
    if i < nSize then do
      let i2 := min (i + 1) (nSize - 1)
      let h ← vMerkleTree[j + i]?
      let h' ← vMerkleTree[j + i2]?
      pushRow j nSize fuel (i + 2) (vMerkleTree ++ [pairHash h h'])
    else some vMerkleTree

/-- `for (int nSize = vtx.size(); nSize > 1; nSize = (nSize + 1) / 2)` -/
def pushRows : (fuel nSize j : ℕ) → List Uint256 → Option (List Uint256)
  | 0, _, _, vMerkleTree => some vMerkleTree
  | fuel + 1, nSize, j, vMerkleTree =>
    if 1 < nSize then do
      let vMerkleTree ← pushRow j nSize nSize 0 vMerkleTree
      pushRows fuel ((nSize + 1) / 2) (j + nSize) vMerkleTree
    else some vMerkleTree

/-- The loop of `GetMerkleBranch` -/
def readBranch (vMerkleTree : List Uint256) : (fuel nSize j nIndex : ℕ) → Option (List Uint256)
  | 0, _, _, _ => some []
  | fuel + 1, nSize, j, nIndex =>
    if 1 < nSize then do
      let i := min (nIndex ^^^ 1) (nSize - 1)
      let h ← vMerkleTree[j + i]?
      let vMerkleBranch ← readBranch vMerkleTree fuel ((nSize + 1) / 2) (j + nSize) (nIndex >>> 1)
      some (h :: vMerkleBranch)
    else some []

namespace CachedBlock

/-- `BuildMerkleTree`: the root. A row is shorter than the one below it, so
the number of transactions is fuel enough. -/
def buildMerkleTree (b : CachedBlock) : Option (Uint256 × CachedBlock) := do
  let nSize := b.vtx.length
  let vMerkleTree ← pushRows nSize nSize 0 (b.vtx.map CTransaction.getHash)
  some (vMerkleTree.getLast?.getD 0, { b with vMerkleTree := vMerkleTree })

/-- `GetMerkleBranch` -/
def getMerkleBranch (b : CachedBlock) (nIndex : ℕ) : Option (List Uint256 × CachedBlock) := do
  let b ← if b.vMerkleTree = [] then Prod.snd <$> b.buildMerkleTree else some b
  let vMerkleBranch ← readBranch b.vMerkleTree b.vtx.length b.vtx.length 0 nIndex
  some (vMerkleBranch, b)

end CachedBlock

/-- The loop of `CheckMerkleBranch`. `nIndex & 1` is the last bit of a
negative number as well, and `>>=` rounds down. -/
def checkLoop (hash : Uint256) : List Uint256 → ℤ → Uint256
  | [], _ => hash
  | otherside :: vMerkleBranch, nIndex =>
    checkLoop (if nIndex % 2 = 1 then pairHash otherside hash else pairHash hash otherside)
      vMerkleBranch (nIndex / 2)

/-- `CheckMerkleBranch` -/
def checkMerkleBranch (hash : Uint256) (vMerkleBranch : List Uint256) (nIndex : ℤ) : Uint256 :=
  if nIndex = -1 then 0 else checkLoop hash vMerkleBranch nIndex

end CryptoBullion
