import CryptoBullion.Common.MerkleTree
import CryptoBullion.Model.CheckBlock
/-!
# What a merkle root commits to

`BuildMerkleTree` is the general tree with `Hash` of two concatenated
hashes for a node. Its root is one of many lists of transactions, but of
one only among those that `CheckBlock` lets past its look for duplicates,
as long as the hash function does not collide on the two trees.
-/

namespace CryptoBullion

variable [P : Platform]

open MerkleTree (Root)

/-- The hashes `BuildMerkleTree` leaves in `vMerkleTree`. -/
def CBlock.merkleNodes (b : CBlock) : List Uint256 := b.vMerkleTree.flatten

variable {b b' : CBlock} {hs : List Uint256} {fuel : ℕ}

theorem merkleRow_eq : ∀ {hs : List Uint256}, merkleRow hs = MerkleTree.row pairHash hs
  | [] => rfl
  | [_] => rfl
  | _ :: _ :: hs => by rw [merkleRow, merkleRow_eq, MerkleTree.row, pairHash]

theorem merkleRows_eq : merkleRows fuel hs = MerkleTree.rows pairHash fuel hs := by
  induction fuel generalizing hs with
  | zero => rfl
  | succ fuel ih => rw [merkleRows, MerkleTree.rows, ih, merkleRow_eq]

theorem CBlock.merkleNodes_eq : b.merkleNodes =
    MerkleTree.nodes pairHash (b.vtx.length + 1) (b.vtx.map CTransaction.getHash) := by
  rw [merkleNodes, vMerkleTree, merkleRows_eq, MerkleTree.nodes]

/-- **`BuildMerkleTree` returns the root** of the transactions' hashes. -/
theorem CBlock.root_buildMerkleTree (hne : b.vtx ≠ []) :
    Root pairHash (b.vtx.map CTransaction.getHash) b.buildMerkleTree := by
  have hne' : b.vtx.map CTransaction.getHash ≠ [] := by simpa using hne
  obtain ⟨r, hr, hroot⟩ : ∃ r, _ ∧ Root pairHash _ r := MerkleTree.root_of_rows (b.vtx.length + 1) hne' (by simp)
  have heq : b.buildMerkleTree = r := by
    rw [buildMerkleTree, vMerkleTree, merkleRows_eq, hr, Option.getD_some]
  rwa [heq]

/-- **The root of a block that has passed the look for duplicates commits
to its transactions**: two such blocks with one root have the same
transaction hashes in the same order, when the pair hash is injective on
the nodes of the two trees and no transaction's hash is one. Without that
check it does not: a last transaction may be there once or twice. -/
theorem merkleRoot_commits (b b' : CBlock) (hne : b.vtx ≠ []) (hne' : b'.vtx ≠ [])
    (hnodup : (b.vtx.map CTransaction.getHash).Nodup)
    (hnodup' : (b'.vtx.map CTransaction.getHash).Nodup)
    (hinj : ∀ x y z w : Uint256, [x, y, z, w] ⊆ b.merkleNodes ++ b'.merkleNodes →
      pairHash x y = pairHash z w → x = z ∧ y = w)
    (hleaf : ∀ tx ∈ b.vtx ++ b'.vtx, ∀ x y : Uint256, [x, y] ⊆ b.merkleNodes ++ b'.merkleNodes →
      tx.getHash ≠ pairHash x y)
    (hroot : b.buildMerkleTree = b'.buildMerkleTree) :
    b.vtx.map CTransaction.getHash = b'.vtx.map CTransaction.getHash ∧
      ∀ (block : CBlock) (txs : List CTransaction) (tx : CTransaction), Even txs.length → txs ≠ [] →
        ({ block with vtx := txs ++ [tx] } : CBlock).buildMerkleTree =
          ({ block with vtx := txs ++ [tx, tx] } : CBlock).buildMerkleTree := by
  refine ⟨?_, fun block txs tx heven hne => ?_⟩
  · set N : Set Uint256 := {x | x ∈ b.merkleNodes ++ b'.merkleNodes} with hN
    set leaf : Set Uint256 := {x | ∃ tx ∈ b.vtx ++ b'.vtx, tx.getHash = x} with hleafdef
    have hapart : MerkleTree.Apart pairHash N leaf := by
      refine ⟨fun x hx y hy z hz w hw heq => hinj x y z w ?_ heq, ?_⟩
      · intro v hv
        simp only [List.mem_cons, List.not_mem_nil, or_false] at hv
        rcases hv with rfl | rfl | rfl | rfl <;> assumption
      · rintro v ⟨tx, htx, rfl⟩ x hx y hy
        refine hleaf tx htx x y fun v hv => ?_
        simp only [List.mem_cons, List.not_mem_nil, or_false] at hv
        rcases hv with rfl | rfl <;> assumption
    have hlevel : ∀ c : CBlock, c.vtx ⊆ b.vtx ++ b'.vtx →
        ∀ x ∈ c.vtx.map CTransaction.getHash, MerkleTree.Level pairHash N leaf 0 x := by
      intro c hc x hx
      obtain ⟨tx, htx, rfl⟩ := List.mem_map.1 hx
      exact .leaf ⟨tx, hc htx, rfl⟩
    have hr := CBlock.root_buildMerkleTree hne
    rw [hroot] at hr
    refine Root.unique hapart (b.vtx.length + 1) (b'.vtx.length + 1) hr
      (CBlock.root_buildMerkleTree hne') (by simp) (by simp) ?_ ?_ (hlevel b (List.subset_append_left _ _))
      (hlevel b' (List.subset_append_right _ _)) hnodup hnodup'
    · rw [← CBlock.merkleNodes_eq]
      exact fun x hx => List.mem_append_left _ hx
    · rw [← CBlock.merkleNodes_eq]
      exact fun x hx => List.mem_append_right _ hx
  · have hlen := List.length_pos_iff.2 hne
    have h₁ := CBlock.root_buildMerkleTree (b := { block with vtx := txs ++ [tx] }) (by simp)
    have h₂ := CBlock.root_buildMerkleTree (b := { block with vtx := txs ++ [tx, tx] }) (by simp)
    refine Root.eq h₁ (.step (by simp; omega) ?_)
    have h₃ := h₂.above (by simp)
    simp only [List.map_append, List.map_cons, List.map_nil] at h₃ ⊢
    rwa [MerkleTree.row_twins (by simpa using heven)]

/-! ## Two blocks with one list -/

namespace TwoTxs

/-- A transaction's hash is its time, that of two nodes is put together
from their lowest bytes. -/
def hash (bytes : List UInt8) : Uint256 :=
  if bytes.length = 64 then
    BitVec.ofNat 256 (3 + 4 * (bytes.headD 0).toNat + 64 * ((bytes.drop 32).headD 0).toNat)
  else BitVec.ofNat 256 (ofLeBytes ((bytes.drop 4).take 4))

@[reducible] def platform : Platform := { Platform.toy with hash := hash }

def tx (nTime : ℕ) : CTransaction where
  nVersion := 1
  nTime := nTime
  vin := [{ prevout := COutPoint.null, scriptSig := [0, 0], nSequence := uintMax }]
  vout := [{ nValue := 9 * coin, scriptPubKey := [] }]
  nLockTime := 0

def block (nNonce : ℕ) : CBlock where
  nVersion := 1
  hashPrevBlock := 0
  hashMerkleRoot := 0
  nTime := 0
  nBits := 0
  nNonce := nNonce
  vtx := [tx 1, tx 2]
  vchBlockSig := []

end TwoTxs

omit [P : Platform] in
theorem merkleRoot_commits_twoTxs :
    letI := TwoTxs.platform
    (TwoTxs.block 1).vtx.map CTransaction.getHash = (TwoTxs.block 2).vtx.map CTransaction.getHash ∧
      ∀ (block : CBlock) (txs : List CTransaction) (tx : CTransaction), Even txs.length → txs ≠ [] →
        ({ block with vtx := txs ++ [tx] } : CBlock).buildMerkleTree =
          ({ block with vtx := txs ++ [tx, tx] } : CBlock).buildMerkleTree := by
  let := TwoTxs.platform
  have hnodes : ∀ n, (TwoTxs.block n).merkleNodes = [1, 2, 135] := by
    have h₀ : (TwoTxs.block 0).merkleNodes = [1, 2, 135] := by decide +kernel
    exact fun _ => h₀
  have hpairs : pairHash 1#256 1#256 = 71#256 ∧ pairHash 1#256 2#256 = 135#256 ∧ pairHash 1#256 135#256 = 8647#256 ∧
      pairHash 2#256 1#256 = 75#256 ∧ pairHash 2#256 2#256 = 139#256 ∧ pairHash 2#256 135#256 = 8651#256 ∧
      pairHash 135#256 1#256 = 607#256 ∧ pairHash 135#256 2#256 = 671#256 ∧ pairHash 135#256 135#256 = 9183#256 := by
    decide +kernel
  obtain ⟨h₁₁, h₁₂, h₁₃, h₂₁, h₂₂, h₂₃, h₃₁, h₃₂, h₃₃⟩ := hpairs
  have htimes : (TwoTxs.tx 1).getHash = 1#256 ∧ (TwoTxs.tx 2).getHash = 2#256 := by decide +kernel
  have hinj : ∀ x ∈ ([1, 2, 135] : List Uint256), ∀ y ∈ ([1, 2, 135] : List Uint256),
      ∀ z ∈ ([1, 2, 135] : List Uint256), ∀ w ∈ ([1, 2, 135] : List Uint256),
        pairHash x y = pairHash z w → x = z ∧ y = w := by
    simp [h₁₁, h₁₂, h₁₃, h₂₁, h₂₂, h₂₃, h₃₁, h₃₂, h₃₃]
  have hleaf : ∀ tx ∈ [TwoTxs.tx 1, TwoTxs.tx 2], ∀ x ∈ ([1, 2, 135] : List Uint256),
      ∀ y ∈ ([1, 2, 135] : List Uint256), tx.getHash ≠ pairHash x y := by
    simp [htimes, h₁₁, h₁₂, h₁₃, h₂₁, h₂₂, h₂₃, h₃₁, h₃₂, h₃₃]
  have hmem : ∀ {l : List Uint256} {x : Uint256},
      l ⊆ (TwoTxs.block 1).merkleNodes ++ (TwoTxs.block 2).merkleNodes → x ∈ l →
        x ∈ ([1, 2, 135] : List Uint256) := by
    intro l x hl hx
    have := hl hx
    rwa [hnodes, hnodes, List.mem_append, or_self] at this
  refine merkleRoot_commits (TwoTxs.block 1) (TwoTxs.block 2) (by simp [TwoTxs.block])
    (by simp [TwoTxs.block]) (by decide +kernel) (by decide +kernel) ?_ ?_ (by decide +kernel)
  · intro x y z w hl
    exact hinj x (hmem hl (by simp)) y (hmem hl (by simp)) z (hmem hl (by simp)) w (hmem hl (by simp))
  · intro tx htx x y hl
    have htx' : tx ∈ [TwoTxs.tx 1, TwoTxs.tx 2] := (List.mem_append.1 htx).elim id id
    exact hleaf tx htx' x (hmem hl (by simp)) y (hmem hl (by simp))

end CryptoBullion
