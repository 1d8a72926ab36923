import CryptoBullion.Context.MerkleRoot
import CryptoBullion.Model.MerkleBranch
/-!
# Merkle branches verify

The vector `BuildMerkleTree` fills is the rows of the tree, and the indices
`GetMerkleBranch` reads at are those of the other hashes on the way up
(`readBranch_eq`); `CheckMerkleBranch` goes that way. So a branch leads
from its transaction to the root, and from no other hash unless the pair
hash collides.
-/

namespace CryptoBullion

variable [P : Platform]

open MerkleTree (Root row rows nodes branch other climb climbed pairAt)

variable {b : CachedBlock} {l pre suf t : List Uint256} {h hash : Uint256} {i m fuel : ℕ}

omit [P : Platform] in
/-- A row is found where the rows before it end. -/
theorem getElem?_row_at (hi : i < l.length) : (pre ++ l ++ suf)[pre.length + i]? = l[i]? := by
  rw [List.append_assoc, List.getElem?_append_right (Nat.le_add_right _ _),
    Nat.add_sub_cancel_left, List.getElem?_append_left hi]

/-- **A turn of the outer loop** pushes the row above. -/
theorem pushRow_eq (hfuel : l.length ≤ 2 * (m + fuel)) :
    pushRow pre.length l.length fuel (2 * m) (pre ++ l ++ (row pairHash l).take m) =
      some (pre ++ l ++ row pairHash l) := by
  induction fuel generalizing m with
  | zero =>
    have hlen : (row pairHash l).length = (l.length + 1) / 2 := MerkleTree.length_row
    rw [pushRow, List.take_of_length_le (by omega)]
  | succ fuel ih =>
    rw [pushRow]
    by_cases hm : 2 * m < l.length
    · have h₁ : l[2 * m]? = some l[2 * m] := List.getElem?_eq_getElem hm
      have hlt : min (2 * m + 1) (l.length - 1) < l.length := by omega
      have h₂ := List.getElem?_eq_getElem hlt
      have hrow : (row pairHash l)[m]? =
          some (pairHash l[2 * m] l[min (2 * m + 1) (l.length - 1)]) := by
        rw [MerkleTree.getElem?_row hm, h₁, h₂]
        rfl
      rw [if_pos hm]
      dsimp only
      rw [getElem?_row_at hm, getElem?_row_at hlt, h₁, h₂]
      change pushRow pre.length l.length fuel (2 * m + 2) _ = _
      rw [show 2 * m + 2 = 2 * (m + 1) by omega, ← ih (m := m + 1) (by omega),
        List.take_add_one, hrow, Option.toList_some, List.append_assoc (pre ++ l)]
    · have hlen : (row pairHash l).length = (l.length + 1) / 2 := MerkleTree.length_row
      rw [if_neg hm, List.take_of_length_le (by omega)]

/-- The rows of a tree of two hashes or more: the lowest, and those of the
row above. -/
theorem nodes_succ (hlen : 1 < l.length) :
    nodes pairHash (fuel + 1) l = l ++ nodes pairHash fuel (row pairHash l) := by
  rw [nodes, rows, if_neg (by omega), List.flatten_cons, ← nodes]

theorem nodes_of_length_le (hlen : l.length ≤ 1) : nodes pairHash (fuel + 1) l = l := by
  rw [nodes, rows, if_pos hlen, List.flatten_cons, List.flatten_nil, List.append_nil]

/-- **The vector is the rows of the tree**, one behind the other. -/
theorem pushRows_eq :
    pushRows fuel l.length pre.length (pre ++ l) = some (pre ++ nodes pairHash (fuel + 1) l) := by
  induction fuel generalizing l pre with
  | zero =>
    rcases Nat.lt_or_ge 1 l.length with hlen | hlen
    · rw [nodes_succ hlen]
      simp [pushRows, nodes, rows]
    · rw [nodes_of_length_le hlen, pushRows]
  | succ fuel ih =>
    rw [pushRows]
    by_cases hlen : 1 < l.length
    · have hpush : pushRow pre.length l.length l.length 0 (pre ++ l) =
          some (pre ++ l ++ row pairHash l) := by
        have hfirst : pushRow pre.length l.length l.length (2 * 0)
            (pre ++ l ++ (row pairHash l).take 0) = _ := pushRow_eq (by omega)
        rwa [Nat.mul_zero, List.take_zero, List.append_nil] at hfirst
      rw [if_pos hlen, hpush, nodes_succ hlen, ← List.append_assoc, ← ih, MerkleTree.length_row,
        List.length_append]
      rfl
    · rw [if_neg hlen, nodes_of_length_le (by omega)]

/-- **Reading the vector gives the branch.** -/
theorem readBranch_eq (ht : t = pre ++ nodes pairHash (fuel + 1) l) (hi : i < l.length) :
    readBranch t fuel l.length pre.length i = some (branch pairHash fuel l i) := by
  induction fuel generalizing l pre i with
  | zero => rfl
  | succ fuel ih =>
    rw [readBranch, branch]
    by_cases hlen : 1 < l.length
    · have hother : other l.length i < l.length := by
        unfold other
        omega
      have hget := List.getElem?_eq_getElem hother
      have hrow : (row pairHash l).length = (l.length + 1) / 2 := MerkleTree.length_row
      rw [nodes_succ hlen, ← List.append_assoc] at ht
      have hrest : readBranch t fuel (row pairHash l).length (pre ++ l).length (i / 2) = _ :=
        ih ht (by omega)
      rw [hrow, List.length_append] at hrest
      have hread : t[pre.length + min (i ^^^ 1) (l.length - 1)]? = some l[other l.length i] := by
        rw [ht, ← hget]
        exact getElem?_row_at hother
      rw [if_pos hlen, if_neg (by omega)]
      dsimp only
      rw [hread, hget, Nat.shiftRight_one]
      change (readBranch t fuel ((l.length + 1) / 2) (pre.length + l.length) (i / 2)).bind _ = _
      rw [hrest]
      rfl
    · rw [if_neg hlen, if_pos (by omega)]

/-- Checking a branch is climbing it. -/
theorem checkMerkleBranch_eq : checkMerkleBranch hash l (i : ℤ) = climb pairHash hash l i := by
  unfold checkMerkleBranch
  rw [if_neg (by omega)]
  induction l generalizing hash i with
  | nil => rfl
  | cons otherside l ih =>
    have hhalf : (i : ℤ) / 2 = ((i / 2 : ℕ) : ℤ) := by omega
    rw [checkLoop, climb, hhalf, ih]
    unfold pairAt
    by_cases hodd : i % 2 = 1
    · rw [if_pos (by omega), if_pos hodd]
    · rw [if_neg (by omega), if_neg hodd]

omit [P : Platform] in
theorem getLast?_flatten {ls : List (List Uint256)}
    (h : ls.getLast?.bind List.getLast? = some hash) : ls.flatten.getLast? = some hash := by
  obtain ⟨last, hlast, hget⟩ := Option.bind_eq_some_iff.1 h
  obtain ⟨init, rfl⟩ := List.getLast?_eq_some_iff.1 hlast
  obtain ⟨init', rfl⟩ := List.getLast?_eq_some_iff.1 hget
  rw [List.flatten_append, List.flatten_cons, List.flatten_nil, List.append_nil, ← List.append_assoc,
    List.getLast?_concat]

namespace CachedBlock

/-- **`BuildMerkleTree`** returns the root and leaves the nodes. -/
theorem buildMerkleTree_eq (hne : b.vtx ≠ []) : b.buildMerkleTree =
    some (b.toCBlock.buildMerkleTree, { b with vMerkleTree := b.toCBlock.merkleNodes }) := by
  have hpush : pushRows b.vtx.length (b.vtx.map CTransaction.getHash).length ([] : List Uint256).length
      ([] ++ b.vtx.map CTransaction.getHash) = _ := pushRows_eq
  rw [List.length_map, List.length_nil, List.nil_append, List.nil_append,
    ← CBlock.merkleNodes_eq] at hpush
  obtain ⟨r, hr, -⟩ : ∃ r, _ ∧ Root pairHash (b.vtx.map CTransaction.getHash) r :=
    MerkleTree.root_of_rows (b.vtx.length + 1) (by simpa using hne) (by simp)
  have hlast : b.toCBlock.merkleNodes.getLast? = some r := by
    rw [CBlock.merkleNodes_eq]
    exact getLast?_flatten hr
  have hroot : b.toCBlock.buildMerkleTree = r := by
    rw [CBlock.buildMerkleTree, CBlock.vMerkleTree, merkleRows_eq, hr, Option.getD_some]
  unfold buildMerkleTree
  dsimp only
  rw [hpush, hroot]
  change some (Option.getD _ 0, _) = _
  rw [hlast, Option.getD_some]

/-- **`GetMerkleBranch`** returns the branch, where the tree is there or not
built yet. -/
theorem getMerkleBranch_eq (hi : i < b.vtx.length)
    (ht : b.vMerkleTree = b.toCBlock.merkleNodes ∨ b.vMerkleTree = []) :
    b.getMerkleBranch i =
      some (branch pairHash b.vtx.length (b.vtx.map CTransaction.getHash) i,
        { b with vMerkleTree := b.toCBlock.merkleNodes }) := by
  have hne : b.vtx ≠ [] := List.ne_nil_of_length_pos (by omega)
  have hread : readBranch b.toCBlock.merkleNodes b.vtx.length (b.vtx.map CTransaction.getHash).length
      ([] : List Uint256).length i = _ :=
    readBranch_eq (by rw [CBlock.merkleNodes_eq, List.nil_append]) (by simpa using hi)
  rw [List.length_map, List.length_nil] at hread
  unfold getMerkleBranch
  split_ifs with hempty
  · rw [buildMerkleTree_eq hne]
    change (readBranch b.toCBlock.merkleNodes b.vtx.length b.vtx.length 0 i).bind _ = _
    rw [hread]
    rfl
  · have htree := ht.resolve_right hempty
    change (readBranch b.vMerkleTree b.vtx.length b.vtx.length 0 i).bind _ = _
    rw [htree, hread, ← htree]
    rfl

end CachedBlock

/-- **Merkle branches verify.** Whatever `vMerkleTree` held before
`BuildMerkleTree`, and also where `GetMerkleBranch` finds it empty, the
branch of each transaction leads to the root; and no other hash verifies
against it, as long as the pair hash is injective on what is hashed. -/
theorem merkleBranch_verifies (b : CachedBlock) (i : ℕ) (hi : i < b.vtx.length) :
    ∃ root built vMerkleBranch, b.buildMerkleTree = some (root, built) ∧
      built.getMerkleBranch i = some (vMerkleBranch, built) ∧
      (b.vMerkleTree = [] → b.getMerkleBranch i = some (vMerkleBranch, built)) ∧
      checkMerkleBranch b.vtx[i].getHash vMerkleBranch i = root ∧
      ∀ h : Uint256,
        Set.InjOn (fun p : Uint256 × Uint256 => pairHash p.1 p.2)
          {p | p ∈ climbed pairHash h vMerkleBranch i ∨
            p ∈ climbed pairHash b.vtx[i].getHash vMerkleBranch i} →
        checkMerkleBranch h vMerkleBranch i = root → h = b.vtx[i].getHash := by
  have hne : b.vtx ≠ [] := List.ne_nil_of_length_pos (by omega)
  have hroot : climb pairHash b.vtx[i].getHash
      (branch pairHash b.vtx.length (b.vtx.map CTransaction.getHash) i) i =
      b.toCBlock.buildMerkleTree :=
    MerkleTree.climb_branch b.vtx.length (CBlock.root_buildMerkleTree hne) (by simp)
      (by simpa using hi) (by simp [hi])
  refine ⟨_, _, _, CachedBlock.buildMerkleTree_eq hne,
    CachedBlock.getMerkleBranch_eq (b := { b with vMerkleTree := b.toCBlock.merkleNodes }) hi
      (.inl rfl), fun hempty => CachedBlock.getMerkleBranch_eq hi (.inr hempty), ?_, ?_⟩
  · rw [checkMerkleBranch_eq]
    exact hroot
  · intro h hinj hcheck
    rw [checkMerkleBranch_eq] at hcheck
    exact MerkleTree.climb_injOn hinj (hcheck.trans hroot.symm)

omit [P : Platform] in
/-- The second of two transactions: its branch is the first one's hash, and
five is no hash of it. -/
theorem merkleBranch_verifies_twoTxs :
    letI := TwoTxs.platform
    ∃ vMerkleBranch root, checkMerkleBranch (TwoTxs.tx 2).getHash vMerkleBranch 1 = root ∧
      checkMerkleBranch 5 vMerkleBranch 1 ≠ root := by
  let := TwoTxs.platform
  obtain ⟨root, built, vMerkleBranch, -, -, hbranch, hcheck, hinj⟩ :=
    merkleBranch_verifies { toCBlock := TwoTxs.block 1, vMerkleTree := [] } 1 (by decide)
  have hread : (CachedBlock.getMerkleBranch
      { toCBlock := TwoTxs.block 1, vMerkleTree := [] } 1).map Prod.fst = some [1] := by
    decide +kernel
  have hone : vMerkleBranch = [1] := by
    rw [hbranch rfl] at hread
    exact Option.some.inj hread
  refine ⟨vMerkleBranch, root, hcheck, fun hfive => ?_⟩
  have hpairs : pairHash 1#256 5#256 ≠ pairHash 1#256 2#256 := by decide +kernel
  have htwo : (TwoTxs.tx 2).getHash = 2#256 := by decide +kernel
  refine absurd (hinj 5 ?_ hfive) (by
    change (5 : Uint256) ≠ (TwoTxs.tx 2).getHash
    rw [htwo]
    decide)
  have hset : ∀ p : Uint256 × Uint256, p ∈ climbed pairHash 5#256 vMerkleBranch 1 ∨
      p ∈ climbed pairHash (TwoTxs.tx 2).getHash vMerkleBranch 1 → p = (1, 5) ∨ p = (1, 2) := by
    rw [hone, htwo]
    intro p hp
    simpa [climbed, pairAt] using hp
  intro p hp q hq heq
  rcases hset p hp with rfl | rfl <;> rcases hset q hq with rfl | rfl
  · rfl
  · exact absurd heq hpairs
  · exact absurd heq.symm hpairs
  · rfl

end CryptoBullion
