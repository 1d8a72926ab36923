import CryptoBullion.Chain.Branches
/-!
# What is read back from a transaction's place

A transaction's place is the file, the offset of its block and its own
offset. The transactions of a block lie behind one another between the
header and the block's end, and the blocks of a file lie apart, so at one
offset of a file there is one transaction. What `ReadFromDisk` reads from the
place of a stored transaction is that transaction, and no such place looks
like the one that stands for the memory pool.
-/

namespace CryptoBullion

open NodeState

variable {s s' : NodeState} {b d : StoredBlock} {p q : ℕ × CTransaction} {off : ℕ}
variable {txs : List CTransaction} {tx : CTransaction} {ans : Answer}

/-! ## Inside a block -/

/-- A transaction takes up some bytes. -/
theorem CTransaction.serialize_ne_nil (tx : CTransaction) : 0 < tx.getSerializeSize := by
  unfold CTransaction.getSerializeSize CTransaction.serialize
  simp only [List.length_append, length_leBytes]
  omega

/-- The header, the transactions and the signature make up a block. -/
theorem CBlock.firstTxOffset_add_le (block : CBlock) :
    block.firstTxOffset + (block.vtx.map CTransaction.getSerializeSize).sum ≤ block.getSerializeSize := by
  have hbytes : (block.vtx.map CTransaction.getSerializeSize).sum =
      (block.vtx.flatMap CTransaction.serialize).length := by
    rw [List.length_flatMap]
    rfl
  unfold CBlock.getSerializeSize CBlock.serialize serializeVector CBlock.firstTxOffset
  simp only [List.length_append, length_serializeHeader, length_writeCompactSize]
  omega

theorem bounds_of_mem_withOffsets (h : p ∈ withOffsets off txs) :
    off ≤ p.1 ∧ p.1 + p.2.getSerializeSize ≤ off + (txs.map CTransaction.getSerializeSize).sum := by
  induction txs generalizing off with
  | nil => exact absurd h List.not_mem_nil
  | cons tx txs ih =>
    rw [List.map_cons, List.sum_cons]
    rcases List.mem_cons.1 h with rfl | h
    · exact ⟨le_rfl, by dsimp only; omega⟩
    · obtain ⟨hlow, hhigh⟩ := ih h
      exact ⟨by omega, by omega⟩

/-- **They lie behind one another.** -/
theorem pairwise_withOffsets : (withOffsets off txs).Pairwise fun p q => p.1 < q.1 := by
  induction txs generalizing off with
  | nil => exact .nil
  | cons tx txs ih =>
    refine .cons (fun q hq => ?_) ih
    have hsize := tx.serialize_ne_nil
    have hlow := (bounds_of_mem_withOffsets hq).1
    dsimp only
    omega

/-- And all of them between the header and the end. -/
theorem StoredBlock.bounds_of_mem_txs (h : p ∈ b.txs) : b.nBlockPos + 80 ≤ p.1 ∧ p.1 < b.endPos := by
  have hsize := p.2.serialize_ne_nil
  have hend := b.block.firstTxOffset_add_le
  obtain ⟨hlow, hhigh⟩ := bounds_of_mem_withOffsets h
  unfold CBlock.firstTxOffset at *
  unfold StoredBlock.endPos
  exact ⟨by omega, by omega⟩

/-! ## In a file -/

variable [P : Platform]

/-- **At one offset of a file there is one transaction.** -/
theorem NodeState.Filed.pairwise_txs (hf : s.Filed) (nFile : ℕ) :
    ((s.blockFiles.filter (·.nFile = nFile)).flatMap (·.txs)).Pairwise
      fun p q => p.1 < q.1 := by
  rw [List.pairwise_flatMap]
  refine ⟨fun b _ => pairwise_withOffsets, ?_⟩
  rw [List.pairwise_filter]
  refine hf.apart.imp fun {b d} happ hb hd p hp q hq => ?_
  have hfile : d.nFile = b.nFile := by
    rw [decide_eq_true_iff] at hb hd
    rw [hd, hb]
  have hapart := happ hfile
  have hleft := (StoredBlock.bounds_of_mem_txs hp).2
  have hright := (StoredBlock.bounds_of_mem_txs hq).1
  omega

omit [P : Platform] in
/-- In a list in order the first of a key is the only one. -/
theorem find?_of_pairwise {l : List (ℕ × CTransaction)} (hl : l.Pairwise fun p q => p.1 < q.1)
    (hp : p ∈ l) : l.find? (·.1 = p.1) = some p := by
  induction l with
  | nil => exact absurd hp List.not_mem_nil
  | cons q l ih =>
    rw [List.pairwise_cons] at hl
    rcases List.mem_cons.1 hp with rfl | hp
    · exact List.find?_cons_of_pos (by simp)
    · have hlt := hl.1 p hp
      rw [List.find?_cons_of_neg (by simpa using hlt.ne)]
      exact ih hl.2 hp

/-- The place of a transaction of a stored block. -/
def StoredBlock.posOf (b : StoredBlock) (p : ℕ × CTransaction) : CDiskTxPos := ⟨b.nFile, b.nBlockPos, p.1⟩

/-- **What is read back is what was stored**, if anything is. -/
theorem NodeState.Filed.eq_of_readTx (hf : s.Filed) (hb : b ∈ s.blockFiles) (hp : p ∈ b.txs)
    (h : readTx s.blockFiles ans (b.posOf p) = .ok tx) : tx = p.2 := by
  have hmem : p ∈ (s.blockFiles.filter (·.nFile = b.nFile)).flatMap (·.txs) :=
    List.mem_flatMap.2 ⟨b, List.mem_filter.2 ⟨hb, by simp⟩, hp⟩
  rw [readTx] at h
  obtain ⟨-, hread⟩ := except_unit_bind_eq_ok.1 h
  have hfind := find?_of_pairwise (hf.pairwise_txs b.nFile) hmem
  split at hread
  · exact absurd hread (by simp)
  · rename_i p' hp'
    obtain rfl : p' = p := Option.some.inj (hp'.symm.trans hfind)
    exact (Except.ok.inj hread).symm

/-- A stored transaction is on disk, not in the pool. -/
theorem NodeState.Filed.posOf_ne (hf : s.Filed) (hb : b ∈ s.blockFiles) :
    b.posOf p ≠ CDiskTxPos.inMemPool := by
  have hframe := hf.frame b hb
  intro heq
  have hpos : b.nBlockPos = 1 := congrArg CDiskTxPos.nBlockPos heq
  omega

end CryptoBullion
