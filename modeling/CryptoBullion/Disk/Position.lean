import CryptoBullion.Model.BlockFile
import CryptoBullion.Disk.Encoding
import CryptoBullion.Messages.Framing
import CryptoBullion.Model.State
/-!
# Where a transaction is in its file

`ConnectBlock` works a transaction's position out from sizes and never
asks the writer. `txStart` is where the writer puts it. The two are the
same number to a word's width, so that whatever is appended to the files
afterwards, reading at the position gives the transaction back wherever
the number fits its word.
-/

namespace CryptoBullion

variable {T : RecordSizes} {b : CBlock}

/-! ## The layout of a block -/

/-- What a block's encoding has in front of its `i`th transaction. -/
def CBlock.before (b : CBlock) (i : ℕ) : List UInt8 :=
  b.serializeHeader ++ writeCompactSize b.vtx.length ++
    (b.vtx.take i).flatMap CTransaction.serialize

/-- What it has behind it. -/
def CBlock.behind (b : CBlock) (i : ℕ) : List UInt8 :=
  (b.vtx.drop (i + 1)).flatMap CTransaction.serialize ++ serializeBytes b.vchBlockSig

/-- **A block's encoding around its `i`th transaction.** -/
theorem CBlock.serialize_around {i : ℕ} (hi : i < b.vtx.length) :
    b.serialize = b.before i ++ b.vtx[i].serialize ++ b.behind i := by
  have hsplit : b.vtx.flatMap CTransaction.serialize =
      (b.vtx.take i).flatMap CTransaction.serialize ++ b.vtx[i].serialize ++
        (b.vtx.drop (i + 1)).flatMap CTransaction.serialize := by
    conv_lhs => rw [← List.take_append_drop i b.vtx, List.drop_eq_getElem_cons hi]
    rw [List.flatMap_append, List.flatMap_cons, List.append_assoc]
  unfold CBlock.serialize CBlock.before CBlock.behind serializeVector
  rw [hsplit]
  simp only [List.append_assoc]

/-! ## The position worked out -/

/-- **The loop adds up the sizes** of the transactions before. -/
theorem getElem_nTxPosLoop {n i : ℕ} {vtx : List CTransaction} (hn : n < 2 ^ 32)
    (hi : i < vtx.length) : (nTxPosLoop T n vtx)[i]? =
      some (toUint (n + ((vtx.take i).flatMap CTransaction.serialize).length)) := by
  induction vtx generalizing n i with
  | nil => exact absurd hi (by simp)
  | cons tx vtx ih =>
    unfold nTxPosLoop
    cases i with
    | zero => simp [toUint_of_lt hn]
    | succ i =>
      rw [List.getElem?_cons_succ, ih toUint_lt (by simpa using hi), is_transaction.size]
      simp [Nat.add_assoc]

/-- **An empty block is eighty-two bytes.** -/
theorem getSerializeSize_null :
    (CBlock.serial T).getSerializeSize serDisk clientVersion CBlock.null = 82 := by
  rw [(is_block rfl).size]
  rfl

/-- **`ConnectBlock` finds what the writer did**, as far as a word holds
it. -/
theorem getElem_nTxPos {nBlockPos i : ℕ} (hi : i < b.vtx.length) :
    (b.nTxPos T nBlockPos)[i]? = some (toUint (nBlockPos + (b.before i).length)) := by
  unfold CBlock.nTxPos CBlock.before
  rw [getElem_nTxPosLoop toUint_lt hi, getSerializeSize_null, toUint_toUint_add]
  simp only [List.length_append, length_serializeHeader, length_writeCompactSize]
  congr 2
  have hzero : getSizeOfCompactSize 0 = 1 := rfl
  omega

/-- **The node's own offsets** are these positions, before the word cuts
them. -/
theorem nTxPos_eq_txs {b : StoredBlock} :
    b.block.nTxPos T b.nBlockPos = b.txs.map fun p => toUint p.1 := by
  have hloop : ∀ (vtx : List CTransaction) (off : ℕ),
      nTxPosLoop T (toUint off) vtx = (withOffsets off vtx).map fun p => toUint p.1 := by
    intro vtx
    induction vtx with
    | nil => exact fun _ => rfl
    | cons tx vtx ih =>
      intro off
      rw [nTxPosLoop, withOffsets, List.map_cons, is_transaction.size, toUint_toUint_add,
        toUint_add_toUint, ih]
      rfl
  have hzero : getSizeOfCompactSize 0 = 1 := rfl
  unfold CBlock.nTxPos StoredBlock.txs CBlock.firstTxOffset
  rw [getSerializeSize_null, ← hloop]
  congr 2
  omega

/-! ## The files -/

variable [P : Platform] {files files' : BlockFiles} {nFile nCurrentBlockFile : ℕ}
variable {w : WrittenBlock}

omit [P : Platform] in
theorem of_appendBlockFile {n : ℕ} (h : appendBlockFile files n = some nFile) :
    isBlockFile nFile = true ∧ (files nFile).length < 0x7F000000 - maxSize := by
  unfold appendBlockFile at h
  split_ifs at h with hfile hroom
  · obtain rfl := Option.some.inj h
    exact ⟨hfile, hroom⟩
  · exact of_appendBlockFile h
termination_by uintMax - n
decreasing_by
  simp only [isBlockFile, Bool.not_eq_true', Bool.or_eq_false_iff, decide_eq_false_iff_not] at hfile
  omega

/-- **What `WriteToDisk` leaves**: the block's encoding eight bytes behind
what was there. -/
theorem of_writeToDisk (h : b.writeToDisk T files nCurrentBlockFile = .ok w) :
    isBlockFile w.nFile = true ∧ w.nBlockPos < 0x7F000000 - maxSize + 8 ∧
      ∃ front : List UInt8, front.length = w.nBlockPos ∧ files w.nFile <+: front ∧
        w.files = Function.update files w.nFile (front ++ b.serialize) := by
  unfold CBlock.writeToDisk at h
  split at h
  · simp at h
  · rename_i nFile happend
    obtain ⟨hfile, hroom⟩ := of_appendBlockFile happend
    obtain rfl := Except.ok.inj h
    have hmax : maxSize = 2 ^ 25 := rfl
    rw [(is_block rfl).write]
    have hlen : ∀ n, (files nFile ++ messageStart ++ leBytes 4 n).length =
        (files nFile).length + 8 := by
      intro n
      rw [List.length_append, List.length_append, length_messageStart, length_leBytes]
    refine ⟨hfile, ?_, _, ?_, ⟨_, List.append_assoc .. |>.symm⟩, rfl⟩
    · show toUint (List.length _) < _
      rw [hlen, toUint_of_lt (by omega)]
      omega
    · show _ = toUint (List.length _)
      rw [hlen, toUint_of_lt (by omega)]

/-- The first block is written to the first file. -/
theorem exists_writeToDisk_nil :
    ∃ w, b.writeToDisk T (fun _ => []) 1 = .ok w ∧ w.nBlockPos = 8 := by
  have happend : appendBlockFile (fun _ => []) 1 = some 1 := by
    unfold appendBlockFile
    rw [dif_pos (by decide), if_pos (by decide)]
  unfold CBlock.writeToDisk
  rw [happend]
  refine ⟨_, rfl, ?_⟩
  show toUint (List.length _) = 8
  rw [List.length_append, List.length_append, length_messageStart, length_leBytes]
  rfl

/-- A file only ever grows. -/
theorem prefix_writeToDisk (h : b.writeToDisk T files nCurrentBlockFile = .ok w) (n : ℕ) :
    files n <+: w.files n := by
  obtain ⟨-, -, front, -, hfront, hfiles⟩ := of_writeToDisk h
  rw [hfiles]
  by_cases hn : n = w.nFile
  · subst hn
    rw [Function.update_self]
    exact hfront.trans (List.prefix_append ..)
  · rw [Function.update_of_ne hn]

/-- The files after any number of blocks more. -/
inductive WrittenOn (T : RecordSizes) (files : BlockFiles) : BlockFiles → Prop
  | refl : WrittenOn T files files
  | write {files' : BlockFiles} {b : CBlock} {nCurrentBlockFile : ℕ} {w : WrittenBlock}
      (hfiles : WrittenOn T files files') (h : b.writeToDisk T files' nCurrentBlockFile = .ok w) :
      WrittenOn T files w.files

theorem WrittenOn.isInitial (h : WrittenOn T files files') (n : ℕ) : files n <+: files' n := by
  induction h with
  | refl => exact List.prefix_rfl
  | write _ h ih => exact ih.trans (prefix_writeToDisk h n)

omit [P : Platform] in
/-- **What starts at a position is read there**, with whatever behind it. -/
theorem readFromDisk_of_prefix {front : List UInt8} {tx : CTransaction} {nBlockPos : ℕ}
    (hfile : isBlockFile nFile = true) (htx : tx.WellTyped)
    (h : front ++ tx.serialize <+: files nFile) :
    CTransaction.readFromDisk T files ⟨nFile, nBlockPos, front.length⟩ = .ok tx := by
  obtain ⟨rest, hrest⟩ := h
  have hread : (CTransaction.serial T).unserialize serDisk clientVersion
      ((files nFile).drop front.length) = .ok (tx, rest) := by
    rw [← hrest, List.append_assoc, List.drop_left, is_transaction.read]
    exact codec_transaction.writes htx
  unfold CTransaction.readFromDisk
  rw [if_neg (by rw [hfile]; decide), hread]

/-! ## Positions -/

/-- **Positions point at the transactions.** In a block that was written,
a transaction starts where its position says, to the width of a word; a
block of no more than `MAX_SIZE` bytes has its positions in that width.
Where it fits, the transaction is read there, whatever blocks are written
after it. -/
theorem nTxPos_points (h : b.writeToDisk T files nCurrentBlockFile = .ok w) {i : ℕ}
    (hi : i < b.vtx.length) : ∃ front back : List UInt8,
    front.length = w.nBlockPos + (b.before i).length ∧
    w.files w.nFile =
      front ++ (CTransaction.serial T).serialize serDisk clientVersion b.vtx[i] ++ back ∧
    (b.nTxPos T w.nBlockPos)[i]? = some (toUint front.length) ∧
    (((CBlock.serial T).serialize serDisk clientVersion b).length ≤ maxSize →
      toUint front.length = front.length) ∧
    (toUint front.length = front.length → b.vtx[i].WellTyped → ∀ files', WrittenOn T w.files files' →
      CTransaction.readFromDisk T files' ⟨w.nFile, w.nBlockPos, toUint front.length⟩ =
        .ok b.vtx[i]) := by
  obtain ⟨hfile, hpos, front, hfront, -, hfiles⟩ := of_writeToDisk h
  have hat : w.files w.nFile = (front ++ b.before i) ++ b.vtx[i].serialize ++ b.behind i := by
    rw [hfiles, Function.update_self, CBlock.serialize_around hi]
    simp only [List.append_assoc]
  have hoff : (front ++ b.before i).length = w.nBlockPos + (b.before i).length := by
    rw [List.length_append, hfront]
  rw [is_transaction.write, (is_block rfl).write]
  refine ⟨front ++ b.before i, b.behind i, hoff, hat, ?_, fun hlen => ?_,
    fun hfits htx files' hon => ?_⟩
  · rw [getElem_nTxPos hi, hoff]
  · have haround := congrArg List.length (CBlock.serialize_around hi)
    have hmax : maxSize = 2 ^ 25 := rfl
    rw [hoff]
    simp only [List.length_append] at haround
    exact toUint_of_lt (by omega)
  · rw [hfits]
    refine readFromDisk_of_prefix hfile htx (List.IsPrefix.trans ?_ (hon.isInitial _))
    rw [hat]
    exact List.prefix_append ..

namespace PlainBlock

omit [P : Platform] in
/-- The first block of a file. -/
theorem read_tx : letI := Platform.toy; ∃ w,
    block.writeToDisk .amd64 (fun _ => []) 1 = .ok w ∧
    (block.nTxPos .amd64 w.nBlockPos)[0]? = some 89 ∧
    CTransaction.readFromDisk .amd64 w.files ⟨w.nFile, w.nBlockPos, 89⟩ = .ok tx := by
  let := Platform.toy
  obtain ⟨w, hw, hpos⟩ := exists_writeToDisk_nil (T := .amd64) (b := block)
  obtain ⟨front, back, hoff, -, hnTxPos, hsmall, hread⟩ :=
    nTxPos_points hw (i := 0) (by decide)
  have hfront : front.length = 89 := by
    rw [hoff, hpos]
    decide
  rw [hfront] at hnTxPos hread
  exact ⟨w, hw, hnTxPos, hread rfl wellTyped_tx w.files .refl⟩

end PlainBlock

namespace HugeTx

/-- The second transaction starts behind the first one's scripts. -/
def block : CBlock := ⟨4, 0, 0, 0, 0, 0, [tx, tx], []⟩

omit [P : Platform] in
theorem le_length_before : 2 ^ 32 ≤ (block.before 1).length := by
  have hbefore : block.before 1 =
      block.serializeHeader ++ writeCompactSize 2 ++ tx.serialize := by
    show _ ++ _ ++ List.flatMap _ [tx] = _
    rw [List.flatMap_singleton]
    rfl
  rw [hbefore, List.length_append]
  exact le_length_tx.trans (Nat.le_add_left ..)

omit [P : Platform] in
/-- **A position does not always fit its word.** -/
theorem nTxPos_ne_offset : letI := Platform.toy;
    ¬ ∀ (T : RecordSizes) (files : BlockFiles) (nCurrentBlockFile : ℕ) (b : CBlock)
      (w : WrittenBlock) (i : ℕ), b.writeToDisk T files nCurrentBlockFile = .ok w →
      i < b.vtx.length →
      (b.nTxPos T w.nBlockPos)[i]? = some (w.nBlockPos + (b.before i).length) := by
  let := Platform.toy
  intro h
  obtain ⟨w, hw, -⟩ := exists_writeToDisk_nil (T := .amd64) (b := block)
  have hpos := h .amd64 (fun _ => []) 1 block w 1 hw Nat.one_lt_two
  rw [getElem_nTxPos Nat.one_lt_two, Option.some.injEq] at hpos
  have hle := le_length_before
  have hlt := toUint_lt (n := w.nBlockPos + (block.before 1).length)
  rw [hpos] at hlt
  exact absurd hlt (by omega)

end HugeTx

end CryptoBullion
