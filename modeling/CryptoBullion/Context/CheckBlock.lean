import CryptoBullion.Model.CheckBlock
/-!
# What CheckBlock knows of the chain

`CheckBlock` calls its checks independent of context, and is called on
orphans, during reorganisations and at start-up. One of them is not: the
coinbase reward is bounded by the reward at the height of `pindexBest`.
Whether two best chains give a block one verdict is decided by the block
and the two rewards alone.
-/

namespace CryptoBullion

variable [P : Platform]

/-- The reward `CheckBlock` measures a coinbase by, at a height. -/
def rewardAt (nHeight : ℤ) : ℤ :=
  if nHeight < 59700 then getProofOfWorkReward 0 else getProofOfWorkReward (toUInt32 nHeight)

/-- The coinbase of a block pays no more than the reward at a height and
what is left of its fee. -/
def PaysAtMost (block : CBlock) (nHeight : ℤ) : Prop :=
  let coinbase := (block.vtx.head?).getD default
  coinbase.valueOut ≤ rewardAt nHeight - coinbase.minFee + minTxFee

/-- Everything `CheckBlock` asks of a block but the reward. -/
def PassesOtherChecks (block : CBlock) (nAdjustedTime : ℤ)
    (fCheckPOW fCheckMerkleRoot fCheckSig : Bool) : Prop :=
  checkShape block nAdjustedTime fCheckPOW = .ok () ∧
    checkContents block fCheckMerkleRoot fCheckSig = .ok ()

variable {block : CBlock} {nAdjustedTime nHeight : ℤ}
variable {fCheckPOW fCheckMerkleRoot fCheckSig : Bool}

omit [P : Platform] in
/-- Every transaction of a block that passes has passed by itself. -/
theorem checkTransaction_of_checkTransactions {tx : CTransaction} :
    ∀ {txs : List CTransaction}, checkTransactions block txs = .ok () → tx ∈ txs →
      tx.checkTransaction = .ok ()
  | [], _, h => absurd h List.not_mem_nil
  | t :: txs, hc, h => by
    rw [checkTransactions] at hc
    rcases ht : t.checkTransaction with f | u <;> rw [ht] at hc
    · exact absurd hc (by simp)
    · simp only [except_bind_eq_ok, reject_eq_ok, exists_const] at hc
      rcases List.mem_cons.1 h with rfl | h
      · exact ht
      · exact checkTransaction_of_checkTransactions hc.2 h

/-- A block of the right shape has a first transaction. -/
theorem exists_head_of_checkShape (h : checkShape block nAdjustedTime fCheckPOW = .ok ()) :
    ∃ coinbase ∈ block.vtx, block.vtx.head? = some coinbase := by
  simp only [checkShape, except_bind_eq_ok, reject_eq_ok, exists_const, not_or] at h
  obtain ⟨tx, txs, hvtx⟩ := List.exists_cons_of_ne_nil h.1.1
  exact ⟨tx, by simp [hvtx], by simp [hvtx]⟩

/-- So the value of its coinbase can be summed once its transactions have
passed. -/
theorem getValueOut_head (hshape : checkShape block nAdjustedTime fCheckPOW = .ok ())
    (hcontents : checkContents block fCheckMerkleRoot fCheckSig = .ok ()) :
    ((block.vtx.head?).getD default).getValueOut =
      .ok ((block.vtx.head?).getD default).valueOut := by
  obtain ⟨coinbase, hmem, hhead⟩ := exists_head_of_checkShape hshape
  simp only [checkContents, except_unit_bind_eq_ok] at hcontents
  rw [hhead, Option.getD_some]
  exact CTransaction.getValueOut_of_checkTransaction
    (checkTransaction_of_checkTransactions hcontents.1 hmem)

omit [P : Platform] in
/-- The reward check, for a coinbase whose value can be summed. -/
theorem checkReward_eq_ok {coinbase : CTransaction}
    (hv : coinbase.getValueOut = .ok coinbase.valueOut) :
    checkReward block coinbase (some nHeight) = .ok () ↔
      coinbase.valueOut ≤ coinbaseLimit block coinbase.minFee nHeight := by
  rw [checkReward]
  split_ifs with ht
  · have hl : coinbaseLimit block coinbase.minFee 0 = coinbaseLimit block coinbase.minFee nHeight := by
      simp only [coinbaseLimit, if_pos ht]
    simp [hv, except_bind_eq_ok, hl]
  · simp [hv, except_bind_eq_ok]

/-- **`CheckBlock` passes a block** that passes every other check and whose
coinbase stays within its limit. -/
theorem checkBlock_eq_ok :
    block.checkBlock nAdjustedTime (some nHeight) fCheckPOW fCheckMerkleRoot fCheckSig = .ok () ↔
      PassesOtherChecks block nAdjustedTime fCheckPOW fCheckMerkleRoot fCheckSig ∧
        ((block.vtx.head?).getD default).valueOut ≤
          coinbaseLimit block ((block.vtx.head?).getD default).minFee nHeight := by
  simp only [CBlock.checkBlock, PassesOtherChecks, except_unit_bind_eq_ok]
  constructor
  · rintro ⟨hshape, hreward, hcontents⟩
    exact ⟨⟨hshape, hcontents⟩, (checkReward_eq_ok (getValueOut_head hshape hcontents)).1 hreward⟩
  · rintro ⟨⟨hshape, hcontents⟩, hle⟩
    exact ⟨hshape, (checkReward_eq_ok (getValueOut_head hshape hcontents)).2 hle, hcontents⟩

omit [P : Platform] in
/-- Heights enter the limit of proof of work only, and only from the
reward switch on. -/
theorem le_coinbaseLimit_iff :
    ((block.vtx.head?).getD default).valueOut ≤
        coinbaseLimit block ((block.vtx.head?).getD default).minFee nHeight ↔
      if block.isProofOfStake then ((block.vtx.head?).getD default).valueOut ≤ 0
      else if block.getBlockTime < rewardSwitchTime then
        ((block.vtx.head?).getD default).valueOut ≤ maxMintProofOfWorkLegacy
      else PaysAtMost block nHeight := by
  rw [coinbaseLimit, PaysAtMost, rewardAt]
  split_ifs <;> rfl

/-- **When two best chains agree about a block**: it is proof of stake, or
older than the reward switch, or fails another check, or its coinbase is
on the same side of the rewards at both heights. -/
theorem checkBlock_agrees_iff {s : NodeState} {p₁ p₂ : Uint256} :
    (block.checkBlock nAdjustedTime { s with pindexBest := some p₁ }.bestHeight
          fCheckPOW fCheckMerkleRoot fCheckSig = .ok () ↔
        block.checkBlock nAdjustedTime { s with pindexBest := some p₂ }.bestHeight
          fCheckPOW fCheckMerkleRoot fCheckSig = .ok ()) ↔
      (block.isProofOfWork → rewardSwitchTime ≤ block.getBlockTime →
        PassesOtherChecks block nAdjustedTime fCheckPOW fCheckMerkleRoot fCheckSig →
          (PaysAtMost block (s.nHeight p₁) ↔ PaysAtMost block (s.nHeight p₂))) := by
  have hb : ∀ p, { s with pindexBest := some p }.bestHeight = some (s.nHeight p) := fun _ => rfl
  rw [hb, hb, checkBlock_eq_ok, checkBlock_eq_ok, le_coinbaseLimit_iff, le_coinbaseLimit_iff]
  rcases hstake : block.isProofOfStake with _ | _
  · rcases lt_or_ge block.getBlockTime rewardSwitchTime with ht | ht
    · simp [ht, not_le.2 ht]
    · simp only [CBlock.isProofOfWork, hstake, not_lt.2 ht, ht, Bool.not_false, if_false,
        Bool.false_eq_true, true_imp_iff]
      tauto
  · simp [CBlock.isProofOfWork, hstake]

/-! ## A block two best chains disagree about -/

/-- Nine coins for whoever takes them. -/
def nineCoins : CTransaction where
  nVersion := 1
  nTime := 1372352000
  vin := [{ prevout := COutPoint.null, scriptSig := [0, 0], nSequence := uintMax }]
  vout := [{ nValue := 9 * coin, scriptPubKey := [] }]
  nLockTime := 0

/-- A proof-of-work block that pays them. -/
def nineCoinsBlock : CBlock where
  nVersion := 1
  hashPrevBlock := 0
  hashMerkleRoot := 1372352000
  nTime := 1372352000
  nBits := 0x1e0fffff
  nNonce := 1
  vtx := [nineCoins]
  vchBlockSig := [0]

/-- Two best chains, one short and one long. -/
def twoTips : NodeState :=
  { NodeState.blank fun _ => ⟨0, true, fun _ _ => true⟩ with
    mapBlockIndex :=
      (({} : Map Uint256 CBlockIndex).insert 1 { CBlockIndex.null with nHeight := 1 }).insert 2
        { CBlockIndex.null with nHeight := 60000 } }

omit [P : Platform] in
/-- **Accepted below height 59700, refused at 60000.** -/
theorem checkBlock_disagrees :
    ¬ ∀ (block : CBlock) (nAdjustedTime : ℤ) (s : NodeState) (p₁ p₂ : Uint256),
      block.checkBlock (P := Platform.toy) nAdjustedTime { s with pindexBest := some p₁ }.bestHeight
          true true true = .ok () ↔
        block.checkBlock (P := Platform.toy) nAdjustedTime
          { s with pindexBest := some p₂ }.bestHeight true true true = .ok () := by
  intro h
  have h₁ : nineCoinsBlock.checkBlock (P := Platform.toy) 1372352000
      { twoTips with pindexBest := some 1 }.bestHeight true true true = .ok () := by
    decide +kernel
  have h₂ : nineCoinsBlock.checkBlock (P := Platform.toy) 1372352000
      { twoTips with pindexBest := some 2 }.bestHeight true true true ≠ .ok () := by
    decide +kernel
  exact h₂ ((h nineCoinsBlock 1372352000 twoTips 1 2).1 h₁)

end CryptoBullion
