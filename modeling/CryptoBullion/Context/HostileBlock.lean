import CryptoBullion.Model.Answers
import CryptoBullion.Model.ProcessBlock
/-!
# Blocks from strangers

`CheckBlock` is the first thing a received block meets, so it is handed
whatever deserialises. Its checks are ordered, and one reads what a later
one establishes: the coinbase's outputs are summed for the reward before
`CheckTransaction` has looked at them, and `GetValueOut` throws where they
leave `MoneyRange`. Everywhere else a block is answered, and a value out
of range is charged to its sender.
-/

namespace CryptoBullion

/-! ## Values in range -/

/-- Every output of a transaction is in `MoneyRange`, and so is their
sum. -/
def CTransaction.ValuesInRange (tx : CTransaction) : Prop :=
  (∀ o ∈ tx.vout, moneyRange o.nValue = true) ∧ moneyRange tx.valueOut = true

/-- The loop of `GetValueOut` gets through when what it adds, and all of
it together, is in range. -/
theorem valueOutLoop_eq_ok_iff : ∀ {l : List CTxOut} {n : ℤ}, 0 ≤ n → n ≤ maxMoney →
    ((∃ m, CTransaction.valueOutLoop n l = .ok m) ↔
      (∀ o ∈ l, moneyRange o.nValue = true) ∧ n + (l.map (·.nValue)).sum ≤ maxMoney)
  | [], n, _, hn => by
    simpa [CTransaction.valueOutLoop] using hn
  | o :: l, n, h0, hn => by
    have hnonneg : (∀ p ∈ l, moneyRange p.nValue = true) → 0 ≤ (l.map (·.nValue)).sum := by
      intro hl
      refine List.sum_nonneg fun v hv => ?_
      obtain ⟨p, hp, rfl⟩ := List.mem_map.1 hv
      exact (moneyRange_iff.1 (hl p hp)).1
    rw [CTransaction.valueOutLoop, List.forall_mem_cons, List.map_cons, List.sum_cons]
    by_cases ho : moneyRange o.nValue = true
    · have ho' := moneyRange_iff.1 ho
      by_cases hs : moneyRange (n + o.nValue) = true
      · have hs' := moneyRange_iff.1 hs
        rw [if_neg (by simp [ho, hs]), valueOutLoop_eq_ok_iff hs'.1 hs'.2, ← add_assoc]
        tauto
      · rw [if_pos (by simp [hs])]
        have hlt : maxMoney < n + o.nValue := by
          by_contra hle
          exact hs (moneyRange_iff.2 ⟨by omega, by omega⟩)
        constructor
        · rintro ⟨m, hm⟩
          exact absurd hm (by simp)
        · rintro ⟨⟨-, hl⟩, hle⟩
          have := hnonneg hl
          omega
    · rw [if_pos (by simp [ho])]
      constructor
      · rintro ⟨m, hm⟩
        exact absurd hm (by simp)
      · rintro ⟨⟨ho', -⟩, -⟩
        exact absurd ho' ho

/-- **`GetValueOut` returns exactly on values in range.** -/
theorem exists_getValueOut_iff {tx : CTransaction} :
    (∃ n, tx.getValueOut = .ok n) ↔ tx.ValuesInRange := by
  rw [CTransaction.getValueOut, valueOutLoop_eq_ok_iff le_rfl (by decide),
    CTransaction.ValuesInRange, zero_add, moneyRange_iff]
  refine and_congr_right fun hl => (and_iff_right ?_).symm
  refine List.sum_nonneg fun v hv => ?_
  obtain ⟨o, ho, rfl⟩ := List.mem_map.1 hv
  exact (moneyRange_iff.1 (hl o ho)).1

/-- Otherwise it throws. -/
theorem answers_getValueOut_iff {tx : CTransaction} :
    Answers tx.getValueOut ↔ tx.ValuesInRange := by
  rw [← exists_getValueOut_iff]
  have hthrows : ∀ {l : List CTxOut} {n : ℤ} {f : Failure},
      CTransaction.valueOutLoop n l = .error f → f.returnsFalse = false := by
    intro l
    induction l with
    | nil =>
      intro n f h
      exact absurd h (by simp [CTransaction.valueOutLoop])
    | cons o l ih =>
      intro n f h
      rw [CTransaction.valueOutLoop] at h
      split_ifs at h
      · obtain rfl := Except.error.inj h
        rfl
      · exact ih h
  constructor
  · intro h
    cases hv : tx.getValueOut with
    | error f => exact absurd (h f hv) (by rw [hthrows hv]; simp)
    | ok n => exact ⟨n, rfl⟩
  · rintro ⟨n, hn⟩
    rw [hn]
    exact answers_ok

/-- The loop of `CheckTransaction` over the outputs charges for every
output it refuses. -/
theorem checkOutputs_charges {tx : CTransaction} {f : Failure} : ∀ {l : List CTxOut} {n : ℤ},
    tx.checkOutputs n l = .error f → f.returnsFalse = true ∧ 0 < f.nDoS
  | [], n, h => absurd h (by simp [CTransaction.checkOutputs])
  | o :: l, n, h => by
    rw [CTransaction.checkOutputs] at h
    split_ifs at h
    iterate 5
      · obtain rfl := Except.error.inj h
        exact ⟨rfl, by decide⟩
    exact checkOutputs_charges h

/-- `CheckTransaction` comes back from anything. -/
theorem answers_checkTransaction {tx : CTransaction} : Answers tx.checkTransaction := by
  unfold CTransaction.checkTransaction
  iterate 3 refine (answers_reject rfl).bind fun _ _ => ?_
  refine Answers.bind (fun f hf => (checkOutputs_charges hf).1) fun _ _ => ?_
  refine (answers_reject rfl).bind fun _ _ => ?_
  split_ifs
  · exact answers_reject rfl
  · exact answers_reject rfl

/-- Values out of range do not pass `CheckTransaction`, and are charged
for. -/
theorem nDoS_of_not_valuesInRange {tx : CTransaction} (h : ¬ tx.ValuesInRange) :
    ∃ f, tx.checkTransaction = .error f ∧ 0 < f.nDoS := by
  unfold CTransaction.checkTransaction
  by_cases hvin : tx.vin = []
  · exact ⟨_, by rw [reject, if_pos hvin]; rfl, by decide⟩
  by_cases hvout : tx.vout = []
  · exact ⟨_, by rw [reject, if_neg hvin, reject, if_pos hvout]; rfl, by decide⟩
  by_cases hsize : maxBlockSize < tx.getSerializeSize
  · exact ⟨_, by rw [reject, if_neg hvin, reject, if_neg hvout, reject, if_pos hsize]; rfl,
      by decide⟩
  cases hc : tx.checkOutputs 0 tx.vout with
  | ok u => exact absurd (exists_getValueOut_iff.1 (CTransaction.valueOutLoop_of_checkOutputs hc)) h
  | error f =>
    exact ⟨f, by rw [reject, if_neg hvin, reject, if_neg hvout, reject, if_neg hsize]; rfl,
      (checkOutputs_charges hc).2⟩

/-! ## The checks of a block -/

variable [P : Platform]
variable {block : CBlock} {nAdjustedTime nHeight : ℤ} {s : NodeState} {orphans : OrphanBlocks}
variable {fCheckPOW fCheckMerkleRoot fCheckSig : Bool}

/-- The first transaction of a block. -/
def CBlock.coinbase (block : CBlock) : CTransaction := (block.vtx.head?).getD default

theorem answers_checkProofOfWork {hash : Uint256} {nBits : ℕ} :
    Answers (checkProofOfWork hash nBits) := by
  unfold checkProofOfWork
  dsimp only
  split_ifs
  · exact answers_error_iff.2 rfl
  · exact answers_error_iff.2 rfl
  · exact answers_ok

/-- The checks before the reward come back. -/
theorem answers_checkShape : Answers (checkShape block nAdjustedTime fCheckPOW) := by
  unfold checkShape
  refine (answers_reject rfl).bind fun _ _ => ?_
  dsimp only
  split_ifs
  · refine (answers_checkProofOfWork.onFalse rfl).bind fun _ _ => ?_
    iterate 6 refine (answers_reject rfl).bind fun _ _ => ?_
    exact answers_reject rfl
  · iterate 6 refine (answers_reject rfl).bind fun _ _ => ?_
    exact answers_reject rfl

omit [P : Platform] in
/-- Transactions that are refused come back, whatever comes first. -/
theorem answers_checkTransactions : ∀ {txs : List CTransaction},
    Answers (checkTransactions block txs)
  | [] => answers_ok
  | tx :: txs => by
    rw [checkTransactions]
    cases hc : tx.checkTransaction with
    | error f =>
      refine answers_error_iff.2 ?_
      rw [Failure.orElse, if_pos (answers_checkTransaction f hc)]
      rfl
    | ok u => exact (answers_reject rfl).bind fun _ _ => answers_checkTransactions

omit [P : Platform] in
/-- The first transaction whose values are out of range is charged for,
where those before it pass. -/
theorem checkTransactions_charges {tx : CTransaction} {post : List CTransaction}
    (h : ¬ tx.ValuesInRange) : ∀ {pre : List CTransaction}, checkTransactions block pre = .ok () →
      ∃ n msg, checkTransactions block (pre ++ tx :: post) = .error (.doS n msg) ∧ 0 < n
  | [], _ => by
    obtain ⟨f, hf, hn⟩ := nDoS_of_not_valuesInRange h
    refine ⟨f.nDoS, "CheckBlock() : CheckTransaction failed", ?_, hn⟩
    rw [List.nil_append, checkTransactions, hf]
    show Except.error (f.orElse _) = _
    rw [Failure.orElse, if_pos (answers_checkTransaction f hf)]
  | t :: pre, hpre => by
    rw [checkTransactions] at hpre
    cases ht : t.checkTransaction with
    | error f =>
      rw [ht] at hpre
      exact absurd hpre (by simp)
    | ok u =>
      rw [ht] at hpre
      simp only [except_unit_bind_eq_ok, reject_eq_ok] at hpre
      obtain ⟨n, msg, hrest, hn⟩ := checkTransactions_charges h hpre.2
      refine ⟨n, msg, ?_, hn⟩
      rw [List.cons_append, checkTransactions, ht]
      show (reject _ _ >>= fun _ => _) = _
      rw [reject, if_neg hpre.1]
      exact hrest

/-- The checks after the reward come back. -/
theorem answers_checkContents : Answers (checkContents block fCheckMerkleRoot fCheckSig) := by
  unfold checkContents
  refine answers_checkTransactions.bind fun _ _ => ?_
  iterate 3 refine (answers_reject rfl).bind fun _ _ => ?_
  exact answers_reject rfl

omit [P : Platform] in
/-- **The reward check comes back exactly on values in range.** -/
theorem answers_checkReward_iff {coinbase : CTransaction} :
    Answers (checkReward block coinbase (some nHeight)) ↔ coinbase.ValuesInRange := by
  rw [← answers_getValueOut_iff]
  have hbind : ∀ k : ℤ → Except Failure Unit, (∀ n, Answers (k n)) →
      (Answers (coinbase.getValueOut >>= k) ↔ Answers coinbase.getValueOut) := by
    intro k hk
    exact ⟨Answers.of_bind, fun h => h.bind fun n _ => hk n⟩
  unfold checkReward
  split_ifs
  · exact hbind _ fun _ => answers_reject rfl
  · exact hbind _ fun _ => answers_reject rfl

/-- **`CheckBlock` comes back** exactly where it does not get to sum a
coinbase whose values are out of range. -/
theorem answers_checkBlock_iff :
    Answers (block.checkBlock nAdjustedTime (some nHeight) fCheckPOW fCheckMerkleRoot fCheckSig) ↔
      (checkShape block nAdjustedTime fCheckPOW = .ok () → block.coinbase.ValuesInRange) := by
  unfold CBlock.checkBlock
  constructor
  · intro h hshape
    rw [hshape, except_ok_bind] at h
    exact answers_checkReward_iff.1 h.of_bind
  · intro h
    refine answers_checkShape.bind fun _ hshape => ?_
    refine (answers_checkReward_iff.2 (h hshape)).bind fun _ _ => answers_checkContents

/-- **A value out of range is charged for**: a block of the right shape
whose first transaction with values out of range is not the coinbase, and
is preceded by transactions that pass. -/
theorem checkBlock_charges {tx : CTransaction} {pre post : List CTransaction}
    (hvtx : block.vtx = pre ++ tx :: post)
    (hshape : checkShape block nAdjustedTime fCheckPOW = .ok ())
    (hcoinbase : block.coinbase.ValuesInRange) (hpre : checkTransactions block pre = .ok ())
    (htx : ¬ tx.ValuesInRange) :
    ∃ n msg, block.checkBlock nAdjustedTime (some nHeight) fCheckPOW fCheckMerkleRoot fCheckSig =
      .error (.doS n msg) ∧ 0 < n := by
  obtain ⟨nValueOut, hv⟩ := exists_getValueOut_iff.2 hcoinbase
  have hreward : checkReward block block.coinbase (some nHeight) = .ok () ∨
      checkReward block block.coinbase (some nHeight) =
        .error (.doS 50 "CheckBlock() : coinbase reward exceeded") := by
    unfold checkReward
    rw [hv]
    split_ifs
    · exact reject_cases
    · exact reject_cases
  unfold CBlock.checkBlock
  rw [hshape, except_ok_bind]
  rw [CBlock.coinbase] at hreward
  rcases hreward with hr | hr
  · obtain ⟨n, msg, hc, hn⟩ := checkTransactions_charges htx hpre
    exact ⟨n, msg, by rw [hr, except_ok_bind, checkContents, hvtx, hc, except_error_bind], hn⟩
  · exact ⟨50, _, by rw [hr, except_error_bind], by decide⟩

/-! ## The checks before it -/

/-- The walk from a pending checkpoint's block, where there is one to
make for the block `hash`, leaves the orphans. -/
def OrphanBlocks.WalkEnds (orphans : OrphanBlocks) (hash : Uint256) : Prop :=
  orphans.hashPendingCheckpoint ≠ 0 → hash ≠ orphans.hashPendingCheckpoint →
    ∀ b, orphans.mapOrphanBlocks[orphans.hashPendingCheckpoint]? = some b →
      ∃ n root, orphans.wantedByOrphan n b = some root

omit [P : Platform] in
theorem answers_wantedByPendingSyncCheckpoint_iff {hash : Uint256} :
    Answers (orphans.wantedByPendingSyncCheckpoint hash) ↔ orphans.WalkEnds hash := by
  unfold OrphanBlocks.wantedByPendingSyncCheckpoint OrphanBlocks.WalkEnds
  split_ifs with h₁ h₂
  · exact iff_of_true answers_ok fun h => absurd h₁ h
  · exact iff_of_true answers_ok fun _ h => absurd h₂ h
  · cases hb : orphans.mapOrphanBlocks[orphans.hashPendingCheckpoint]? with
    | none => exact iff_of_true answers_ok fun _ _ b h => absurd h (by simp)
    | some b =>
      dsimp only
      cases hw : orphans.wantedByOrphan orphans.mapOrphanBlocks.size b with
      | some root =>
        refine iff_of_true answers_ok fun _ _ c hc => ?_
        obtain rfl := Option.some.inj hc
        exact ⟨_, root, hw⟩
      | none =>
        refine iff_of_false (fun h => absurd (h _ rfl) (by simp [Failure.returnsFalse])) ?_
        intro h
        obtain ⟨n, root, hn⟩ := h h₁ h₂ b rfl
        rw [OrphanBlocks.wantedByOrphan_size hn] at hw
        exact absurd hw (by simp)

/-- `ProcessBlock` finds a block new, and its stake used. -/
def IsNewDuplicate (block : CBlock) (s : NodeState) (orphans : OrphanBlocks) : Prop :=
  s.mapBlockIndex.contains block.getHash = false ∧
    orphans.mapOrphanBlocks.contains block.getHash = false ∧
      block.isDuplicateStake s orphans = true

/-- **`ProcessBlock` comes back from its first checks** where its walk
does, and `CheckBlock`. -/
theorem answers_processBlockChecks
    (hwalk : IsNewDuplicate block s orphans → orphans.WalkEnds block.getHash)
    (hcheck : Answers (block.checkBlock nAdjustedTime s.bestHeight true true true)) :
    Answers (processBlockChecks block s orphans nAdjustedTime) := by
  have hlast : Answers (onFalse (block.checkBlock nAdjustedTime s.bestHeight true true true)
      (.error "ProcessBlock() : CheckBlock FAILED")) := hcheck.onFalse rfl
  unfold processBlockChecks
  refine (answers_reject rfl).bind fun _ hindex => (answers_reject rfl).bind fun _ horphan => ?_
  rw [reject_eq_ok, Bool.not_eq_true] at hindex horphan
  dsimp only
  split_ifs with hdup
  · have hwanted := answers_wantedByPendingSyncCheckpoint_iff.2 (hwalk ⟨hindex, horphan, hdup⟩)
    exact hwanted.bind fun _ _ => (answers_reject rfl).bind fun _ _ => hlast
  · exact hlast

/-- Where it comes back, its walk has. -/
theorem walkEnds_of_answers (h : Answers (processBlockChecks block s orphans nAdjustedTime))
    (hnew : IsNewDuplicate block s orphans) : orphans.WalkEnds block.getHash := by
  obtain ⟨hindex, horphan, hdup⟩ := hnew
  unfold processBlockChecks at h
  dsimp only at h
  rw [reject, if_neg (by simp [hindex]), except_ok_bind, reject, if_neg (by simp [horphan]),
    except_ok_bind, if_pos hdup] at h
  exact answers_wantedByPendingSyncCheckpoint_iff.1 h.of_bind

/-! ## Any block at all -/

/-- What is asked of the first checks, for a block whoever sends it:
`CheckBlock` comes back, charges for the first transaction with values
out of range where it gets that far, and the checks `ProcessBlock` makes
around it come back. -/
structure Withstands (block : CBlock) (s : NodeState) (orphans : OrphanBlocks) (nAdjustedTime : ℤ)
    (fCheckPOW fCheckMerkleRoot fCheckSig : Bool) : Prop where
  checkBlock : Answers (block.checkBlock nAdjustedTime s.bestHeight fCheckPOW fCheckMerkleRoot
    fCheckSig)
  charges : ∀ pre tx post, block.vtx = pre ++ tx :: post →
    checkShape block nAdjustedTime fCheckPOW = .ok () → checkTransactions block pre = .ok () →
      ¬ tx.ValuesInRange →
        ∃ n msg, block.checkBlock nAdjustedTime s.bestHeight fCheckPOW fCheckMerkleRoot fCheckSig =
          .error (.doS n msg) ∧ 0 < n
  processBlock : Answers (processBlockChecks block s orphans nAdjustedTime)

/-- Leaving the proof of work unchecked lets no less through. -/
theorem checkShape_of_checkPOW (h : checkShape block nAdjustedTime true = .ok ()) :
    checkShape block nAdjustedTime fCheckPOW = .ok () := by
  cases fCheckPOW with
  | true => exact h
  | false =>
    simp only [checkShape, except_bind_eq_ok, reject_eq_ok, exists_const, Bool.true_and,
      Bool.false_and] at h ⊢
    obtain ⟨hsize, h⟩ := h
    refine ⟨hsize, ?_⟩
    rw [if_neg (by simp)]
    split_ifs at h
    · simp only [except_bind_eq_ok, reject_eq_ok, exists_const] at h ⊢
      obtain ⟨-, -, h⟩ := h
      exact h
    · simp only [except_bind_eq_ok, reject_eq_ok, exists_const] at h ⊢
      exact h

/-- **A block is withstood** exactly where the coinbase's values are in
range or the shape of the block is refused before they are summed (and
where no pending checkpoint sends `ProcessBlock` round a circle of
orphans). -/
theorem withstands_iff {p : Uint256} :
    Withstands block { s with pindexBest := some p } orphans nAdjustedTime fCheckPOW
        fCheckMerkleRoot fCheckSig ↔
      (checkShape block nAdjustedTime fCheckPOW = .ok () → block.coinbase.ValuesInRange) ∧
        (IsNewDuplicate block s orphans → orphans.WalkEnds block.getHash) := by
  have hbest : ∀ {f₁ f₂ f₃ : Bool},
      Answers (block.checkBlock nAdjustedTime { s with pindexBest := some p }.bestHeight f₁ f₂ f₃) ↔
        (checkShape block nAdjustedTime f₁ = .ok () → block.coinbase.ValuesInRange) :=
    answers_checkBlock_iff
  have hnew : IsNewDuplicate block { s with pindexBest := some p } orphans ↔
      IsNewDuplicate block s orphans := Iff.rfl
  rw [← hnew]
  constructor
  · intro h
    exact ⟨hbest.1 h.checkBlock, walkEnds_of_answers h.processBlock⟩
  · rintro ⟨hvalues, hwalk⟩
    refine ⟨hbest.2 hvalues, ?_, ?_⟩
    · intro pre tx post hvtx hshape hpre htx
      exact checkBlock_charges hvtx hshape (hvalues hshape) hpre htx
    · exact answers_processBlockChecks hwalk
        (hbest.2 fun hshape => hvalues (checkShape_of_checkPOW hshape))

/-! ## A block that is not -/

/-- A coinbase that pays less than nothing. -/
def lessThanNothing : CTransaction where
  nVersion := 1
  nTime := 1000
  vin := [{ prevout := COutPoint.null, scriptSig := [0, 0], nSequence := uintMax }]
  vout := [{ nValue := -1, scriptPubKey := [] }]
  nLockTime := 0

/-- The block it comes in. -/
def lessThanNothingBlock : CBlock where
  nVersion := 1
  hashPrevBlock := 0
  hashMerkleRoot := 1000
  nTime := 1000
  nBits := 0x1e0fffff
  nNonce := 1
  vtx := [lessThanNothing]
  vchBlockSig := []

omit [P : Platform] in
/-- **A coinbase of minus one unit makes `CheckBlock` throw.** -/
theorem not_withstands :
    ¬ ∀ (block : CBlock) (s : NodeState) (orphans : OrphanBlocks) (nAdjustedTime : ℤ) (p : Uint256)
        (fCheckPOW fCheckMerkleRoot fCheckSig : Bool),
      Withstands (P := Platform.toy) block { s with pindexBest := some p } orphans nAdjustedTime
        fCheckPOW fCheckMerkleRoot fCheckSig := by
  intro h
  have hw := h lessThanNothingBlock (NodeState.blank fun _ => ⟨0, true, fun _ _ => true⟩)
    ⟨∅, [], 0⟩ 1000 0 true true true
  have hthrows : lessThanNothingBlock.checkBlock (P := Platform.toy) 1000
      { NodeState.blank fun _ => ⟨0, true, fun _ _ => true⟩ with pindexBest := some 0 }.bestHeight
      true true true =
        .error (.exception "CTransaction::GetValueOut() : value out of range") := by
    decide +kernel
  exact absurd (Withstands.checkBlock (P := Platform.toy) hw _ hthrows)
    (by simp [Failure.returnsFalse])

end CryptoBullion
