import CryptoBullion.Model.Pool
/-!
# Accepting a transaction

`CTxMemPool::accept` in full: what a loose transaction is asked by itself,
against the pool, and, unless its caller vouches for it, against the
database: that its inputs are there, standard, unspent and signed, and
that it pays to be relayed. The pool is written in the last line alone.
-/

namespace CryptoBullion

/-- What `accept` has from elsewhere: script evaluation, and whether the
rate limiter of free transactions, which counts in `double`, says no. -/
structure AcceptEnv where
  /-- the stack `EvalScript(stack, script, tx, nIn, 0)` leaves -/
  evalScript : CScript → CTransaction → ℕ → Option (List (List UInt8))
  fRateLimited : Bool

/-- `ContainsTx`, which is `Exists` on the transaction's key -/
def CTxDB.containsTx (txdb : CTxDB) (hash : Uint256) : Bool :=
  match txdb.activeBatch with
  | none => txdb.committed.contains (.tx hash)
  | some batch =>
    match Store.scan (.tx hash) batch with
    | some (some _) => true
    | _ => txdb.committed.contains (.tx hash)

/-- `ScriptSigArgsExpected`; `none` for a negative count -/
def scriptSigArgsExpected (t : TxnOutType) (vSolutions : List (List UInt8)) : Option ℕ :=
  match t with
  | .nonStandard | .nullData => none
  | .pubKey => some 1
  | .pubKeyHash => some 2
  | .multiSig => (vSolutions.head?.bind List.head?).map fun m => m.toNat + 1
  | .scriptHash => some 1

variable [P : Platform]

/-- How many items a redeem script asks for; `none` where `AreInputsStandard`
refuses it. -/
def redeemArgsExpected (subscript : CScript) : Option ℕ :=
  match P.solver subscript with
  | none | some (.scriptHash, _) => none
  | some (t, vSolutions) => scriptSigArgsExpected t vSolutions

/-- One turn of `AreInputsStandard`. -/
def isInputStandard (env : AcceptEnv) (tx : CTransaction) (i : ℕ) (txin : CTxIn) (prev : CTxOut) :
    Bool :=
  match P.solver prev.scriptPubKey with
  | none => false
  | some (whichType, vSolutions) =>
    match scriptSigArgsExpected whichType vSolutions, env.evalScript txin.scriptSig tx i with
    | some nArgsExpected, some stack =>
      if whichType = .scriptHash then
        match stack.getLast?.bind redeemArgsExpected with
        | none => false
        | some tmpExpected => stack.length = nArgsExpected + tmpExpected
      else stack.length = nArgsExpected
    | _, _ => false

/-- `AreInputsStandard` -/
def CTransaction.areInputsStandard (env : AcceptEnv) (tx : CTransaction) (mapInputs : MapPrevTx) :
    Except Failure Bool :=
  if tx.isCoinBase then .ok true
  else do
    let prevs ← outputsFor mapInputs tx.vin
    .ok ((tx.vin.zip prevs).zipIdx.all fun p => isInputStandard env tx p.2 p.1.1 p.1.2)

/-- What `accept` asks of the inputs, with `fCheckInputs` set. The rate
limiter is behind a fee no transaction that gets there pays. -/
def acceptInputs (s : NodeState) (ans : Answer) (env : AcceptEnv) (tx : CTransaction) :
    Except Failure Unit := do
  let mapInputs ← tx.fetchInputs s ans ∅ false false
  let fStandard ← tx.areInputsStandard env mapInputs
  reject (!fStandard && !P.fTestNet) (.error "CTxMemPool::accept() : nonstandard transaction input")
  let nValueIn ← tx.getValueIn mapInputs
  let nValueOut ← tx.getValueOut
  let nFees := nValueIn - nValueOut
  reject (nFees < tx.getMinFee 1000 true) (.error "CTxMemPool::accept() : not enough fees")
  reject (nFees < minRelayTxFee ∧ env.fRateLimited)
    (.error "CTxMemPool::accept() : free transaction rejected by rate limiter")
  match s.pindexBest with
  | none => .error (.crash "pindexBest")
  | some pindexBest =>
    let _ ← onFalse
      (tx.connectInputs s mapInputs ∅ CDiskTxPos.inMemPool pindexBest false false true)
      (.error "CTxMemPool::accept() : ConnectInputs failed")
    .ok ()

/-- `CTxMemPool::accept(txdb, tx, fCheckInputs)` on the node's pool: the
pool it leaves, where it takes the transaction. -/
def NodeState.accept (s : NodeState) (ans : Answer) (env : AcceptEnv) (tx : CTransaction)
    (fCheckInputs : Bool) : Except Failure CTxMemPool := do
  onFalse tx.checkTransaction (.error "CTxMemPool::accept() : CheckTransaction failed")
  reject tx.isCoinBase (.doS 100 "CTxMemPool::accept() : coinbase as individual tx")
  reject tx.isCoinStake (.doS 100 "CTxMemPool::accept() : coinstake as individual tx")
  reject (2147483647 < tx.nLockTime)
    (.error "CTxMemPool::accept() : not accepting nLockTime beyond 2038 yet")
  reject (!P.fTestNet && !tx.isStandard s.nBestHeight ans.nAdjustedTime)
    (.error "CTxMemPool::accept() : nonstandard transaction type")
  reject (s.mempool.mapTx.contains tx.getHash) .quiet
  reject (fCheckInputs && s.txdb.containsTx tx.getHash) .quiet
  reject (tx.vin.any fun txin => s.mempool.mapNextTx.contains txin.prevout) .quiet
  if fCheckInputs then acceptInputs s ans env tx
  .ok (s.mempool.addUnchecked tx.getHash tx)

variable {s : NodeState} {ans : Answer} {env : AcceptEnv} {tx : CTransaction} {pool : CTxMemPool}
variable {fCheckInputs : Bool}

/-- **Without input checks** it is the `accept` of a reorganisation. -/
theorem accept_unchecked :
    s.accept ans env tx false = s.mempool.accept tx s.nBestHeight ans.nAdjustedTime := by
  unfold NodeState.accept CTxMemPool.accept
  simp only [Bool.false_and, reject, Bool.false_eq_true, if_false]
  rfl

/-- What a transaction has passed once it is taken, and what taking it
does: none of its inputs is spent in the pool, nor spent twice by it. -/
theorem of_accept (h : s.accept ans env tx fCheckInputs = .ok pool) :
    pool = s.mempool.addUnchecked tx.getHash tx ∧ tx.checkTransaction = .ok () ∧
      s.mempool.mapTx.contains tx.getHash = false ∧
      (∀ txin ∈ tx.vin, s.mempool.mapNextTx.contains txin.prevout = false) ∧
      (fCheckInputs = true → acceptInputs s ans env tx = .ok ()) := by
  simp only [NodeState.accept, except_bind_eq_ok, reject_eq_ok, onFalse_eq_ok, exists_const,
    Bool.not_eq_true] at h
  obtain ⟨_, hcheck, -, -, -, -, hnew, -, hfree, h⟩ := h
  have hfree' : ∀ txin ∈ tx.vin, s.mempool.mapNextTx.contains txin.prevout = false := by
    intro txin hmem
    rw [List.any_eq_false] at hfree
    exact Bool.not_eq_true _ ▸ hfree txin hmem
  cases fCheckInputs with
  | false => exact ⟨(Except.ok.inj h).symm, hcheck, hnew, hfree', fun h => absurd h (by simp)⟩
  | true =>
    simp only [if_true, except_unit_bind_eq_ok] at h
    exact ⟨(Except.ok.inj h.2).symm, hcheck, hnew, hfree', fun _ => h.1⟩

omit [P : Platform] in
/-- The fee `accept` asks for is never below the one the rate limiter
starts at. -/
theorem minRelayTxFee_le_getMinFee : minRelayTxFee ≤ tx.getMinFee 1000 true := by
  have hmax : minRelayTxFee ≤ maxMoney := by decide
  have hbase : minRelayTxFee ≤ (1 + (tx.getSerializeSize : ℤ) / 1000) * minRelayTxFee := by
    have : (0 : ℤ) ≤ (tx.getSerializeSize : ℤ) / 1000 := by omega
    unfold minRelayTxFee
    omega
  -- the fee before the block fills up, raised or not
  have hraised : ∀ (c : Bool), minRelayTxFee ≤
      if c then minRelayTxFee else (1 + (tx.getSerializeSize : ℤ) / 1000) * minRelayTxFee := by
    intro c
    split_ifs
    · exact le_rfl
    · exact hbase
  have hcap : ∀ n, minRelayTxFee ≤ n → minRelayTxFee ≤ if (!moneyRange n) = true then maxMoney else n := by
    intro n hn
    split_ifs
    · exact hmax
    · exact hn
  refine (fun n hle => ?_ : ∀ n, minRelayTxFee ≤ n → minRelayTxFee ≤
    if 1000 ≠ 1 ∧ maxBlockSizeGen / 2 ≤ 1000 + tx.getSerializeSize then
      if maxBlockSizeGen ≤ 1000 + tx.getSerializeSize then maxMoney
      else
        let nMinFee :=
          n * ((maxBlockSizeGen / (maxBlockSizeGen - (1000 + tx.getSerializeSize)) : ℕ) : ℤ)
        if !moneyRange nMinFee then maxMoney else nMinFee
    else if !moneyRange n then maxMoney else n) _ (hraised _)
  split_ifs with h₁ h₂
  · exact hmax
  · refine hcap _ (hle.trans ?_)
    have hpos : (0 : ℤ) ≤ n := le_trans (by decide) hle
    have hfactor : 0 < maxBlockSizeGen / (maxBlockSizeGen - (1000 + tx.getSerializeSize)) :=
      Nat.div_pos (Nat.sub_le _ _) (by omega)
    exact le_mul_of_one_le_right hpos (by exact_mod_cast hfactor)
  · exact hmax
  · exact hle

end CryptoBullion
