import CryptoBullion.Model.State
import CryptoBullion.Model.Work
/-!
# Checks on a transaction by itself

`CheckTransaction`, the value and fee functions, finality and standardness:
everything that asks of a transaction without looking for its inputs.
-/

namespace CryptoBullion

namespace CTransaction

/-! ## Values -/

/-- The running sum of `GetValueOut`. -/
def valueOutLoop : ℤ → List CTxOut → Except Failure ℤ
  | nValueOut, [] => .ok nValueOut
  | nValueOut, txout :: rest =>
    if !moneyRange txout.nValue || !moneyRange (nValueOut + txout.nValue) then
      .error (.exception "CTransaction::GetValueOut() : value out of range")
    else valueOutLoop (nValueOut + txout.nValue) rest

/-- `GetValueOut`: throws where a value or the sum leaves `MoneyRange` -/
def getValueOut (tx : CTransaction) : Except Failure ℤ := valueOutLoop 0 tx.vout

/-- The sum of the outputs, in whatever range. -/
def valueOut (tx : CTransaction) : ℤ := (tx.vout.map (·.nValue)).sum

theorem valueOutLoop_eq_ok {n m : ℤ} :
    ∀ {l : List CTxOut}, valueOutLoop n l = .ok m → m = n + (l.map (·.nValue)).sum
  | [], h => by
    rw [valueOutLoop] at h
    obtain rfl := Except.ok.inj h
    simp
  | o :: l, h => by
    rw [valueOutLoop] at h
    split at h
    · exact absurd h (by simp)
    · rw [valueOutLoop_eq_ok h, List.map_cons, List.sum_cons]
      ring

/-- `GetValueOut` returns the sum. -/
theorem eq_valueOut_of_getValueOut {tx : CTransaction} {n : ℤ} (h : tx.getValueOut = .ok n) :
    n = tx.valueOut := by
  rw [valueOutLoop_eq_ok h, zero_add, valueOut]

/-! ## CheckTransaction -/

/-- The loop of `CheckTransaction` over the outputs. -/
def checkOutputs (tx : CTransaction) : ℤ → List CTxOut → Except Failure Unit
  | _, [] => .ok ()
  | nValueOut, txout :: rest =>
    if txout.isEmpty && !tx.isCoinBase && !tx.isCoinStake then
      .error (.doS 100 "CTransaction::CheckTransaction() : txout empty for user transaction")
    else if !txout.isEmpty && txout.nValue < minTxoutAmount then
      .error (.doS 100 "CTransaction::CheckTransaction() : txout.nValue below minimum")
    else if txout.nValue < 0 then
      .error (.doS 100 "CTransaction::CheckTransaction() : txout.nValue is negative")
    else if maxMoney < txout.nValue then
      .error (.doS 100 "CTransaction::CheckTransaction() : txout.nValue too high")
    else if !moneyRange (nValueOut + txout.nValue) then
      .error (.doS 100 "CTransaction::CheckTransaction() : txout total out of range")
    else checkOutputs tx (nValueOut + txout.nValue) rest

/-- `CheckTransaction` -/
def checkTransaction (tx : CTransaction) : Except Failure Unit := do
  reject (tx.vin = []) (.doS 10 "CTransaction::CheckTransaction() : vin empty")
  reject (tx.vout = []) (.doS 10 "CTransaction::CheckTransaction() : vout empty")
  reject (maxBlockSize < tx.getSerializeSize)
    (.doS 100 "CTransaction::CheckTransaction() : size limits failed")
  checkOutputs tx 0 tx.vout
  reject (¬ (tx.vin.map (·.prevout)).Nodup) .quiet
  if tx.isCoinBase then
    let n := (tx.vin.head?.map (·.scriptSig.length)).getD 0
    reject (n < 2 ∨ 100 < n) (.doS 100 "CTransaction::CheckTransaction() : coinbase script size")
  else
    reject (tx.vin.any (·.prevout.isNull))
      (.doS 10 "CTransaction::CheckTransaction() : prevout is null")

/-- What a transaction has passed once `CheckTransaction` accepts it. -/
theorem of_checkTransaction {tx : CTransaction} (h : tx.checkTransaction = .ok ()) :
    tx.vin ≠ [] ∧ tx.vout ≠ [] ∧ checkOutputs tx 0 tx.vout = .ok () ∧
      (tx.vin.map (·.prevout)).Nodup := by
  simp only [checkTransaction, except_bind_eq_ok, reject_eq_ok, exists_const, not_not] at h
  obtain ⟨hvin, hvout, -, _, hout, hnodup, -⟩ := h
  exact ⟨hvin, hvout, hout, hnodup⟩

/-- **A checked transaction's outputs can be summed.** -/
theorem valueOutLoop_of_checkOutputs {tx : CTransaction} {n : ℤ} :
    ∀ {l : List CTxOut}, checkOutputs tx n l = .ok () → ∃ m, valueOutLoop n l = .ok m
  | [], _ => ⟨n, rfl⟩
  | o :: l, h => by
    rw [checkOutputs] at h
    split_ifs at h with h₁ h₂ h₃ h₄ h₅
    obtain ⟨m, hm⟩ := valueOutLoop_of_checkOutputs h
    refine ⟨m, ?_⟩
    have hr : moneyRange o.nValue = true := moneyRange_iff.2 ⟨by omega, by omega⟩
    rw [valueOutLoop, if_neg (by simp_all), hm]

/-- **After `CheckTransaction`, `GetValueOut` does not throw.** -/
theorem getValueOut_of_checkTransaction {tx : CTransaction} (h : tx.checkTransaction = .ok ()) :
    tx.getValueOut = .ok tx.valueOut := by
  obtain ⟨m, hm⟩ := valueOutLoop_of_checkOutputs (of_checkTransaction h).2.2.1
  have := eq_valueOut_of_getValueOut hm
  rw [getValueOut, hm, this]

/-- The outputs of a checked transaction are in range. -/
theorem moneyRange_of_checkOutputs {tx : CTransaction} {n : ℤ} {o : CTxOut} :
    ∀ {l : List CTxOut}, checkOutputs tx n l = .ok () → o ∈ l → moneyRange o.nValue = true
  | [], _, ho => absurd ho List.not_mem_nil
  | p :: l, h, ho => by
    rw [checkOutputs] at h
    split_ifs at h with h₁ h₂ h₃ h₄ h₅
    rcases List.mem_cons.1 ho with rfl | ho
    · exact moneyRange_iff.2 ⟨by omega, by omega⟩
    · exact moneyRange_of_checkOutputs h ho

/-! ## Fees -/

/-- `GetMinFee`. The base fee is the same for relaying and for a block;
`nBlockSize` one stands for no block. -/
def getMinFee (tx : CTransaction) (nBlockSize : ℕ) (fRelay : Bool) : ℤ :=
  let nBaseFee := if fRelay then minRelayTxFee else minTxFee
  let nBytes := tx.getSerializeSize
  let nNewBlockSize := nBlockSize + nBytes
  let nMinFee := (1 + (nBytes : ℤ) / 1000) * nBaseFee
  let nMinFee :=
    if nMinFee < nBaseFee && tx.vout.any (·.nValue < cent) then nBaseFee else nMinFee
  if nBlockSize ≠ 1 ∧ maxBlockSizeGen / 2 ≤ nNewBlockSize then
    if maxBlockSizeGen ≤ nNewBlockSize then maxMoney
    else
      let nMinFee := nMinFee * ((maxBlockSizeGen / (maxBlockSizeGen - nNewBlockSize) : ℕ) : ℤ)
      if !moneyRange nMinFee then maxMoney else nMinFee
  else if !moneyRange nMinFee then maxMoney else nMinFee

/-- `GetMinFee()`, with every argument defaulted -/
def minFee (tx : CTransaction) : ℤ := tx.getMinFee 1 false

/-! ## Signature operations -/

/-- `GetLegacySigOpCount` -/
def getLegacySigOpCount (tx : CTransaction) : ℕ :=
  (tx.vin.map fun i => sigOpCount i.scriptSig false).sum +
    (tx.vout.map fun o => sigOpCount o.scriptPubKey false).sum

/-! ## Finality and standardness -/

/-- `IsFinal(nBlockHeight, nBlockTime)`, zero arguments standing for the
best height and the adjusted time -/
def isFinal (tx : CTransaction) (nBestHeight nAdjustedTime : ℤ) (nBlockHeight nBlockTime : ℤ) :
    Bool :=
  let nBlockHeight := if nBlockHeight = 0 then nBestHeight else nBlockHeight
  let nBlockTime := if nBlockTime = 0 then nAdjustedTime else nBlockTime
  tx.nLockTime = 0 ||
    (tx.nLockTime : ℤ) < (if (tx.nLockTime : ℤ) < locktimeThreshold then nBlockHeight else nBlockTime) ||
    tx.vin.all (·.isFinal)

variable [P : Platform]

/-- `IsStandard(scriptPubKey, whichType)`: the shape, where it is a
standard one -/
def standardType (script : CScript) : Option TxnOutType :=
  match P.solver script with
  | some (.nonStandard, _) | none => none
  | some (t, vSolutions) =>
    if t = .multiSig then
      let m := ((vSolutions.head?.bind List.head?).map UInt8.toNat).getD 0
      let n := ((vSolutions.getLast?.bind List.head?).map UInt8.toNat).getD 0
      if n < 1 ∨ 3 < n then none else if m < 1 ∨ n < m then none else some t
    else some t

/-- `IsDust(nMinRelayTxFee)` -/
def isDust (o : CTxOut) (nMinRelayTxFee : ℤ) : Bool :=
  (o.nValue * 1000).tdiv (3 * ((o.serialize.length : ℤ) + 148)) < nMinRelayTxFee

/-- `CTransaction::IsStandard`. The size it compares with its limit is
the size of an `int`: the call serialises `SER_NETWORK`, not the
transaction, so the limit never bites. -/
def isStandard (tx : CTransaction) (nBestHeight nAdjustedTime : ℤ) : Bool :=
  let sz : ℕ := 4
  let types := tx.vout.map fun o => (o, standardType o.scriptPubKey)
  !(1 < tx.nVersion) && tx.isFinal nBestHeight nAdjustedTime 0 0 && !(maxStandardTxSize ≤ sz) &&
    tx.vin.all (fun i =>
      i.scriptSig.length ≤ 1650 && isPushOnly i.scriptSig && hasCanonicalPushes i.scriptSig) &&
    types.all (fun p => p.2.isSome && (p.2 = some .nullData || !isDust p.1 minTxFee)) &&
    (types.filter (·.2 = some .nullData)).length ≤ 1

end CTransaction

end CryptoBullion
