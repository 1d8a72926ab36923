import CryptoBullion.Wallet.Accounts
/-!
# Two totals

`GetBalance` sums the outputs of ours that are not spent; `getbalance '*'`
sums what came in less what went out. Over the transactions that both count
these are the credits less what is spent of them, and the credits less the
debits. So the totals agree where what is spent of the counted ones is what
the counted ones spend; a coin that is spent by a coinstake which is not
mature yet is in the one total and not in the other.
-/

namespace CryptoBullion

namespace Accounting

variable [P : Platform]

variable {w : CWallet} {chain : WalletChain} {wtx : CWalletTx}
  {isConfirmed : CWalletTx → Except Failure Bool}

/-! ## Values -/

/-- What an output is worth to the wallet. -/
def CWallet.ownValue (w : CWallet) (txout : CTxOut) : ℤ :=
  if w.isMine txout then txout.nValue else 0

/-- All that a transaction pays the wallet. -/
def CWallet.creditOf (w : CWallet) (tx : CTransaction) : ℤ := (tx.vout.map w.ownValue).sum

/-- All that it takes from it. -/
def CWallet.debitOf (w : CWallet) (tx : CTransaction) : ℤ := (tx.vin.map w.getDebitIn).sum

theorem getCreditOut_eq {txout : CTxOut} {n : ℤ} (h : w.getCreditOut txout = .ok n) :
    n = w.ownValue txout := by
  unfold CWallet.getCreditOut at h
  split at h
  · cases h
  · exact (Except.ok.inj h).symm

theorem getCreditLoop_eq : ∀ {l : List CTxOut} {n n' : ℤ}, w.getCreditLoop n l = .ok n' →
    n' = n + (l.map w.ownValue).sum
  | [], n, n', h => by
    rw [List.map_nil, List.sum_nil, add_zero]
    exact (Except.ok.inj h).symm
  | txout :: l, n, n', h => by
    unfold CWallet.getCreditLoop at h
    obtain ⟨c, hc, h⟩ := except_bind_eq_ok.1 h
    split at h
    · cases h
    · rw [getCreditLoop_eq h, getCreditOut_eq hc, List.map_cons, List.sum_cons, add_assoc]

theorem getCredit_eq {tx : CTransaction} {n : ℤ} (h : w.getCredit tx = .ok n) :
    n = w.creditOf tx := by
  rw [getCreditLoop_eq h, zero_add, CWallet.creditOf]

theorem getDebitLoop_eq : ∀ {l : List CTxIn} {n n' : ℤ}, w.getDebitLoop n l = .ok n' →
    n' = n + (l.map w.getDebitIn).sum
  | [], n, n', h => by
    rw [List.map_nil, List.sum_nil, add_zero]
    exact (Except.ok.inj h).symm
  | txin :: l, n, n', h => by
    unfold CWallet.getDebitLoop at h
    split at h
    · cases h
    · rw [getDebitLoop_eq h, List.map_cons, List.sum_cons, add_assoc]

/-- A debit is in range. -/
theorem getDebitLoop_nonneg : ∀ {l : List CTxIn} {n n' : ℤ}, 0 ≤ n →
    w.getDebitLoop n l = .ok n' → 0 ≤ n'
  | [], n, n', hn, h => by
    rw [← Except.ok.inj h]
    exact hn
  | txin :: l, n, n', hn, h => by
    unfold CWallet.getDebitLoop at h
    split at h
    · cases h
    · rename_i hrange
      have hin : moneyRange (n + w.getDebitIn txin) = true := by simpa using hrange
      exact getDebitLoop_nonneg (moneyRange_iff.1 hin).1 h

theorem getDebit_eq {n : ℤ} (h : wtx.getDebit w = .ok n) : n = w.debitOf wtx.tx ∧ 0 ≤ n := by
  unfold CWalletTx.getDebit at h
  split at h
  · rename_i hvin
    unfold CWallet.debitOf
    rw [hvin, List.map_nil, List.sum_nil, ← Except.ok.inj h]
    exact ⟨rfl, le_rfl⟩
  · refine ⟨?_, getDebitLoop_nonneg le_rfl h⟩
    rw [getDebitLoop_eq h, zero_add, CWallet.debitOf]

/-- What is spent of a transaction of ours. -/
def CWalletTx.spentOf (wtx : CWalletTx) (w : CWallet) : ℤ :=
  (wtx.tx.vout.zipIdx.map fun o => if wtx.isSpent o.2 then w.ownValue o.1 else 0).sum

theorem availableCreditLoop_eq : ∀ {l : List CTxOut} {i : ℕ} {n n' : ℤ},
    wtx.availableCreditLoop w i n l = .ok n' →
      n' = n + (l.map w.ownValue).sum -
        ((l.zipIdx i).map fun o => if wtx.isSpent o.2 then w.ownValue o.1 else 0).sum
  | [], i, n, n', h => by
    rw [List.zipIdx_nil, List.map_nil, List.map_nil, List.sum_nil, add_zero, sub_zero]
    exact (Except.ok.inj h).symm
  | txout :: l, i, n, n', h => by
    unfold CWalletTx.availableCreditLoop at h
    rw [List.zipIdx_cons, List.map_cons, List.map_cons, List.sum_cons, List.sum_cons]
    dsimp only
    split at h
    · rename_i hspent
      rw [availableCreditLoop_eq h, if_pos hspent]
      ring
    · rename_i hspent
      obtain ⟨c, hc, h⟩ := except_bind_eq_ok.1 h
      split at h
      · cases h
      · rw [availableCreditLoop_eq h, getCreditOut_eq hc, if_neg hspent]
        ring

/-- **What is available is the credit less what is spent of it.** -/
theorem getAvailableCredit_eq {n : ℤ} (hmature : wtx.isMature chain = true)
    (h : wtx.getAvailableCredit w chain = .ok n) : n = w.creditOf wtx.tx - wtx.spentOf w := by
  have hpos : ¬ 0 < wtx.getBlocksToMaturity chain := by simpa [CWalletTx.isMature] using hmature
  unfold CWalletTx.getAvailableCredit at h
  rw [if_neg (by simp [hpos])] at h
  rw [availableCreditLoop_eq h, zero_add]
  rfl

/-! ## What `getbalance '*'` makes of a transaction -/

/-- Change to a script that is not the wallet's: the address is known, but
not every key behind it. -/
def CWalletTx.strangeChange (wtx : CWalletTx) (w : CWallet) : ℤ :=
  if wtx.isGenerated || decide (w.debitOf wtx.tx ≤ 0) then 0
  else ((wtx.tx.vout.filter fun txout => w.isChange txout && !w.isMine txout).map (·.nValue)).sum

/-- What the amounts come to, all together. -/
def Amounts.net (a : Amounts) : ℤ :=
  (a.listReceived.map (·.2)).sum - (a.listSent.map (·.2)).sum - a.nFee + a.nGeneratedMature

omit [P : Platform] in
/-- Reporting without change, and the fee, leave the outputs of ours. -/
theorem sum_reported (mine change : CTxOut → Bool) (vout : List CTxOut) :
    ((((vout.filter fun txout => !change txout).filter mine).map (·.nValue)).sum : ℤ) -
        ((vout.filter fun txout => !change txout).map (·.nValue)).sum +
        (vout.map (·.nValue)).sum =
      (vout.map fun txout => if mine txout then txout.nValue else 0).sum +
        ((vout.filter fun txout => change txout && !mine txout).map (·.nValue)).sum := by
  induction vout with
  | nil => rfl
  | cons txout l ih =>
    by_cases hchange : change txout = true
    · by_cases hmine : mine txout = true
      · simp only [List.filter_cons, hchange, hmine, Bool.not_true, Bool.false_eq_true, if_false,
          Bool.and_false, List.map_cons, List.sum_cons, if_true]
        linarith
      · have hnot : mine txout = false := Bool.not_eq_true _ ▸ hmine
        simp only [List.filter_cons, hchange, hnot, Bool.not_true, Bool.not_false,
          Bool.false_eq_true, if_false, Bool.and_true, if_true, List.map_cons, List.sum_cons]
        linarith
    · have hkept : change txout = false := Bool.not_eq_true _ ▸ hchange
      by_cases hmine : mine txout = true
      · simp only [List.filter_cons, hkept, hmine, Bool.not_false, Bool.not_true,
          Bool.false_eq_true, if_false, Bool.and_false, if_true, List.map_cons, List.sum_cons]
        linarith
      · have hnot : mine txout = false := Bool.not_eq_true _ ▸ hmine
        simp only [List.filter_cons, hkept, hnot, Bool.not_false, Bool.false_eq_true, if_false,
          Bool.and_true, if_true, List.map_cons, List.sum_cons]
        linarith

/-- **The amounts of a transaction come to its credit less its debit**, but
for change to strange scripts. -/
theorem net_amounts (hmature : wtx.isMature chain = true) (h : wtx.HasAmounts w chain) :
    (wtx.amounts w chain).net =
      w.creditOf wtx.tx - w.debitOf wtx.tx + wtx.strangeChange w := by
  have hpos : ¬ 0 < wtx.getBlocksToMaturity chain := by simpa [CWalletTx.isMature] using hmature
  have hamounts := CWalletTx.getAmounts_eq h
  generalize wtx.amounts w chain = a at hamounts
  unfold CWalletTx.getAmounts at hamounts
  unfold CWalletTx.strangeChange
  by_cases hgenerated : wtx.isGenerated = true
  · rw [if_pos hgenerated, if_neg hpos] at hamounts
    obtain ⟨nCredit, hcredit, hamounts⟩ := except_bind_eq_ok.1 hamounts
    obtain ⟨nDebit, hdebit, hamounts⟩ := except_bind_eq_ok.1 hamounts
    obtain rfl := Except.ok.inj hamounts
    unfold CWalletTx.getCredit at hcredit
    rw [if_neg (by simp [hpos])] at hcredit
    rw [if_pos (by rw [hgenerated]; rfl), ← getCredit_eq hcredit, ← (getDebit_eq hdebit).1]
    unfold Amounts.net
    simp
  · rw [if_neg hgenerated] at hamounts
    obtain ⟨nDebit, hdebit, hamounts⟩ := except_bind_eq_ok.1 hamounts
    obtain ⟨hsum, hnonneg⟩ := getDebit_eq hdebit
    have hgen : wtx.isGenerated = false := Bool.not_eq_true _ ▸ hgenerated
    have hsnd : ((fun x : CTxDestination × ℤ => x.2) ∘
        fun txout : CTxOut => (destinationOf txout, txout.nValue)) = (·.nValue) := rfl
    dsimp only at hamounts
    by_cases hpaid : 0 < nDebit
    · rw [if_pos hpaid] at hamounts
      obtain ⟨nValueOut, hout, hamounts⟩ := except_bind_eq_ok.1 hamounts
      have hvalue := CTransaction.eq_valueOut_of_getValueOut hout
      obtain rfl := Except.ok.inj hamounts
      have hstrange : (wtx.isGenerated || decide (w.debitOf wtx.tx ≤ 0)) = false := by
        rw [hgen, Bool.false_or, decide_eq_false_iff_not]
        omega
      unfold Amounts.net
      simp only [hpaid, hstrange, decide_true, Bool.true_and, Bool.false_eq_true, if_true, if_false,
        List.map_map, hsnd]
      have hreported := sum_reported w.isMine w.isChange wtx.tx.vout
      unfold CWallet.creditOf CWallet.ownValue
      unfold CTransaction.valueOut at hvalue
      rw [← hsum]
      linarith
    · rw [if_neg hpaid] at hamounts
      obtain rfl := Except.ok.inj hamounts
      have hzero : nDebit = 0 := by omega
      have hstrange : (wtx.isGenerated || decide (w.debitOf wtx.tx ≤ 0)) = true := by
        rw [hgen, Bool.false_or, decide_eq_true_iff]
        omega
      unfold Amounts.net
      simp only [hpaid, hstrange, decide_false, Bool.false_and, Bool.not_false, if_false, if_true,
        List.map_map, hsnd]
      rw [← hsum, hzero]
      unfold CWallet.creditOf CWallet.ownValue
      rw [← sum_filter]
      simp

/-! ## The totals -/

omit [P : Platform] in
/-- **A sum of fallible terms.** -/
theorem foldlM_add_eq_ok {α : Type} {step : α → Except Failure ℤ} {value : α → ℤ}
    (hvalue : ∀ x n, step x = .ok n → n = value x) : ∀ {l : List α} {n n' : ℤ},
    l.foldlM (fun n x => (do let c ← step x; .ok (n + c) : Except Failure ℤ)) n = .ok n' ↔
      (∀ x ∈ l, ∃ c, step x = .ok c) ∧ n' = n + (l.map value).sum
  | [], n, n' => by
    rw [List.foldlM_nil, List.map_nil, List.sum_nil, add_zero]
    exact ⟨fun h => ⟨by simp, (Except.ok.inj h).symm⟩, fun h => congrArg Except.ok h.2.symm⟩
  | x :: l, n, n' => by
    rw [List.foldlM_cons, List.map_cons, List.sum_cons]
    cases hx : step x with
    | error e =>
      refine ⟨fun h => ?_, fun h => ?_⟩
      · cases h
      obtain ⟨c, hc⟩ := h.1 x List.mem_cons_self
      rw [hx] at hc
      cases hc
    | ok c =>
      refine (foldlM_add_eq_ok hvalue (l := l)).trans ?_
      rw [hvalue x c hx, ← add_assoc]
      simp [hx]

/-- **A transaction counts** in both totals: it is confirmed, and mature. -/
def Counts (isConfirmed : CWalletTx → Except Failure Bool) (chain : WalletChain)
    (wtx : CWalletTx) : Bool :=
  (isConfirmed wtx).toOption.getD false && wtx.isMature chain

omit [P : Platform] in
theorem counts_of_ok {fConfirmed : Bool} (h : isConfirmed wtx = .ok fConfirmed) :
    Counts isConfirmed chain wtx = (fConfirmed && wtx.isMature chain) := by
  unfold Counts
  rw [h]
  rfl

/-- `IsConfirmed` answers, and for what counts the sums can be had. -/
def Answers (w : CWallet) (chain : WalletChain) (isConfirmed : CWalletTx → Except Failure Bool)
    (wtx : CWalletTx) : Prop :=
  (∃ fConfirmed, isConfirmed wtx = .ok fConfirmed) ∧
    (Counts isConfirmed chain wtx = true →
      (∃ n, wtx.getAvailableCredit w chain = .ok n) ∧ wtx.HasAmounts w chain)

/-- The term of `GetBalance`. -/
def balanceTerm (w : CWallet) (chain : WalletChain)
    (isConfirmed : CWalletTx → Except Failure Bool) (wtx : CWalletTx) : Except Failure ℤ := do
  let fConfirmed ← isConfirmed wtx
  if fConfirmed then wtx.getAvailableCredit w chain else .ok 0

/-- The term of `getbalance '*' 0`. -/
def allTerm (w : CWallet) (chain : WalletChain)
    (isConfirmed : CWalletTx → Except Failure Bool) (wtx : CWalletTx) : Except Failure ℤ := do
  let fConfirmed ← isConfirmed wtx
  if !fConfirmed || 0 < wtx.getBlocksToMaturity chain then .ok 0
  else do
    let a ← wtx.getAmounts w chain
    .ok a.net

theorem getBalance_terms : w.getBalance chain isConfirmed =
    w.txs.foldlM (fun n wtx => do let c ← balanceTerm w chain isConfirmed wtx; .ok (n + c)) 0 := by
  unfold CWallet.getBalance
  congr 1
  funext n wtx
  unfold balanceTerm
  cases isConfirmed wtx with
  | error e => rfl
  | ok fConfirmed =>
    cases fConfirmed with
    | true => rfl
    | false => exact congrArg Except.ok (add_zero n).symm

theorem getbalanceAll_terms : getbalanceAll w chain isConfirmed 0 =
    w.txs.foldlM (fun n wtx => do let c ← allTerm w chain isConfirmed wtx; .ok (n + c)) 0 := by
  unfold getbalanceAll
  congr 1
  funext n wtx
  unfold allTerm
  cases isConfirmed wtx with
  | error e => rfl
  | ok fConfirmed =>
    simp only [except_ok_bind]
    split
    · exact congrArg Except.ok (add_zero n).symm
    · cases wtx.getAmounts w chain with
      | error e => rfl
      | ok a =>
        have hdepth : 0 ≤ wtx.getDepthInMainChain chain := chain.depth_nonneg _
        refine congrArg Except.ok ?_
        rw [if_pos hdepth]
        unfold Amounts.net
        ring

/-- What a transaction that counts is worth to `GetBalance`. -/
theorem balanceTerm_eq {n : ℤ} (h : balanceTerm w chain isConfirmed wtx = .ok n) :
    n = if Counts isConfirmed chain wtx then w.creditOf wtx.tx - wtx.spentOf w else 0 := by
  unfold balanceTerm at h
  obtain ⟨fConfirmed, hconfirmed, h⟩ := except_bind_eq_ok.1 h
  rw [counts_of_ok hconfirmed]
  cases fConfirmed with
  | false => exact (Except.ok.inj h).symm
  | true =>
    by_cases hmature : wtx.isMature chain = true
    · rw [if_pos (by simpa using hmature)]
      exact getAvailableCredit_eq hmature h
    · rw [if_neg (by simpa using hmature)]
      -- an immature transaction has nothing available
      have hpos : 0 < wtx.getBlocksToMaturity chain := by
        simpa [CWalletTx.isMature] using hmature
      have hgenerated := CWalletTx.isGenerated_of_immature hpos
      rw [if_pos rfl] at h
      unfold CWalletTx.getAvailableCredit at h
      rw [if_pos (by simp [hgenerated, hpos])] at h
      exact (Except.ok.inj h).symm

/-- What it is worth to `getbalance '*'`. -/
theorem allTerm_eq {n : ℤ} (h : allTerm w chain isConfirmed wtx = .ok n) :
    n = if Counts isConfirmed chain wtx then
      w.creditOf wtx.tx - w.debitOf wtx.tx + wtx.strangeChange w else 0 := by
  unfold allTerm at h
  obtain ⟨fConfirmed, hconfirmed, h⟩ := except_bind_eq_ok.1 h
  rw [counts_of_ok hconfirmed]
  by_cases hcounts : fConfirmed = true ∧ wtx.isMature chain = true
  · obtain ⟨rfl, hmature⟩ := hcounts
    have hpos : ¬ 0 < wtx.getBlocksToMaturity chain := by
      simpa [CWalletTx.isMature] using hmature
    rw [if_neg (by simpa using hpos)] at h
    obtain ⟨a, ha, h⟩ := except_bind_eq_ok.1 h
    have hamounts : wtx.amounts w chain = a := by
      unfold CWalletTx.amounts
      rw [ha]
      rfl
    rw [if_pos (by simpa using hmature), ← net_amounts hmature ⟨a, ha⟩, hamounts]
    exact (Except.ok.inj h).symm
  · have hskip : (!fConfirmed || decide (0 < wtx.getBlocksToMaturity chain)) = true := by
      cases fConfirmed with
      | false => rfl
      | true => simpa [CWalletTx.isMature] using hcounts
    rw [if_pos hskip] at h
    rw [if_neg (by simpa using hcounts)]
    exact (Except.ok.inj h).symm

theorem balanceTerm_ok_of_answers (h : Answers w chain isConfirmed wtx) :
    (∃ n, balanceTerm w chain isConfirmed wtx = .ok n) ∧
      ∃ n, allTerm w chain isConfirmed wtx = .ok n := by
  obtain ⟨⟨fConfirmed, hconfirmed⟩, hsums⟩ := h
  rw [counts_of_ok hconfirmed] at hsums
  unfold balanceTerm allTerm
  rw [hconfirmed]
  cases fConfirmed with
  | false => exact ⟨⟨0, rfl⟩, 0, rfl⟩
  | true =>
    by_cases hmature : wtx.isMature chain = true
    · obtain ⟨⟨n, hn⟩, a, ha⟩ := hsums (by simpa using hmature)
      have hpos : ¬ 0 < wtx.getBlocksToMaturity chain := by
        simpa [CWalletTx.isMature] using hmature
      refine ⟨⟨n, hn⟩, a.net, ?_⟩
      rw [except_ok_bind, if_neg (by simpa using hpos), ha]
      rfl
    · have hpos : 0 < wtx.getBlocksToMaturity chain := by
        simpa [CWalletTx.isMature] using hmature
      have hgenerated := CWalletTx.isGenerated_of_immature hpos
      refine ⟨⟨0, ?_⟩, 0, ?_⟩
      · rw [except_ok_bind, if_pos rfl]
        unfold CWalletTx.getAvailableCredit
        rw [if_pos (by simp [hgenerated, hpos])]
      · rw [except_ok_bind, if_pos (by simpa using hpos)]

theorem answers_of_terms {n n' : ℤ} (hbalance : balanceTerm w chain isConfirmed wtx = .ok n)
    (hall : allTerm w chain isConfirmed wtx = .ok n') : Answers w chain isConfirmed wtx := by
  unfold balanceTerm at hbalance
  unfold allTerm at hall
  obtain ⟨fConfirmed, hconfirmed, hbalance⟩ := except_bind_eq_ok.1 hbalance
  rw [hconfirmed, except_ok_bind] at hall
  refine ⟨⟨fConfirmed, hconfirmed⟩, fun hcounts => ?_⟩
  rw [counts_of_ok hconfirmed, Bool.and_eq_true] at hcounts
  obtain ⟨rfl, hmature⟩ := hcounts
  have hpos : ¬ 0 < wtx.getBlocksToMaturity chain := by
    simpa [CWalletTx.isMature] using hmature
  rw [if_neg (by simpa using hpos)] at hall
  obtain ⟨a, ha, -⟩ := except_bind_eq_ok.1 hall
  exact ⟨⟨n, hbalance⟩, a, ha⟩

/-- **The totals agree**: both calls return, and the same amount. -/
def TotalsAgree (w : CWallet) (chain : WalletChain)
    (isConfirmed : CWalletTx → Except Failure Bool) : Prop :=
  ∃ n, w.getBalance chain isConfirmed = .ok n ∧ getbalanceAll w chain isConfirmed 0 = .ok n

/-- A sum over the transactions that count. -/
def CWallet.sumCounted (w : CWallet) (counts : CWalletTx → Bool) (f : CWalletTx → ℤ) : ℤ :=
  (w.txs.map fun wtx => if counts wtx then f wtx else 0).sum

omit [P : Platform] in
theorem sumCounted_sub {counts : CWalletTx → Bool} {f g : CWalletTx → ℤ} :
    w.sumCounted counts (fun wtx => f wtx - g wtx) =
      w.sumCounted counts f - w.sumCounted counts g := by
  unfold CWallet.sumCounted
  induction w.txs with
  | nil => rfl
  | cons wtx l ih =>
    simp only [List.map_cons, List.sum_cons, ih]
    split
    · ring
    · ring

omit [P : Platform] in
theorem sumCounted_add {counts : CWalletTx → Bool} {f g : CWalletTx → ℤ} :
    w.sumCounted counts (fun wtx => f wtx + g wtx) =
      w.sumCounted counts f + w.sumCounted counts g := by
  unfold CWallet.sumCounted
  induction w.txs with
  | nil => rfl
  | cons wtx l ih =>
    simp only [List.map_cons, List.sum_cons, ih]
    split
    · ring
    · ring

theorem getBalance_eq_ok {n : ℤ} : w.getBalance chain isConfirmed = .ok n ↔
    (∀ wtx ∈ w.txs, ∃ c, balanceTerm w chain isConfirmed wtx = .ok c) ∧
      n = w.sumCounted (Counts isConfirmed chain) (fun wtx => w.creditOf wtx.tx) -
        w.sumCounted (Counts isConfirmed chain) (fun wtx => wtx.spentOf w) := by
  rw [getBalance_terms, foldlM_add_eq_ok fun _ _ h => balanceTerm_eq h, ← sumCounted_sub, zero_add]
  rfl

theorem getbalanceAll_eq_ok {n : ℤ} : getbalanceAll w chain isConfirmed 0 = .ok n ↔
    (∀ wtx ∈ w.txs, ∃ c, allTerm w chain isConfirmed wtx = .ok c) ∧
      n = w.sumCounted (Counts isConfirmed chain) (fun wtx => w.creditOf wtx.tx) -
          w.sumCounted (Counts isConfirmed chain) (fun wtx => w.debitOf wtx.tx) +
        w.sumCounted (Counts isConfirmed chain) (fun wtx => wtx.strangeChange w) := by
  rw [getbalanceAll_terms, foldlM_add_eq_ok fun _ _ h => allTerm_eq h, ← sumCounted_sub,
    ← sumCounted_add, zero_add]
  rfl

/-- **The totals agree where the sums do**: where what is spent of the
transactions that count is what they spend, less change to strange
scripts. -/
theorem totalsAgree_iff_sums : TotalsAgree w chain isConfirmed ↔
    (∀ wtx ∈ w.txs, Answers w chain isConfirmed wtx) ∧
      w.sumCounted (Counts isConfirmed chain) (fun wtx => wtx.spentOf w) =
        w.sumCounted (Counts isConfirmed chain) (fun wtx => w.debitOf wtx.tx) -
          w.sumCounted (Counts isConfirmed chain) (fun wtx => wtx.strangeChange w) := by
  constructor
  · rintro ⟨n, hbalance, hall⟩
    obtain ⟨hterms, hn⟩ := getBalance_eq_ok.1 hbalance
    obtain ⟨hterms', hn'⟩ := getbalanceAll_eq_ok.1 hall
    refine ⟨fun wtx hwtx => ?_, by linarith⟩
    obtain ⟨c, hc⟩ := hterms wtx hwtx
    obtain ⟨c', hc'⟩ := hterms' wtx hwtx
    exact answers_of_terms hc hc'
  · rintro ⟨hanswers, hsums⟩
    refine ⟨_, getBalance_eq_ok.2 ⟨fun wtx hwtx => ?_, rfl⟩,
      getbalanceAll_eq_ok.2 ⟨fun wtx hwtx => ?_, by linarith⟩⟩
    · exact (balanceTerm_ok_of_answers (hanswers wtx hwtx)).1
    · exact (balanceTerm_ok_of_answers (hanswers wtx hwtx)).2

/-! ## Output by output -/

section Keys

omit [P : Platform]

variable {α κ : Type} [DecidableEq κ] (key : α → κ) (f : α → ℤ) {l : List α}

theorem sum_ite_key_of_not_mem {k : κ} (h : ∀ y ∈ l, key y ≠ k) :
    (l.map fun y => if key y = k then f y else 0).sum = 0 := by
  refine List.sum_eq_zero fun n hn => ?_
  obtain ⟨y, hy, rfl⟩ := List.mem_map.1 hn
  exact if_neg (h y hy)

/-- Of a key, one entry counts. -/
theorem sum_ite_key (hnodup : (l.map key).Nodup) {x : α} (hx : x ∈ l) :
    (l.map fun y => if key y = key x then f y else 0).sum = f x := by
  induction l with
  | nil => exact absurd hx List.not_mem_nil
  | cons y l ih =>
    obtain ⟨hy, hl⟩ := List.nodup_cons.1 hnodup
    rw [List.map_cons, List.sum_cons]
    rcases List.mem_cons.1 hx with rfl | hx
    · have hrest : ∀ z ∈ l, key z ≠ key x := fun z hz heq => hy (heq ▸ List.mem_map_of_mem hz)
      rw [if_pos rfl, sum_ite_key_of_not_mem key f hrest, add_zero]
    · have hne : key y ≠ key x := fun heq => hy (heq ▸ List.mem_map_of_mem hx)
      rw [if_neg hne, zero_add, ih hl hx]

end Keys

/-- What an output is worth to the wallet, where it is in it. -/
def CWallet.outValue (w : CWallet) (o : COutPoint) : ℤ :=
  match w.mapWallet[o.hash]? with
  | none => 0
  | some prev => ((prev.tx.vout[o.n]?).map w.ownValue).getD 0

theorem getDebitIn_eq (txin : CTxIn) : w.getDebitIn txin = w.outValue txin.prevout := by
  unfold CWallet.getDebitIn CWallet.outValue CWallet.ownValue
  cases w.mapWallet[txin.prevout.hash]? with
  | none => rfl
  | some prev =>
    dsimp only
    cases prev.tx.vout[txin.prevout.n]? with
    | none => rfl
    | some txout => rfl

/-- A sum over all outputs of the wallet's transactions, each with its
place. -/
def CWallet.sumOutputs (w : CWallet) (f : Uint256 → CWalletTx → CTxOut × ℕ → ℤ) : ℤ :=
  (w.mapWallet.toList.map fun e => (e.2.tx.vout.zipIdx.map (f e.1 e.2)).sum).sum

/-- One output of a transaction, found by its place. -/
theorem sum_ite_place (tx : CTransaction) (n : ℕ) :
    (tx.vout.zipIdx.map fun txout => if txout.2 = n then w.ownValue txout.1 else 0).sum =
      ((tx.vout[n]?).map w.ownValue).getD 0 := by
  have hnodup : (tx.vout.zipIdx.map Prod.snd).Nodup := by
    rw [List.zipIdx_map_snd]
    exact List.nodup_range'
  cases hout : tx.vout[n]? with
  | none =>
    refine sum_ite_key_of_not_mem Prod.snd _ fun y hy heq => ?_
    have hmem := List.mem_zipIdx_iff_getElem?.1 (show (y.1, y.2) ∈ tx.vout.zipIdx from hy)
    rw [heq, hout] at hmem
    cases hmem
  | some txout =>
    have hmem : (txout, n) ∈ tx.vout.zipIdx := List.mem_zipIdx_iff_getElem?.2 hout
    exact sum_ite_key Prod.snd (fun y => w.ownValue y.1) hnodup hmem

/-- **The value of an output point** is found among all outputs. -/
theorem outValue_eq_sumOutputs (o : COutPoint) :
    w.outValue o = w.sumOutputs fun hash _ txout =>
      if (⟨hash, txout.2⟩ : COutPoint) = o then w.ownValue txout.1 else 0 := by
  have hnodup : (w.mapWallet.toList.map Prod.fst).Nodup := by
    rw [Std.ExtTreeMap.map_fst_toList_eq_keys]
    exact Std.ExtTreeMap.distinct_keys.imp fun hne heq => hne (Std.compare_eq_iff_eq.2 heq)
  -- of a transaction with another hash, no output counts
  have hinner : ∀ e : Uint256 × CWalletTx,
      (e.2.tx.vout.zipIdx.map fun txout =>
        if (⟨e.1, txout.2⟩ : COutPoint) = o then w.ownValue txout.1 else 0).sum =
        if e.1 = o.hash then ((e.2.tx.vout[o.n]?).map w.ownValue).getD 0 else 0 := by
    intro e
    rw [← sum_ite_place]
    by_cases hhash : e.1 = o.hash
    · rw [if_pos hhash]
      refine congrArg List.sum (List.map_congr_left fun txout _ => ?_)
      refine if_congr ⟨fun h => congrArg COutPoint.n h, fun h => ?_⟩ rfl rfl
      rw [hhash, h]
    · rw [if_neg hhash]
      refine List.sum_eq_zero fun n hn => ?_
      obtain ⟨txout, -, rfl⟩ := List.mem_map.1 hn
      exact if_neg fun h => hhash (congrArg COutPoint.hash h)
  unfold CWallet.sumOutputs
  rw [List.map_congr_left fun e _ => hinner e]
  unfold CWallet.outValue
  cases hprev : w.mapWallet[o.hash]? with
  | none =>
    refine (sum_ite_key_of_not_mem Prod.fst _ fun e he heq => ?_).symm
    have hmem := Std.ExtTreeMap.mem_toList_iff_getElem?_eq_some.1 (show (e.1, e.2) ∈ _ from he)
    rw [heq, hprev] at hmem
    cases hmem
  | some prev =>
    have hmem := Std.ExtTreeMap.mem_toList_iff_getElem?_eq_some.2 hprev
    exact (sum_ite_key Prod.fst (fun e => ((e.2.tx.vout[o.n]?).map w.ownValue).getD 0)
      hnodup hmem).symm

/-! ## Spenders -/

/-- What the transactions that count spend. -/
def CWallet.spentPoints (w : CWallet) (counts : CWalletTx → Bool) : List COutPoint :=
  (w.txs.filter counts).flatMap fun wtx => wtx.tx.vin.map (·.prevout)

/-- How often they spend an output. -/
def CWallet.spends (w : CWallet) (counts : CWalletTx → Bool) (hash : Uint256) (n : ℕ) : ℕ :=
  (w.spentPoints counts).count ⟨hash, n⟩

omit [P : Platform] in
theorem sumOutputs_add {f g : Uint256 → CWalletTx → CTxOut × ℕ → ℤ} :
    w.sumOutputs (fun hash wtx txout => f hash wtx txout + g hash wtx txout) =
      w.sumOutputs f + w.sumOutputs g := by
  unfold CWallet.sumOutputs
  simp only [List.sum_map_add]

/-- The debits of what counts are the values of what it spends. -/
theorem sumCounted_debitOf {counts : CWalletTx → Bool} :
    w.sumCounted counts (fun wtx => w.debitOf wtx.tx) =
      ((w.spentPoints counts).map w.outValue).sum := by
  unfold CWallet.sumCounted CWallet.spentPoints
  induction w.txs with
  | nil => rfl
  | cons wtx l ih =>
    rw [List.map_cons, List.sum_cons, ih]
    by_cases hcounts : counts wtx = true
    · rw [if_pos hcounts, List.filter_cons_of_pos hcounts, List.flatMap_cons, List.map_append,
        List.sum_append, List.map_map]
      congr 1
      unfold CWallet.debitOf
      exact congrArg List.sum (List.map_congr_left fun txin _ => getDebitIn_eq txin)
    · rw [if_neg hcounts, List.filter_cons_of_neg hcounts, zero_add]

/-- **Point by point, or output by output**: each output counts as often as
it is spent. -/
theorem sum_outValue (l : List COutPoint) :
    (l.map w.outValue).sum =
      w.sumOutputs fun hash _ txout => w.ownValue txout.1 * l.count ⟨hash, txout.2⟩ := by
  induction l with
  | nil =>
    unfold CWallet.sumOutputs
    simp
  | cons o l ih =>
    rw [List.map_cons, List.sum_cons, ih, outValue_eq_sumOutputs, ← sumOutputs_add]
    congr 1
    funext hash wtx txout
    rw [List.count_cons]
    by_cases heq : (⟨hash, txout.2⟩ : COutPoint) = o
    · rw [if_pos heq, if_pos (by simpa using heq.symm)]
      push_cast
      ring
    · rw [if_neg heq, if_neg (by simpa using Ne.symm heq)]
      push_cast
      ring

omit [P : Platform] in
theorem sumOutputs_congr {f g : Uint256 → CWalletTx → CTxOut × ℕ → ℤ}
    (h : ∀ hash wtx, w.mapWallet[hash]? = some wtx → ∀ n txout, wtx.tx.vout[n]? = some txout →
      f hash wtx (txout, n) = g hash wtx (txout, n)) : w.sumOutputs f = w.sumOutputs g := by
  unfold CWallet.sumOutputs
  refine congrArg List.sum (List.map_congr_left fun e he => ?_)
  have hprev := Std.ExtTreeMap.mem_toList_iff_getElem?_eq_some.1 (show (e.1, e.2) ∈ _ from he)
  refine congrArg List.sum (List.map_congr_left fun txout htxout => ?_)
  exact h e.1 e.2 hprev txout.2 txout.1
    (List.mem_zipIdx_iff_getElem?.1 (show (txout.1, txout.2) ∈ _ from htxout))

/-- **The spent flags are exact**: an output of ours is flagged spent if and
only if a transaction of the wallet spends it. -/
def ExactFlags (w : CWallet) : Prop :=
  ∀ hash wtx, w.mapWallet[hash]? = some wtx → ∀ n txout, wtx.tx.vout[n]? = some txout →
    w.isMine txout = true →
      (wtx.isSpent n = true ↔ ∃ spender ∈ w.txs, ∃ txin ∈ spender.tx.vin, txin.prevout = ⟨hash, n⟩)

instance {w : CWallet} : Decidable (ExactFlags w) :=
  decidable_of_iff (∀ e ∈ w.mapWallet.toList, ∀ txout ∈ e.2.tx.vout.zipIdx,
      w.isMine txout.1 = true →
        (e.2.isSpent txout.2 = true ↔
          ∃ spender ∈ w.txs, ∃ txin ∈ spender.tx.vin, txin.prevout = ⟨e.1, txout.2⟩)) <| by
    constructor
    · intro h hash wtx hwtx n txout htxout
      exact h (hash, wtx) (Std.ExtTreeMap.mem_toList_iff_getElem?_eq_some.2 hwtx) (txout, n)
        (List.mem_zipIdx_iff_getElem?.2 htxout)
    · rintro h ⟨hash, wtx⟩ hwtx ⟨txout, n⟩ htxout
      exact h hash wtx (Std.ExtTreeMap.mem_toList_iff_getElem?_eq_some.1 hwtx) n txout
        (List.mem_zipIdx_iff_getElem?.1 htxout)

/-- What is spent of the transactions that count by none that counts. -/
def CWallet.spentAside (w : CWallet) (counts : CWalletTx → Bool) : ℤ :=
  w.sumOutputs fun hash wtx txout =>
    if counts wtx && wtx.isSpent txout.2 && w.spends counts hash txout.2 = 0 then
      w.ownValue txout.1
    else 0

/-- What those that count spend of one that does not, and what they spend
again. -/
def CWallet.spentOver (w : CWallet) (counts : CWalletTx → Bool) : ℤ :=
  w.sumOutputs fun hash wtx txout =>
    w.ownValue txout.1 * ((w.spends counts hash txout.2 - if counts wtx then 1 else 0 : ℕ) : ℤ)

theorem sumCounted_spentOf {counts : CWalletTx → Bool} :
    w.sumCounted counts (fun wtx => wtx.spentOf w) = w.sumOutputs fun _ wtx txout =>
      if counts wtx && wtx.isSpent txout.2 then w.ownValue txout.1 else 0 := by
  unfold CWallet.sumCounted CWallet.sumOutputs CWallet.txs
  rw [List.map_map]
  refine congrArg List.sum (List.map_congr_left fun e _ => ?_)
  unfold CWalletTx.spentOf
  by_cases hcounts : counts e.2 = true
  · simp only [Function.comp, hcounts, if_true, Bool.true_and]
  · have hnot : counts e.2 = false := Bool.not_eq_true _ ▸ hcounts
    simp only [Function.comp, hnot, Bool.false_and, Bool.false_eq_true, if_false]
    rw [List.sum_eq_zero fun n hn => by
      obtain ⟨_, -, rfl⟩ := List.mem_map.1 hn
      rfl]

/-- **An output is spent as often as it is flagged**, but for what is spent
aside and what is spent over. -/
theorem spentOf_add_spentOver (hexact : ExactFlags w) (counts : CWalletTx → Bool) :
    w.sumCounted counts (fun wtx => wtx.spentOf w) + w.spentOver counts =
      w.spentAside counts + w.sumCounted counts (fun wtx => w.debitOf wtx.tx) := by
  rw [sumCounted_spentOf, sumCounted_debitOf, sum_outValue]
  unfold CWallet.spentOver CWallet.spentAside
  rw [← sumOutputs_add, ← sumOutputs_add]
  refine sumOutputs_congr fun hash wtx hwtx n txout htxout => ?_
  dsimp only
  change _ = _ + w.ownValue txout * (w.spends counts hash n : ℤ)
  by_cases hmine : w.isMine txout = true
  · by_cases hcounts : counts wtx = true
    · rcases Nat.eq_zero_or_pos (w.spends counts hash n) with hzero | hpos
      · simp only [hcounts, hzero, Bool.true_and, decide_true, Bool.and_true, if_true, Nat.zero_sub]
      · -- what is spent by one that counts is flagged
        have hspent : wtx.isSpent n = true := by
          refine (hexact hash wtx hwtx n txout htxout hmine).2 ?_
          obtain ⟨spender, hspender, hpoint⟩ := List.mem_flatMap.1 (List.count_pos_iff.1 hpos)
          obtain ⟨txin, htxin, heq⟩ := List.mem_map.1 hpoint
          exact ⟨spender, (List.mem_filter.1 hspender).1, txin, htxin, heq⟩
        have hne : ¬ w.spends counts hash n = 0 := by omega
        simp only [hcounts, hspent, hne, Bool.true_and, decide_false, Bool.and_false,
          Bool.false_eq_true, if_true, if_false]
        rw [Nat.cast_sub hpos]
        push_cast
        ring
    · have hnot : counts wtx = false := Bool.not_eq_true _ ▸ hcounts
      simp only [hnot, Bool.false_and, Bool.false_eq_true, if_false, Nat.sub_zero]
  · have hzero : w.ownValue txout = 0 := if_neg hmine
    simp only [hzero, ite_self, zero_mul]

/-- **When the totals agree**: the sums can be had, and what is spent of
the transactions that count by none of them, with change to strange
scripts, equals what they spend of others or again. -/
def TotalsMatch (w : CWallet) (chain : WalletChain)
    (isConfirmed : CWalletTx → Except Failure Bool) : Prop :=
  (∀ wtx ∈ w.txs, Answers w chain isConfirmed wtx) ∧
    w.spentAside (Counts isConfirmed chain) +
        w.sumCounted (Counts isConfirmed chain) (fun wtx => wtx.strangeChange w) =
      w.spentOver (Counts isConfirmed chain)

theorem totalsAgree_iff (hexact : ExactFlags w) :
    TotalsAgree w chain isConfirmed ↔ TotalsMatch w chain isConfirmed := by
  have hsum := spentOf_add_spentOver hexact (Counts isConfirmed chain)
  rw [totalsAgree_iff_sums]
  unfold TotalsMatch
  refine and_congr_right fun _ => ⟨fun h => ?_, fun h => ?_⟩
  · linarith
  · linarith

/-! ## `IsConfirmed` answers

Its loop ends where supporting transactions do not support one another in
a circle: each one it takes off the queue is replaced by some of lower
rank. -/

/-- A queue, weighed by the ranks of what is in it. -/
def queueWeight (B : ℕ) (rank : CMerkleTx → ℕ) (vWorkQueue : List CMerkleTx) : ℕ :=
  (vWorkQueue.map fun ptx => B ^ rank ptx).sum

omit [P : Platform] in
/-- What is put on the queue weighs less than what it is there for. -/
theorem queueWeight_prevs {B : ℕ} {rank : CMerkleTx → ℕ} {mapPrev : Uint256 → Option CMerkleTx}
    {r : ℕ} : ∀ {vin : List CTxIn} {prevs : List CMerkleTx},
    vin.mapM (fun txin => mapPrev txin.prevout.hash) = some prevs → vin.length < B →
    (∀ txin ∈ vin, ∀ prev, mapPrev txin.prevout.hash = some prev → rank prev < r) →
      queueWeight B rank prevs * B ≤ vin.length * B ^ r
  | [], prevs, h, hB, _ => by
    obtain rfl := Option.some.inj h
    exact (Nat.zero_mul _).le.trans (Nat.zero_le _)
  | txin :: vin, prevs, h, hB, hrank => by
    rw [List.mapM_cons] at h
    obtain ⟨prev, hprev, h⟩ := Option.bind_eq_some_iff.1 h
    obtain ⟨rest, hrest, h⟩ := Option.bind_eq_some_iff.1 h
    obtain rfl := Option.some.inj h
    have hlt := hrank txin List.mem_cons_self prev hprev
    have hle : B ^ rank prev * B ≤ B ^ r := by
      rw [← pow_succ]
      exact Nat.pow_le_pow_right (by omega) hlt
    have hlen : vin.length < B := by
      rw [List.length_cons] at hB
      omega
    have ih := queueWeight_prevs hrest hlen fun x hx => hrank x (List.mem_cons_of_mem _ hx)
    unfold queueWeight at ih ⊢
    rw [List.map_cons, List.sum_cons, Nat.add_mul, List.length_cons, Nat.add_mul, Nat.one_mul]
    omega

omit [P : Platform] in
theorem exists_of_mem_mapM {α β : Type} {f : α → Option β} : ∀ {l : List α} {bs : List β} {b : β},
    l.mapM f = some bs → b ∈ bs → ∃ a ∈ l, f a = some b
  | [], bs, b, h, hb => by
    obtain rfl := Option.some.inj h
    exact absurd hb List.not_mem_nil
  | a :: l, bs, b, h, hb => by
    rw [List.mapM_cons] at h
    obtain ⟨b', hb', h⟩ := Option.bind_eq_some_iff.1 h
    obtain ⟨rest, hrest, h⟩ := Option.bind_eq_some_iff.1 h
    obtain rfl := Option.some.inj h
    rcases List.mem_cons.1 hb with rfl | hb
    · exact ⟨a, List.mem_cons_self, hb'⟩
    · obtain ⟨a', ha', hfa⟩ := exists_of_mem_mapM hrest hb
      exact ⟨a', List.mem_cons_of_mem _ ha', hfa⟩

/-- **The work queue runs empty**, or the answer is known before. -/
theorem exists_confirmedLoop (w : CWallet) (chain : WalletChain)
    {mapPrev : Uint256 → Option CMerkleTx} {B : ℕ} {rank : CMerkleTx → ℕ}
    {good : CMerkleTx → Prop} (hB : ∀ ptx, good ptx → ptx.tx.vin.length < B)
    (hgood : ∀ hash prev, mapPrev hash = some prev → good prev)
    (hrank : ∀ ptx, good ptx → ∀ txin ∈ ptx.tx.vin, ∀ prev, mapPrev txin.prevout.hash = some prev →
      rank prev < rank ptx) (fuel : ℕ) :
    ∀ {vWorkQueue : List CMerkleTx}, (∀ ptx ∈ vWorkQueue, good ptx) →
      queueWeight B rank vWorkQueue ≤ fuel →
      ∃ r, CWalletTx.confirmedLoop w chain mapPrev fuel vWorkQueue = some r := by
  induction fuel with
  | zero =>
    intro vWorkQueue hqueue hweight
    cases vWorkQueue with
    | nil => exact ⟨_, rfl⟩
    | cons ptx vWorkQueue =>
      have hpos : 0 < B := Nat.lt_of_le_of_lt (Nat.zero_le _) (hB ptx (hqueue ptx List.mem_cons_self))
      have := Nat.pow_pos (n := rank ptx) hpos
      unfold queueWeight at hweight
      rw [List.map_cons, List.sum_cons] at hweight
      omega
  | succ fuel ih =>
    intro vWorkQueue hqueue hweight
    cases vWorkQueue with
    | nil => exact ⟨_, rfl⟩
    | cons ptx vWorkQueue =>
      have hlen := hB ptx (hqueue ptx List.mem_cons_self)
      have hpos : 0 < B := Nat.lt_of_le_of_lt (Nat.zero_le _) hlen
      have hone := Nat.pow_pos (n := rank ptx) hpos
      unfold queueWeight at hweight
      rw [List.map_cons, List.sum_cons] at hweight
      have hrest := fun x hx => hqueue x (List.mem_cons_of_mem ptx hx)
      unfold CWalletTx.confirmedLoop
      split
      · exact ⟨_, rfl⟩
      · split
        · refine ih hrest ?_
          unfold queueWeight
          omega
        · split
          · exact ⟨_, rfl⟩
          · exact ⟨_, rfl⟩
          · split
            · exact ⟨_, rfl⟩
            · rename_i prevs hprevs
              have hweighs := queueWeight_prevs hprevs hlen
                (hrank ptx (hqueue ptx List.mem_cons_self))
              refine ih (fun x hx => ?_) ?_
              · rcases List.mem_append.1 hx with hx | hx
                · exact hrest x hx
                · obtain ⟨txin, -, hprev⟩ := exists_of_mem_mapM hprevs hx
                  exact hgood _ x hprev
              · -- all that is put on weighs less than what is taken off
                have hless : queueWeight B rank prevs < B ^ rank ptx := by
                  refine Nat.lt_of_mul_lt_mul_right (a := B) (hweighs.trans_lt ?_)
                  rw [Nat.mul_comm (B ^ rank ptx)]
                  exact Nat.mul_lt_mul_of_pos_right hlen hone
                unfold queueWeight at hless ⊢
                rw [List.map_append, List.sum_append]
                omega

/-- **`IsConfirmed` answers**, where there is no circle. -/
theorem exists_isConfirmed (wtx : CWalletTx) {rank : CMerkleTx → ℕ}
    (hrank : ∀ ptx, ptx = wtx.merkleTx ∨ ptx ∈ wtx.vtxPrev → ∀ txin ∈ ptx.tx.vin, ∀ prev,
      wtx.mapPrev txin.prevout.hash = some prev → rank prev < rank ptx) :
    ∃ fuel r, wtx.isConfirmed w chain fuel = some r := by
  let good : CMerkleTx → Prop := fun ptx => ptx = wtx.merkleTx ∨ ptx ∈ wtx.vtxPrev
  let B := ((wtx.merkleTx :: wtx.vtxPrev).map fun ptx => ptx.tx.vin.length).sum + 1
  have hB : ∀ ptx, good ptx → ptx.tx.vin.length < B := by
    intro ptx hptx
    refine Nat.lt_succ_of_le (List.le_sum_of_mem ?_)
    exact List.mem_map_of_mem (List.mem_cons.2 hptx)
  have hgood : ∀ hash prev, wtx.mapPrev hash = some prev → good prev := by
    intro hash prev hprev
    exact .inr (List.mem_reverse.1 (List.mem_of_find?_eq_some hprev))
  have hqueue : ∀ ptx ∈ [wtx.merkleTx], good ptx := fun ptx hptx =>
    .inl (List.mem_singleton.1 hptx)
  obtain ⟨r, hr⟩ := exists_confirmedLoop w chain hB hgood hrank _ hqueue le_rfl
  refine ⟨queueWeight B rank [wtx.merkleTx], ?_⟩
  unfold CWalletTx.isConfirmed
  split
  · exact ⟨_, rfl⟩
  · split
    · exact ⟨_, rfl⟩
    · split
      · exact ⟨_, rfl⟩
      · split
        · exact ⟨_, rfl⟩
        · exact ⟨r, hr⟩

/-! ## A stake that is not mature -/

namespace FreshStake

/-- Ten coins of ours. -/
def payment : CTransaction := ⟨1, 3, [⟨⟨99, 0⟩, [], uintMax⟩], [⟨10, [1]⟩], 0⟩

/-- An ordinary transaction that spends them, and pays nine back. -/
def spending : CTransaction := ⟨1, 4, [⟨⟨3, 0⟩, [], uintMax⟩], [⟨9, [1]⟩], 0⟩

/-- A coinstake that spends them, and pays twelve. -/
def coinStake : CTransaction := ⟨1, 4, [⟨⟨3, 0⟩, [], uintMax⟩], [⟨0, []⟩, ⟨12, [1]⟩], 0⟩

/-- The payment, and what spent it. -/
def wallet (spender : CTransaction) : CWallet where
  mapWallet := (Std.ExtTreeMap.empty.insert 3 ⟨⟨payment, 1, [], 0, false, [true]⟩, [], ""⟩).insert 4
    ⟨⟨spender, 2, [], 0, false, spender.vout.map fun _ => false⟩, [], ""⟩
  keystore := ⟨[], [[1]]⟩
  mapAddressBook := []
  laccentries := []

/-- The payment is ten blocks deep, and what spent it in the last block. -/
def tipChain : WalletChain where
  nBestHeight := 100
  nAdjustedTime := 1000
  getDepthInMainChain tx := if tx.hashBlock = 1 then 10 else 1
  depth_nonneg tx := by
    split
    · decide
    · decide

/-- What `IsConfirmed` answers, in at most five turns. -/
def confirmed (spender : CTransaction) (wtx : CWalletTx) : Except Failure Bool :=
  (wtx.isConfirmed (wallet spender) tipChain 5).getD (.ok false)

omit [P : Platform] in
/-- **The totals agree** where the spender counts. -/
theorem totalsMatch_spending :
    letI := Platform.toy
    TotalsMatch (wallet spending) tipChain (confirmed spending) := by
  let := Platform.toy
  have hexact : ExactFlags (wallet spending) := by
    decide
  refine (totalsAgree_iff hexact).1 ⟨9, ?_, ?_⟩
  · decide
  · decide

omit [P : Platform] in
/-- **They do not agree** where it is a coinstake that is not mature: the
one total has lost the payment, the other has not. -/
theorem not_totalsAgree :
    letI := Platform.toy
    ¬ ∀ (w : CWallet) (chain : WalletChain) (isConfirmed : CWalletTx → Except Failure Bool),
      ExactFlags w →
      (∀ wtx ∈ w.txs, ∃ fuel, wtx.isConfirmed w chain fuel = some (isConfirmed wtx)) →
      TotalsAgree w chain isConfirmed := by
  let := Platform.toy
  intro hall
  have hexact : ExactFlags (wallet coinStake) := by
    decide
  have hconfirmed : ∀ wtx ∈ (wallet coinStake).txs,
      wtx.isConfirmed (wallet coinStake) tipChain 5 = some (confirmed coinStake wtx) := by
    decide
  obtain ⟨n, hbalance, hall⟩ := hall (wallet coinStake) tipChain (confirmed coinStake) hexact
    fun wtx hwtx => ⟨5, hconfirmed wtx hwtx⟩
  have hzero : (wallet coinStake).getBalance tipChain (confirmed coinStake) = .ok 0 := by
    decide
  have hten : getbalanceAll (wallet coinStake) tipChain (confirmed coinStake) 0 = .ok 10 := by
    decide
  have h0 := Except.ok.inj (hzero.symm.trans hbalance)
  have h10 := Except.ok.inj (hten.symm.trans hall)
  omega

end FreshStake

end Accounting

end CryptoBullion
