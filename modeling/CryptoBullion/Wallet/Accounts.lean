import CryptoBullion.Model.Accounting
import CryptoBullion.Model.Answers
/-!
# Two tallies of the accounts

`listaccounts` and `GetAccountBalance` book a transaction's amounts to the
same accounts. They part over which transactions count: the first takes
those that are not final as well, the second takes generated coins whatever
their depth, and asked for the account `*` it takes the accounting entries
of all of them.
-/

namespace CryptoBullion

namespace Accounting

variable [P : Platform]

variable {w : CWallet} {chain : WalletChain} {nMinDepth : ℤ} {strAccount : String}

/-! ## Running sums -/

namespace AccountBalances

omit [P : Platform]

variable {α : Type} {m : AccountBalances} {key : String} {n : ℤ} {f : α → String} {g : α → ℤ}

/-- What an account has, nothing where it is not listed. -/
def balance (m : AccountBalances) (strAccount : String) : ℤ := (m strAccount).getD 0

theorem balance_add : (m.add key n).balance strAccount =
    m.balance strAccount + if strAccount = key then n else 0 := by
  unfold balance add
  by_cases h : strAccount = key
  · subst h
    rw [Function.update_self, if_pos rfl]
    rfl
  · rw [Function.update_of_ne h, if_neg h, add_zero]

theorem isSome_add : (m.add key n strAccount).isSome ↔
    (m strAccount).isSome ∨ strAccount = key := by
  unfold add
  by_cases h : strAccount = key
  · subst h
    simp
  · rw [Function.update_of_ne h]
    simp [h]

theorem balance_foldl_add : ∀ {l : List α} {m : AccountBalances},
    (l.foldl (fun m x => m.add (f x) (g x)) m).balance strAccount =
      m.balance strAccount + (l.map fun x => if strAccount = f x then g x else 0).sum
  | [], m => by simp
  | x :: l, m => by
    rw [List.foldl_cons, balance_foldl_add, balance_add, List.map_cons, List.sum_cons, add_assoc]

theorem isSome_foldl_add : ∀ {l : List α} {m : AccountBalances},
    (l.foldl (fun m x => m.add (f x) (g x)) m strAccount).isSome ↔
      (m strAccount).isSome ∨ ∃ x ∈ l, strAccount = f x
  | [], m => by simp
  | x :: l, m => by
    rw [List.foldl_cons, isSome_foldl_add, isSome_add, or_assoc]
    simp

end AccountBalances

/-! ## The share of an account -/

namespace Amounts

/-- What is booked to an account of what was received. -/
def received (w : CWallet) (a : Amounts) (strAccount : String) : ℤ :=
  (a.listReceived.map fun r => if strAccount = w.accountOf r.1 then r.2 else 0).sum

/-- What was sent from an account, with the fee. -/
def sent (a : Amounts) (strAccount : String) : ℤ :=
  if strAccount = a.strSentAccount then (a.listSent.map (·.2)).sum + a.nFee else 0

/-- What was generated for an account. -/
def generated (a : Amounts) (strAccount : String) : ℤ :=
  if strAccount = "" then a.nGeneratedMature else 0

/-- An account's share of a transaction, which is deep enough or not. -/
def share (w : CWallet) (a : Amounts) (strAccount : String) (fDeep : Bool) : ℤ :=
  (if fDeep then a.generated strAccount + a.received w strAccount else 0) - a.sent strAccount

/-- Nothing at all. -/
def zero : Amounts := ⟨0, 0, [], [], 0, ""⟩

end Amounts

namespace CWalletTx

/-- The amounts, where they can be had. -/
def amounts (wtx : CWalletTx) (w : CWallet) (chain : WalletChain) : Amounts :=
  (wtx.getAmounts w chain).toOption.getD Amounts.zero

/-- `GetAmounts` does not throw. -/
def HasAmounts (wtx : CWalletTx) (w : CWallet) (chain : WalletChain) : Prop :=
  ∃ a, wtx.getAmounts w chain = .ok a

/-- No more blocks are to come before it counts. -/
def isMature (wtx : CWalletTx) (chain : WalletChain) : Bool :=
  !decide (0 < wtx.getBlocksToMaturity chain)

/-- At the depth that was asked for. -/
def isDeep (wtx : CWalletTx) (chain : WalletChain) (nMinDepth : ℤ) : Bool :=
  nMinDepth ≤ wtx.getDepthInMainChain chain

variable {wtx : CWalletTx}

theorem getAmounts_eq (h : wtx.HasAmounts w chain) :
    wtx.getAmounts w chain = .ok (wtx.amounts w chain) := by
  obtain ⟨a, ha⟩ := h
  unfold amounts
  rw [ha]
  rfl

omit [P : Platform] in
/-- Only what was generated has to mature. -/
theorem isGenerated_of_immature (hpos : 0 < wtx.getBlocksToMaturity chain) :
    wtx.isGenerated = true := by
  by_contra hnot
  unfold getBlocksToMaturity at hpos
  rw [if_pos (by simpa using hnot)] at hpos
  exact absurd hpos (lt_irrefl 0)

/-- **What is not mature is worth nothing yet.** -/
theorem amounts_of_immature (hmature : wtx.isMature chain = false) :
    (wtx.amounts w chain).nGeneratedMature = 0 ∧ (wtx.amounts w chain).listReceived = [] ∧
      (wtx.amounts w chain).listSent = [] ∧ (wtx.amounts w chain).nFee = 0 := by
  have hpos : 0 < wtx.getBlocksToMaturity chain := by simpa [isMature] using hmature
  unfold amounts getAmounts
  rw [if_pos (isGenerated_of_immature hpos), if_pos hpos]
  rcases w.getCredit wtx.tx with e | nCredit
  · exact ⟨rfl, rfl, rfl, rfl⟩
  · rcases w.getDebit wtx.tx with e | nDebit
    · exact ⟨rfl, rfl, rfl, rfl⟩
    · exact ⟨rfl, rfl, rfl, rfl⟩

/-- `GetAccountAmounts` books to the accounts of the destinations. -/
theorem getAccountAmounts_eq (strAccount : String) (h : wtx.HasAmounts w chain) :
    ∃ r, wtx.getAccountAmounts w chain strAccount = .ok r ∧
      r.nGenerated = (wtx.amounts w chain).generated strAccount ∧
      r.nReceived = (wtx.amounts w chain).received w strAccount ∧
      r.nSent + r.nFee = (wtx.amounts w chain).sent strAccount := by
  unfold getAccountAmounts
  rw [getAmounts_eq h]
  refine ⟨_, rfl, rfl, ?_, ?_⟩
  · unfold Amounts.received CWallet.accountOf
    dsimp only
    congr 1
    refine List.map_congr_left fun r _ => ?_
    cases hbook : w.mapAddressBook.lookup r.1 with
    | none => simp
    | some label => simp [eq_comm]
  · unfold Amounts.sent
    dsimp only
    split
    · rfl
    · rfl

/-- The accounts a transaction puts on the list. -/
def Names (wtx : CWalletTx) (w : CWallet) (chain : WalletChain) (nMinDepth : ℤ)
    (strAccount : String) : Prop :=
  strAccount = (wtx.amounts w chain).strSentAccount ∨
    (wtx.isDeep chain nMinDepth = true ∧ (strAccount = "" ∨
      ∃ r ∈ (wtx.amounts w chain).listReceived, strAccount = w.accountOf r.1))

theorem listTx_of_immature {m : AccountBalances} (hmature : wtx.isMature chain = false) :
    listTx w chain nMinDepth m wtx = .ok m := by
  have hpos : 0 < wtx.getBlocksToMaturity chain := by simpa [isMature] using hmature
  unfold listTx
  rw [if_pos (.inl hpos)]

/-- What a transaction that is mature does to the list. -/
theorem listTx_of_mature {m : AccountBalances} (hmature : wtx.isMature chain = true)
    {a : Amounts} (ha : wtx.getAmounts w chain = .ok a) :
    listTx w chain nMinDepth m wtx =
      let m₁ := a.listSent.foldl (fun m s => m.add a.strSentAccount (-s.2))
        (m.add a.strSentAccount (-a.nFee))
      .ok (if nMinDepth ≤ wtx.getDepthInMainChain chain then
          a.listReceived.foldl (fun m r => m.add (w.accountOf r.1) r.2)
            (m₁.add "" a.nGeneratedMature)
        else m₁) := by
  have hdepth : 0 ≤ wtx.getDepthInMainChain chain := chain.depth_nonneg _
  have hpos : ¬ 0 < wtx.getBlocksToMaturity chain := by simpa [isMature] using hmature
  unfold listTx
  rw [if_neg (by omega), ha]
  rfl

omit [P : Platform] in
/-- The account that sent takes the fee and all that was sent. -/
theorem balance_sent {m : AccountBalances} {a : Amounts} :
    (a.listSent.foldl (fun (m : AccountBalances) s => m.add a.strSentAccount (-s.2))
      (m.add a.strSentAccount (-a.nFee))).balance strAccount =
        m.balance strAccount - a.sent strAccount := by
  have hsum : (a.listSent.map fun s =>
      if strAccount = a.strSentAccount then -s.2 else 0).sum =
      if strAccount = a.strSentAccount then -(a.listSent.map (·.2)).sum else 0 := by
    split
    · rw [List.sum_neg, List.map_map]
      rfl
    · simp
  rw [AccountBalances.balance_foldl_add (f := fun _ : CTxDestination × ℤ => a.strSentAccount)
      (g := fun s => -s.2),
    AccountBalances.balance_add, hsum]
  unfold Amounts.sent
  split
  · ring
  · ring

omit [P : Platform] in
theorem isSome_sent {m : AccountBalances} {a : Amounts} :
    (a.listSent.foldl (fun (m : AccountBalances) s => m.add a.strSentAccount (-s.2))
      (m.add a.strSentAccount (-a.nFee)) strAccount).isSome ↔
        (m strAccount).isSome ∨ strAccount = a.strSentAccount := by
  rw [AccountBalances.isSome_foldl_add (f := fun _ : CTxDestination × ℤ => a.strSentAccount)
      (g := fun s => -s.2),
    AccountBalances.isSome_add]
  constructor
  · rintro (h | ⟨_, -, h⟩)
    · exact h
    · exact .inr h
  · exact .inl

/-- **One transaction on the list**: every account gets its share. -/
theorem listTx_eq (nMinDepth : ℤ) (m : AccountBalances) (hmature : wtx.isMature chain = true)
    (h : wtx.HasAmounts w chain) :
    ∃ m', listTx w chain nMinDepth m wtx = .ok m' ∧ ∀ strAccount,
      m'.balance strAccount = m.balance strAccount +
        (wtx.amounts w chain).share w strAccount (wtx.isDeep chain nMinDepth) ∧
      ((m' strAccount).isSome ↔
        (m strAccount).isSome ∨ wtx.Names w chain nMinDepth strAccount) := by
  rw [listTx_of_mature hmature (getAmounts_eq h)]
  refine ⟨_, rfl, fun strAccount => ?_⟩
  unfold Names Amounts.share isDeep
  generalize wtx.amounts w chain = a
  by_cases hdeep : nMinDepth ≤ wtx.getDepthInMainChain chain
  · simp only [hdeep, if_true, decide_true]
    refine ⟨?_, ?_⟩
    · rw [AccountBalances.balance_foldl_add (f := fun r : CTxDestination × ℤ => w.accountOf r.1)
        (g := (·.2)), AccountBalances.balance_add, balance_sent]
      unfold Amounts.generated Amounts.received
      ring
    · rw [AccountBalances.isSome_foldl_add (f := fun r : CTxDestination × ℤ => w.accountOf r.1)
        (g := (·.2)), AccountBalances.isSome_add, isSome_sent]
      tauto
  · simp only [hdeep, if_false, decide_false]
    refine ⟨?_, ?_⟩
    · rw [balance_sent]
      simp only [Bool.false_eq_true, if_false]
      ring
    · rw [isSome_sent]
      simp

/-- A list that goes on has the amounts. -/
theorem hasAmounts_of_listTx {m m' : AccountBalances} (hmature : wtx.isMature chain = true)
    (h : listTx w chain nMinDepth m wtx = .ok m') : wtx.HasAmounts w chain := by
  have hdepth : 0 ≤ wtx.getDepthInMainChain chain := chain.depth_nonneg _
  have hpos : ¬ 0 < wtx.getBlocksToMaturity chain := by simpa [isMature] using hmature
  unfold listTx at h
  rw [if_neg (by omega)] at h
  cases ha : wtx.getAmounts w chain with
  | error e =>
    rw [ha] at h
    cases h
  | ok a => exact ⟨a, ha⟩

end CWalletTx

/-! ## The list -/

/-- What a transaction adds to an account on the list. -/
def listShare (w : CWallet) (chain : WalletChain) (nMinDepth : ℤ) (strAccount : String)
    (wtx : CWalletTx) : ℤ :=
  if wtx.isMature chain then
    (wtx.amounts w chain).share w strAccount (wtx.isDeep chain nMinDepth)
  else 0

/-- **The loop of `listaccounts`** over transactions. -/
theorem listLoop : ∀ {l : List CWalletTx} {m m' : AccountBalances},
    l.foldlM (listTx w chain nMinDepth) m = .ok m' →
      (∀ wtx ∈ l, wtx.isMature chain = true → wtx.HasAmounts w chain) ∧ ∀ strAccount,
        m'.balance strAccount =
          m.balance strAccount + (l.map (listShare w chain nMinDepth strAccount)).sum ∧
        ((m' strAccount).isSome ↔ (m strAccount).isSome ∨
          ∃ wtx ∈ l, wtx.isMature chain = true ∧ wtx.Names w chain nMinDepth strAccount)
  | [], m, m', h => by
    obtain rfl := Except.ok.inj h
    simp
  | wtx :: l, m, m', h => by
    rw [List.foldlM_cons] at h
    by_cases hmature : wtx.isMature chain = true
    · cases hstep : listTx w chain nMinDepth m wtx with
      | error e =>
        rw [hstep] at h
        cases h
      | ok m₁ =>
        rw [hstep] at h
        have hamounts := CWalletTx.hasAmounts_of_listTx hmature hstep
        obtain ⟨m₂, h₂, hm₂⟩ := CWalletTx.listTx_eq nMinDepth m hmature hamounts
        obtain rfl := Except.ok.inj (hstep.symm.trans h₂)
        obtain ⟨hrest, hm'⟩ := listLoop (m := m₁) h
        refine ⟨fun x hx _ => ?_, fun strAccount => ⟨?_, ?_⟩⟩
        · rcases List.mem_cons.1 hx with rfl | hx
          · exact hamounts
          · exact hrest x hx ‹_›
        · rw [(hm' strAccount).1, (hm₂ strAccount).1, List.map_cons, List.sum_cons, listShare,
            if_pos hmature, add_assoc]
        · rw [(hm' strAccount).2, (hm₂ strAccount).2]
          simp only [List.mem_cons, exists_eq_or_imp, hmature, true_and]
          tauto
    · have himmature : wtx.isMature chain = false := Bool.not_eq_true _ ▸ hmature
      rw [CWalletTx.listTx_of_immature himmature] at h
      obtain ⟨hrest, hm'⟩ := listLoop (m := m) h
      refine ⟨fun x hx hx' => ?_, fun strAccount => ⟨?_, ?_⟩⟩
      · rcases List.mem_cons.1 hx with rfl | hx
        · exact absurd hx' hmature
        · exact hrest x hx hx'
      · rw [(hm' strAccount).1, List.map_cons, List.sum_cons, listShare, if_neg hmature, zero_add]
      · rw [(hm' strAccount).2]
        simp only [List.mem_cons, exists_eq_or_imp, himmature, Bool.false_eq_true, false_and,
          false_or]

/-- The labels of addresses of ours. -/
def IsLabel (w : CWallet) (strAccount : String) : Prop :=
  ∃ entry ∈ w.mapAddressBook, isMineDest w.keystore entry.1 = true ∧ strAccount = entry.2

/-- The list starts with the labels, all at nothing. -/
theorem listLabels : ∀ {l : List (CTxDestination × String)} {m : AccountBalances},
    (∀ strAccount, m.balance strAccount = 0) → ∀ strAccount,
      (l.foldl (fun (m : AccountBalances) entry =>
        if isMineDest w.keystore entry.1 then Function.update m entry.2 (some 0) else m)
          m).balance strAccount = 0 ∧
      ((l.foldl (fun (m : AccountBalances) entry =>
        if isMineDest w.keystore entry.1 then Function.update m entry.2 (some 0) else m)
          m strAccount).isSome ↔ (m strAccount).isSome ∨
            ∃ entry ∈ l, isMineDest w.keystore entry.1 = true ∧ strAccount = entry.2)
  | [], m, h, strAccount => ⟨h strAccount, by simp⟩
  | entry :: l, m, h, strAccount => by
    rw [List.foldl_cons]
    by_cases hmine : isMineDest w.keystore entry.1 = true
    · rw [if_pos hmine]
      have hzero : ∀ strAccount,
          AccountBalances.balance (Function.update m entry.2 (some 0)) strAccount = 0 := by
        intro strAccount
        unfold AccountBalances.balance
        by_cases heq : strAccount = entry.2
        · subst heq
          rw [Function.update_self]
          rfl
        · rw [Function.update_of_ne heq]
          exact h strAccount
      obtain ⟨hbalance, hsome⟩ := listLabels (l := l) hzero strAccount
      refine ⟨hbalance, hsome.trans ?_⟩
      by_cases heq : strAccount = entry.2
      · subst heq
        simp [hmine]
      · rw [Function.update_of_ne heq]
        simp [heq]
    · rw [if_neg hmine]
      obtain ⟨hbalance, hsome⟩ := listLabels (l := l) h strAccount
      refine ⟨hbalance, hsome.trans ?_⟩
      simp [hmine]

/-- **The accounts on the list**: labels of ours, those of the transactions
that count, and those of the accounting entries. -/
def IsListed (w : CWallet) (chain : WalletChain) (nMinDepth : ℤ) (strAccount : String) : Prop :=
  IsLabel w strAccount ∨
    (∃ wtx ∈ w.txs, wtx.isMature chain = true ∧ wtx.Names w chain nMinDepth strAccount) ∨
    ∃ entry ∈ w.laccentries, strAccount = entry.strAccount

/-- What the accounting entries of an account come to. -/
def CWallet.entriesOf (w : CWallet) (strAccount : String) : ℤ :=
  (w.laccentries.map fun entry =>
    if strAccount = entry.strAccount then entry.nCreditDebit else 0).sum

/-- **The list**: which accounts are on it, and what they have. -/
theorem listaccounts_eq {m : AccountBalances} (h : listaccounts w chain nMinDepth = .ok m) :
    (∀ wtx ∈ w.txs, wtx.isMature chain = true → wtx.HasAmounts w chain) ∧ ∀ strAccount,
      m.balance strAccount = (w.txs.map (listShare w chain nMinDepth strAccount)).sum +
        w.entriesOf strAccount ∧
      ((m strAccount).isSome ↔ IsListed w chain nMinDepth strAccount) := by
  unfold listaccounts at h
  dsimp only at h
  have hlabels := listLabels (w := w) (l := w.mapAddressBook) (m := fun _ => none)
    (fun _ => rfl)
  generalize w.mapAddressBook.foldl (fun (m : AccountBalances) entry =>
    if isMineDest w.keystore entry.1 then Function.update m entry.2 (some 0) else m)
      (fun _ => none) = m₀ at h hlabels
  cases hloop : w.txs.foldlM (listTx w chain nMinDepth) m₀ with
  | error e =>
    rw [hloop] at h
    cases h
  | ok m₁ =>
    rw [hloop] at h
    obtain rfl := Except.ok.inj h
    obtain ⟨hamounts, hm₁⟩ := listLoop hloop
    refine ⟨hamounts, fun strAccount => ⟨?_, ?_⟩⟩
    · rw [AccountBalances.balance_foldl_add (f := CAccountingEntry.strAccount)
        (g := CAccountingEntry.nCreditDebit), (hm₁ strAccount).1, (hlabels strAccount).1, zero_add]
      rfl
    · rw [AccountBalances.isSome_foldl_add (f := CAccountingEntry.strAccount)
        (g := CAccountingEntry.nCreditDebit), (hm₁ strAccount).2, (hlabels strAccount).2]
      unfold IsListed IsLabel CWallet.listAccountCreditDebit
      simp only [Option.isSome_none, Bool.false_eq_true, false_or, if_true, or_assoc]

/-! ## The balance -/

/-- What a transaction adds to the balance of an account. -/
def balanceShare (w : CWallet) (chain : WalletChain) (nMinDepth : ℤ) (strAccount : String)
    (wtx : CWalletTx) : ℤ :=
  if wtx.isFinal chain then
    (wtx.amounts w chain).generated strAccount +
      (if wtx.isDeep chain nMinDepth then (wtx.amounts w chain).received w strAccount else 0) -
      (wtx.amounts w chain).sent strAccount
  else 0

/-- **The loop of `GetAccountBalance`.** -/
theorem balanceLoop : ∀ {l : List CWalletTx} {n n' : ℤ},
    l.foldlM (fun nBalance wtx =>
      if !wtx.isFinal chain then .ok nBalance
      else do
        let a ← wtx.getAccountAmounts w chain strAccount
        let nBalance := if a.nReceived ≠ 0 ∧ nMinDepth ≤ wtx.getDepthInMainChain chain then
          nBalance + a.nReceived else nBalance
        (.ok (nBalance + (a.nGenerated - a.nSent - a.nFee)) : Except Failure ℤ)) n = .ok n' ↔
      (∀ wtx ∈ l, wtx.isFinal chain = true → wtx.HasAmounts w chain) ∧
        n' = n + (l.map (balanceShare w chain nMinDepth strAccount)).sum
  | [], n, n' => by
    simp only [List.foldlM_nil, List.not_mem_nil, List.map_nil, List.sum_nil, add_zero,
      IsEmpty.forall_iff, implies_true, true_and]
    exact ⟨fun h => (Except.ok.inj h).symm, fun h => congrArg Except.ok h.symm⟩
  | wtx :: l, n, n' => by
    rw [List.foldlM_cons]
    by_cases hfinal : wtx.isFinal chain = true
    · rw [if_neg (by rw [hfinal]; decide)]
      by_cases hamounts : wtx.HasAmounts w chain
      · obtain ⟨r, hr, hgenerated, hreceived, hsent⟩ :=
          CWalletTx.getAccountAmounts_eq strAccount hamounts
        have hbody : (do
            let a ← wtx.getAccountAmounts w chain strAccount
            let nBalance := if a.nReceived ≠ 0 ∧ nMinDepth ≤ wtx.getDepthInMainChain chain then
              n + a.nReceived else n
            (.ok (nBalance + (a.nGenerated - a.nSent - a.nFee)) : Except Failure ℤ)) =
            .ok (n + balanceShare w chain nMinDepth strAccount wtx) := by
          rw [hr]
          refine congrArg Except.ok ?_
          unfold balanceShare CWalletTx.isDeep
          rw [if_pos hfinal, ← hgenerated, ← hreceived, ← hsent]
          by_cases hdeep : nMinDepth ≤ wtx.getDepthInMainChain chain
          · simp only [hdeep, and_true, decide_true, if_true]
            split
            · ring
            · rename_i hzero
              rw [not_not.1 hzero]
              ring
          · simp only [hdeep, and_false, decide_false, if_false, Bool.false_eq_true]
            ring
        rw [hbody]
        refine (balanceLoop (l := l)).trans ?_
        simp only [List.mem_cons, forall_eq_or_imp, hfinal, hamounts, forall_const, true_and,
          List.map_cons, List.sum_cons, add_assoc]
      · have hthrows : wtx.getAccountAmounts w chain strAccount =
            (do let a ← wtx.getAmounts w chain; wtx.getAccountAmounts w chain strAccount) := by
          unfold CWalletTx.getAccountAmounts
          cases wtx.getAmounts w chain with
          | error e => rfl
          | ok a => rfl
        rw [hthrows]
        refine ⟨fun h => ?_, fun h => absurd (h.1 wtx List.mem_cons_self hfinal) hamounts⟩
        cases ha : wtx.getAmounts w chain with
        | error e =>
          rw [ha] at h
          cases h
        | ok a => exact absurd ⟨a, ha⟩ hamounts
    · rw [if_pos (by simpa using hfinal)]
      refine (balanceLoop (l := l) (n := n)).trans ?_
      have hzero : balanceShare w chain nMinDepth strAccount wtx = 0 := if_neg hfinal
      simp only [List.mem_cons, forall_eq_or_imp, hfinal, Bool.false_eq_true, IsEmpty.forall_iff,
        true_and, List.map_cons, List.sum_cons, hzero, zero_add]

/-- **The balance of an account.** -/
theorem getAccountBalance_eq {n : ℤ} :
    w.getAccountBalance chain strAccount nMinDepth = .ok n ↔
      (∀ wtx ∈ w.txs, wtx.isFinal chain = true → wtx.HasAmounts w chain) ∧
        n = (w.txs.map (balanceShare w chain nMinDepth strAccount)).sum +
          w.getAccountCreditDebit strAccount := by
  unfold CWallet.getAccountBalance
  constructor
  · intro h
    obtain ⟨nBalance, hloop, hn⟩ := except_bind_eq_ok.1 h
    obtain ⟨hamounts, rfl⟩ := balanceLoop.1 hloop
    refine ⟨hamounts, ?_⟩
    rw [← Except.ok.inj hn, zero_add]
  · rintro ⟨hamounts, rfl⟩
    refine except_bind_eq_ok.2 ⟨_, balanceLoop.2 ⟨hamounts, rfl⟩, ?_⟩
    rw [zero_add]

/-! ## Where they agree -/

/-- With the amounts of what is mature there is a list. -/
theorem exists_listLoop (nMinDepth : ℤ) : ∀ {l : List CWalletTx} (m : AccountBalances),
    (∀ wtx ∈ l, wtx.isMature chain = true → wtx.HasAmounts w chain) →
      ∃ m', l.foldlM (listTx w chain nMinDepth) m = .ok m'
  | [], m, _ => ⟨m, rfl⟩
  | wtx :: l, m, h => by
    have hrest := fun x hx => h x (List.mem_cons_of_mem _ hx)
    have hstep : ∃ m₁, listTx w chain nMinDepth m wtx = .ok m₁ := by
      by_cases hmature : wtx.isMature chain = true
      · obtain ⟨m₁, h₁, -⟩ := CWalletTx.listTx_eq nMinDepth m hmature
          (h wtx List.mem_cons_self hmature)
        exact ⟨m₁, h₁⟩
      · exact ⟨m, CWalletTx.listTx_of_immature (Bool.not_eq_true _ ▸ hmature)⟩
    obtain ⟨m₁, h₁⟩ := hstep
    obtain ⟨m', h'⟩ := exists_listLoop nMinDepth m₁ hrest
    refine ⟨m', ?_⟩
    rw [List.foldlM_cons, h₁]
    exact h'

theorem exists_listaccounts (nMinDepth : ℤ)
    (h : ∀ wtx ∈ w.txs, wtx.isMature chain = true → wtx.HasAmounts w chain) :
    ∃ m, listaccounts w chain nMinDepth = .ok m := by
  obtain ⟨m, hm⟩ := exists_listLoop nMinDepth
    (w.mapAddressBook.foldl (fun (m : AccountBalances) entry =>
      if isMineDest w.keystore entry.1 then Function.update m entry.2 (some 0) else m)
        (fun _ => none)) h
  unfold listaccounts
  dsimp only
  rw [hm]
  exact ⟨_, rfl⟩

/-- **The tallies agree**: each pair on the list is the balance of its
account. -/
def TalliesAgree (w : CWallet) (chain : WalletChain) (nMinDepth : ℤ) : Prop :=
  ∀ m, listaccounts w chain nMinDepth = .ok m → ∀ strAccount n, m strAccount = some n →
    w.getAccountBalance chain strAccount nMinDepth = .ok n

/-- What an account has of transactions that are not final. -/
def CWallet.notFinal (w : CWallet) (chain : WalletChain) (nMinDepth : ℤ) (strAccount : String) :
    ℤ :=
  ((w.txs.filter fun wtx => !wtx.isFinal chain && wtx.isMature chain).map fun wtx =>
    (wtx.amounts w chain).share w strAccount (wtx.isDeep chain nMinDepth)).sum

/-- What was generated, and is mature but not as deep as was asked for. -/
def CWallet.generatedShallow (w : CWallet) (chain : WalletChain) (nMinDepth : ℤ) : ℤ :=
  ((w.txs.filter fun wtx => wtx.isFinal chain && wtx.isMature chain &&
    !wtx.isDeep chain nMinDepth).map fun wtx => (wtx.amounts w chain).nGeneratedMature).sum

/-- The accounting entries of all accounts but `*`. -/
def CWallet.otherEntries (w : CWallet) : ℤ :=
  ((w.laccentries.filter fun entry => entry.strAccount ≠ "*").map (·.nCreditDebit)).sum

/-- One transaction, in both tallies. -/
theorem listShare_sub_balanceShare (w : CWallet) (chain : WalletChain) (nMinDepth : ℤ)
    (strAccount : String) (wtx : CWalletTx) :
    listShare w chain nMinDepth strAccount wtx - balanceShare w chain nMinDepth strAccount wtx =
      (if !wtx.isFinal chain && wtx.isMature chain then
        (wtx.amounts w chain).share w strAccount (wtx.isDeep chain nMinDepth) else 0) -
      if strAccount = "" then
        if wtx.isFinal chain && wtx.isMature chain && !wtx.isDeep chain nMinDepth then
          (wtx.amounts w chain).nGeneratedMature else 0
      else 0 := by
  unfold listShare balanceShare Amounts.share
  by_cases hfinal : wtx.isFinal chain = true
  · by_cases hmature : wtx.isMature chain = true
    · by_cases hdeep : wtx.isDeep chain nMinDepth = true
      · simp only [hfinal, hmature, hdeep, if_true, Bool.not_true, Bool.and_false, Bool.false_eq_true,
          Bool.false_and, if_false, ite_self]
        ring
      · simp only [hfinal, hmature, hdeep, if_true, Bool.not_true, Bool.not_false,
          Bool.false_eq_true, Bool.false_and, if_false, Bool.and_self]
        unfold Amounts.generated
        split
        · ring
        · ring
    · -- what is immature has no amounts that count
      have himmature : wtx.isMature chain = false := Bool.not_eq_true _ ▸ hmature
      obtain ⟨hgenerated, hreceived, hsent, hfee⟩ :=
        CWalletTx.amounts_of_immature (w := w) himmature
      unfold Amounts.generated Amounts.received Amounts.sent
      simp only [hfinal, himmature, hgenerated, hreceived, hsent, hfee, Bool.false_eq_true,
        List.map_nil, List.sum_nil, add_zero, ite_self, sub_self, Bool.and_false,
        Bool.false_and]
  · have hnot : wtx.isFinal chain = false := Bool.not_eq_true _ ▸ hfinal
    simp only [hnot, Bool.false_eq_true, if_false, Bool.not_false, Bool.true_and, Bool.false_and,
      ite_self, sub_zero]

omit [P : Platform] in
/-- The entries of an account, in both tallies. -/
theorem getAccountCreditDebit_eq : w.getAccountCreditDebit strAccount =
    w.entriesOf strAccount + if strAccount = "*" then w.otherEntries else 0 := by
  unfold CWallet.getAccountCreditDebit CWallet.listAccountCreditDebit CWallet.entriesOf
    CWallet.otherEntries
  by_cases hall : strAccount = "*"
  · subst hall
    rw [if_pos rfl, if_pos rfl]
    induction w.laccentries with
    | nil => rfl
    | cons entry l ih =>
      rw [List.map_cons, List.sum_cons, ih, List.map_cons, List.sum_cons]
      by_cases heq : "*" = entry.strAccount
      · rw [if_pos heq, List.filter_cons_of_neg (by simpa using heq.symm), add_assoc]
      · rw [if_neg heq, List.filter_cons_of_pos (by simpa using Ne.symm heq), List.map_cons,
          List.sum_cons]
        ring
  · rw [if_neg hall, if_neg hall, add_zero]
    induction w.laccentries with
    | nil => rfl
    | cons entry l ih =>
      rw [List.map_cons, List.sum_cons, ← ih]
      by_cases heq : strAccount = entry.strAccount
      · rw [if_pos heq, List.filter_cons_of_pos (by simpa using heq.symm), List.map_cons,
          List.sum_cons]
      · rw [if_neg heq, List.filter_cons_of_neg (by simpa using Ne.symm heq), zero_add]

omit [P : Platform] in
theorem sum_filter {α : Type} {p : α → Bool} {f : α → ℤ} (l : List α) :
    ((l.filter p).map f).sum = (l.map fun x => if p x then f x else 0).sum := by
  induction l with
  | nil => rfl
  | cons x l ih =>
    rw [List.map_cons, List.sum_cons, ← ih]
    by_cases hp : p x = true
    · rw [List.filter_cons_of_pos hp, if_pos hp, List.map_cons, List.sum_cons]
    · rw [List.filter_cons_of_neg hp, if_neg hp, zero_add]

/-- **The difference of the tallies**, for one account. -/
theorem list_sub_balance (w : CWallet) (chain : WalletChain) (nMinDepth : ℤ)
    (strAccount : String) :
    (w.txs.map (listShare w chain nMinDepth strAccount)).sum + w.entriesOf strAccount -
      ((w.txs.map (balanceShare w chain nMinDepth strAccount)).sum +
        w.getAccountCreditDebit strAccount) =
      w.notFinal chain nMinDepth strAccount -
        (if strAccount = "" then w.generatedShallow chain nMinDepth else 0) -
        if strAccount = "*" then w.otherEntries else 0 := by
  have htxs : ∀ l : List CWalletTx,
      (l.map (listShare w chain nMinDepth strAccount)).sum -
        (l.map (balanceShare w chain nMinDepth strAccount)).sum =
      ((l.filter fun wtx => !wtx.isFinal chain && wtx.isMature chain).map fun wtx =>
        (wtx.amounts w chain).share w strAccount (wtx.isDeep chain nMinDepth)).sum -
      if strAccount = "" then
        ((l.filter fun wtx => wtx.isFinal chain && wtx.isMature chain &&
          !wtx.isDeep chain nMinDepth).map fun wtx => (wtx.amounts w chain).nGeneratedMature).sum
      else 0 := by
    intro l
    rw [sum_filter, sum_filter]
    induction l with
    | nil => simp
    | cons wtx l ih =>
      have hone := listShare_sub_balanceShare w chain nMinDepth strAccount wtx
      simp only [List.map_cons, List.sum_cons]
      split_ifs at hone ih ⊢ <;> linarith
  have := htxs w.txs
  rw [getAccountCreditDebit_eq]
  unfold CWallet.notFinal CWallet.generatedShallow
  linarith

/-- **When the tallies agree**: for every account on the list, the amounts
of all that is final can be had, and what it has of transactions that are
not final is made up for by what was generated but is not as deep as was
asked for, and by the entries of other accounts that `*` stands for. -/
def TalliesMatch (w : CWallet) (chain : WalletChain) (nMinDepth : ℤ) : Prop :=
  (∀ wtx ∈ w.txs, wtx.isMature chain = true → wtx.HasAmounts w chain) →
    ∀ strAccount, IsListed w chain nMinDepth strAccount →
      (∀ wtx ∈ w.txs, wtx.isFinal chain = true → wtx.HasAmounts w chain) ∧
      w.notFinal chain nMinDepth strAccount =
        (if strAccount = "" then w.generatedShallow chain nMinDepth else 0) +
          if strAccount = "*" then w.otherEntries else 0

theorem talliesAgree_iff (w : CWallet) (chain : WalletChain) (nMinDepth : ℤ) :
    TalliesAgree w chain nMinDepth ↔ TalliesMatch w chain nMinDepth := by
  constructor
  · intro hagree hmature strAccount hlisted
    obtain ⟨m, hm⟩ := exists_listaccounts nMinDepth hmature
    obtain ⟨-, hlist⟩ := listaccounts_eq hm
    obtain ⟨hbalance, hsome⟩ := hlist strAccount
    obtain ⟨n, hn⟩ := Option.isSome_iff_exists.1 (hsome.2 hlisted)
    obtain ⟨hfinal, heq⟩ := getAccountBalance_eq.1 (hagree m hm strAccount n hn)
    refine ⟨hfinal, ?_⟩
    have hdiff := list_sub_balance w chain nMinDepth strAccount
    unfold AccountBalances.balance at hbalance
    rw [hn, Option.getD_some] at hbalance
    linarith
  · intro hmatch m hm strAccount n hn
    obtain ⟨hmature, hlist⟩ := listaccounts_eq hm
    obtain ⟨hbalance, hsome⟩ := hlist strAccount
    obtain ⟨hfinal, heq⟩ := hmatch hmature strAccount (hsome.1 (by rw [hn]; rfl))
    refine getAccountBalance_eq.2 ⟨hfinal, ?_⟩
    have hdiff := list_sub_balance w chain nMinDepth strAccount
    unfold AccountBalances.balance at hbalance
    rw [hn, Option.getD_some] at hbalance
    linarith

/-! ## A coinbase and a large minconf -/

namespace DeepMinconf

/-- A coinbase of five coins of ours. -/
def coinBase : CTransaction := ⟨1, 7, [⟨⟨0, uintMax⟩, [], uintMax⟩], [⟨5, [1]⟩], 0⟩

/-- The wallet that has it, booked to nobody. -/
def wallet : CWallet where
  mapWallet := Std.ExtTreeMap.empty.insert 7 ⟨⟨coinBase, 1, [], 0, false, [false]⟩, [], ""⟩
  keystore := ⟨[], [[1]]⟩
  mapAddressBook := []
  laccentries := []

/-- Everything is thirty blocks deep. -/
def deepChain : WalletChain := ⟨100, 1000, fun _ => 30, fun _ => by decide⟩

omit [P : Platform] in
/-- **The tallies do not agree**: asked for a hundred blocks, one leaves
the coinbase out and the other counts it. -/
theorem not_talliesAgree :
    letI := Platform.toy
    ¬ ∀ (w : CWallet) (chain : WalletChain) (nMinDepth : ℤ), TalliesAgree w chain nMinDepth := by
  let := Platform.toy
  intro hall
  have hlist : ((listaccounts wallet deepChain 100).toOption.bind fun m => m "") = some 0 := by
    decide
  obtain ⟨m, hm, hzero⟩ := Option.bind_eq_some_iff.1 hlist
  have hok : listaccounts wallet deepChain 100 = .ok m := by
    cases h : listaccounts wallet deepChain 100 with
    | error e =>
      rw [h] at hm
      cases hm
    | ok m' =>
      rw [h] at hm
      exact congrArg Except.ok (Option.some.inj hm)
  have hbalance := hall wallet deepChain 100 m hok "" 0 hzero
  exact absurd hbalance (by decide)

end DeepMinconf

end Accounting

end CryptoBullion
