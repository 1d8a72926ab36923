import CryptoBullion.Model.WalletCache
/-!
# What the caches say

A cache is clean while it holds what its sum comes to now. Credits are
computed from the transaction itself, from the keys and from its own
flags, and whoever changes a flag clears the cache. A debit is computed
from the transactions it spends; when one of these enters the wallet or
leaves it, nobody tells those that spend it. `AddToWallet` marks the
transaction it inserts dirty, and only that one.
-/

namespace CryptoBullion

namespace Cached

/-! ## Calls and queries -/

/-- What is asked of a wallet, and of which of its transactions. -/
inductive Query
  | getDebit (hash : Uint256)
  | getCredit (hash : Uint256) (fUseCache : Bool)
  | getAvailableCredit (hash : Uint256) (fUseCache : Bool)
  | isFromMe (hash : Uint256)
  | isConfirmed (hash : Uint256) (fuel : ℕ)
  | getBalance (fuel : ℕ)

/-- What the answer is. -/
def Query.Answer : Query → Type
  | getDebit _ | getCredit _ _ | getAvailableCredit _ _ => ℤ
  | isFromMe _ => Bool
  | isConfirmed _ _ => Option Bool
  | getBalance _ => Option ℤ

/-- What a wallet is called for, a query among it. -/
inductive Call
  | addToWallet (wtxIn : CWalletTx) (fWritten : Bool)
  | addToWalletIfInvolvingMe (tx : CTransaction) (pblock : Option CBlock) (fUpdate fWritten : Bool)
  | eraseFromWallet (hash : Uint256)
  | disableTransaction (tx : CTransaction)
  | fixSpentCoins (readTxIndex : Uint256 → Option CTxIndex) (fCheckOnly : Bool)
  | markSpent (hash : Uint256) (nOut : ℕ)
  | markUnspent (hash : Uint256) (nOut : ℕ)
  | query (q : Query)

variable [P : Platform]

def Query.ask (chain : WalletChain) : (q : Query) → Step CWallet Failure q.Answer
  | getDebit hash => CWallet.onTx hash CWalletTx.getDebit
  | getCredit hash fUseCache => CWallet.onTx hash fun w => CWalletTx.getCredit w chain fUseCache
  | getAvailableCredit hash fUseCache =>
    CWallet.onTx hash fun w => CWalletTx.getAvailableCredit w chain fUseCache
  | isFromMe hash => CWallet.onTx hash CWalletTx.isFromMe
  | isConfirmed hash fuel => CWallet.onTx hash fun w => CWalletTx.isConfirmed w chain fuel
  | getBalance fuel => CWallet.getBalance chain fuel

/-- The wallet a call leaves, however it ends. -/
def Call.perform (chain : WalletChain) (w : CWallet) : Call → CWallet
  | addToWallet wtxIn fWritten => (CWallet.addToWallet chain wtxIn fWritten w).2
  | addToWalletIfInvolvingMe tx pblock fUpdate fWritten =>
    (CWallet.addToWalletIfInvolvingMe chain tx pblock fUpdate fWritten w).2
  | eraseFromWallet hash => (CWallet.eraseFromWallet hash w).2
  | disableTransaction tx => (CWallet.disableTransaction tx w).2
  | fixSpentCoins readTxIndex fCheckOnly => (CWallet.fixSpentCoins readTxIndex fCheckOnly w).2
  | markSpent hash nOut => (CWallet.onTx hash (fun _ => CWalletTx.markSpent nOut) w).2
  | markUnspent hash nOut => (CWallet.onTx hash (fun _ => CWalletTx.markUnspent nOut) w).2
  | query q => (q.ask chain w).2

/-- The wallets that calls lead to, each of them `ok` where it was made,
from one whose caches are all down. -/
inductive CallRun (chain : WalletChain) (ok : CWallet → Call → Prop) (w : CWallet) : CWallet → Prop
  | start : CallRun chain ok w w.markDirty
  | call {w' : CWallet} (c : Call) : CallRun chain ok w w' → ok w' c →
      CallRun chain ok w (c.perform chain w')

/-- No query is told anything but what it would be told with all the caches
down. -/
def CWallet.Fresh (chain : WalletChain) (w : CWallet) : Prop :=
  ∀ q : Query, (q.ask chain w).1 = (q.ask chain w.markDirty).1

/-- Nothing of ours that `tx` pays is spent by a transaction whose debit is
kept. -/
def CWallet.NoneRests (w : CWallet) (hash : Uint256) (tx : CTransaction) : Prop :=
  ∀ h wtx, w.mapWallet[h]? = some wtx → h ≠ hash → wtx.nDebitCached ≠ none →
    ∀ txin ∈ wtx.tx.vin, txin.prevout.hash = hash →
      ∀ txout, tx.vout[txin.prevout.n]? = some txout → w.plain.isMine txout = true →
        txout.nValue = 0

/-- Where a call adds a transaction to the wallet or takes one out, no kept
debit rests on it. -/
def Call.Quiet (w : CWallet) : Call → Prop
  | addToWallet wtxIn _ =>
    w.mapWallet[wtxIn.tx.getHash]? = none → w.NoneRests wtxIn.tx.getHash wtxIn.tx
  | addToWalletIfInvolvingMe tx _ _ _ =>
    w.mapWallet[tx.getHash]? = none → w.NoneRests tx.getHash tx
  | eraseFromWallet hash =>
    w.fFileBacked = true → ∀ wtx, w.mapWallet[hash]? = some wtx → w.NoneRests hash wtx.tx
  | _ => True

/-! ## Clean caches -/

/-- What is kept of a transaction is what its sums come to. -/
structure CWalletTx.Clean (w : Accounting.CWallet) (wtx : CWalletTx) : Prop where
  debit : ∀ n, wtx.nDebitCached = some n → w.getDebit wtx.tx = .ok n
  credit : ∀ n, wtx.nCreditCached = some n → w.getCredit wtx.tx = .ok n
  available : ∀ n, wtx.nAvailableCreditCached = some n →
    wtx.toPlain.availableCreditLoop w 0 0 wtx.tx.vout = .ok n

def CWallet.Clean (w : CWallet) : Prop :=
  ∀ (hash : Uint256) (wtx : CWalletTx), w.mapWallet[hash]? = some wtx → wtx.Clean w.plain

namespace CWalletTx

variable {w w' : Accounting.CWallet} {chain : WalletChain} {wtx wtx' : CWalletTx}
  {p : Accounting.CWalletTx}

theorem tx_ofTx {tx : CTransaction} {pblock : Option CBlock} : (ofTx tx pblock).tx = tx := by
  cases pblock with
  | none => rfl
  | some block =>
    unfold ofTx CryptoBullion.CWalletTx.setMerkleBranch
    dsimp only
    split <;> rfl

theorem clean_markDirty : wtx.markDirty.Clean w := by
  constructor <;> intro n h <;> cases h

theorem clean_merge : (wtx.merge wtx').Clean w := by
  constructor <;> intro n h <;> cases h

/-- A transaction of which all but the caches is `p`, and whose caches are
clean. -/
def Is (w : Accounting.CWallet) (p : Accounting.CWalletTx) (wtx : CWalletTx) : Prop :=
  wtx.toPlain = p ∧ wtx.Clean w

/-- **A sum that is kept is settled**: the cache, where there is one, has
what the sum comes to. -/
theorem settled_kept {fUseCache : Bool} {cache : CWalletTx → Option ℤ}
    {keep : ℤ → CWalletTx → CWalletTx} {sum : Accounting.CWalletTx → Except Failure ℤ}
    (hcache : ∀ wtx n, Is w p wtx → cache wtx = some n → sum p = .ok n)
    (hkeep : ∀ wtx n, Is w p wtx → sum p = .ok n → Is w p (keep n wtx)) :
    Step.Settled (Is w p) (kept fUseCache cache keep sum) := by
  refine ⟨sum p, fun wtx hwtx => ?_⟩
  unfold kept
  cases hread : (if fUseCache then cache wtx else none) with
  | some n =>
    have hkept : cache wtx = some n := by
      by_cases hf : fUseCache = true
      · rwa [if_pos hf] at hread
      · rw [if_neg hf] at hread
        cases hread
    exact ⟨(hcache wtx n hwtx hkept).symm, hwtx⟩
  | none =>
    dsimp only
    rw [hwtx.1]
    cases hsum : sum p with
    | error f => exact ⟨rfl, hwtx⟩
    | ok n => exact ⟨rfl, hkeep wtx n hwtx hsum⟩

theorem settled_getDebit : Step.Settled (Is w p) (getDebit w) := by
  unfold getDebit
  refine .get_bind (y := if p.tx.vin = [] then pure 0 else
    kept true (·.nDebitCached) (fun n wtx => { wtx with nDebitCached := some n })
      fun wtx => w.getDebit wtx.tx) (fun wtx hwtx => by rw [hwtx.1]) ?_
  split
  · exact .pure
  · refine settled_kept (fun wtx n hwtx h => ?_) fun wtx n hwtx h => ⟨hwtx.1, ?_, hwtx.2.2, hwtx.2.3⟩
    · rw [← hwtx.1]
      exact hwtx.2.debit n h
    · rintro m ⟨⟩
      rw [← hwtx.1] at h
      exact h

theorem settled_getCredit {fUseCache : Bool} :
    Step.Settled (Is w p) (getCredit w chain fUseCache) := by
  unfold getCredit
  refine .get_bind (y := if isImmature chain p then pure 0 else
    kept fUseCache (·.nCreditCached) (fun n wtx => { wtx with nCreditCached := some n })
      fun wtx => w.getCredit wtx.tx) (fun wtx hwtx => by rw [hwtx.1]) ?_
  split
  · exact .pure
  · refine settled_kept (fun wtx n hwtx h => ?_) fun wtx n hwtx h => ⟨hwtx.1, hwtx.2.1, ?_, hwtx.2.3⟩
    · rw [← hwtx.1]
      exact hwtx.2.credit n h
    · rintro m ⟨⟩
      rw [← hwtx.1] at h
      exact h

theorem settled_getAvailableCredit {fUseCache : Bool} :
    Step.Settled (Is w p) (getAvailableCredit w chain fUseCache) := by
  unfold getAvailableCredit
  refine .get_bind (y := if isImmature chain p then pure 0 else
    kept fUseCache (·.nAvailableCreditCached)
      (fun n wtx => { wtx with nAvailableCreditCached := some n })
      fun wtx => wtx.availableCreditLoop w 0 0 wtx.tx.vout) (fun wtx hwtx => by rw [hwtx.1]) ?_
  split
  · exact .pure
  · refine settled_kept (fun wtx n hwtx h => ?_) fun wtx n hwtx h => ⟨hwtx.1, hwtx.2.1, hwtx.2.2, ?_⟩
    · rw [← hwtx.1]
      exact hwtx.2.available n h
    · rintro m ⟨⟩
      rw [← hwtx.1] at h
      exact h

theorem settled_isFromMe : Step.Settled (Is w p) (isFromMe w) :=
  .bind settled_getDebit fun _ => .pure

/-- **What the loop of `IsConfirmed` asks is computed**, and only its first
question may be answered from a cache. -/
theorem settled_isConfirmed {fuel : ℕ} : Step.Settled (Is w p) (isConfirmed w chain fuel) := by
  unfold isConfirmed
  refine .get_bind (y := if !p.isFinal chain then pure (some false)
    else if 6 ≤ p.getDepthInMainChain chain then pure (some true)
    else isFromMe w >>= fun fFromMe =>
      if !fFromMe then pure (some false)
      else (Accounting.CWalletTx.confirmedLoop w chain p.mapPrev fuel [p.merkleTx]).elim (pure none)
        fun r => Step.lift r >>= fun fConfirmed => pure (some fConfirmed))
    (fun wtx hwtx => by
      rewrite [← hwtx.1]
      cases Accounting.CWalletTx.confirmedLoop w chain wtx.toPlain.mapPrev fuel [wtx.toPlain.merkleTx] <;> rfl) ?_
  split
  · exact .pure
  · split
    · exact .pure
    · refine .bind settled_isFromMe fun fFromMe => ?_
      split
      · exact .pure
      · cases Accounting.CWalletTx.confirmedLoop w chain p.mapPrev fuel [p.merkleTx] with
        | none => exact .pure
        | some r => exact .bind .lift fun _ => .pure

end CWalletTx

namespace CWallet

variable {w w' : CWallet} {W : Accounting.CWallet} {chain : WalletChain} {hash : Uint256}
  {wtx wtx' : CWalletTx}

omit P in
theorem getElem?_plain : w.plain.mapWallet[hash]? = (w.mapWallet[hash]?).map (·.toPlain) :=
  Std.ExtTreeMap.getElem?_map

omit P in
theorem getElem?_set {h : Uint256} : (w.mapWallet.insert hash wtx)[h]? =
    if hash = h then some wtx else w.mapWallet[h]? := by
  simp only [Std.ExtTreeMap.getElem?_insert, Std.compare_eq_iff_eq]

omit P in
/-- A transaction whose caches alone change leaves what is computed from. -/
theorem plain_set (hget : w.mapWallet[hash]? = some wtx) (hplain : wtx'.toPlain = wtx.toPlain) :
    { w with mapWallet := w.mapWallet.insert hash wtx' }.plain = w.plain := by
  unfold plain
  congr 1
  refine Std.ExtTreeMap.ext_getElem? fun h => ?_
  rw [Std.ExtTreeMap.getElem?_map, Std.ExtTreeMap.getElem?_map, getElem?_set]
  by_cases heq : hash = h
  · rw [if_pos heq, ← heq, hget, Option.map_some, Option.map_some, hplain]
  · rw [if_neg heq]

omit P in
theorem plain_markDirty : w.markDirty.plain = w.plain := by
  unfold plain markDirty
  congr 1
  refine Std.ExtTreeMap.ext_getElem? fun h => ?_
  rw [Std.ExtTreeMap.getElem?_map, Std.ExtTreeMap.getElem?_map, Std.ExtTreeMap.getElem?_map,
    Option.map_map]
  rfl

theorem clean_markDirty : w.markDirty.Clean := by
  intro hash wtx hget
  unfold markDirty at hget
  rw [Std.ExtTreeMap.getElem?_map, Option.map_eq_some_iff] at hget
  obtain ⟨wtx, -, rfl⟩ := hget
  exact CWalletTx.clean_markDirty

/-- A wallet with the transactions and the keys of `W`, and clean caches. -/
def Is (W : Accounting.CWallet) (w : CWallet) : Prop := w.plain = W ∧ w.Clean

/-- **What is settled of a transaction is settled of the wallet.** -/
theorem settled_onTx {α : Type} {x : Accounting.CWallet → Step CWalletTx Failure α}
    (hx : ∀ p, Step.Settled (CWalletTx.Is W p) (x W)) : Step.Settled (Is W) (onTx hash x) := by
  cases hW : W.mapWallet[hash]? with
  | none =>
    refine ⟨.error (.crash "mapWallet.end()"), fun w hw => ?_⟩
    have hget : w.mapWallet[hash]? = none := by
      rwa [← hw.1, getElem?_plain, Option.map_eq_none_iff] at hW
    unfold onTx
    rw [hget]
    exact ⟨rfl, hw⟩
  | some p =>
    obtain ⟨r, hr⟩ := hx p
    refine ⟨r, fun w hw => ?_⟩
    have hwtx := hW
    rw [← hw.1, getElem?_plain, Option.map_eq_some_iff] at hwtx
    obtain ⟨wtx, hget, hp⟩ := hwtx
    have hclean : wtx.Clean W := hw.1 ▸ hw.2 hash wtx hget
    obtain ⟨hanswer, hp', hclean'⟩ := hr wtx ⟨hp, hclean⟩
    unfold onTx
    rw [hget, hw.1]
    have hplain := (plain_set hget (hp'.trans hp.symm)).trans hw.1
    refine ⟨hanswer, hplain, fun h wtx' hget' => ?_⟩
    rw [hplain]
    dsimp only at hget'
    rw [getElem?_set] at hget'
    by_cases heq : hash = h
    · rw [if_pos heq] at hget'
      exact Option.some.inj hget' ▸ hclean'
    · rw [if_neg heq] at hget'
      exact hw.1 ▸ hw.2 h wtx' hget'

theorem settled_balanceLoop {fuel : ℕ} : ∀ {l : List Uint256} {nTotal : ℤ},
    Step.Settled (Is W) (balanceLoop chain fuel nTotal l)
  | [], _ => .pure
  | hash :: rest, nTotal => by
    unfold balanceLoop
    refine .bind (settled_onTx fun _ => CWalletTx.settled_isConfirmed) fun fConfirmed => ?_
    split
    · exact .pure
    · exact settled_balanceLoop
    · exact .bind (settled_onTx fun _ => CWalletTx.settled_getAvailableCredit) fun _ =>
        settled_balanceLoop

theorem settled_ask (chain : WalletChain) : ∀ q : Query, Step.Settled (Is W) (q.ask chain)
  | .getDebit _ => settled_onTx fun _ => CWalletTx.settled_getDebit
  | .getCredit _ _ => settled_onTx fun _ => CWalletTx.settled_getCredit
  | .getAvailableCredit _ _ => settled_onTx fun _ => CWalletTx.settled_getAvailableCredit
  | .isFromMe _ => settled_onTx fun _ => CWalletTx.settled_isFromMe
  | .isConfirmed _ _ => settled_onTx fun _ => CWalletTx.settled_isConfirmed
  | .getBalance fuel => .get_bind (y := balanceLoop chain fuel 0 W.mapWallet.keys)
      (fun w hw => by rw [← hw.1, plain, Std.ExtTreeMap.keys_map]) settled_balanceLoop

/-- **With clean caches, no query is told anything stale.** -/
theorem fresh_of_clean (h : w.Clean) : w.Fresh chain := fun q =>
  (settled_ask chain q).eq ⟨rfl, h⟩ ⟨plain_markDirty, clean_markDirty⟩

end CWallet

/-! ## What a sum is computed from -/

section Sums

variable {w w' : Accounting.CWallet} {wtx wtx' : CWalletTx} {nOut : ℕ} {fSpent : Bool}

theorem getCreditOut_congr (hkey : w'.keystore = w.keystore) (txout : CTxOut) :
    w'.getCreditOut txout = w.getCreditOut txout := by
  unfold Accounting.CWallet.getCreditOut Accounting.CWallet.isMine
  rw [hkey]

theorem getCredit_congr (hkey : w'.keystore = w.keystore) (tx : CTransaction) :
    w'.getCredit tx = w.getCredit tx := by
  have hloop : ∀ (l : List CTxOut) (n : ℤ), w'.getCreditLoop n l = w.getCreditLoop n l := by
    intro l
    induction l with
    | nil => exact fun _ => rfl
    | cons txout l ih =>
      intro n
      unfold Accounting.CWallet.getCreditLoop
      simp only [getCreditOut_congr hkey, ih]
  exact hloop tx.vout 0

/-- Of the flags, the sum reads those of the outputs there are. -/
theorem availableCreditLoop_congr {p p' : Accounting.CWalletTx} (hkey : w'.keystore = w.keystore) :
    ∀ (l : List CTxOut) (i : ℕ) (n : ℤ), (∀ k, i ≤ k → k < i + l.length → p'.isSpent k = p.isSpent k) →
      p'.availableCreditLoop w' i n l = p.availableCreditLoop w i n l
  | [], _, _, _ => rfl
  | txout :: l, i, n, h => by
    have hrest := fun n => availableCreditLoop_congr hkey l (i + 1) n fun k hk hk' =>
      h k (by omega) (by rw [List.length_cons]; omega)
    have hi := h i le_rfl (by rw [List.length_cons]; omega)
    unfold Accounting.CWalletTx.availableCreditLoop
    simp only [hi, getCreditOut_congr hkey, hrest]

theorem getDebit_congr {tx : CTransaction}
    (h : ∀ txin ∈ tx.vin, w'.getDebitIn txin = w.getDebitIn txin) :
    w'.getDebit tx = w.getDebit tx := by
  have hloop : ∀ (l : List CTxIn) (n : ℤ), (∀ txin ∈ l, w'.getDebitIn txin = w.getDebitIn txin) →
      w'.getDebitLoop n l = w.getDebitLoop n l := by
    intro l
    induction l with
    | nil => exact fun _ _ => rfl
    | cons txin l ih =>
      intro n hl
      unfold Accounting.CWallet.getDebitLoop
      rw [hl txin List.mem_cons_self, ih _ fun x hx => hl x (List.mem_cons_of_mem _ hx)]
  exact hloop tx.vin 0 h

/-- **Clean caches stay clean** under the same keys, as long as what a kept
debit rests on is worth the same. -/
theorem CWalletTx.Clean.congr (h : wtx.Clean w) (hkey : w'.keystore = w.keystore)
    (hdebit : wtx.nDebitCached ≠ none →
      ∀ txin ∈ wtx.tx.vin, w'.getDebitIn txin = w.getDebitIn txin) : wtx.Clean w' where
  debit n hn := by
    rw [getDebit_congr (hdebit (by rw [hn]; exact Option.some_ne_none n))]
    exact h.debit n hn
  credit n hn := by
    rw [getCredit_congr hkey]
    exact h.credit n hn
  available n hn := by
    rw [availableCreditLoop_congr hkey _ _ _ fun _ _ _ => rfl]
    exact h.available n hn

omit P in
/-- Of the outputs there are, one flag changes. -/
theorem isSpent_setSpent {wtx : CryptoBullion.CWalletTx} {i : ℕ} (hi : i < wtx.tx.vout.length) :
    (wtx.setSpent nOut fSpent).isSpent i = if nOut = i then fSpent else wtx.isSpent i := by
  unfold CryptoBullion.CWalletTx.setSpent CryptoBullion.CWalletTx.isSpent
  have hlen : i < (wtx.vfSpent.take wtx.tx.vout.length ++
      List.replicate (wtx.tx.vout.length - wtx.vfSpent.length) false).length := by
    rw [List.length_append, List.length_take, List.length_replicate]
    omega
  dsimp only
  rw [List.getElem?_set]
  by_cases heq : nOut = i
  · rw [if_pos heq, if_pos heq, if_pos (heq ▸ hlen), Option.getD_some]
  · rw [if_neg heq, if_neg heq, List.getElem?_append, List.length_take]
    by_cases hin : i < wtx.vfSpent.length
    · rw [if_pos (by omega), List.getElem?_take_of_lt hi]
    · rw [if_neg (by omega), List.getElem?_eq_none (by omega : wtx.vfSpent.length ≤ i),
        List.getElem?_replicate, if_pos (by omega)]
      rfl

/-- **Whoever changes a flag clears the cache** that was computed from it. -/
theorem CWalletTx.Clean.setFlag (h : wtx.Clean w) : (wtx.setFlag nOut fSpent).Clean w where
  debit := h.debit
  credit := h.credit
  available n hn := by
    unfold CWalletTx.setFlag at hn
    dsimp only at hn
    by_cases hsame : wtx.isSpent nOut = fSpent
    · rw [if_pos hsame] at hn
      refine (availableCreditLoop_congr rfl _ _ _ fun k _ hk => ?_).trans (h.available n hn)
      refine (isSpent_setSpent (by rwa [Nat.zero_add] at hk)).trans ?_
      by_cases heq : nOut = k
      · rw [if_pos heq, ← hsame, heq]
      · rw [if_neg heq]
    · rw [if_neg hsame] at hn
      cases hn

end Sums

/-! ## What a call leaves clean -/

namespace CWallet

variable {w w' : CWallet} {chain : WalletChain} {hash : Uint256} {wtx wtx' : CWalletTx}
  {tx : CTransaction} {nOut : ℕ}

/-- Clean by the sums of another wallet, which come to the same. -/
theorem clean_of_lookup (hkey : w'.keystore = w.keystore)
    (hwtx : ∀ (hash : Uint256) (wtx : CWalletTx), w'.mapWallet[hash]? = some wtx →
      wtx.Clean w.plain ∧ (wtx.nDebitCached ≠ none →
        ∀ txin ∈ wtx.tx.vin, w'.plain.getDebitIn txin = w.plain.getDebitIn txin)) : w'.Clean :=
  fun hash wtx hget => (hwtx hash wtx hget).1.congr hkey (hwtx hash wtx hget).2

/-- The transaction a wallet has under a hash. -/
def txAt (w : CWallet) (hash : Uint256) : Option CTransaction := (w.mapWallet[hash]?).map (·.tx)

/-- An input is worth what the transaction it spends pays there. -/
theorem getDebitIn_eq {txin : CTxIn} : w.plain.getDebitIn txin =
    match w.txAt txin.prevout.hash with
    | none => 0
    | some prev =>
      match prev.vout[txin.prevout.n]? with
      | none => 0
      | some txout => if P.isMine w.keystore txout.scriptPubKey then txout.nValue else 0 := by
  unfold Accounting.CWallet.getDebitIn txAt
  rw [getElem?_plain]
  cases w.mapWallet[txin.prevout.hash]? <;> rfl

theorem getDebitIn_congr {txin : CTxIn} (hkey : w'.keystore = w.keystore)
    (htx : w'.txAt txin.prevout.hash = w.txAt txin.prevout.hash) :
    w'.plain.getDebitIn txin = w.plain.getDebitIn txin := by
  rw [getDebitIn_eq, getDebitIn_eq, htx, hkey]

/-- A transaction of the wallet is replaced, by itself with other flags. -/
theorem Clean.set (h : w.Clean) (hget : w.mapWallet[hash]? = some wtx) (htx : wtx'.tx = wtx.tx)
    (hclean : wtx'.Clean w.plain) : { w with mapWallet := w.mapWallet.insert hash wtx' }.Clean := by
  refine clean_of_lookup (w := w) rfl fun h' e hget' => ⟨?_, fun _ txin _ => getDebitIn_congr rfl ?_⟩
  · dsimp only at hget'
    rw [getElem?_set] at hget'
    by_cases heq : hash = h'
    · rw [if_pos heq] at hget'
      exact Option.some.inj hget' ▸ hclean
    · rw [if_neg heq] at hget'
      exact h h' e hget'
  · unfold txAt
    dsimp only
    rw [getElem?_set]
    by_cases heq : hash = txin.prevout.hash
    · rw [if_pos heq, ← heq, hget, Option.map_some, Option.map_some, htx]
    · rw [if_neg heq]

/-- What nothing rests on is worth nothing to those that spend it. -/
theorem NoneRests.getDebitIn (h : w.NoneRests hash tx) {h' : Uint256} (hne : h' ≠ hash)
    (hget : w.mapWallet[h']? = some wtx) (hcached : wtx.nDebitCached ≠ none) {txin : CTxIn}
    (htxin : txin ∈ wtx.tx.vin) (hspends : txin.prevout.hash = hash) :
    (match tx.vout[txin.prevout.n]? with
      | none => 0
      | some txout => if P.isMine w.keystore txout.scriptPubKey then txout.nValue else 0) = 0 := by
  cases hout : tx.vout[txin.prevout.n]? with
  | none => rfl
  | some txout =>
    dsimp only
    by_cases hmine : P.isMine w.keystore txout.scriptPubKey = true
    · rw [if_pos hmine]
      exact h h' wtx hget hne hcached txin htxin hspends txout hout hmine
    · rw [if_neg hmine]

/-- **A transaction enters** on which no kept debit rests. -/
theorem Clean.insert (h : w.Clean) (hnone : w.mapWallet[hash]? = none)
    (hquiet : w.NoneRests hash wtx.tx) :
    { w with mapWallet := w.mapWallet.insert hash wtx.markDirty }.Clean := by
  refine clean_of_lookup (w := w) rfl fun h' e hget' => ?_
  dsimp only at hget'
  rw [getElem?_set] at hget'
  by_cases heq : hash = h'
  · rw [if_pos heq] at hget'
    obtain rfl := Option.some.inj hget'
    exact ⟨CWalletTx.clean_markDirty, fun hcached => absurd rfl hcached⟩
  · rw [if_neg heq] at hget'
    refine ⟨h h' e hget', fun hcached txin htxin => ?_⟩
    by_cases hspends : txin.prevout.hash = hash
    · have hworth := hquiet.getDebitIn (Ne.symm heq) hget' hcached htxin hspends
      rw [getDebitIn_eq, getDebitIn_eq]
      unfold txAt
      dsimp only
      rw [getElem?_set, if_pos hspends.symm, hspends, hnone]
      exact hworth
    · refine getDebitIn_congr rfl ?_
      unfold txAt
      dsimp only
      rw [getElem?_set, if_neg (Ne.symm hspends)]

/-- **A transaction leaves** on which no kept debit rests. -/
theorem Clean.erase (h : w.Clean)
    (hquiet : ∀ wtx, w.mapWallet[hash]? = some wtx → w.NoneRests hash wtx.tx) :
    { w with mapWallet := w.mapWallet.erase hash }.Clean := by
  have hlook : ∀ h' : Uint256, (w.mapWallet.erase hash)[h']? =
      if hash = h' then none else w.mapWallet[h']? := fun h' => by
    simp only [Std.ExtTreeMap.getElem?_erase, Std.compare_eq_iff_eq]
  refine clean_of_lookup (w := w) rfl fun h' e hget' => ?_
  dsimp only at hget'
  rw [hlook] at hget'
  by_cases heq : hash = h'
  · rw [if_pos heq] at hget'
    cases hget'
  · rw [if_neg heq] at hget'
    refine ⟨h h' e hget', fun hcached txin htxin => ?_⟩
    by_cases hspends : txin.prevout.hash = hash
    · rw [getDebitIn_eq, getDebitIn_eq]
      unfold txAt
      dsimp only
      rw [hlook, if_pos hspends.symm, hspends]
      cases hprev : w.mapWallet[hash]? with
      | none => rfl
      | some prev =>
        exact ((hquiet prev hprev).getDebitIn (Ne.symm heq) hget' hcached htxin hspends).symm
    · refine getDebitIn_congr rfl ?_
      unfold txAt
      dsimp only
      rw [hlook, if_neg (Ne.symm hspends)]

/-- **A step of one transaction keeps the wallet clean** if it keeps that
transaction clean, and the transaction. -/
theorem keeps_onTx {α : Type} {x : Accounting.CWallet → Step CWalletTx Failure α}
    (hx : ∀ W tx, Step.Keeps (fun wtx => wtx.tx = tx ∧ wtx.Clean W) (x W) (fun _ => True)) :
    Step.Keeps Clean (onTx hash x) (fun _ => True) := by
  intro w hw
  refine ⟨?_, fun _ _ => trivial⟩
  unfold onTx
  cases hget : w.mapWallet[hash]? with
  | none => exact hw
  | some wtx =>
    obtain ⟨⟨htx, hclean⟩, -⟩ := hx w.plain wtx.tx wtx ⟨rfl, hw hash wtx hget⟩
    exact hw.set hget htx hclean

theorem keeps_markSpent (W : Accounting.CWallet) (tx : CTransaction) : Step.Keeps
    (fun wtx => wtx.tx = tx ∧ wtx.Clean W) (CWalletTx.markSpent nOut) (fun _ => True) := by
  unfold CWalletTx.markSpent
  refine .bind .get fun wtx _ => ?_
  split
  · exact .fail
  · exact .modify fun wtx hwtx => ⟨hwtx.1, hwtx.2.setFlag⟩

theorem keeps_markUnspent (W : Accounting.CWallet) (tx : CTransaction) : Step.Keeps
    (fun wtx => wtx.tx = tx ∧ wtx.Clean W) (CWalletTx.markUnspent nOut) (fun _ => True) := by
  unfold CWalletTx.markUnspent
  refine .bind .get fun wtx _ => ?_
  split
  · exact .fail
  · exact .modify fun wtx hwtx => ⟨hwtx.1, hwtx.2.setFlag⟩

theorem keeps_getCredit {fUseCache : Bool} (W : Accounting.CWallet) (tx : CTransaction) :
    Step.Keeps (fun wtx => wtx.tx = tx ∧ wtx.Clean W) (CWalletTx.getCredit W chain fUseCache)
      (fun _ => True) := by
  intro wtx hwtx
  obtain ⟨⟨hplain, hclean⟩, -⟩ := (CWalletTx.settled_getCredit (w := W) (p := wtx.toPlain)).keeps wtx
    ⟨rfl, hwtx.2⟩
  exact ⟨⟨(congrArg (·.tx) hplain).trans hwtx.1, hclean⟩, fun _ _ => trivial⟩

theorem keeps_walletUpdateSpent :
    Step.Keeps Clean (walletUpdateSpent chain tx) (fun _ => True) := by
  refine .forEach fun txin _ => ?_
  unfold updateSpentBy
  refine .bind .get fun w _ => ?_
  split
  · split
    · exact .pure trivial
    · exact .bind (keeps_onTx keeps_getCredit) fun _ _ => keeps_onTx keeps_markSpent
  · exact .pure trivial

theorem keeps_disableTransaction :
    Step.Keeps Clean (disableTransaction tx) (fun _ => True) := by
  unfold disableTransaction
  refine .bind .get fun w _ => ?_
  split
  · exact .pure trivial
  · refine .bind (.lift fun _ _ => trivial) fun fFromMe _ => ?_
    split
    · exact .pure trivial
    · refine .forEach fun txin _ => ?_
      unfold giveBack
      refine .bind .get fun w _ => ?_
      split
      · exact keeps_onTx keeps_markUnspent
      · exact .pure trivial

/-- A coin is repaired by assigning flags. -/
theorem fixCoin_spec {W : Accounting.CWallet} {readTxIndex : Uint256 → Option CTxIndex}
    {fCheckOnly : Bool} (h : wtx.Clean W) :
    (fixCoin W readTxIndex fCheckOnly wtx).1.tx = wtx.tx ∧
      (fixCoin W readTxIndex fCheckOnly wtx).1.Clean W := by
  have hloop : ∀ (txindex : CTxIndex) (l : List (CTxOut × ℕ)) (s : CWalletTx × Mismatches),
      s.1.tx = wtx.tx ∧ s.1.Clean W →
        (l.foldl (fixOutput W txindex fCheckOnly) s).1.tx = wtx.tx ∧
          (l.foldl (fixOutput W txindex fCheckOnly) s).1.Clean W := by
    intro txindex l
    induction l with
    | nil => exact fun _ hs => hs
    | cons o l ih =>
      intro s hs
      refine ih _ ?_
      unfold fixOutput
      split
      · split
        · exact hs
        · exact ⟨hs.1, hs.2.setFlag⟩
      · split
        · split
          · exact hs
          · exact ⟨hs.1, hs.2.setFlag⟩
        · exact hs
  unfold fixCoin
  split
  · exact ⟨rfl, h⟩
  · exact hloop _ _ _ ⟨rfl, h⟩

theorem clean_fixSpentCoins {readTxIndex : Uint256 → Option CTxIndex} {fCheckOnly : Bool}
    (h : w.Clean) : (fixSpentCoins readTxIndex fCheckOnly w).2.Clean := by
  have hlook : ∀ h' : Uint256, (fixSpentCoins readTxIndex fCheckOnly w).2.mapWallet[h']? =
      (w.mapWallet[h']?).map fun wtx => (fixCoin w.plain readTxIndex fCheckOnly wtx).1 := fun h' => by
    unfold fixSpentCoins
    dsimp only
    rw [Std.ExtTreeMap.getElem?_map, Std.ExtTreeMap.getElem?_map, Option.map_map]
    rfl
  refine clean_of_lookup (w := w) rfl fun h' e hget' => ⟨?_, fun _ txin _ => getDebitIn_congr rfl ?_⟩
  · rw [hlook, Option.map_eq_some_iff] at hget'
    obtain ⟨wtx, hget, rfl⟩ := hget'
    exact (fixCoin_spec (h h' wtx hget)).2
  · unfold txAt
    rw [hlook, Option.map_map]
    cases hget : w.mapWallet[txin.prevout.hash]? with
    | none => rfl
    | some wtx => exact congrArg some (fixCoin_spec (h _ wtx hget)).1

/-- **What `AddToWallet` leaves is clean**, where what it inserts has no kept
debit resting on it. -/
theorem clean_addToWallet {wtxIn : CWalletTx} {fWritten : Bool} (h : w.Clean)
    (hquiet : w.mapWallet[wtxIn.tx.getHash]? = none → w.NoneRests wtxIn.tx.getHash wtxIn.tx) :
    (addToWallet chain wtxIn fWritten w).2.Clean := by
  -- whatever was inserted or merged, what follows keeps the wallet clean
  have hrest : ∀ (w' : CWallet) (fWrite : Bool) (tx : CTransaction), w'.Clean →
      (((if fWrite && !fWritten then pure false
        else walletUpdateSpent chain tx >>= fun _ => pure true) :
          Step CWallet Failure Bool) w').2.Clean := by
    intro w' fWrite tx hw'
    split
    · exact hw'
    · exact (Step.Keeps.bind keeps_walletUpdateSpent
        (fun _ _ => Step.Keeps.pure (Q := fun _ => True) trivial) w' hw').1
  unfold addToWallet
  rw [Step.get_bind, Step.modify_bind]
  cases hget : w.mapWallet[wtxIn.tx.getHash]? with
  | none => exact hrest _ _ _ (h.insert hget (hquiet hget))
  | some wtx => exact hrest _ _ _ (h.set hget rfl CWalletTx.clean_merge)

theorem clean_addToWalletIfInvolvingMe {pblock : Option CBlock} {fUpdate fWritten : Bool}
    (h : w.Clean) (hquiet : w.mapWallet[tx.getHash]? = none → w.NoneRests tx.getHash tx) :
    (addToWalletIfInvolvingMe chain tx pblock fUpdate fWritten w).2.Clean := by
  unfold addToWalletIfInvolvingMe
  rw [Step.get_bind]
  split
  · exact h
  · cases hinvolves : w.involves tx with
    | error f => exact h
    | ok fInvolves =>
      rw [Step.lift_ok_bind]
      split
      · refine clean_addToWallet h ?_
        rw [CWalletTx.tx_ofTx]
        exact hquiet
      · exact (Step.Keeps.bind keeps_walletUpdateSpent
          (fun _ _ => Step.Keeps.pure (Q := fun _ => True) trivial) w h).1

theorem clean_eraseFromWallet (h : w.Clean)
    (hquiet : w.fFileBacked = true → ∀ wtx, w.mapWallet[hash]? = some wtx → w.NoneRests hash wtx.tx) :
    (eraseFromWallet hash w).2.Clean := by
  unfold eraseFromWallet
  rw [Step.get_bind]
  by_cases hbacked : w.fFileBacked = true
  · rw [if_neg (by rw [hbacked]; decide), Step.modify_bind]
    exact h.erase (hquiet hbacked)
  · rw [if_pos (by rw [Bool.eq_false_iff.2 hbacked]; decide)]
    exact h

end CWallet

/-! ## Runs -/

variable {chain : WalletChain} {w w' : CWallet}

/-- **One call that is quiet keeps the caches clean.** -/
theorem clean_perform (h : w.Clean) : ∀ c : Call, c.Quiet w → (c.perform chain w).Clean
  | .addToWallet _ _, hquiet => CWallet.clean_addToWallet h hquiet
  | .addToWalletIfInvolvingMe _ _ _ _, hquiet => CWallet.clean_addToWalletIfInvolvingMe h hquiet
  | .eraseFromWallet _, hquiet => CWallet.clean_eraseFromWallet h hquiet
  | .disableTransaction _, _ => (CWallet.keeps_disableTransaction w h).1
  | .fixSpentCoins _ _, _ => CWallet.clean_fixSpentCoins h
  | .markSpent _ _, _ => (CWallet.keeps_onTx CWallet.keeps_markSpent w h).1
  | .markUnspent _ _, _ => (CWallet.keeps_onTx CWallet.keeps_markUnspent w h).1
  | .query q, _ => by
    obtain ⟨⟨-, hclean⟩, -⟩ := (CWallet.settled_ask chain q).keeps w ⟨rfl, h⟩
    exact hclean

theorem clean_of_run (h : CallRun chain Call.Quiet w w') : w'.Clean := by
  induction h with
  | start => exact CWallet.clean_markDirty
  | call c _ hquiet ih => exact clean_perform ih c hquiet

/-- **Nothing stale is told** in a run of which no call adds or removes a
transaction that a kept debit rests on. -/
theorem fresh_of_quiet (h : CallRun chain Call.Quiet w w') : w'.Fresh chain :=
  CWallet.fresh_of_clean (clean_of_run h)

/-! ## A parent that comes late -/

namespace LateParent

/-- Ten coins of ours. -/
def payment : CTransaction := ⟨1, 3, [⟨⟨99, 0⟩, [], uintMax⟩], [⟨10, [1]⟩], 0⟩

/-- A transaction that spends them, and pays nine back. -/
def spending : CTransaction := ⟨1, 4, [⟨⟨3, 0⟩, [], uintMax⟩], [⟨9, [1]⟩], 0⟩

def noWallet : CWallet := ⟨Std.ExtTreeMap.empty, ⟨[], [[1]]⟩, true⟩

/-- Nothing is in a block. -/
def noChain : WalletChain where
  nBestHeight := 100
  nAdjustedTime := 1000
  getDepthInMainChain _ := 0
  depth_nonneg _ := le_rfl

def deliver (tx : CTransaction) : Call := .addToWalletIfInvolvingMe tx none true true

/-- The wallet that calls lead to. -/
def after (calls : List Call) : CWallet := calls.foldl (Call.perform noChain) noWallet.markDirty

theorem noneRests_of_not_spent {w : CWallet} {hash : Uint256} {tx : CTransaction}
    (h : ∀ e ∈ w.mapWallet.toList, ∀ txin ∈ e.2.tx.vin, txin.prevout.hash ≠ hash) :
    w.NoneRests hash tx := by
  intro h' wtx hget _ _ txin htxin hspends
  have hmem := Std.ExtTreeMap.mem_toList_iff_getElem?_eq_some.2 hget
  exact absurd hspends (h (h', wtx) hmem txin htxin)

omit [P : Platform] in
/-- The parent comes first, and both are asked for their debits. -/
theorem fresh_inOrder :
    letI := Platform.toy
    (after [deliver payment, .query (.getDebit 3), deliver spending, .query (.getDebit 4)]).Fresh
      noChain := by
  let := Platform.toy
  refine fresh_of_quiet (w := noWallet) ?_
  refine .call (.query (.getDebit 4)) (.call (deliver spending) (.call (.query (.getDebit 3))
    (.call (deliver payment) .start ?_) trivial) ?_) trivial
  · exact fun _ => noneRests_of_not_spent (by decide +kernel)
  · exact fun _ => noneRests_of_not_spent (by decide +kernel)

omit [P : Platform] in
/-- **A stale debit**: the child comes first, is asked for its debit while
nothing of ours is known to be spent by it, and says so ever after. -/
theorem not_fresh :
    letI := Platform.toy
    ¬ ∀ (chain : WalletChain) (w w' : CWallet), CallRun chain (fun _ _ => True) w w' →
      w'.Fresh chain := by
  let := Platform.toy
  intro hall
  have hrun : CallRun noChain (fun _ _ => True) noWallet
      (after [deliver spending, .query (.getDebit 4), deliver payment]) :=
    .call (deliver payment) (.call (.query (.getDebit 4)) (.call (deliver spending) .start trivial)
      trivial) trivial
  have hkept : (CWallet.onTx 4 CWalletTx.getDebit
      (after [deliver spending, .query (.getDebit 4), deliver payment])).1 = .ok 0 := by
    decide +kernel
  have hfresh : (CWallet.onTx 4 CWalletTx.getDebit
      (after [deliver spending, .query (.getDebit 4), deliver payment]).markDirty).1 = .ok 10 := by
    decide +kernel
  have heq := hkept.symm.trans ((hall noChain noWallet _ hrun (.getDebit 4)).trans hfresh)
  exact absurd (Except.ok.inj heq) (by decide)

end LateParent

end Cached

end CryptoBullion
