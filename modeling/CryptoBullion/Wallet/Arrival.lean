import CryptoBullion.Wallet.Caches
/-!
# The order of arrival

A wallet is told of transactions, parents before their children. What it
keeps of them does not depend on the order otherwise: a transaction is kept
if it pays us or spends what is ours, and by the time it arrives all that
it could spend is there. The flags are raised by whoever spends, kept or
not. But to keep a transaction its debit is summed, and to flag an output
the credit of its transaction is; a sum that is out of range ends the
delivery, and the flag is not raised.
-/

namespace CryptoBullion

namespace Cached

/-! ## Deliveries -/

/-- A transaction as it is delivered: with the block it was found in, under
the best chain of that time, and what the wallet file answers. -/
structure Delivery where
  tx : CTransaction
  pblock : Option CBlock
  chain : WalletChain
  fWritten : Bool

/-- The input of a delivered transaction is there. -/
def Delivery.Spends (d : Delivery) (o : COutPoint) : Prop := ∃ txin ∈ d.tx.vin, txin.prevout = o

/-- Some delivered transaction spends an output. -/
def IsSpentIn (l : List Delivery) (o : COutPoint) : Prop := ∃ d ∈ l, d.Spends o

namespace CWallet

/-- A wallet with keys and nothing else. -/
def ofKeys (keystore : CKeyStore) (fFileBacked : Bool) : CWallet :=
  ⟨Std.ExtTreeMap.empty, keystore, fFileBacked⟩

/-- An output is flagged spent. -/
def IsFlagged (w : CWallet) (o : COutPoint) : Prop :=
  ∃ wtx, w.mapWallet[o.hash]? = some wtx ∧ wtx.isSpent o.n = true

variable [P : Platform]

/-- `AddToWalletIfInvolvingMe` with `fUpdate`, however it ends -/
def deliver (w : CWallet) (d : Delivery) : CWallet :=
  (addToWalletIfInvolvingMe d.chain d.tx d.pblock true d.fWritten w).2

/-- Deliveries, one after the other. -/
def deliverAll (w : CWallet) (l : List Delivery) : CWallet := l.foldl deliver w

end CWallet

variable [P : Platform]

/-- Every parent that is delivered at all comes before its children. -/
def ParentsFirst (l : List Delivery) : Prop :=
  ∀ l₁ d l₂, l = l₁ ++ d :: l₂ → ∀ p ∈ l, ∀ txin ∈ d.tx.vin,
    txin.prevout.hash = p.tx.getHash → ∃ p' ∈ l₁, p'.tx = p.tx

/-- Different transactions have different hashes. -/
def NoCollisions (l : List Delivery) : Prop :=
  ∀ d ∈ l, ∀ d' ∈ l, d.tx.getHash = d'.tx.getHash → d.tx = d'.tx

omit [P : Platform] in
/-- The same transactions are delivered, in whatever order and how often. -/
def SameDelivered (l l' : List Delivery) : Prop := ∀ tx, (∃ d ∈ l, d.tx = tx) ↔ ∃ d ∈ l', d.tx = tx

/-- Two wallets have the same transactions. -/
def SameContents (w w' : CWallet) : Prop := ∀ hash : Uint256, w.txAt hash = w'.txAt hash

/-- Their flags of the outputs that are ours are the same. -/
def SameFlags (w w' : CWallet) : Prop :=
  ∀ o, (w.ownOutput o).isSome → (w.IsFlagged o ↔ w'.IsFlagged o)

/-- An output of ours is flagged if and only if something delivered spends
it. -/
def FlagsExact (l : List Delivery) (w : CWallet) : Prop :=
  ∀ o, (w.ownOutput o).isSome → (w.IsFlagged o ↔ IsSpentIn l o)

/-- All that was delivered, ours or not. -/
def CWallet.known (keystore : CKeyStore) (l : List Delivery) : CWallet where
  mapWallet := l.foldr (fun d m => m.insert d.tx.getHash (CWalletTx.ofTx d.tx d.pblock))
    Std.ExtTreeMap.empty
  keystore := keystore
  fFileBacked := false

/-- What is delivered can be summed: what a transaction pays us, and what
of ours it spends, is in range on the way and at the end. -/
def SumsInRange (keystore : CKeyStore) (l : List Delivery) : Prop :=
  ∀ d ∈ l, (∃ n, (CWallet.known keystore l).plain.getCredit d.tx = .ok n) ∧
    ∃ n, (CWallet.known keystore l).plain.getDebit d.tx = .ok n

/-- A transaction pays us, or spends what is ours. -/
def Involving (keystore : CKeyStore) (l : List Delivery) (tx : CTransaction) : Prop :=
  tx.vout.any (CWallet.known keystore l).plain.isMine = true ∨
    (CWallet.known keystore l).plain.isFromMe tx = .ok true

/-! ## One transaction -/

namespace CWalletTx

variable {W : Accounting.CWallet} {chain : WalletChain} {wtx : CWalletTx} {nOut : ℕ}

omit P in
theorem kept_toPlain {fUseCache : Bool} {cache : CWalletTx → Option ℤ}
    {keep : ℤ → CWalletTx → CWalletTx} {sum : Accounting.CWalletTx → Except Failure ℤ}
    (hkeep : ∀ n wtx, (keep n wtx).toPlain = wtx.toPlain) :
    (kept fUseCache cache keep sum wtx).2.toPlain = wtx.toPlain := by
  unfold kept
  split
  · rfl
  · split
    · rfl
    · exact hkeep _ _

omit P in
/-- A sum that can be had is had, from the cache or not. -/
theorem exists_kept {fUseCache : Bool} {cache : CWalletTx → Option ℤ}
    {keep : ℤ → CWalletTx → CWalletTx} {sum : Accounting.CWalletTx → Except Failure ℤ} {n : ℤ}
    (hsum : sum wtx.toPlain = .ok n) : ∃ n', (kept fUseCache cache keep sum wtx).1 = .ok n' := by
  unfold kept
  split
  · exact ⟨_, rfl⟩
  · rw [hsum]
    exact ⟨n, rfl⟩

theorem getCredit_toPlain (W : Accounting.CWallet) (chain : WalletChain) (fUseCache : Bool)
    (wtx : CWalletTx) :
    (getCredit W chain fUseCache wtx).2.toPlain = wtx.toPlain := by
  unfold getCredit
  rw [Step.get_bind]
  split
  · rfl
  · exact kept_toPlain fun _ _ => rfl

theorem exists_getCredit (chain : WalletChain) (fUseCache : Bool) {n : ℤ} (h : W.getCredit wtx.tx = .ok n) :
    ∃ n', (getCredit W chain fUseCache wtx).1 = .ok n' := by
  unfold getCredit
  rw [Step.get_bind]
  split
  · exact ⟨0, rfl⟩
  · exact exists_kept h

omit P in
theorem markSpent_of_lt (h : nOut < wtx.tx.vout.length) :
    markSpent nOut wtx = (.ok (), wtx.setFlag nOut true) := by
  unfold markSpent
  rw [Step.get_bind, if_neg (by omega)]
  rfl

omit P in
theorem tx_markSpent : (markSpent nOut wtx).2.tx = wtx.tx := by
  unfold markSpent
  rw [Step.get_bind]
  split <;> rfl

/-- A transaction that was just delivered has no flags. -/
theorem vfSpent_ofTx {tx : CTransaction} {pblock : Option CBlock} : (ofTx tx pblock).vfSpent = [] := by
  cases pblock with
  | none => rfl
  | some block =>
    unfold ofTx CryptoBullion.CWalletTx.setMerkleBranch
    dsimp only
    split <;> rfl

omit P in
/-- Merging what has no flags changes none. -/
theorem isSpent_merge {wtxIn : CWalletTx} (h : wtxIn.vfSpent = []) :
    (wtx.merge wtxIn).isSpent nOut = wtx.isSpent nOut := by
  have hraise : ∀ wtx' : CryptoBullion.CWalletTx,
      (wtx'.updateSpent wtxIn.vfSpent).vfSpent = wtx'.vfSpent := by
    intro wtx'
    unfold CryptoBullion.CWalletTx.updateSpent
    rw [h]
    exact List.ext_getElem? fun i => by simp
  have hflags : (wtx.merge wtxIn).vfSpent = wtx.vfSpent := by
    unfold merge CryptoBullion.CWallet.mergeTx
    dsimp only
    rw [hraise]
    split_ifs <;> rfl
  unfold CryptoBullion.CWalletTx.isSpent
  rw [hflags]

end CWalletTx

/-! ## What is the same under the same keys and transactions -/

namespace CWallet

variable {w w' w'' : CWallet} {hash : Uint256} {wtx wtx' : CWalletTx} {o : COutPoint}
  {chain : WalletChain} {tx : CTransaction}

/-- The keys and the transactions stay, whatever becomes of the flags. -/
structure SameTxs (w w' : CWallet) : Prop where
  keys : w'.keystore = w.keystore
  tx : SameContents w' w

instance : Std.Refl SameTxs := ⟨fun _ => ⟨rfl, fun _ => rfl⟩⟩

instance : IsTrans CWallet SameTxs :=
  ⟨fun _ _ _ h h' => ⟨h'.keys.trans h.keys, fun hash => (h'.tx hash).trans (h.tx hash)⟩⟩

theorem ownOutput_eq : w.ownOutput o =
    (w.txAt o.hash).bind fun prev => (prev.vout[o.n]?).filter w.plain.isMine := by
  unfold ownOutput txAt
  cases w.mapWallet[o.hash]? with
  | none => rfl
  | some prev =>
    rw [Option.map_some, Option.bind_some]
    dsimp only
    cases prev.tx.vout[o.n]? with
    | none => rfl
    | some txout => rfl

theorem isMine_congr (hkey : w'.keystore = w.keystore) : w'.plain.isMine = w.plain.isMine := by
  funext txout
  show P.isMine w'.keystore _ = P.isMine w.keystore _
  rw [hkey]

theorem SameTxs.ownOutput (h : SameTxs w w') : w'.ownOutput o = w.ownOutput o := by
  rw [ownOutput_eq, ownOutput_eq, h.tx, isMine_congr h.keys]

theorem SameTxs.getCredit (h : SameTxs w w') : w'.plain.getCredit tx = w.plain.getCredit tx :=
  getCredit_congr h.keys tx

omit P in
theorem txAt_set (hget : w.mapWallet[hash]? = some wtx) (htx : wtx'.tx = wtx.tx) :
    SameTxs w { w with mapWallet := w.mapWallet.insert hash wtx' } := by
  refine ⟨rfl, fun h => ?_⟩
  unfold txAt
  dsimp only
  rw [getElem?_set]
  by_cases heq : hash = h
  · rw [if_pos heq, ← heq, hget, Option.map_some, Option.map_some, htx]
  · rw [if_neg heq]

omit P in
theorem preserves_onTx {α : Type} {x : Accounting.CWallet → Step CWalletTx Failure α}
    (hx : ∀ W, Step.Preserves (fun wtx wtx' => wtx'.tx = wtx.tx) (x W)) :
    Step.Preserves SameTxs (onTx hash x) := by
  intro w
  unfold onTx
  cases hget : w.mapWallet[hash]? with
  | none => exact Std.Refl.refl w
  | some wtx => exact txAt_set hget (hx w.plain wtx)

theorem preserves_walletUpdateSpent (chain : WalletChain) (tx : CTransaction) :
    Step.Preserves SameTxs (walletUpdateSpent chain tx) := by
  refine .forEach (fun txin => ?_) _
  unfold updateSpentBy
  intro w
  rw [Step.get_bind]
  cases w.mapWallet[txin.prevout.hash]? with
  | none => exact Std.Refl.refl w
  | some wtx =>
    cases w.ownOutput txin.prevout with
    | none => exact Std.Refl.refl w
    | some txout =>
      dsimp only
      split
      · exact Std.Refl.refl w
      · refine Step.Preserves.bind (preserves_onTx fun W wtx => ?_)
          (fun _ => preserves_onTx fun _ _ => CWalletTx.tx_markSpent) w
        exact congrArg (·.tx) (CWalletTx.getCredit_toPlain W chain true wtx)

/-! ## Flags that are raised -/

/-- The flags of the outputs of `S` that are ours are raised, and no
other of ours. -/
structure Raises (S : List COutPoint) (w w' : CWallet) : Prop where
  same : SameTxs w w'
  flag : ∀ o, (w.ownOutput o).isSome → (w'.IsFlagged o ↔ w.IsFlagged o ∨ o ∈ S)

theorem Raises.nil : Raises [] w w := ⟨Std.Refl.refl w, fun o _ => by simp⟩

theorem Raises.trans {S S' : List COutPoint} (h : Raises S w w') (h' : Raises S' w' w'') :
    Raises (S ++ S') w w'' := by
  refine ⟨IsTrans.trans w w' w'' h.same h'.same, fun o ho => ?_⟩
  rw [h'.flag o (h.same.ownOutput ▸ ho), h.flag o ho, List.mem_append, or_assoc]

/-- An output of ours is an output there is. -/
theorem lt_of_ownOutput (hget : w.mapWallet[o.hash]? = some wtx) (ho : (w.ownOutput o).isSome) :
    o.n < wtx.tx.vout.length := by
  by_contra hlt
  rw [ownOutput_eq, txAt, hget, Option.map_some, Option.bind_some,
    List.getElem?_eq_none (by omega)] at ho
  cases ho

/-- One transaction is replaced, by itself with other flags. -/
theorem raises_set {S : List COutPoint} (hget : w.mapWallet[hash]? = some wtx)
    (htx : wtx'.tx = wtx.tx) (hS : ∀ o ∈ S, o.hash = hash)
    (hflag : ∀ n < wtx.tx.vout.length,
      (wtx'.isSpent n = true ↔ wtx.isSpent n = true ∨ ⟨hash, n⟩ ∈ S)) :
    Raises S w { w with mapWallet := w.mapWallet.insert hash wtx' } := by
  refine ⟨txAt_set hget htx, fun o ho => ?_⟩
  unfold IsFlagged
  dsimp only
  rw [getElem?_set]
  by_cases heq : hash = o.hash
  · subst heq
    have := hflag o.n (lt_of_ownOutput hget ho)
    rw [if_pos rfl, hget]
    simp only [Option.some.injEq, exists_eq_left']
    exact this
  · rw [if_neg heq]
    have hnot : o ∉ S := fun hmem => heq (hS o hmem).symm
    simp only [hnot, or_false]

/-- Every credit can be summed. -/
def CreditsInRange (w : CWallet) : Prop :=
  ∀ (hash : Uint256) (tx : CTransaction), w.txAt hash = some tx → ∃ n, w.plain.getCredit tx = .ok n

theorem CreditsInRange.congr (h : w.CreditsInRange) (hsame : SameTxs w w') : w'.CreditsInRange := by
  intro hash tx htx
  rw [hsame.getCredit]
  exact h hash tx (hsame.tx hash ▸ htx)

omit P in
theorem onTx_apply {α : Type} {x : Accounting.CWallet → Step CWalletTx Failure α}
    (hget : w.mapWallet[hash]? = some wtx) : onTx hash x w =
      ((x w.plain wtx).1, { w with mapWallet := w.mapWallet.insert hash (x w.plain wtx).2 }) := by
  unfold onTx
  rw [hget]

/-- Asking for a credit that can be summed changes no flag. -/
theorem raises_getCredit (chain : WalletChain) {n : ℤ} (hget : w.mapWallet[hash]? = some wtx)
    (hn : w.plain.getCredit wtx.tx = .ok n) :
    ∃ n' w', onTx hash (fun w => CWalletTx.getCredit w chain true) w = (.ok n', w') ∧
      Raises [] w w' := by
  obtain ⟨n', hn'⟩ := CWalletTx.exists_getCredit chain true hn
  have hplain := CWalletTx.getCredit_toPlain w.plain chain true wtx
  refine ⟨n', _, ?_, raises_set hget (congrArg (·.tx) hplain)
    (fun _ h => absurd h List.not_mem_nil) fun n _ => ?_⟩
  · rw [onTx_apply hget, hn']
  · have hspent : (CWalletTx.getCredit w.plain chain true wtx).2.isSpent n = wtx.isSpent n :=
      congrArg (·.isSpent n) hplain
    rw [hspent]
    simp

/-- `MarkSpent` raises the flag. -/
theorem raises_markSpent (hget : w.mapWallet[o.hash]? = some wtx)
    (hn : o.n < wtx.tx.vout.length) :
    ∃ w', onTx o.hash (fun _ => CWalletTx.markSpent o.n) w = (.ok (), w') ∧ Raises [o] w w' := by
  refine ⟨{ w with mapWallet := w.mapWallet.insert o.hash (wtx.setFlag o.n true) }, ?_,
    raises_set hget rfl (fun o' h => by rw [List.mem_singleton.1 h]) fun n hn => ?_⟩
  · rw [onTx_apply hget, CWalletTx.markSpent_of_lt hn]
  · have hflag : (wtx.setFlag o.n true).isSpent n = if o.n = n then true else wtx.isSpent n :=
      isSpent_setSpent hn
    rw [hflag, List.mem_singleton]
    by_cases heq : o.n = n
    · simp [← heq]
    · have hne : (⟨o.hash, n⟩ : COutPoint) ≠ o := fun h => heq (congrArg (·.n) h).symm
      simp [heq, hne]

/-- **One input raises one flag**, where the credit of what it spends can be
summed. -/
theorem raises_updateSpentBy (chain : WalletChain) {txin : CTxIn} (hcredits : w.CreditsInRange) :
    ∃ w', updateSpentBy chain txin w = (.ok (), w') ∧ Raises [txin.prevout] w w' := by
  -- where the output is not ours, or flagged already, nothing is done
  have hidle : ((w.ownOutput txin.prevout).isSome → w.IsFlagged txin.prevout) →
      Raises [txin.prevout] w w := by
    refine fun h => ⟨Std.Refl.refl w, fun o ho => ⟨.inl, ?_⟩⟩
    rintro (hflagged | hmem)
    · exact hflagged
    · obtain rfl := List.mem_singleton.1 hmem
      exact h ho
  unfold updateSpentBy
  rw [Step.get_bind]
  cases hget : w.mapWallet[txin.prevout.hash]? with
  | none =>
    refine ⟨w, rfl, hidle fun ho => ?_⟩
    rw [ownOutput_eq, txAt, hget] at ho
    cases ho
  | some wtx =>
    cases hown : w.ownOutput txin.prevout with
    | none => exact ⟨w, rfl, hidle fun ho => by rw [hown] at ho; cases ho⟩
    | some txout =>
      dsimp only
      by_cases hspent : wtx.isSpent txin.prevout.n = true
      · rw [if_pos hspent]
        exact ⟨w, rfl, hidle fun _ => ⟨wtx, hget, hspent⟩⟩
      · rw [if_neg hspent]
        have htxAt : w.txAt txin.prevout.hash = some wtx.tx := by rw [txAt, hget]; rfl
        obtain ⟨n, hn⟩ := hcredits _ _ htxAt
        obtain ⟨n', w₁, hcredit, hsame⟩ := raises_getCredit chain hget hn
        -- the same transaction is still there to be flagged
        have htxAt₁ := (hsame.same.tx txin.prevout.hash).trans htxAt
        obtain ⟨wtx₁, hget₁, htx₁⟩ := Option.map_eq_some_iff.1 htxAt₁
        obtain ⟨w₂, hmark, hraised⟩ := raises_markSpent hget₁
          (htx₁ ▸ lt_of_ownOutput hget (by rw [hown]; rfl))
        refine ⟨w₂, ?_, hsame.trans hraised⟩
        rw [Step.bind_of_ok hcredit, hmark]

/-- **A transaction raises the flags of all it spends.** -/
theorem raises_walletUpdateSpent (chain : WalletChain) (tx : CTransaction) (hcredits : w.CreditsInRange) :
    ∃ w', walletUpdateSpent chain tx w = (.ok (), w') ∧ Raises (tx.vin.map (·.prevout)) w w' := by
  have hloop : ∀ (l : List CTxIn) (w : CWallet), w.CreditsInRange →
      ∃ w', Step.forEach (updateSpentBy chain) l w = (.ok (), w') ∧
        Raises (l.map (·.prevout)) w w' := by
    intro l
    induction l with
    | nil => exact fun w _ => ⟨w, rfl, .nil⟩
    | cons txin l ih =>
      intro w hw
      obtain ⟨w₁, hstep, hraised⟩ := raises_updateSpentBy chain hw
      obtain ⟨w₂, hrest, hraised'⟩ := ih w₁ (hw.congr hraised.same)
      refine ⟨w₂, ?_, hraised.trans hraised'⟩
      rw [Step.forEach_cons, Step.bind_of_ok hstep, hrest]
  exact hloop tx.vin w hcredits

/-! ## One delivery -/

/-- What `AddToWallet` makes of the map, before it looks for what is
spent. -/
def enter (w : CWallet) (wtxIn : CWalletTx) : CWallet :=
  let wtx := match w.mapWallet[wtxIn.tx.getHash]? with
    | none => wtxIn.markDirty
    | some wtx => wtx.merge wtxIn
  { w with mapWallet := w.mapWallet.insert wtxIn.tx.getHash wtx }

variable {wtxIn : CWalletTx} {d : Delivery}

theorem txAt_enter : (w.enter wtxIn).txAt hash =
    if wtxIn.tx.getHash = hash ∧ w.txAt hash = none then some wtxIn.tx else w.txAt hash := by
  unfold enter txAt
  dsimp only
  rw [getElem?_set]
  by_cases heq : wtxIn.tx.getHash = hash
  · subst heq
    rw [if_pos rfl]
    cases w.mapWallet[wtxIn.tx.getHash]? with
    | none => simp [CWalletTx.markDirty]
    | some wtx => simp [CWalletTx.merge, CWalletTx.markDirty]
  · rw [if_neg heq, if_neg fun h => heq h.1]

theorem isFlagged_enter (h : wtxIn.vfSpent = []) :
    (w.enter wtxIn).IsFlagged o ↔ w.IsFlagged o := by
  unfold enter IsFlagged
  dsimp only
  rw [getElem?_set]
  by_cases heq : wtxIn.tx.getHash = o.hash
  · rw [if_pos heq, ← heq]
    cases w.mapWallet[wtxIn.tx.getHash]? with
    | none => simp [CWalletTx.markDirty, CryptoBullion.CWalletTx.isSpent, h]
    | some wtx => simp [CWalletTx.isSpent_merge h]
  · rw [if_neg heq]

theorem CreditsInRange.enter (h : w.CreditsInRange)
    (hin : ∃ n, w.plain.getCredit wtxIn.tx = .ok n) : (w.enter wtxIn).CreditsInRange := by
  intro hash tx htx
  have hkey : (w.enter wtxIn).plain.getCredit tx = w.plain.getCredit tx :=
    getCredit_congr (show (w.enter wtxIn).plain.keystore = w.plain.keystore from rfl) tx
  rw [hkey]
  rw [txAt_enter] at htx
  split at htx
  · exact Option.some.inj htx ▸ hin
  · exact h hash tx htx

/-- `AddToWallet` looks for what the entered transaction spends, unless it
could not be written. -/
theorem addToWallet_cases (w : CWallet) (chain : WalletChain) (wtxIn : CWalletTx)
    (fWritten : Bool) :
    ∃ tx, (w.enter wtxIn).txAt wtxIn.tx.getHash = some tx ∧
      ((addToWallet chain wtxIn fWritten w).2 = w.enter wtxIn ∧ fWritten = false ∨
        (addToWallet chain wtxIn fWritten w).2 =
          (walletUpdateSpent chain tx (w.enter wtxIn)).2) := by
  have htx : (w.enter wtxIn).txAt wtxIn.tx.getHash =
      some ((w.txAt wtxIn.tx.getHash).getD wtxIn.tx) := by
    rw [txAt_enter]
    cases w.txAt wtxIn.tx.getHash <;> simp
  refine ⟨_, htx, ?_⟩
  -- whether it is written decides whether the loop is reached
  have hrest : ∀ (fWrite : Bool) (tx : CTransaction),
      ((if fWrite && !fWritten then pure false
        else walletUpdateSpent chain tx >>= fun _ => pure true :
          Step CWallet Failure Bool) (w.enter wtxIn)).2 = w.enter wtxIn ∧ fWritten = false ∨
      ((if fWrite && !fWritten then pure false
        else walletUpdateSpent chain tx >>= fun _ => pure true :
          Step CWallet Failure Bool) (w.enter wtxIn)).2 =
            (walletUpdateSpent chain tx (w.enter wtxIn)).2 := by
    intro fWrite tx
    split
    · next hwrite =>
      cases fWritten with
      | false => exact .inl ⟨rfl, rfl⟩
      | true => simp at hwrite
    · refine .inr ?_
      rw [Step.snd_bind_pure]
  unfold addToWallet
  rw [Step.get_bind, Step.modify_bind]
  unfold txAt enter at *
  cases hget : w.mapWallet[wtxIn.tx.getHash]? with
  | none =>
    rw [hget] at hrest
    exact hrest true wtxIn.tx
  | some wtx =>
    rw [hget] at hrest
    exact hrest (wtx.updatedBy wtxIn) wtx.tx

/-- What a delivery comes to: nothing, where the sum cannot be had; else the
transaction is entered if it is taken in, and what it spends is looked
for. -/
theorem deliver_cases :
    ((∃ f, w.involves d.tx = .error f) ∧ w.deliver d = w) ∨
    (w.involves d.tx = .ok false ∧ w.deliver d = (walletUpdateSpent d.chain d.tx w).2) ∨
    (w.involves d.tx = .ok true ∧
      ∃ tx, (w.enter (CWalletTx.ofTx d.tx d.pblock)).txAt d.tx.getHash = some tx ∧
        (w.deliver d = w.enter (CWalletTx.ofTx d.tx d.pblock) ∧ d.fWritten = false ∨
          w.deliver d =
            (walletUpdateSpent d.chain tx (w.enter (CWalletTx.ofTx d.tx d.pblock))).2)) := by
  unfold deliver addToWalletIfInvolvingMe
  rw [Step.get_bind, if_neg (by simp)]
  cases hinvolves : w.involves d.tx with
  | error f => exact .inl ⟨⟨f, rfl⟩, rfl⟩
  | ok fInvolves =>
    rw [Step.lift_ok_bind]
    cases fInvolves with
    | false =>
      refine .inr (.inl ⟨rfl, ?_⟩)
      rw [if_neg (by decide), Step.snd_bind_pure]
    | true =>
      refine .inr (.inr ⟨rfl, ?_⟩)
      obtain ⟨tx, htx, hcases⟩ := addToWallet_cases w d.chain
        (CWalletTx.ofTx d.tx d.pblock) d.fWritten
      rw [CWalletTx.tx_ofTx] at htx
      exact ⟨tx, htx, hcases⟩

/-- **What a delivery adds**: the transaction, if it is taken in and was not
there. -/
theorem txAt_deliver : (w.deliver d).keystore = w.keystore ∧ ∀ hash, (w.deliver d).txAt hash =
    if w.involves d.tx = .ok true ∧ d.tx.getHash = hash ∧ w.txAt hash = none then some d.tx
    else w.txAt hash := by
  rcases deliver_cases (w := w) (d := d) with
    ⟨⟨f, hinvolves⟩, hw⟩ | ⟨hinvolves, hw⟩ | ⟨hinvolves, tx, -, hcases⟩
  · rw [hw, hinvolves]
    exact ⟨rfl, fun hash => by rw [if_neg fun h => by cases h.1]⟩
  · have hsame := preserves_walletUpdateSpent d.chain d.tx w
    rw [hw, hinvolves]
    exact ⟨hsame.keys, fun hash => by rw [if_neg (fun h => by cases h.1), hsame.tx]⟩
  · have hsame : SameTxs (w.enter (CWalletTx.ofTx d.tx d.pblock)) (w.deliver d) := by
      rcases hcases with ⟨hw, -⟩ | hw
      · rw [hw]
        exact Std.Refl.refl _
      · rw [hw]
        exact preserves_walletUpdateSpent _ _ _
    refine ⟨hsame.keys, fun hash => ?_⟩
    rw [hsame.tx, txAt_enter, CWalletTx.tx_ofTx, hinvolves]
    simp only [true_and]

/-- **What a delivery flags**: what the transaction spends, where every sum
can be had and the file is written. -/
theorem raises_deliver (hcredits : w.CreditsInRange)
    (hcredit : ∃ n, w.plain.getCredit d.tx = .ok n) (hknown : ∃ b, w.involves d.tx = .ok b)
    (hwritten : d.fWritten = true) (hsame : ∀ tx, w.txAt d.tx.getHash = some tx → tx = d.tx)
    (ho : ((w.deliver d).ownOutput o).isSome) :
    (w.deliver d).IsFlagged o ↔ w.IsFlagged o ∨ d.Spends o := by
  have hspends : d.Spends o ↔ o ∈ d.tx.vin.map (·.prevout) := by
    rw [List.mem_map]
    rfl
  rw [hspends]
  rcases deliver_cases (w := w) (d := d) with
    ⟨⟨f, hinvolves⟩, -⟩ | ⟨-, hw⟩ | ⟨-, tx, htx, hcases⟩
  · obtain ⟨b, hb⟩ := hknown
    rw [hb] at hinvolves
    cases hinvolves
  · obtain ⟨w', hrun, hraises⟩ := raises_walletUpdateSpent d.chain d.tx hcredits
    rw [hw, hrun] at ho ⊢
    exact hraises.flag o (hraises.same.ownOutput ▸ ho)
  · -- what was entered is the transaction that was delivered
    have hdelivered : tx = d.tx := by
      rw [txAt_enter, CWalletTx.tx_ofTx] at htx
      split at htx
      · exact (Option.some.inj htx).symm
      · exact hsame tx htx
    subst hdelivered
    have hin : ∃ n, w.plain.getCredit (CWalletTx.ofTx d.tx d.pblock).tx = .ok n := by
      rw [CWalletTx.tx_ofTx]
      exact hcredit
    obtain ⟨w', hrun, hraises⟩ := raises_walletUpdateSpent d.chain d.tx (hcredits.enter hin)
    have hw : w.deliver d = w' := by
      rcases hcases with ⟨-, hnot⟩ | hw
      · rw [hwritten] at hnot
        cases hnot
      · rw [hw, hrun]
    rw [hw] at ho ⊢
    rw [hraises.flag o (hraises.same.ownOutput ▸ ho), isFlagged_enter CWalletTx.vfSpent_ofTx]

end CWallet

/-! ## What was delivered, all of it -/

variable {keystore : CKeyStore} {l l' l₁ l₂ : List Delivery} {w w' : CWallet} {d : Delivery}

theorem txAt_known {hash : Uint256} : ∀ {l : List Delivery}, (CWallet.known keystore l).txAt hash =
    (l.find? fun d => d.tx.getHash = hash).map (·.tx)
  | [] => rfl
  | d :: l => by
    have hset : (CWallet.known keystore (d :: l)).txAt hash =
        if d.tx.getHash = hash then some d.tx else (CWallet.known keystore l).txAt hash := by
      unfold CWallet.txAt CWallet.known
      rw [List.foldr_cons]
      simp only [Std.ExtTreeMap.getElem?_insert, Std.compare_eq_iff_eq]
      by_cases heq : d.tx.getHash = hash
      · rw [if_pos heq, if_pos heq, Option.map_some, CWalletTx.tx_ofTx]
      · rw [if_neg heq, if_neg heq]
    rw [hset, txAt_known, List.find?_cons]
    by_cases heq : d.tx.getHash = hash
    · simp [heq]
    · simp [heq]

theorem of_txAt_known {hash : Uint256} {tx : CTransaction}
    (h : (CWallet.known keystore l).txAt hash = some tx) :
    tx.getHash = hash ∧ ∃ d ∈ l, d.tx = tx := by
  rw [txAt_known, Option.map_eq_some_iff] at h
  obtain ⟨d, hfind, rfl⟩ := h
  exact ⟨by simpa using List.find?_some hfind, d, List.mem_of_find?_eq_some hfind, rfl⟩

theorem NoCollisions.txAt_known (hno : NoCollisions l) (hd : d ∈ l) :
    (CWallet.known keystore l).txAt d.tx.getHash = some d.tx := by
  rw [Cached.txAt_known]
  cases hfind : l.find? fun d' => d'.tx.getHash = d.tx.getHash with
  | none => exact absurd (List.find?_eq_none.1 hfind d hd) (by simp)
  | some d' =>
    have heq : d'.tx.getHash = d.tx.getHash := by simpa using List.find?_some hfind
    rw [Option.map_some, hno d' (List.mem_of_find?_eq_some hfind) d hd heq]

/-! ## What the wallet has of it -/

/-- The wallet has of what came so far, `l₁`, what concerns us in all that is
to come, `l`. -/
structure Represents (keystore : CKeyStore) (l l₁ : List Delivery) (w : CWallet) : Prop where
  keys : w.keystore = keystore
  tx : ∀ hash tx, w.txAt hash = some tx ↔
    tx.getHash = hash ∧ (∃ d ∈ l₁, d.tx = tx) ∧ Involving keystore l tx

/-- **What can be spent is there.** An input of a transaction whose parents
came is worth what it will be worth when all has come. -/
theorem Represents.getDebitIn (h : Represents keystore l l₁ w) (hno : NoCollisions l)
    (hsub : ∀ d ∈ l₁, d ∈ l) {txin : CTxIn}
    (hparent : ∀ p ∈ l, txin.prevout.hash = p.tx.getHash → ∃ p' ∈ l₁, p'.tx = p.tx) :
    w.plain.getDebitIn txin = (CWallet.known keystore l).plain.getDebitIn txin := by
  cases hknown : (CWallet.known keystore l).txAt txin.prevout.hash with
  | none =>
    refine CWallet.getDebitIn_congr h.keys ?_
    rw [hknown]
    refine Option.eq_none_iff_forall_ne_some.2 fun tx htx => ?_
    obtain ⟨hhash, ⟨d, hd, rfl⟩, -⟩ := (h.tx _ _).1 htx
    rw [← hhash, hno.txAt_known (hsub d hd)] at hknown
    cases hknown
  | some prev =>
    obtain ⟨hhash, p, hp, rfl⟩ := of_txAt_known hknown
    obtain ⟨p', hp', heq⟩ := hparent p hp hhash.symm
    by_cases hinvolving : Involving keystore l p.tx
    · refine CWallet.getDebitIn_congr h.keys ?_
      rw [hknown]
      exact (h.tx _ _).2 ⟨hhash, ⟨p', hp', heq⟩, hinvolving⟩
    · -- what does not concern us has no output that is ours
      have hnone : w.txAt txin.prevout.hash = none := by
        refine Option.eq_none_iff_forall_ne_some.2 fun tx htx => ?_
        obtain ⟨hhash', ⟨d, hd, rfl⟩, hinvolving'⟩ := (h.tx _ _).1 htx
        exact hinvolving (hno d (hsub d hd) p hp (hhash'.trans hhash.symm) ▸ hinvolving')
      have hmine : ∀ txout ∈ p.tx.vout, P.isMine keystore txout.scriptPubKey = false := by
        intro txout htxout
        have hany := not_or.1 hinvolving
        rw [Bool.not_eq_true, List.any_eq_false] at hany
        exact Bool.eq_false_iff.2 (hany.1 txout htxout)
      rw [CWallet.getDebitIn_eq, CWallet.getDebitIn_eq, hnone, hknown]
      dsimp only
      cases hout : p.tx.vout[txin.prevout.n]? with
      | none => rfl
      | some txout =>
        have hnot := hmine txout (List.mem_of_getElem? hout)
        exact (if_neg (Bool.eq_false_iff.1 hnot)).symm

/-- **What is taken in concerns us**, and what concerns us is taken in: by
the time it comes, its debit is what it will be. -/
theorem Represents.involves (h : Represents keystore l l₁ w) (hno : NoCollisions l)
    (hl : l = l₁ ++ d :: l₂) (hfirst : ParentsFirst l) :
    (w.involves d.tx = .ok true ↔ Involving keystore l d.tx) ∧
      ((∃ n, (CWallet.known keystore l).plain.getDebit d.tx = .ok n) →
        ∃ b, w.involves d.tx = .ok b) := by
  have hsub : ∀ d ∈ l₁, d ∈ l := fun d' hd' => hl ▸ List.mem_append_left _ hd'
  have hd : d ∈ l := hl ▸ List.mem_append_right _ List.mem_cons_self
  have hdebit : w.plain.getDebit d.tx = (CWallet.known keystore l).plain.getDebit d.tx :=
    getDebit_congr fun txin htxin => h.getDebitIn hno hsub fun p hp heq =>
      hfirst l₁ d l₂ hl p hp txin htxin heq
  have hmine : w.plain.isMine = (CWallet.known keystore l).plain.isMine :=
    CWallet.isMine_congr h.keys
  have hfrom : w.plain.isFromMe d.tx = (CWallet.known keystore l).plain.isFromMe d.tx := by
    unfold Accounting.CWallet.isFromMe
    rw [hdebit]
  unfold CWallet.involves Involving
  rw [hmine, hfrom]
  by_cases hknown : w.mapWallet.contains d.tx.getHash = true
  · -- what is there already concerns us
    rw [hknown, Bool.true_or, if_pos rfl]
    refine ⟨⟨fun _ => ?_, fun _ => rfl⟩, fun _ => ⟨true, rfl⟩⟩
    rw [Std.ExtTreeMap.contains_eq_isSome_getElem?] at hknown
    obtain ⟨wtx, hget⟩ := Option.isSome_iff_exists.1 hknown
    obtain ⟨hhash, ⟨d', hd', htx⟩, hinvolving⟩ := (h.tx d.tx.getHash wtx.tx).1
      (by unfold CWallet.txAt; rw [hget]; rfl)
    have heq : d'.tx = d.tx := hno d' (hsub d' hd') d hd (by rw [htx, hhash])
    rw [← htx, heq] at hinvolving
    exact hinvolving
  · rw [Bool.eq_false_iff.2 hknown, Bool.false_or]
    by_cases hpays : d.tx.vout.any (CWallet.known keystore l).plain.isMine = true
    · rw [if_pos hpays]
      exact ⟨⟨fun _ => .inl hpays, fun _ => rfl⟩, fun _ => ⟨true, rfl⟩⟩
    · rw [if_neg hpays]
      refine ⟨⟨.inr, fun h => h.resolve_left hpays⟩, fun ⟨n, hn⟩ => ⟨decide (0 < n), ?_⟩⟩
      unfold Accounting.CWallet.isFromMe
      rw [hn]
      rfl

/-- **One delivery**: the wallet has what came so far, and this. -/
theorem Represents.deliver (h : Represents keystore l l₁ w) (hno : NoCollisions l)
    (hl : l = l₁ ++ d :: l₂) (hfirst : ParentsFirst l) :
    Represents keystore l (l₁ ++ [d]) (w.deliver d) := by
  have hsub : ∀ d ∈ l₁, d ∈ l := fun d' hd' => hl ▸ List.mem_append_left _ hd'
  have hd : d ∈ l := hl ▸ List.mem_append_right _ List.mem_cons_self
  obtain ⟨hkeys, htxAt⟩ := CWallet.txAt_deliver (w := w) (d := d)
  refine ⟨hkeys.trans h.keys, fun hash tx => ?_⟩
  have hinvolves := (h.involves hno hl hfirst).1
  rw [htxAt]
  constructor
  · intro htx
    split at htx
    · next hentered =>
      obtain rfl := Option.some.inj htx
      exact ⟨hentered.2.1, ⟨d, List.mem_append_right _ (List.mem_singleton_self d), rfl⟩,
        hinvolves.1 hentered.1⟩
    · obtain ⟨hhash, ⟨d', hd', heq⟩, hinvolving⟩ := (h.tx hash tx).1 htx
      exact ⟨hhash, ⟨d', List.mem_append_left _ hd', heq⟩, hinvolving⟩
  · rintro ⟨hhash, ⟨d', hd', rfl⟩, hinvolving⟩
    rcases List.mem_append.1 hd' with hd' | hd'
    · have hthere := (h.tx hash d'.tx).2 ⟨hhash, ⟨d', hd', rfl⟩, hinvolving⟩
      rw [if_neg (fun hentered => by rw [hthere] at hentered; cases hentered.2.2), hthere]
    · obtain rfl := List.mem_singleton.1 hd'
      cases hthere : w.txAt hash with
      | none => rw [if_pos ⟨hinvolves.2 hinvolving, hhash, rfl⟩]
      | some tx =>
        obtain ⟨hhash', ⟨d'', hd'', rfl⟩, -⟩ := (h.tx hash tx).1 hthere
        rw [if_neg (fun hentered => by cases hentered.2.2),
          hno d'' (hsub d'' hd'') d' hd (hhash'.trans hhash.symm)]

/-- **All deliveries**: the wallet has what concerns us of all that came. -/
theorem Represents.deliverAll (hno : NoCollisions l) (hfirst : ParentsFirst l) :
    ∀ {l₂ l₁ : List Delivery} {w : CWallet}, l = l₁ ++ l₂ → Represents keystore l l₁ w →
      Represents keystore l l (w.deliverAll l₂)
  | [], l₁, w, hl, h => by
    rw [List.append_nil] at hl
    exact hl ▸ h
  | d :: l₂, l₁, w, hl, h => by
    have hl' : l = (l₁ ++ [d]) ++ l₂ := by
      rw [hl, List.append_assoc]
      rfl
    show Represents keystore l l ((w.deliver d).deliverAll l₂)
    exact Represents.deliverAll hno hfirst hl' (h.deliver hno hl hfirst)

theorem represents_ofKeys {fFileBacked : Bool} :
    Represents keystore l [] (CWallet.ofKeys keystore fFileBacked) := by
  refine ⟨rfl, fun hash tx => ⟨fun h => ?_, ?_⟩⟩
  · cases h
  · rintro ⟨-, ⟨d, hd, -⟩, -⟩
    exact absurd hd List.not_mem_nil

/-! ## What is flagged -/

omit P in
theorem isSpentIn_concat {o : COutPoint} : IsSpentIn (l ++ [d]) o ↔ IsSpentIn l o ∨ d.Spends o := by
  unfold IsSpentIn
  simp only [List.mem_append, List.mem_singleton, or_and_right, exists_or, exists_eq_left]

/-- **One delivery raises the flags it has to**, and what came before did
not spend what only comes now. -/
theorem Represents.flagsExact_deliver (h : Represents keystore l l₁ w) (hflags : FlagsExact l₁ w)
    (hno : NoCollisions l) (hl : l = l₁ ++ d :: l₂) (hfirst : ParentsFirst l)
    (hrange : SumsInRange keystore l) (hwritten : d.fWritten = true) :
    FlagsExact (l₁ ++ [d]) (w.deliver d) := by
  have hsub : ∀ d ∈ l₁, d ∈ l := fun d' hd' => hl ▸ List.mem_append_left _ hd'
  have hd : d ∈ l := hl ▸ List.mem_append_right _ List.mem_cons_self
  have hcredit : ∀ d ∈ l, ∃ n, w.plain.getCredit d.tx = .ok n := by
    intro d' hd'
    rw [getCredit_congr (show w.plain.keystore = (CWallet.known keystore l).plain.keystore from h.keys)]
    exact (hrange d' hd').1
  have hcredits : w.CreditsInRange := by
    intro hash tx htx
    obtain ⟨-, ⟨d', hd', rfl⟩, -⟩ := (h.tx hash tx).1 htx
    exact hcredit d' (hsub d' hd')
  have hthere : ∀ tx, w.txAt d.tx.getHash = some tx → tx = d.tx := by
    intro tx htx
    obtain ⟨hhash, ⟨d', hd', rfl⟩, -⟩ := (h.tx _ tx).1 htx
    exact hno d' (hsub d' hd') d hd hhash
  intro o ho
  rw [CWallet.raises_deliver hcredits (hcredit d hd)
    ((h.involves hno hl hfirst).2 (hrange d hd).2) hwritten hthere ho, isSpentIn_concat]
  by_cases hown : (w.ownOutput o).isSome
  · rw [hflags o hown]
  · -- the output came with this delivery: nothing was flagged, and nothing spent it
    obtain ⟨hkeys, htxAt⟩ := CWallet.txAt_deliver (w := w) (d := d)
    have hentered : w.involves d.tx = .ok true ∧ d.tx.getHash = o.hash ∧ w.txAt o.hash = none := by
      by_contra hnot
      have hsame := htxAt o.hash
      rw [if_neg hnot] at hsame
      rw [CWallet.ownOutput_eq, hsame, CWallet.isMine_congr hkeys, ← CWallet.ownOutput_eq] at ho
      exact hown ho
    have hinvolving := (h.involves hno hl hfirst).1.1 hentered.1
    have hnotFlagged : ¬ w.IsFlagged o := by
      rintro ⟨wtx, hget, -⟩
      have hnone := hentered.2.2
      rw [CWallet.txAt, hget] at hnone
      cases hnone
    have hnotSpent : ¬ IsSpentIn l₁ o := by
      rintro ⟨d', hd', txin, htxin, rfl⟩
      obtain ⟨a, b, rfl⟩ := List.append_of_mem hd'
      obtain ⟨p', hp', heq⟩ := hfirst a d' (b ++ d :: l₂) (by rw [hl, List.append_assoc]; rfl) d hd
        txin htxin hentered.2.1.symm
      have hcame := (h.tx txin.prevout.hash d.tx).2
        ⟨hentered.2.1, ⟨p', List.mem_append_left _ hp', heq⟩, hinvolving⟩
      rw [hentered.2.2] at hcame
      cases hcame
    simp only [hnotFlagged, hnotSpent]

/-- **All deliveries**: what they spend of ours is flagged, and nothing
else of ours. -/
theorem Represents.flagsExact_deliverAll (hno : NoCollisions l) (hfirst : ParentsFirst l)
    (hrange : SumsInRange keystore l) (hwritten : ∀ d ∈ l, d.fWritten = true) :
    ∀ {l₂ l₁ : List Delivery} {w : CWallet}, l = l₁ ++ l₂ → Represents keystore l l₁ w →
      FlagsExact l₁ w → FlagsExact l (w.deliverAll l₂)
  | [], l₁, w, hl, _, hflags => by
    rw [List.append_nil] at hl
    exact hl ▸ hflags
  | d :: l₂, l₁, w, hl, h, hflags => by
    have hl' : l = (l₁ ++ [d]) ++ l₂ := by
      rw [hl, List.append_assoc]
      rfl
    have hd : d ∈ l := hl ▸ List.mem_append_right _ List.mem_cons_self
    show FlagsExact l ((w.deliver d).deliverAll l₂)
    exact Represents.flagsExact_deliverAll hno hfirst hrange hwritten hl'
      (h.deliver hno hl hfirst)
      (h.flagsExact_deliver hflags hno hl hfirst hrange (hwritten d hd))

/-! ## Two orders -/

omit P in
theorem SameDelivered.symm (h : SameDelivered l l') : SameDelivered l' l := fun tx => (h tx).symm

omit P in
theorem SameDelivered.exists_mem (h : SameDelivered l l') (hd : d ∈ l) : ∃ d' ∈ l', d'.tx = d.tx :=
  (h d.tx).1 ⟨d, hd, rfl⟩

theorem NoCollisions.of_sameDelivered (hno : NoCollisions l) (h : SameDelivered l l') :
    NoCollisions l' := by
  intro d hd d' hd' heq
  obtain ⟨e, he, htx⟩ := h.symm.exists_mem hd
  obtain ⟨e', he', htx'⟩ := h.symm.exists_mem hd'
  rw [← htx, ← htx'] at heq ⊢
  exact hno e he e' he' heq

/-- All that was delivered is the same in either order. -/
theorem sameContents_known (h : SameDelivered l l') (hno : NoCollisions l) :
    SameContents (CWallet.known keystore l) (CWallet.known keystore l') := by
  intro hash
  have hof : ∀ {l l' : List Delivery}, SameDelivered l l' → NoCollisions l' → ∀ tx,
      (CWallet.known keystore l).txAt hash = some tx →
        (CWallet.known keystore l').txAt hash = some tx := by
    intro l l' h hno tx htx
    obtain ⟨rfl, d, hd, rfl⟩ := of_txAt_known htx
    obtain ⟨d', hd', heq⟩ := h.exists_mem hd
    rw [← heq]
    exact hno.txAt_known hd'
  exact Option.ext fun tx => ⟨hof h (hno.of_sameDelivered h) tx, hof h.symm hno tx⟩

theorem getDebit_known (h : SameDelivered l l') (hno : NoCollisions l) (tx : CTransaction) :
    (CWallet.known keystore l').plain.getDebit tx = (CWallet.known keystore l).plain.getDebit tx :=
  getDebit_congr fun _ _ => CWallet.getDebitIn_congr rfl (sameContents_known h hno _).symm

theorem involving_known (h : SameDelivered l l') (hno : NoCollisions l) (tx : CTransaction) :
    Involving keystore l' tx ↔ Involving keystore l tx := by
  unfold Involving Accounting.CWallet.isFromMe
  rw [getDebit_known h hno]
  exact Iff.rfl

theorem SumsInRange.of_sameDelivered (hrange : SumsInRange keystore l) (h : SameDelivered l l')
    (hno : NoCollisions l) : SumsInRange keystore l' := by
  intro d hd
  obtain ⟨d', hd', heq⟩ := h.symm.exists_mem hd
  obtain ⟨hcredit, hdebit⟩ := hrange d' hd'
  rw [heq] at hcredit hdebit
  have hkey : (CWallet.known keystore l').plain.keystore =
      (CWallet.known keystore l).plain.keystore := rfl
  rw [getDebit_known h hno, getCredit_congr hkey]
  exact ⟨hcredit, hdebit⟩

/-- **The order of arrival does not matter**: the same transactions are kept
in any order in which parents come first, whether a sum is in range or not;
and where every sum is and every write succeeds, the same outputs of ours
are flagged, which are those that something delivered spends. -/
theorem arrival_orderFree (keystore : CKeyStore) (fFileBacked : Bool) (hsame : SameDelivered l l')
    (hno : NoCollisions l) (hfirst : ParentsFirst l) (hfirst' : ParentsFirst l') :
    SameContents ((CWallet.ofKeys keystore fFileBacked).deliverAll l)
        ((CWallet.ofKeys keystore fFileBacked).deliverAll l') ∧
      (SumsInRange keystore l → (∀ d ∈ l, d.fWritten = true) → (∀ d ∈ l', d.fWritten = true) →
        SameFlags ((CWallet.ofKeys keystore fFileBacked).deliverAll l)
            ((CWallet.ofKeys keystore fFileBacked).deliverAll l') ∧
          FlagsExact l ((CWallet.ofKeys keystore fFileBacked).deliverAll l)) := by
  have hno' := hno.of_sameDelivered hsame
  have hstart : ∀ l, Represents keystore l [] (CWallet.ofKeys keystore fFileBacked) :=
    fun _ => represents_ofKeys
  have hw := Represents.deliverAll hno hfirst (List.nil_append l).symm (hstart l)
  have hw' := Represents.deliverAll hno' hfirst' (List.nil_append l').symm (hstart l')
  have hcontents : SameContents ((CWallet.ofKeys keystore fFileBacked).deliverAll l)
      ((CWallet.ofKeys keystore fFileBacked).deliverAll l') := by
    intro hash
    refine Option.ext fun tx => ?_
    rw [hw.tx, hw'.tx, hsame tx, involving_known hsame hno]
  refine ⟨hcontents, fun hrange hwritten hwritten' => ?_⟩
  have hnone : FlagsExact [] (CWallet.ofKeys keystore fFileBacked) := by
    intro o ho
    cases ho
  have hexact := Represents.flagsExact_deliverAll hno hfirst hrange hwritten
    (List.nil_append l).symm (hstart l) hnone
  have hexact' := Represents.flagsExact_deliverAll hno' hfirst' (hrange.of_sameDelivered hsame hno)
    hwritten' (List.nil_append l').symm (hstart l') hnone
  refine ⟨fun o ho => ?_, hexact⟩
  have hown : (((CWallet.ofKeys keystore fFileBacked).deliverAll l').ownOutput o).isSome := by
    rw [CWallet.ownOutput_eq, ← hcontents, CWallet.isMine_congr (hw'.keys.trans hw.keys.symm),
      ← CWallet.ownOutput_eq]
    exact ho
  rw [hexact o ho, hexact' o hown]
  constructor
  · rintro ⟨d, hd, hspends⟩
    obtain ⟨d', hd', heq⟩ := hsame.exists_mem hd
    exact ⟨d', hd', by unfold Delivery.Spends; rw [heq]; exact hspends⟩
  · rintro ⟨d, hd, hspends⟩
    obtain ⟨d', hd', heq⟩ := hsame.symm.exists_mem hd
    exact ⟨d', hd', by unfold Delivery.Spends; rw [heq]; exact hspends⟩

/-! ## Two payments, and one that spends both -/

namespace TwoPayments

/-- Some amount of ours. -/
def payment (nTime : ℕ) (nValue : ℤ) : CTransaction :=
  ⟨1, nTime, [⟨⟨99, 0⟩, [], uintMax⟩], [⟨nValue, [1]⟩], 0⟩

/-- A transaction that spends both payments, and pays somebody else. -/
def spending : CTransaction :=
  ⟨1, 5, [⟨⟨3, 0⟩, [], uintMax⟩, ⟨⟨4, 0⟩, [], uintMax⟩], [⟨7, [2]⟩], 0⟩

def deliver (tx : CTransaction) : Delivery := ⟨tx, none, LateParent.noChain, true⟩

/-- Both payments, and then what spends them. -/
def inOrder (nValue : ℤ) : List Delivery :=
  [deliver (payment 3 nValue), deliver (payment 4 nValue), deliver spending]

/-- The other way round, and one of them twice. -/
def otherOrder (nValue : ℤ) : List Delivery :=
  [deliver (payment 4 nValue), deliver (payment 3 nValue), deliver spending,
    deliver (payment 4 nValue)]

omit P in
theorem sameDelivered (nValue : ℤ) : SameDelivered (inOrder nValue) (otherOrder nValue) := by
  intro tx
  constructor
  · rintro ⟨d, hd, rfl⟩
    refine ⟨d, ?_, rfl⟩
    simp only [inOrder, otherOrder, List.mem_cons, List.not_mem_nil] at hd ⊢
    tauto
  · rintro ⟨d, hd, rfl⟩
    refine ⟨d, ?_, rfl⟩
    simp only [inOrder, otherOrder, List.mem_cons, List.not_mem_nil] at hd ⊢
    tauto

theorem parentsFirst_of_places (h : ∀ (i : ℕ) (hi : i < l.length), ∀ p ∈ l,
    ∀ txin ∈ (l[i]).tx.vin, txin.prevout.hash = p.tx.getHash → ∃ p' ∈ l.take i, p'.tx = p.tx) :
    ParentsFirst l := by
  intro l₁ d l₂ hl p hp txin htxin heq
  subst hl
  have hplace := h l₁.length (by simp) p hp
  rw [List.getElem_append_right le_rfl, List.take_left] at hplace
  simp only [Nat.sub_self, List.getElem_cons_zero] at hplace
  exact hplace txin htxin heq

omit P in
/-- Ten coins each: both orders keep and flag the same. -/
theorem arrival_tenCoins :
    letI := Platform.toy
    SameFlags ((CWallet.ofKeys ⟨[], [[1]]⟩ true).deliverAll (inOrder 10))
      ((CWallet.ofKeys ⟨[], [[1]]⟩ true).deliverAll (otherOrder 10)) := by
  let := Platform.toy
  have hrange : SumsInRange ⟨[], [[1]]⟩ (inOrder 10) := by
    intro d hd
    simp only [inOrder, List.mem_cons, List.not_mem_nil, or_false] at hd
    rcases hd with rfl | rfl | rfl
    · exact ⟨⟨10, by decide +kernel⟩, ⟨0, by decide +kernel⟩⟩
    · exact ⟨⟨10, by decide +kernel⟩, ⟨0, by decide +kernel⟩⟩
    · exact ⟨⟨0, by decide +kernel⟩, ⟨20, by decide +kernel⟩⟩
  have hno : NoCollisions (inOrder 10) := by
    unfold NoCollisions
    decide +kernel
  have hwritten : ∀ d ∈ inOrder 10, d.fWritten = true := by decide
  have hwritten' : ∀ d ∈ otherOrder 10, d.fWritten = true := by decide
  exact ((arrival_orderFree ⟨[], [[1]]⟩ true (sameDelivered 10) hno
    (parentsFirst_of_places (by decide +kernel)) (parentsFirst_of_places (by decide +kernel))).2
    hrange hwritten hwritten').1

omit P in
/-- **All the money there is, twice**: what spends both payments is turned
down, for its debit is out of range, and neither payment is flagged. -/
theorem not_flagsExact :
    letI := Platform.toy
    ¬ ∀ (keystore : CKeyStore) (fFileBacked : Bool) (l l' : List Delivery), SameDelivered l l' →
      NoCollisions l → ParentsFirst l → ParentsFirst l' → (∀ d ∈ l, d.fWritten = true) →
      (∀ d ∈ l', d.fWritten = true) →
      SameContents ((CWallet.ofKeys keystore fFileBacked).deliverAll l)
          ((CWallet.ofKeys keystore fFileBacked).deliverAll l') ∧
        SameFlags ((CWallet.ofKeys keystore fFileBacked).deliverAll l)
          ((CWallet.ofKeys keystore fFileBacked).deliverAll l') ∧
        FlagsExact l ((CWallet.ofKeys keystore fFileBacked).deliverAll l) := by
  let := Platform.toy
  intro hall
  have hno : NoCollisions (inOrder maxMoney) := by
    unfold NoCollisions
    decide +kernel
  obtain ⟨-, -, hexact⟩ := hall ⟨[], [[1]]⟩ true (inOrder maxMoney) (otherOrder maxMoney)
    (sameDelivered maxMoney) hno (parentsFirst_of_places (by decide +kernel))
    (parentsFirst_of_places (by decide +kernel)) (by decide) (by decide)
  have hown : (((CWallet.ofKeys ⟨[], [[1]]⟩ true).deliverAll (inOrder maxMoney)).ownOutput
      ⟨3, 0⟩).isSome := by
    decide +kernel
  obtain ⟨wtx, hget, hspent⟩ := (hexact ⟨3, 0⟩ hown).2
    ⟨deliver spending, by simp [inOrder], ⟨⟨3, 0⟩, [], uintMax⟩, by decide, rfl⟩
  have hflag : (((CWallet.ofKeys ⟨[], [[1]]⟩ true).deliverAll (inOrder maxMoney)).mapWallet[
      (3 : Uint256)]?).map (·.isSpent 0) = some false := by
    decide +kernel
  rw [hget] at hflag
  exact absurd (hspent.symm.trans (Option.some.inj hflag)) (by decide)

end TwoPayments

end Cached

end CryptoBullion
