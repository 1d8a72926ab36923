import CryptoBullion.Miner.Memory
import CryptoBullion.Model.Staker
/-!
# The times of a signed block

`SignBlock` takes a coinstake no earlier than the chain allows and moves
the block up to the latest of its transactions. The coinstake stays where
the search found it. The block's time is the coinstake's exactly where the
template held nothing later; the loop that would take later transactions
out runs when the block's time has already been moved up to them.
-/

namespace CryptoBullion

variable [P : Platform]

/-! ## What a template holds -/

/-- Every candidate of a scan is a `Q`. -/
structure Scanned.Only (Q : CTransaction → Prop) (sc : Scanned) : Prop where
  queued : ∀ p ∈ sc.vecPriority, Q p.tx
  waiting : ∀ (a : ℕ) (o : COrphan), sc.vOrphan[a]? = some o → Q o.candidate.tx

/-- And every transaction of a template but its coinbase. -/
structure Selection.Only (Q : CTransaction → Prop) (sel : Selection) : Prop where
  taken : ∀ tx ∈ sel.vtx.tail, Q tx
  nonempty : sel.vtx ≠ []
  queued : ∀ p ∈ sel.vecPriority, Q p.tx
  waiting : ∀ (a : ℕ) (o : COrphan), sel.vOrphan[a]? = some o → Q o.candidate.tx

section Only

variable {s : NodeState} {ans : Answer} {Q : CTransaction → Prop}

/-- **One turn of the scan** adds the transaction or nothing. -/
theorem Scanned.Only.scanTx {sc sc' : Scanned} {tx : CTransaction} (ho : sc.Only Q)
    (hQ : isScanned s ans tx = true → Q tx) (h : CryptoBullion.scanTx s ans sc tx = .ok sc') :
    sc'.Only Q := by
  unfold CryptoBullion.scanTx at h
  by_cases hskip : (tx.isCoinBase || tx.isCoinStake ||
      !tx.isFinal s.nBestHeight ans.nAdjustedTime 0 0) = true
  · rw [if_pos hskip] at h
    exact Except.ok.inj h ▸ ho
  · rw [if_neg hskip] at h
    have htx : Q tx := hQ (by simpa [isScanned] using hskip)
    rcases hg : gatherInputs s ans tx.vin sc ⟨⟨tx, 0, 0⟩, none, ∅, false⟩ with ⟨sc₁, g⟩
    obtain ⟨horphan, hqueue, hcandidate, -⟩ :=
      gatherInputs_spec sc.nextAddress (by simp) (by simp) hg
    simp only [hg] at h
    split_ifs at h with hmissing
    · obtain rfl := Except.ok.inj h
      exact ⟨hqueue ▸ ho.queued, horphan ▸ ho.waiting⟩
    · obtain ⟨-, -, h⟩ := except_bind_eq_ok.1 h
      split at h <;> obtain rfl := Except.ok.inj h
      · refine ⟨hqueue ▸ ho.queued, fun a o ha => ?_⟩
        simp only [Std.ExtTreeMap.getElem?_insert, horphan] at ha
        split at ha
        · obtain rfl := Option.some.inj ha
          exact hcandidate ▸ htx
        · exact ho.waiting a o ha
      · refine ⟨fun p hp => ?_, horphan ▸ ho.waiting⟩
        rw [hqueue] at hp
        rcases List.mem_append.1 hp with hp | hp
        · exact ho.queued p hp
        · obtain rfl := List.mem_singleton.1 hp
          exact hcandidate ▸ htx

theorem Scanned.Only.scanTxs : ∀ {txs : List CTransaction} {sc sc' : Scanned}, sc.Only Q →
    (∀ tx ∈ txs, isScanned s ans tx = true → Q tx) →
    CryptoBullion.scanTxs s ans sc txs = .ok sc' → sc'.Only Q
  | [], sc, sc', ho, _, h => Except.ok.inj h ▸ ho
  | tx :: rest, sc, sc', ho, hQ, h => by
    obtain ⟨sc₁, h₁, h⟩ := except_bind_eq_ok.1 h
    exact (ho.scanTx (hQ tx List.mem_cons_self) h₁).scanTxs
      (fun t ht => hQ t (List.mem_cons_of_mem _ ht)) h

variable {sel sel' : Selection} {c : MinerContext}

omit [P : Platform] in
/-- A node that wakes joins the queue with the candidate it had. -/
theorem Selection.Only.wakeDependers {hash : Uint256} : ∀ {addresses : List ℕ} {sel : Selection},
    sel.Only Q → CryptoBullion.wakeDependers hash addresses sel = .ok sel' → sel'.Only Q
  | [], sel, ho, h => Except.ok.inj h ▸ ho
  | address :: rest, sel, ho, h => by
    unfold CryptoBullion.wakeDependers at h
    split at h
    · exact absurd h (by simp)
    · rename_i porphan hp
      have hcandidate := ho.waiting address porphan hp
      split_ifs at h
      · exact ho.wakeDependers h
      · refine Selection.Only.wakeDependers ?_ h
        refine ⟨ho.taken, ho.nonempty, ?_, fun a o ha => ?_⟩
        · intro p hp
          dsimp only at hp
          split at hp
          · rcases List.mem_append.1 hp with hp | hp
            · exact ho.queued p hp
            · exact List.mem_singleton.1 hp ▸ hcandidate
          · exact ho.queued p hp
        · simp only [Std.ExtTreeMap.getElem?_insert] at ha
          split at ha
          · exact Option.some.inj ha ▸ hcandidate
          · exact ho.waiting a o ha

/-- **One candidate** is passed over or becomes part of the block. -/
theorem Selection.Only.selectTx {p : TxPriority} (ho : sel.Only Q) (hp : Q p.tx)
    (h : CryptoBullion.selectTx c sel p = .ok sel') : sel'.Only Q := by
  unfold CryptoBullion.selectTx at h
  dsimp only at h
  generalize sel.nOutOfRange + (if c.readsPastEnd sel p.tx = true then 1 else 0) = n at h
  have hskip : ∀ (n : ℕ) (f : Bool), ({ sel with nOutOfRange := n, fSortedByFee := f }).Only Q :=
    fun _ _ => ⟨ho.taken, ho.nonempty, ho.queued, ho.waiting⟩
  split_ifs at h
  · exact Except.ok.inj h ▸ ho
  · exact Except.ok.inj h ▸ hskip _ _
  · exact Except.ok.inj h ▸ hskip _ _
  · obtain ⟨r, -, h⟩ := except_bind_eq_ok.1 h
    cases r with
    | none => exact Except.ok.inj h ▸ hskip _ _
    | some r =>
      refine Selection.Only.wakeDependers ?_ h
      refine ⟨fun tx htx => ?_, ?_, ho.queued, ho.waiting⟩
      · rw [List.tail_append_of_ne_nil ho.nonempty] at htx
        rcases List.mem_append.1 htx with htx | htx
        · exact ho.taken tx htx
        · exact List.mem_singleton.1 htx ▸ hp
      · simp

theorem Selection.Only.selectTxs : ∀ {fuel : ℕ} {sel : Selection}, sel.Only Q →
    CryptoBullion.selectTxs c fuel sel = .ok sel' → sel'.Only Q
  | 0, sel, _, h => absurd h (by simp [CryptoBullion.selectTxs])
  | fuel + 1, sel, ho, h => by
    unfold CryptoBullion.selectTxs at h
    dsimp only at h
    split at h
    · exact Except.ok.inj h ▸ ho
    · rename_i p hp
      obtain ⟨sel₁, h₁, h⟩ := except_bind_eq_ok.1 h
      refine Selection.Only.selectTxs (Selection.Only.selectTx ?_
        (ho.queued p (List.mem_of_getElem? hp)) h₁) h
      exact ⟨ho.taken, ho.nonempty, fun q hq => ho.queued q (List.mem_of_mem_eraseIdx hq), ho.waiting⟩

/-- **A template is a coinbase and transactions of the pool**, none of them
a coinbase or a coinstake. -/
theorem vtx_of_createNewBlock {args : MinerArgs} {order : PriorityOrder} {fProofOfStake : Bool}
    {reservedKey : CScript} {strayTime : ℕ} {t : BlockTemplate}
    (h : createNewBlock s ans args order fProofOfStake reservedKey strayTime = .ok t) :
    ∃ coinBase rest, t.block.vtx = coinBase :: rest ∧
      ∀ tx ∈ rest, tx ∈ poolTxs s ∧ isScanned s ans tx = true := by
  unfold createNewBlock at h
  rcases hbest : s.pindexBest with _ | pindexPrev <;> simp only [hbest] at h
  · exact absurd h (by simp)
  · simp only [except_bind_eq_ok] at h
    obtain ⟨sc, hscan, sel, hsel, h⟩ := h
    obtain rfl := Except.ok.inj h
    have hsc : sc.Only fun tx => tx ∈ poolTxs s ∧ isScanned s ans tx = true :=
      Scanned.Only.scanTxs ⟨by simp, by simp⟩ (fun tx hmem hs => ⟨hmem, hs⟩) hscan
    have ho := Selection.Only.selectTxs (Q := fun tx => tx ∈ poolTxs s ∧ isScanned s ans tx = true)
      ⟨by simp, by simp, hsc.queued, hsc.waiting⟩ hsel
    obtain ⟨coinBase, rest, hvtx⟩ := List.exists_cons_of_ne_nil ho.nonempty
    have htaken := ho.taken
    rw [hvtx, List.tail_cons] at htaken
    dsimp only
    unfold setReward
    rw [hvtx]
    split
    · exact ⟨coinBase, rest, rfl, htaken⟩
    · exact ⟨_, rest, List.modifyHead_cons .., htaken⟩

/-- A template is made where the scan and the selection come to an end. -/
theorem exists_createNewBlock {args : MinerArgs} {order : PriorityOrder} {fProofOfStake : Bool}
    {reservedKey : CScript} {strayTime : ℕ} {pindexPrev : Uint256} {sc : Scanned}
    (hbest : s.pindexBest = some pindexPrev) (hscan : scanTxs s ans ⟨0, ∅, ∅, []⟩ (poolTxs s) = .ok sc)
    (hsel : selection s ans args order fProofOfStake reservedKey strayTime pindexPrev sc
      sc.mapDependers = .ok sel) :
    ∃ t, createNewBlock s ans args order fProofOfStake reservedKey strayTime = .ok t ∧
      t.block.vtx = setReward fProofOfStake (toUInt32 (s.nHeight pindexPrev + 1)) sel.vtx ∧
      t.block.nBits = getNextTargetRequired s pindexPrev fProofOfStake ∧
      t.block.hashPrevBlock = pindexPrev ∧ t.pFees = toInt32 sel.nFees := by
  unfold createNewBlock
  rw [hbest]
  dsimp only
  unfold poolTxs at hscan
  unfold selection at hsel
  rw [hscan, except_ok_bind, hsel, except_ok_bind]
  exact ⟨_, rfl, rfl, rfl, rfl, rfl⟩

end Only

/-! ## What the search finds -/

omit [P : Platform] in
/-- What is not skipped has passed. -/
theorem orSkip_eq_some {α : Type} {r : Except Failure α} {a : α} :
    orSkip r = .ok (some a) ↔ r = .ok a := by
  unfold orSkip
  rcases r with f | b
  · by_cases hf : f.returnsFalse = true <;> simp [hf]
  · simp

section Search

variable {check : ℕ → Except Failure Uint256} {fShutdown : ℕ → Bool} {turns n : ℕ}

/-- The second `k` meets the target, and the search is still running when
it gets there. -/
def Hits (check : ℕ → Except Failure Uint256) (fShutdown : ℕ → Bool) (k : ℕ) : Prop :=
  (∃ h, check k = .ok h) ∧ ∀ m ≤ k, fShutdown m = false

omit [P : Platform] in
/-- **The search back ends at the first hit**, counted from where it
starts. -/
theorem searchBack_spec : ∀ {turns n : ℕ} {found : Option ℕ},
    (∀ m < n, fShutdown m = false) → searchBack check fShutdown turns n = .ok found →
      (∀ k, found = some k → k < n + turns ∧ Hits check fShutdown k ∧
        ∀ m, n ≤ m → m < k → ¬ Hits check fShutdown m) ∧
      (found = none → ∀ k, n ≤ k → k < n + turns → ¬ Hits check fShutdown k)
  | 0, n, found, _, h => by
    obtain rfl := Except.ok.inj h
    exact ⟨by simp, fun _ k hle hlt => absurd hlt (by omega)⟩
  | turns + 1, n, found, hrun, h => by
    unfold searchBack at h
    split_ifs at h with hstop
    · obtain rfl := Except.ok.inj h
      refine ⟨by simp, fun _ k hle _ hit => ?_⟩
      exact absurd (hit.2 n hle) (by simp [hstop])
    · have hrun' : ∀ m < n + 1, fShutdown m = false := by
        intro m hm
        rcases Nat.lt_succ_iff_lt_or_eq.1 hm with hm | rfl
        · exact hrun m hm
        · exact Bool.not_eq_true _ ▸ hstop
      obtain ⟨r, hr, h⟩ := except_bind_eq_ok.1 h
      cases r with
      | some hash =>
        obtain rfl := Except.ok.inj h
        have hcheck := orSkip_eq_some.1 hr
        refine ⟨fun k hk => ?_, by simp⟩
        obtain rfl := Option.some.inj hk
        refine ⟨by omega, ⟨⟨hash, hcheck⟩, fun m hm => hrun' m (by omega)⟩, ?_⟩
        exact fun m hle hlt => absurd hlt (by omega)
      | none =>
        have hcheck : ¬ Hits check fShutdown n := by
          rintro ⟨⟨hash, hok⟩, -⟩
          rw [hok] at hr
          exact absurd (Except.ok.inj hr) (by simp)
        obtain ⟨hsome, hnone⟩ := searchBack_spec hrun' h
        have hsplit : ∀ m, n ≤ m → m = n ∨ n + 1 ≤ m := fun m hm => by omega
        refine ⟨fun k hk => ?_, fun hn k hle hlt => ?_⟩
        · obtain ⟨hlt, hit, hfirst⟩ := hsome k hk
          refine ⟨by omega, hit, fun m hle hm => ?_⟩
          rcases hsplit m hle with rfl | hle
          · exact hcheck
          · exact hfirst m hle hm
        · rcases hsplit k hle with rfl | hle
          · exact hcheck
          · exact hnone hn k hle (by omega)

end Search

section Kernel

variable (s : NodeState) (ans : Answer) (env : StakeEnv) (keystore : CKeyStore) (nBits : ℕ)
variable (nSearchInterval : ℤ) (nTime : ℕ)

/-- A coin has a kernel `n` seconds back from `nTime`: the coin is old
enough, its script is one the wallet has the key of, and the second is the
latest that meets the target, in the interval and before a shutdown. -/
structure KernelAt (pcoin : Coin) (n : ℕ) : Prop where
  hits : ∃ txindex block, stakeCandidate s ans nTime pcoin = some (txindex, block) ∧
    Hits (checkKernelBack s nBits nTime pcoin txindex block) (env.fShutdown pcoin.prevout) n ∧
    ∀ m < n, ¬ Hits (checkKernelBack s nBits nTime pcoin txindex block)
      (env.fShutdown pcoin.prevout) m
  inInterval : n < (min nSearchInterval nMaxStakeSearchInterval).toNat
  key : (kernelKey keystore pcoin.txout.scriptPubKey).isSome

/-- The first of the coins to have one has it `n` seconds back. -/
inductive FirstKernel (n : ℕ) : List Coin → Prop
  | here {pcoin : Coin} {rest : List Coin} :
      KernelAt s ans env keystore nBits nSearchInterval nTime pcoin n →
      FirstKernel n (pcoin :: rest)
  | later {pcoin : Coin} {rest : List Coin} :
      (∀ m, ¬ KernelAt s ans env keystore nBits nSearchInterval nTime pcoin m) →
      FirstKernel n rest → FirstKernel n (pcoin :: rest)

/-- The wallet's first kernel, among the coins it selects, is at the time
`t`. -/
def IsKernelTime (t : ℕ) : Prop :=
  ∃ nLimit setCoins n, coinsToStake env nTime = .ok (nLimit, setCoins) ∧
    FirstKernel s ans env keystore nBits nSearchInterval nTime n setCoins ∧ t = toUInt32 (nTime - n)

variable {s ans env keystore nBits nSearchInterval nTime} {setCoins : List Coin}

/-- A coin has one kernel at most. -/
theorem KernelAt.unique {pcoin : Coin} {n m : ℕ}
    (hn : KernelAt s ans env keystore nBits nSearchInterval nTime pcoin n)
    (hm : KernelAt s ans env keystore nBits nSearchInterval nTime pcoin m) : n = m := by
  obtain ⟨txindex, block, hc, hhit, hfirst⟩ := hn.hits
  obtain ⟨txindex', block', hc', hhit', hfirst'⟩ := hm.hits
  obtain ⟨rfl, rfl⟩ := Prod.mk.inj (Option.some.inj (hc.symm.trans hc'))
  by_contra hne
  rcases Nat.lt_or_gt_of_ne hne with hlt | hlt
  · exact hfirst' n hlt hhit
  · exact hfirst m hlt hhit'

/-- And so have the coins. -/
theorem FirstKernel.unique {n m : ℕ} {coins : List Coin}
    (hn : FirstKernel s ans env keystore nBits nSearchInterval nTime n coins)
    (hm : FirstKernel s ans env keystore nBits nSearchInterval nTime m coins) : n = m := by
  induction hn with
  | here hk =>
    cases hm with
    | here hk' => exact hk.unique hk'
    | later hno _ => exact absurd hk (hno _)
  | later hno _ ih =>
    cases hm with
    | here hk' => exact absurd hk' (hno _)
    | later _ hm => exact ih hm

/-- There is one kernel time. -/
theorem IsKernelTime.unique {t t' : ℕ}
    (h : IsKernelTime s ans env keystore nBits nSearchInterval nTime t)
    (h' : IsKernelTime s ans env keystore nBits nSearchInterval nTime t') : t = t' := by
  obtain ⟨nLimit, setCoins, n, hcoins, hn, rfl⟩ := h
  obtain ⟨nLimit', setCoins', m, hcoins', hm, rfl⟩ := h'
  obtain ⟨-, rfl⟩ := Prod.mk.inj (Except.ok.inj (hcoins.symm.trans hcoins'))
  rw [hn.unique hm]

/-- **What the loop over the coins finds** is the first kernel there is. -/
theorem firstKernel_of_findKernel {kernel : StakeKernel} : ∀ {setCoins : List Coin},
    findKernel s ans env keystore nBits nSearchInterval nTime setCoins = .ok (some kernel) →
      ∃ n, FirstKernel s ans env keystore nBits nSearchInterval nTime n setCoins ∧
        kernel.nTime = toUInt32 (nTime - n)
  | [], h => absurd (Except.ok.inj h) (by simp)
  | pcoin :: rest, h => by
    unfold findKernel at h
    split at h
    · -- not a candidate
      rename_i hnone
      obtain ⟨n, hfirst, ht⟩ := firstKernel_of_findKernel h
      refine ⟨n, .later (fun m hm => ?_) hfirst, ht⟩
      obtain ⟨txindex, block, hc, -⟩ := hm.hits
      exact absurd (hc.symm.trans hnone) (by simp)
    · rename_i txindex block hcandidate
      obtain ⟨found, hsearch, h⟩ := except_bind_eq_ok.1 h
      obtain ⟨hsome, hnone⟩ := searchBack_spec (fun m hm => absurd hm (Nat.not_lt_zero m)) hsearch
      simp only [Nat.zero_add, Nat.zero_le, true_implies] at hsome hnone
      -- a coin without a kernel is passed over
      have hpass : (∀ m, ¬ KernelAt s ans env keystore nBits nSearchInterval nTime pcoin m) →
          (if env.fShutdown pcoin.prevout nMaxStakeSearchInterval.toNat = true then .ok none
            else findKernel s ans env keystore nBits nSearchInterval nTime rest) =
              .ok (some kernel) →
            ∃ n, FirstKernel s ans env keystore nBits nSearchInterval nTime n (pcoin :: rest) ∧
              kernel.nTime = toUInt32 (nTime - n) := by
        intro hno h
        split_ifs at h
        · exact absurd (Except.ok.inj h) (by simp)
        · obtain ⟨n, hfirst, ht⟩ := firstKernel_of_findKernel h
          exact ⟨n, .later hno hfirst, ht⟩
      split at h
      · rename_i n scriptPubKeyOut key hkey
        obtain ⟨hlt, hhit, hfirst⟩ := hsome n rfl
        obtain rfl := Option.some.inj (Except.ok.inj h)
        refine ⟨n, .here ⟨⟨txindex, block, hcandidate, hhit, hfirst⟩, hlt, ?_⟩, rfl⟩
        rw [hkey]
        rfl
      · rename_i hneither
        refine hpass (fun m hm => ?_) h
        obtain ⟨txindex', block', hc, hhit, -⟩ := hm.hits
        obtain ⟨rfl, rfl⟩ := Prod.mk.inj (Option.some.inj (hcandidate.symm.trans hc))
        obtain ⟨⟨scriptPubKeyOut, key⟩, hkey⟩ := Option.isSome_iff_exists.1 hm.key
        refine hnone (Option.eq_none_iff_forall_not_mem.2 fun n hn => ?_) m hm.inInterval hhit
        exact hneither n scriptPubKeyOut key hn hkey

end Kernel

/-! ## The coinstake keeps its time -/

section CoinStake

variable {s : NodeState} {ans : Answer} {env : StakeEnv} {keystore : CKeyStore}

theorem nTime_addInputs {fHardStake : Bool} {nLimit : ℤ} {scriptPubKeyKernel : CScript} :
    ∀ {coins : List Coin} {d : StakeDraft},
      (addInputs fHardStake nLimit scriptPubKeyKernel coins d).txNew.nTime = d.txNew.nTime
  | [], _ => rfl
  | pcoin :: rest, d => by
    unfold addInputs
    dsimp only
    split_ifs
    all_goals first | rfl | exact nTime_addInputs

omit [P : Platform] in
theorem nTime_setStakeAmounts {nBestHeight nCredit nMinFee : ℤ} {round : ℕ} {tx : CTransaction} :
    (setStakeAmounts env nBestHeight nCredit nMinFee round tx).nTime = tx.nTime := by
  unfold setStakeAmounts
  split <;> rfl

theorem nTime_signInputs : ∀ {l : List CWalletTx} {nIn : ℕ} {tx tx' : CTransaction},
    signInputs keystore nIn l tx = .ok tx' → tx'.nTime = tx.nTime
  | [], _, tx, tx', h => by rw [Except.ok.inj h]
  | pcoin :: rest, nIn, tx, tx', h => by
    unfold signInputs at h
    split at h
    · exact absurd h (by simp)
    · exact (nTime_signInputs h).trans rfl

theorem nTime_payFee {nBestHeight : ℤ} {d : StakeDraft} :
    ∀ {fuel round : ℕ} {nMinFee : ℤ} {tx tx' : CTransaction},
      payFee env keystore nBestHeight d fuel round nMinFee tx = .ok tx' → tx'.nTime = tx.nTime
  | 0, _, _, _, _, h => absurd h (by simp [payFee])
  | fuel + 1, round, nMinFee, tx, tx', h => by
    unfold payFee at h
    obtain ⟨tx₁, hsign, h⟩ := except_bind_eq_ok.1 h
    obtain ⟨-, h⟩ := except_unit_bind_eq_ok.1 h
    have ht : tx₁.nTime = tx.nTime := (nTime_signInputs hsign).trans nTime_setStakeAmounts
    split_ifs at h
    · rw [nTime_payFee h, ht]
    · rw [← Except.ok.inj h, ht]

/-- **A coinstake has the time of the wallet's first kernel.** -/
theorem isKernelTime_of_createCoinStake {nBits nTime : ℕ} {nSearchInterval nFees : ℤ}
    {txCoinStake : CTransaction} {key : List UInt8}
    (h : createCoinStake s ans env keystore nBits nSearchInterval nTime nFees =
      .ok (txCoinStake, key)) :
    IsKernelTime s ans env keystore nBits nSearchInterval nTime txCoinStake.nTime := by
  unfold createCoinStake at h
  obtain ⟨⟨nLimit, setCoins⟩, hcoins, h⟩ := except_bind_eq_ok.1 h
  obtain ⟨found, hfind, h⟩ := except_bind_eq_ok.1 h
  rcases found with _ | kernel
  · exact absurd h (by simp)
  obtain ⟨-, h⟩ := except_unit_bind_eq_ok.1 h
  split at h
  · exact absurd h (by simp)
  obtain ⟨-, h⟩ := except_unit_bind_eq_ok.1 h
  obtain ⟨tx, hpay, h⟩ := except_bind_eq_ok.1 h
  obtain ⟨rfl, rfl⟩ := Prod.mk.inj (Except.ok.inj h)
  obtain ⟨n, hfirst, ht⟩ := firstKernel_of_findKernel hfind
  have htime : tx.nTime = kernel.nTime := by
    rw [nTime_payFee hpay]
    split <;> exact nTime_addInputs
  exact ⟨nLimit, setCoins, n, hcoins, hfirst, htime.trans ht⟩

omit [P : Platform] in
theorem toUInt32_lt {n : ℤ} : toUInt32 n < 4294967296 := by
  unfold toUInt32
  omega

theorem IsKernelTime.lt {nBits nTime t : ℕ} {nSearchInterval : ℤ}
    (h : IsKernelTime s ans env keystore nBits nSearchInterval nTime t) : t < 4294967296 := by
  obtain ⟨-, -, n, -, -, rfl⟩ := h
  exact toUInt32_lt

end CoinStake

/-! ## The block takes its time -/

section Block

variable {s : NodeState} {pindexBest : Uint256} {block : CBlock} {coinBase cs : CTransaction}
variable {rest : List CTransaction}

omit [P : Platform] in
/-- **The latest time among some transactions**, if any is after `t`. -/
theorem foldl_max_nTime {l : List CTransaction} {t m : ℤ} :
    l.foldl (fun t tx => max t (tx.nTime : ℤ)) t ≤ m ↔ t ≤ m ∧ ∀ tx ∈ l, (tx.nTime : ℤ) ≤ m := by
  induction l generalizing t with
  | nil => simp
  | cons tx l ih =>
    rw [List.foldl_cons, ih, max_le_iff, List.forall_mem_cons, and_assoc]

omit [P : Platform] in
theorem getMaxTransactionTime_le {m : ℤ} :
    block.getMaxTransactionTime ≤ m ↔ 0 ≤ m ∧ ∀ tx ∈ block.vtx, (tx.nTime : ℤ) ≤ m :=
  foldl_max_nTime

/-- **The block `SignBlock` makes**: no transaction is left out, and its
time is the latest of theirs. -/
theorem putCoinStake_spec (hvtx : block.vtx = coinBase :: rest) (hcs : cs.nTime < 4294967296)
    (hrest : ∀ tx ∈ rest, tx.nTime < 4294967296)
    (hmedian : getMedianTimePast s pindexBest + 1 ≤ cs.nTime)
    (hdrift : (s.entry pindexBest).getBlockTime - nMaxClockDrift ≤ cs.nTime) :
    ∃ signed : CBlock, putCoinStake s pindexBest block cs = signed ∧
      signed.vtx = { coinBase with nTime := cs.nTime } :: cs :: rest ∧
      signed.hashPrevBlock = block.hashPrevBlock ∧
      signed.hashMerkleRoot = signed.buildMerkleTree ∧
      cs.nTime ≤ signed.nTime ∧ (∀ tx ∈ rest, tx.nTime ≤ signed.nTime) ∧
      (signed.nTime = cs.nTime ↔ ∀ tx ∈ rest, tx.nTime ≤ cs.nTime) := by
  set timed : CBlock := { block with
    nTime := cs.nTime
    vtx := block.vtx.modifyHead fun tx => { tx with nTime := cs.nTime } } with htimed
  have htvtx : timed.vtx = { coinBase with nTime := cs.nTime } :: rest := by
    rw [htimed]
    dsimp only
    rw [hvtx, List.modifyHead_cons]
  -- the latest time, as a bound on the template's
  set t := timed.getMaxTransactionTime with ht
  have hle : ∀ m : ℤ, t ≤ m ↔ 0 ≤ m ∧ (cs.nTime : ℤ) ≤ m ∧ ∀ tx ∈ rest, (tx.nTime : ℤ) ≤ m := by
    intro m
    rw [ht, getMaxTransactionTime_le, htvtx, List.forall_mem_cons]
  obtain ⟨ht0, htcs, htrest⟩ := (hle t).1 le_rfl
  have htlt : t < 4294967296 := by
    refine lt_of_le_of_lt ((hle 4294967295).2 ⟨by norm_num, by omega, fun tx hmem => ?_⟩) (by norm_num)
    have := hrest tx hmem
    omega
  -- neither the median nor the parent moves it any further
  have hmax : max (getMedianTimePast s pindexBest + 1) t = t := max_eq_right (by omega)
  have hmoved : (toUInt32 (max (getMedianTimePast s pindexBest + 1) t) : ℤ) = t := by
    rw [hmax, toUInt32_of_lt ht0 htlt]
  have hkept : (toUInt32 (max (toUInt32 (max (getMedianTimePast s pindexBest + 1) t) : ℤ)
      ((s.entry pindexBest).getBlockTime - nMaxClockDrift)) : ℤ) = t := by
    rw [hmoved, max_eq_left (by omega), toUInt32_of_lt ht0 htlt]
  set nTime := toUInt32 (max (toUInt32 (max (getMedianTimePast s pindexBest + 1) t) : ℤ)
      ((s.entry pindexBest).getBlockTime - nMaxClockDrift)) with hnTime
  -- so nothing is too late for it
  have hfilter : timed.vtx.filter (fun tx : CTransaction => !(nTime < tx.nTime)) =
      { coinBase with nTime := cs.nTime } :: rest := by
    rw [htvtx, List.filter_eq_self]
    intro tx hmem
    have hin : (tx.nTime : ℤ) ≤ nTime := by
      rw [hkept]
      rcases List.mem_cons.1 hmem with rfl | hmem
      · exact htcs
      · exact htrest tx hmem
    simpa using hin
  refine ⟨_, rfl, ?_, rfl, rfl, ?_, fun tx hmem => ?_, ?_⟩
  · show (timed.vtx.filter (fun tx : CTransaction => !(nTime < tx.nTime))).insertIdx 1 cs = _
    rw [hfilter]
    rfl
  · show cs.nTime ≤ nTime
    omega
  · show tx.nTime ≤ nTime
    have := htrest tx hmem
    omega
  · show nTime = cs.nTime ↔ _
    have hthe : t ≤ cs.nTime ↔ ∀ tx ∈ rest, (tx.nTime : ℤ) ≤ cs.nTime := by
      rw [hle]
      exact ⟨fun h => h.2.2, fun h => ⟨by omega, le_rfl, h⟩⟩
    rw [← Int.natCast_inj, hkept]
    constructor
    · intro heq tx hmem
      exact_mod_cast hthe.1 heq.le tx hmem
    · intro hall
      exact le_antisymm (hthe.2 fun tx hmem => by exact_mod_cast hall tx hmem) htcs

end Block

/-! ## A signed template -/

/-- The rules of `CheckBlock` and `AcceptBlock` about a stake block's times
and its merkle root. -/
structure MeetsTimestampRules (s : NodeState) (block : CBlock) : Prop where
  /-- `CheckCoinStakeTimestamp` -/
  coinStake : ∃ tx, block.vtx[1]? = some tx ∧
    checkCoinStakeTimestamp block.getBlockTime tx.nTime = true
  noneLater : ∀ tx ∈ block.vtx, (tx.nTime : ℤ) ≤ block.getBlockTime
  pastMedian : getMedianTimePast s block.hashPrevBlock < block.getBlockTime
  merkleRoot : block.hashMerkleRoot = block.buildMerkleTree

/-- Nothing of a template, and not the median before it, is later than the
kernel a search starting at `nSearchTime` comes to first. -/
def FitsKernel (s : NodeState) (ans : Answer) (env : StakeEnv) (keystore : CKeyStore)
    (nLastCoinStakeSearchTime : ℤ) (template : CBlock) : Prop :=
  let nSearchTime := toUInt32 ans.nAdjustedTime
  ∀ t, IsKernelTime s ans env keystore template.nBits (nSearchTime - nLastCoinStakeSearchTime)
      nSearchTime t →
    (∀ tx ∈ template.vtx.tail, tx.nTime ≤ t) ∧ getMedianTimePast s template.hashPrevBlock < t

section Signed

variable {s s' : NodeState} {ans ans' : Answer} {env : StakeEnv} {wallet : CWallet}
variable {nLast nLast' nFees : ℤ} {block signed : CBlock}

/-- **What `SignBlock` signs** it has found a coinstake for, no earlier than
the chain allows. -/
theorem of_signBlock (hstake : block.isProofOfStake = false)
    (h : signBlock s ans env wallet nLast block nFees = .ok (some signed, nLast')) :
    ∃ pindexBest txCoinStake key vchBlockSig, s.pindexBest = some pindexBest ∧
      createCoinStake s ans env wallet.keystore block.nBits
        (toUInt32 ans.nAdjustedTime - nLast) (toUInt32 ans.nAdjustedTime) nFees =
          .ok (txCoinStake, key) ∧
      getMedianTimePast s pindexBest + 1 ≤ txCoinStake.nTime ∧
      (s.entry pindexBest).getBlockTime - nMaxClockDrift ≤ txCoinStake.nTime ∧
      signed = { putCoinStake s pindexBest block txCoinStake with vchBlockSig := vchBlockSig } := by
  unfold signBlock at h
  dsimp only at h
  rw [hstake] at h
  simp only [Bool.false_eq_true, if_false] at h
  split_ifs at h
  · exact absurd (Except.ok.inj h) (by simp)
  · obtain ⟨r, hr, h⟩ := except_bind_eq_ok.1 h
    split at h
    · exact absurd (Except.ok.inj h) (by simp)
    · exact absurd h (by simp)
    · rename_i txCoinStake key pindexBest hbest
      split_ifs at h with hgate
      · split at h
        · exact absurd (Except.ok.inj h) (by simp)
        · rename_i vchBlockSig _
          obtain ⟨hsigned, -⟩ := Prod.mk.inj (Except.ok.inj h)
          obtain rfl := Option.some.inj hsigned
          obtain ⟨hmedian, hdrift⟩ := max_le_iff.1 hgate
          exact ⟨pindexBest, txCoinStake, key, vchBlockSig, hbest, orSkip_eq_some.1 hr, hmedian,
            hdrift, rfl⟩
      · exact absurd (Except.ok.inj h) (by simp)
  · exact absurd (Except.ok.inj h) (by simp)

/-- And a block is signed where all of that is found. -/
theorem exists_signBlock {pindexBest : Uint256} {cs : CTransaction} {key vchBlockSig : List UInt8}
    (hempty : ((block.vtx.head?.bind (·.vout.head?)).getD CTxOut.empty).isEmpty = true)
    (hstake : block.isProofOfStake = false) (hlast : nLast < toUInt32 ans.nAdjustedTime)
    (hbest : s.pindexBest = some pindexBest)
    (hcreate : createCoinStake s ans env wallet.keystore block.nBits
      (toUInt32 ans.nAdjustedTime - nLast) (toUInt32 ans.nAdjustedTime) nFees = .ok (cs, key))
    (hgate : max (getMedianTimePast s pindexBest + 1)
      ((s.entry pindexBest).getBlockTime - nMaxClockDrift) ≤ cs.nTime)
    (hsig : P.sign key (putCoinStake s pindexBest block cs).getHash = some vchBlockSig) :
    signBlock s ans env wallet nLast block nFees =
      .ok (some { putCoinStake s pindexBest block cs with vchBlockSig := vchBlockSig }, nLast) := by
  unfold signBlock
  dsimp only
  rw [hempty, hstake, hcreate, hbest, if_neg (by simp), if_neg (by simp), if_pos hlast,
    show orSkip (.ok (cs, key) : Except Failure _) = .ok (some (cs, key)) from rfl, except_ok_bind]
  dsimp only
  rw [if_pos hgate, hsig]

/-- **A signed block meets the rules about its times exactly where the
template had nothing later than the kernel**: then the latest of all the
times is the coinstake's. -/
theorem meetsTimestampRules_iff {args : MinerArgs} {order : PriorityOrder} {fProofOfStake : Bool}
    {reservedKey : CScript} {strayTime : ℕ} {t : BlockTemplate}
    (hpool : ∀ tx ∈ poolTxs s, tx.nTime < 4294967296)
    (htemplate : createNewBlock s ans args order fProofOfStake reservedKey strayTime = .ok t)
    (hsign : signBlock s' ans' env wallet nLast t.block nFees = .ok (some signed, nLast')) :
    MeetsTimestampRules s' signed ↔ FitsKernel s' ans' env wallet.keystore nLast t.block := by
  obtain ⟨coinBase, rest, hvtx, hrest⟩ := vtx_of_createNewBlock htemplate
  have hstake : t.block.isProofOfStake = false := by
    rw [CBlock.isProofOfStake, hvtx]
    rcases rest with _ | ⟨tx, rest⟩
    · rfl
    · have hscanned := (hrest tx List.mem_cons_self).2
      simp only [isScanned, Bool.not_eq_true', Bool.or_eq_false_iff] at hscanned
      exact hscanned.1.2
  obtain ⟨pindexBest, cs, key, sig, -, hcreate, hmedian, hdrift, rfl⟩ := of_signBlock hstake hsign
  have htime := isKernelTime_of_createCoinStake hcreate
  obtain ⟨block, hblock, hbvtx, hprev, hmerkle, hcs, hlate, heq⟩ :=
    putCoinStake_spec hvtx htime.lt (fun tx hmem => hpool tx (hrest tx hmem).1) hmedian hdrift
  rw [hblock]
  have hfits : FitsKernel s' ans' env wallet.keystore nLast t.block ↔
      (∀ tx ∈ rest, tx.nTime ≤ cs.nTime) ∧
        getMedianTimePast s' t.block.hashPrevBlock < cs.nTime := by
    rw [FitsKernel, hvtx, List.tail_cons]
    exact ⟨fun h => h _ htime, fun h t' ht' => ht'.unique htime ▸ h⟩
  rw [hfits, ← heq, ← hprev]
  constructor
  · rintro ⟨⟨tx, htx, hsame⟩, -, hpast, -⟩
    dsimp only at htx hsame hpast
    rw [hbvtx, List.getElem?_cons_succ, List.getElem?_cons_zero] at htx
    obtain rfl := Option.some.inj htx
    have hnTime : block.nTime = cs.nTime := by
      simpa [checkCoinStakeTimestamp, CBlock.getBlockTime] using hsame
    refine ⟨hnTime, ?_⟩
    rw [← hnTime]
    exact hpast
  · rintro ⟨hnTime, hpast⟩
    refine ⟨⟨cs, ?_, ?_⟩, ?_, ?_, hmerkle⟩
    · dsimp only
      rw [hbvtx]
      rfl
    · simpa [checkCoinStakeTimestamp, CBlock.getBlockTime] using hnTime
    · dsimp only
      rw [hbvtx]
      intro tx hmem
      have hle : tx.nTime ≤ block.nTime := by
        rcases List.mem_cons.1 hmem with rfl | hmem
        · exact hcs
        · rcases List.mem_cons.1 hmem with rfl | hmem
          · exact hcs
          · exact hlate tx hmem
      exact Int.ofNat_le.2 hle
    · show getMedianTimePast s' block.hashPrevBlock < (block.nTime : ℤ)
      rw [hnTime]
      exact hpast

end Signed

/-! ## A payment after the kernel

A pool with one payment, made at the second the search starts from; the
wallet's one coin meets the target a second before. -/

namespace LatePayment

/-- As `Platform.toy`, but a kernel meets the target at even seconds
only. -/
@[reducible] def platform : Platform :=
  { Platform.toy with
    hash := fun bytes =>
      if bytes.length = 28 then
        if ofLeBytes (bytes.drop 24) % 2 = 0 then 0 else -1
      else BitVec.ofNat 256 (ofLeBytes ((bytes.drop 4).take 4)) }

/-- A coinbase of two outputs, in a block of its own. -/
def funding : CTransaction where
  nVersion := 1
  nTime := 100
  vin := [{ prevout := COutPoint.null, scriptSig := [0, 0], nSequence := uintMax }]
  vout := [⟨10 * coin, [1]⟩, ⟨10 * coin, [1]⟩]
  nLockTime := 0

/-- What spends the first. -/
def payment : CTransaction where
  nVersion := 1
  nTime := 3000001
  vin := [{ prevout := ⟨100, 0⟩, scriptSig := [], nSequence := uintMax }]
  vout := [⟨9 * coin, [1]⟩]
  nLockTime := 0

def fundingBlock : CBlock where
  nVersion := 1
  hashPrevBlock := 0
  hashMerkleRoot := 0
  nTime := 100
  nBits := 0x1e0fffff
  nNonce := 1
  vtx := [funding]
  vchBlockSig := []

/-- The block of the coins, the tip a month later, and the payment in the
pool. -/
def node : NodeState :=
  { NodeState.blank fun _ => ⟨3000001, true, fun _ _ => true⟩ with
    mapBlockIndex :=
      (({} : Map Uint256 CBlockIndex).insert 1
        { CBlockIndex.null with nTime := 100, pnext := some 2 }).insert 2
        { CBlockIndex.null with
          pprev := some 1
          nHeight := 1584000
          nTime := 2990000
          fGeneratedStakeModifier := true
          nMoneySupply := 1000000 * coin }
    pindexBest := some 2
    nBestHeight := 1584000
    txdb :=
      { committed := Std.ExtTreeMap.insert ∅ (.tx 100)
          (.txIndex (CTxIndex.fresh ⟨1, 0, fundingBlock.firstTxOffset⟩ 2))
        activeBatch := none }
    mempool := { mapTx := ({} : Map Uint256 CTransaction).insert 3000001 payment, mapNextTx := ∅ }
    blockFiles := [⟨1, 0, fundingBlock⟩] }

/-- The clock at both calls. -/
def ans : Answer := ⟨3000001, true, fun _ _ => true⟩

/-- The wallet stakes the second output. -/
def env : StakeEnv where
  nBalance := 20 * coin
  reservebalance := none
  fHardStake := false
  selectCoins _ _ _ := some [⟨⟨funding, 1, [], 0, false, []⟩, 1⟩]
  fShutdown _ _ := false
  fStakeUsePooledKeys := false
  reservedKey _ := []

def wallet : CWallet := ⟨∅, ⟨[[1]], [[1]]⟩⟩

/-- The template for a pool as this. -/
def template : Except Failure BlockTemplate :=
  createNewBlock (P := platform) node ans ⟨none, none, none, minTxFee⟩ OnePayment.order true [] 3000001

/-- The template signed. -/
def sign (t : BlockTemplate) : Except Failure (Option CBlock × ℤ) :=
  signBlock (P := platform) node ans env wallet 0 t.block t.pFees

omit [P : Platform] in
theorem getMedianTimePast_node : getMedianTimePast node 2 = 2990000 := by
  have htimes : lastTimes node 11 (some 2) = [2990000, 100] := by decide
  unfold getMedianTimePast
  rw [htimes]
  simp [List.mergeSort, List.MergeSort.Internal.splitInTwo]

omit [P : Platform] in
/-- The payment is in the template. -/
theorem exists_template : ∃ t, template = .ok t ∧
    t.block.vtx = [templateCoinBase ans true [], payment] ∧ t.block.nBits = 490733567 ∧
    t.pFees = coin := by
  let := platform
  have hrun : ((scanTxs node ans ⟨0, ∅, ∅, []⟩ (poolTxs node)).toOption.bind fun sc =>
      (selection node ans ⟨none, none, none, minTxFee⟩ OnePayment.order true [] 3000001 2 sc
        sc.mapDependers).toOption.map fun sel => (sel.vtx, sel.nFees)) =
      some ([templateCoinBase ans true [], payment], coin) := by
    decide
  obtain ⟨sc, hscan, hrun⟩ := Option.bind_eq_some_iff.1 hrun
  obtain ⟨sel, hsel, hsel'⟩ := Option.map_eq_some_iff.1 hrun
  obtain ⟨hvtx, hfees⟩ := Prod.mk.inj hsel'
  have hbest : node.pindexBest = some 2 := rfl
  obtain ⟨t, ht, htvtx, htbits, -, htfees⟩ := exists_createNewBlock hbest
    (toOption_eq_some.1 hscan) (toOption_eq_some.1 hsel)
  refine ⟨t, ht, by rw [htvtx, hvtx]; rfl, ?_, by rw [htfees, hfees]; rfl⟩
  rw [htbits]
  decide

omit [P : Platform] in
/-- **It is signed**, with a coinstake a second before the payment. -/
theorem exists_signed : ∃ t signed last tx, template = .ok t ∧ sign t = .ok (some signed, last) ∧
    signed.vtx[1]? = some tx ∧ tx.nTime = 3000000 ∧ 3000001 ≤ signed.nTime := by
  let := platform
  obtain ⟨t, ht, hvtx, hbits, hfees⟩ := exists_template
  have hrun : ((createCoinStake node ans env wallet.keystore 490733567 (3000001 - 0) 3000001
      coin).toOption.map (·.1.nTime)) = some 3000000 := by
    decide
  obtain ⟨⟨cs, key⟩, hcreate, htime⟩ := Option.map_eq_some_iff.1 hrun
  have htime : cs.nTime = 3000000 := htime
  have hmedian : getMedianTimePast node 2 + 1 ≤ cs.nTime := by
    rw [getMedianTimePast_node, htime]
    norm_num
  have hdrift : (node.entry 2).getBlockTime - nMaxClockDrift ≤ cs.nTime := by
    rw [htime]
    decide
  have hlate : ∀ tx ∈ [payment], tx.nTime < 4294967296 := by decide
  obtain ⟨signed, hsigned, hsvtx, -, -, -, hrest, -⟩ :=
    putCoinStake_spec hvtx (by rw [htime]; norm_num) hlate hmedian hdrift
  have hcreate : createCoinStake node ans env wallet.keystore t.block.nBits
      (toUInt32 ans.nAdjustedTime - 0) (toUInt32 ans.nAdjustedTime) t.pFees = .ok (cs, key) := by
    rw [hbits, hfees]
    exact toOption_eq_some.1 hcreate
  have hsig : platform.sign key (putCoinStake node 2 t.block cs).getHash = some [0] := rfl
  refine ⟨t, _, 0, cs, ht, exists_signBlock ?_ ?_ (by decide) rfl hcreate (max_le hmedian hdrift)
    hsig, ?_, htime, ?_⟩
  · rw [hvtx]
    rfl
  · rw [CBlock.isProofOfStake, hvtx]
    rfl
  · rw [hsigned]
    dsimp only
    rw [hsvtx]
    rfl
  · rw [hsigned]
    exact hrest payment (List.mem_singleton_self _)

end LatePayment

omit [P : Platform] in
/-- The rule, for that block. -/
theorem meetsTimestampRules_latePayment : ∃ t signed last, LatePayment.template = .ok t ∧
    LatePayment.sign t = .ok (some signed, last) ∧
    (MeetsTimestampRules (P := LatePayment.platform) LatePayment.node signed ↔
      FitsKernel (P := LatePayment.platform) LatePayment.node LatePayment.ans LatePayment.env
        LatePayment.wallet.keystore 0 t.block) := by
  obtain ⟨t, signed, last, -, htemplate, hsign, -⟩ := LatePayment.exists_signed
  refine ⟨t, signed, last, htemplate, hsign, ?_⟩
  have hpool : ∀ tx ∈ poolTxs LatePayment.node, tx.nTime < 4294967296 := by decide
  exact meetsTimestampRules_iff (P := LatePayment.platform) hpool htemplate hsign

omit [P : Platform] in
/-- **A payment made after the kernel** takes the block's time with it. -/
theorem not_meetsTimestampRules :
    ¬ ∀ (_ : Platform) (s s' : NodeState) (ans ans' : Answer) (args : MinerArgs)
        (order : PriorityOrder) (fProofOfStake : Bool) (reservedKey : CScript) (strayTime : ℕ)
        (t : BlockTemplate) (env : StakeEnv) (wallet : CWallet) (nLast nFees nLast' : ℤ)
        (signed : CBlock),
      createNewBlock s ans args order fProofOfStake reservedKey strayTime = .ok t →
        signBlock s' ans' env wallet nLast t.block nFees = .ok (some signed, nLast') →
          MeetsTimestampRules s' signed := by
  intro h
  obtain ⟨t, signed, last, tx, htemplate, hsign, htx, hcs, hnTime⟩ := LatePayment.exists_signed
  obtain ⟨⟨tx', htx', hsame⟩, -⟩ := h LatePayment.platform _ _ _ _ _ _ _ _ _ _ _ _ _ _ _ _
    htemplate hsign
  obtain rfl := Option.some.inj (htx.symm.trans htx')
  have heq : signed.nTime = tx.nTime := by
    simpa [checkCoinStakeTimestamp, CBlock.getBlockTime] using hsame
  omega

end CryptoBullion
