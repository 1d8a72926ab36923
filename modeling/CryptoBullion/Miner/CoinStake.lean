import CryptoBullion.Miner.Combine
import CryptoBullion.Miner.Fees
import CryptoBullion.Miner.Timestamps
/-!
# What a coinstake pays

The fee loop of `CreateCoinStake` only ever changes amounts and
signatures: what the outputs are worth is what was credited less the fee
of that turn, whatever the turn. The fee grows from turn to turn and the
size bounds it, so there is a last turn. What is credited is the kernel's
coin and a reward that `ConnectBlock` computes from the same numbers, once
the age of the coin does not count.
-/

namespace CryptoBullion

variable [P : Platform]

variable {s : NodeState} {ans : Answer} {env : StakeEnv} {keystore : CKeyStore} {tx tx' : CTransaction}
variable {nBestHeight nCredit nMinFee : ℤ} {d : StakeDraft} {fuel round nIn : ℕ}

/-! ## The least fee -/

namespace CTransaction

omit [P : Platform] in
theorem minFee_eq (h : tx.getSerializeSize < maxBlockSizeGen / 5) :
    tx.minFee = (1 + (tx.getSerializeSize : ℤ) / 1000) * minTxFee := by
  have hsize : (tx.getSerializeSize : ℤ) < 100000 := by
    have : maxBlockSizeGen / 5 = 100000 := by decide
    omega
  have hpos : (0 : ℤ) ≤ tx.getSerializeSize / 1000 := by omega
  have hbase : minTxFee = 1000 := rfl
  have hmax : maxMoney = 2000000000000 := by decide
  have hrange : moneyRange ((1 + (tx.getSerializeSize : ℤ) / 1000) * minTxFee) = true := by
    rw [moneyRange_iff, hbase, hmax]
    omega
  unfold minFee getMinFee
  dsimp only
  rw [if_neg fun h => h.1 rfl]
  have hdust : ¬ (1 + (tx.getSerializeSize : ℤ) / 1000) * minTxFee < minTxFee := by
    rw [hbase]
    omega
  simp [hdust, hrange]

omit [P : Platform] in
/-- **A transaction that is not too large** pays a hundred times the base
fee at most. -/
theorem minFee_le (h : tx.getSerializeSize < maxBlockSizeGen / 5) : tx.minFee ≤ 100 * minTxFee := by
  have hsize : (tx.getSerializeSize : ℤ) < 100000 := by
    have : maxBlockSizeGen / 5 = 100000 := by decide
    omega
  rw [minFee_eq h]
  have hbase : minTxFee = 1000 := rfl
  rw [hbase]
  omega

end CTransaction

/-! ## What a turn leaves alone -/

/-- The outputs are worth what is credited less the fee. Of three, the last
two are halves, and not negative where as much is credited. -/
structure Pays (nCredit nMinFee : ℤ) (tx : CTransaction) : Prop where
  total : (tx.vout.map CTxOut.nValue).sum = nCredit - nMinFee
  split : tx.vout.length = 3 → nMinFee ≤ nCredit → ∀ o ∈ tx.vout, 0 ≤ o.nValue

/-- An empty output, and one or two of the stake. -/
def StakeShaped (tx : CTransaction) : Prop :=
  ∃ o, tx.vout = [CTxOut.empty, o] ∨ ∃ o', tx.vout = [CTxOut.empty, o, o']

omit [P : Platform] in
/-- **The amounts** add up, and the shape stays. -/
theorem setStakeAmounts_spec (h : StakeShaped tx) :
    Pays nCredit nMinFee (setStakeAmounts env nBestHeight nCredit nMinFee round tx) ∧
      StakeShaped (setStakeAmounts env nBestHeight nCredit nMinFee round tx) ∧
      (setStakeAmounts env nBestHeight nCredit nMinFee round tx).vout.length = tx.vout.length ∧
      (setStakeAmounts env nBestHeight nCredit nMinFee round tx).vin = tx.vin := by
  have hempty : CTxOut.empty.nValue = 0 := rfl
  obtain ⟨o, hout | ⟨o', hout⟩⟩ := h
  · have hset : setStakeAmounts env nBestHeight nCredit nMinFee round tx =
        { tx with vout := [CTxOut.empty, { o with nValue := nCredit - nMinFee }] } := by
      unfold setStakeAmounts
      rw [hout]
      rfl
    rw [hset]
    refine ⟨⟨?_, fun h3 => absurd h3 (by simp)⟩, ⟨_, .inl rfl⟩, by rw [hout]; rfl, rfl⟩
    simp [hempty]
  · -- half of it, or a half cut down to cents, and the rest
    obtain ⟨nValue, script, hset, hhalf⟩ : ∃ nValue script,
        setStakeAmounts env nBestHeight nCredit nMinFee round tx = { tx with vout :=
          [CTxOut.empty, { o with nValue := nValue }, ⟨nCredit - nMinFee - nValue, script⟩] } ∧
        (nMinFee ≤ nCredit → 0 ≤ nValue ∧ nValue ≤ nCredit - nMinFee) := by
      have hbound : nMinFee ≤ nCredit → 0 ≤ (nCredit - nMinFee).tdiv 2 ∧
          (nCredit - nMinFee).tdiv 2 ≤ nCredit - nMinFee := by
        intro hle
        rw [Int.tdiv_eq_ediv_of_nonneg (by omega)]
        omega
      have hcents : nMinFee ≤ nCredit → 0 ≤ ((nCredit - nMinFee).tdiv 2).tdiv cent * cent ∧
          ((nCredit - nMinFee).tdiv 2).tdiv cent * cent ≤ nCredit - nMinFee := by
        intro hle
        obtain ⟨h0, h1⟩ := hbound hle
        have hcent : cent = 10000 := rfl
        rw [Int.tdiv_eq_ediv_of_nonneg h0, hcent]
        omega
      unfold setStakeAmounts
      rw [hout, if_pos (show [CTxOut.empty, o, o'].length = 3 from rfl)]
      dsimp only
      split_ifs
      · exact ⟨_, _, rfl, hbound⟩
      · exact ⟨_, _, rfl, hcents⟩
      · exact ⟨_, _, rfl, hbound⟩
      · exact ⟨_, _, rfl, hcents⟩
    rw [hset]
    refine ⟨⟨?_, fun _ hle o'' ho => ?_⟩, ⟨_, .inr ⟨_, rfl⟩⟩, by rw [hout]; rfl, rfl⟩
    · simp [hempty]
    · obtain ⟨h0, h1⟩ := hhalf hle
      rcases List.mem_cons.1 ho with rfl | ho
      · exact le_rfl
      rcases List.mem_cons.1 ho with rfl | ho
      · exact h0
      · rw [List.mem_singleton.1 ho]
        show 0 ≤ nCredit - nMinFee - nValue
        omega

/-- Signing leaves the outputs and what is spent. -/
theorem signInputs_spec : ∀ {l : List CWalletTx} {nIn : ℕ} {tx tx' : CTransaction},
    signInputs keystore nIn l tx = .ok tx' →
      tx'.vout = tx.vout ∧ tx'.vin.map CTxIn.prevout = tx.vin.map CTxIn.prevout
  | [], _, tx, tx', h => by
    rw [Except.ok.inj h]
    exact ⟨rfl, rfl⟩
  | pcoin :: rest, nIn, tx, tx', h => by
    unfold signInputs at h
    split at h
    · exact absurd h (by simp)
    · obtain ⟨hout, hin⟩ := signInputs_spec h
      refine ⟨hout, hin.trans ?_⟩
      refine List.ext_getElem? fun i => ?_
      rw [List.getElem?_map, List.getElem?_map, List.getElem?_modify]
      rcases tx.vin[i]? with _ | txin
      · rfl
      · by_cases hi : nIn = i <;> simp [hi]

/-- Signing ends in an error of its own. -/
theorem signInputs_error : ∀ {l : List CWalletTx} {nIn : ℕ} {tx : CTransaction} {f : Failure},
    signInputs keystore nIn l tx = .error f →
      f = .error "CreateCoinStake : failed to sign coinstake"
  | [], _, tx, f, h => absurd h (by simp [signInputs])
  | pcoin :: rest, nIn, tx, f, h => by
    unfold signInputs at h
    split at h
    · exact (Except.error.inj h).symm
    · exact signInputs_error h

/-! ## The fee loop -/

/-- **What the fee loop ends with**: a fee that is enough, and outputs worth
what is credited less that. -/
theorem payFee_spec : ∀ {fuel round : ℕ} {nMinFee : ℤ} {tx tx' : CTransaction},
    payFee env keystore nBestHeight d fuel round nMinFee tx = .ok tx' → StakeShaped tx →
    0 ≤ nMinFee → nMinFee ≤ 99 * minTxFee →
    ∃ nMinFee', 0 ≤ nMinFee' ∧ nMinFee' ≤ 99 * minTxFee ∧ tx'.minFee - minTxFee ≤ nMinFee' ∧
      Pays d.nCredit nMinFee' tx' ∧ StakeShaped tx' ∧ tx'.vout.length = tx.vout.length ∧
      tx'.vin.map CTxIn.prevout = tx.vin.map CTxIn.prevout
  | 0, _, _, _, _, h, _, _, _ => absurd h (by simp [payFee])
  | fuel + 1, round, nMinFee, tx, tx', h, hshape, h0, hle => by
    unfold payFee at h
    obtain ⟨tx₁, hsign, h⟩ := except_bind_eq_ok.1 h
    obtain ⟨hsize, h⟩ := except_unit_bind_eq_ok.1 h
    rw [reject_eq_ok, not_le] at hsize
    have hset : Pays d.nCredit nMinFee (setStakeAmounts env nBestHeight d.nCredit nMinFee round tx) ∧
      _ := setStakeAmounts_spec hshape
    obtain ⟨⟨htotal, hsplit⟩, ⟨o, hout⟩, hlen, hvin⟩ := hset
    obtain ⟨hsout, hsin⟩ := signInputs_spec hsign
    have hshape₁ : StakeShaped tx₁ := ⟨o, by rwa [hsout]⟩
    rw [← hsout] at htotal hsplit hlen
    rw [hvin] at hsin
    have hmin := CTransaction.minFee_le hsize
    split_ifs at h with hless
    · obtain ⟨nMinFee', hge, hle', henough, hpays, hshape', hlen', hvin'⟩ :=
        payFee_spec h hshape₁ (by omega) (by omega)
      exact ⟨nMinFee', hge, hle', henough, hpays, hshape', hlen'.trans hlen, hvin'.trans hsin⟩
    · obtain rfl := Except.ok.inj h
      exact ⟨nMinFee, h0, hle, by omega, ⟨htotal, hsplit⟩, hshape₁, hlen, hsin⟩

/-- **The fee loop ends**: the fee grows with every turn and never past
that of the largest transaction. -/
theorem payFee_ne_endless : ∀ {fuel round : ℕ} {nMinFee : ℤ} {tx : CTransaction},
    nMinFee ≤ 99 * minTxFee → 99 * minTxFee < nMinFee + fuel →
    payFee env keystore nBestHeight d fuel round nMinFee tx ≠ .error (.crash "endless loop")
  | 0, _, nMinFee, _, hle, hfuel, _ => by
    rw [Nat.cast_zero, add_zero] at hfuel
    exact absurd hle hfuel.not_ge
  | fuel + 1, round, nMinFee, tx, hle, hfuel, h => by
    unfold payFee at h
    rcases except_bind_eq_error.1 h with herr | ⟨tx₁, -, h⟩
    · exact absurd (signInputs_error herr) (by simp)
    rcases except_bind_eq_error.1 h with herr | ⟨⟨⟩, hsize, h⟩
    · exact absurd (reject_eq_error.1 herr).2 (by simp)
    rw [reject_eq_ok, not_le] at hsize
    have hmin := CTransaction.minFee_le hsize
    split_ifs at h with hless
    exact payFee_ne_endless (by omega) (by push_cast at hfuel ⊢; omega) h

/-! ## The coinstake -/

/-- What some coins are worth together. -/
def coinsValue (coins : List Coin) : ℤ := (coins.map fun pcoin => pcoin.txout.nValue).sum

/-- **A coinstake that is never overpaid**: what it spends are distinct
coins of those selected, and what it pays is their value and the reward
less a fee that is enough. From `HARDFORK_TIME` on that is not more than
`ConnectBlock` allows a block on the same parent with these fees, whatever
age it finds. -/
structure SoundStake (s : NodeState) (nBits : ℕ) (nFees : ℤ) (pindexBest : Uint256)
    (setCoins coins : List Coin) (nMinFee : ℤ) (tx : CTransaction) : Prop where
  spends : tx.vin.map CTxIn.prevout = coins.map Coin.prevout
  distinct : (tx.vin.map CTxIn.prevout).Nodup
  selected : ∀ pcoin ∈ coins, pcoin ∈ setCoins
  first_empty : tx.vout.head? = some CTxOut.empty
  pays : (tx.vout.map CTxOut.nValue).sum = coinsValue coins +
    getProofOfStakeReward 0 nBits tx.nTime (toUInt32 (s.nHeight pindexBest))
      (s.entry pindexBest).nMoneySupply nFees - nMinFee
  fee_nonneg : 0 ≤ nMinFee
  fee_enough : tx.minFee - minTxFee ≤ nMinFee
  split : tx.vout.length = 3 → ∀ o ∈ tx.vout, 0 ≤ o.nValue
  within_limit : hardforkTime ≤ tx.nTime → ∀ (pindex : Uint256) (nBlockTime nCoinAge : ℕ),
    s.pprev pindex = some pindexBest → hardforkTime ≤ nBlockTime →
      (tx.vout.map CTxOut.nValue).sum - coinsValue coins ≤
        stakeRewardLimit s pindex nBlockTime nCoinAge nFees

/-- **The two computations agree** from `HARDFORK_TIME` on: neither looks
at the target, the time or the coin's age. -/
theorem stakeRewardLimit_eq_reward {pindex pindexBest : Uint256} (nBits : ℕ)
    {nTime nBlockTime nCoinAge : ℕ} {nFees : ℤ} (hp : s.pprev pindex = some pindexBest) (htime : hardforkTime ≤ nTime)
    (hblock : hardforkTime ≤ nBlockTime) :
    stakeRewardLimit s pindex nBlockTime nCoinAge nFees =
      getProofOfStakeReward 0 nBits nTime (toUInt32 (s.nHeight pindexBest))
        (s.entry pindexBest).nMoneySupply nFees := by
  unfold stakeRewardLimit getProofOfStakeReward
  rw [hp]
  dsimp only
  rw [if_pos htime, if_pos hblock]

/-- The kernel is one of the coins the wallet selected. -/
theorem mem_of_findKernel {nBits nTime : ℕ} {nSearchInterval : ℤ} {kernel : StakeKernel} :
    ∀ {setCoins : List Coin},
      findKernel s ans env keystore nBits nSearchInterval nTime setCoins = .ok (some kernel) →
        kernel.pcoin ∈ setCoins
  | [], h => absurd h (by simp [findKernel])
  | pcoin :: rest, h => by
    unfold findKernel at h
    split at h
    · exact List.mem_cons_of_mem _ (mem_of_findKernel h)
    · obtain ⟨found, -, h⟩ := except_bind_eq_ok.1 h
      split at h
      · obtain rfl := Option.some.inj (Except.ok.inj h)
        exact List.mem_cons_self
      · split_ifs at h
        · exact absurd (Except.ok.inj h) (by simp)
        · exact List.mem_cons_of_mem _ (mem_of_findKernel h)

/-- **`CreateCoinStake` builds sound coinstakes only**, and its fee loop
ends, whatever it starts from. -/
theorem createCoinStake_sound (s : NodeState) (ans : Answer) (env : StakeEnv) (keystore : CKeyStore)
    (nBits nTime : ℕ) (nSearchInterval nFees : ℤ) :
    (∀ tx key, createCoinStake s ans env keystore nBits nSearchInterval nTime nFees =
      .ok (tx, key) → ∃ nLimit setCoins coins pindexBest nMinFee,
        coinsToStake env nTime = .ok (nLimit, setCoins) ∧ s.pindexBest = some pindexBest ∧
        SoundStake s nBits nFees pindexBest setCoins coins nMinFee tx) ∧
    ∀ nBestHeight d tx, payFee env keystore nBestHeight d maxBlockSizeGen 0 0 tx ≠
      .error (.crash "endless loop") := by
  have hbase : minTxFee = 1000 := rfl
  refine ⟨fun tx key h => ?_, fun nBestHeight d tx => payFee_ne_endless (by rw [hbase]; omega) ?_⟩
  swap
  · rw [hbase]
    decide
  unfold createCoinStake at h
  obtain ⟨⟨nLimit, setCoins⟩, hcoins, h⟩ := except_bind_eq_ok.1 h
  obtain ⟨found, hfind, h⟩ := except_bind_eq_ok.1 h
  rcases found with _ | kernel
  · exact absurd h (by simp)
  obtain ⟨-, h⟩ := except_unit_bind_eq_ok.1 h
  rw [addInputs_eq_self] at h
  rcases hbest : s.pindexBest with _ | pindexBest
  · rw [hbest] at h
    exact absurd h (by simp)
  rw [hbest] at h
  dsimp only at h
  obtain ⟨-, h⟩ := except_unit_bind_eq_ok.1 h
  obtain ⟨tx', hpay, h⟩ := except_bind_eq_ok.1 h
  obtain ⟨rfl, rfl⟩ := Prod.mk.inj (Except.ok.inj h)
  set nReward := getProofOfStakeReward 0 nBits (draftCoinStake kernel).txNew.nTime
    (toUInt32 (s.nHeight pindexBest)) (s.entry pindexBest).nMoneySupply nFees with hreward
  set txNew := if combineThreshold * 2 ≤ (draftCoinStake kernel).nCredit + nReward then
      { (draftCoinStake kernel).txNew with
        vout := (draftCoinStake kernel).txNew.vout ++ [⟨0, kernel.scriptPubKeyOut⟩] }
    else (draftCoinStake kernel).txNew with htxNew
  have hdraft : StakeShaped txNew ∧ txNew.vin.map CTxIn.prevout = [kernel.pcoin.prevout] ∧
      txNew.nTime = kernel.nTime ∧ (txNew.vout.length = 3 →
        combineThreshold * 2 ≤ kernel.pcoin.txout.nValue + nReward) := by
    rw [htxNew]
    split_ifs with hsplit
    · exact ⟨⟨_, .inr ⟨_, rfl⟩⟩, rfl, rfl, fun _ => hsplit⟩
    · exact ⟨⟨_, .inl rfl⟩, rfl, rfl, fun h3 => absurd h3 (by simp [draftCoinStake])⟩
  obtain ⟨hshape, hvin, htime, hthree⟩ := hdraft
  obtain ⟨nMinFee, h0, hle, henough, ⟨htotal, hhalves⟩, ⟨o, hout⟩, hlen, hvin'⟩ :=
    payFee_spec hpay hshape le_rfl (by rw [hbase]; omega)
  have hspends : tx'.vin.map CTxIn.prevout = [kernel.pcoin].map Coin.prevout := hvin'.trans hvin
  have hnTime : tx'.nTime = kernel.nTime := (nTime_payFee hpay).trans htime
  have hvalue : coinsValue [kernel.pcoin] = kernel.pcoin.txout.nValue := by simp [coinsValue]
  have hpays : (tx'.vout.map CTxOut.nValue).sum =
      coinsValue [kernel.pcoin] + getProofOfStakeReward 0 nBits tx'.nTime
        (toUInt32 (s.nHeight pindexBest)) (s.entry pindexBest).nMoneySupply nFees - nMinFee := by
    rw [htotal, hvalue, hnTime, hreward]
    rfl
  refine ⟨nLimit, setCoins, [kernel.pcoin], pindexBest, nMinFee, hcoins, rfl,
    { spends := hspends
      distinct := by rw [hspends]; exact List.nodup_singleton _
      selected := fun pcoin hmem => ?_
      first_empty := ?_
      pays := hpays
      fee_nonneg := h0
      fee_enough := henough
      split := fun h3 => ?_
      within_limit := fun hfork pindex nBlockTime nCoinAge hprev hblock => ?_ }⟩
  · rw [List.mem_singleton.1 hmem]
    exact mem_of_findKernel hfind
  · rcases hout with hout | ⟨o', hout⟩ <;> rw [hout] <;> rfl
  · -- what is split is a thousand coins at least
    have hcredit := hthree (hlen ▸ h3)
    have hthreshold : combineThreshold = 500000000 := by decide
    refine hhalves h3 ?_
    show nMinFee ≤ kernel.pcoin.txout.nValue + nReward
    omega
  · rw [stakeRewardLimit_eq_reward nBits hprev hfork hblock, hpays]
    omega

end CryptoBullion
