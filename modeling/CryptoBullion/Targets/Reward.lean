import CryptoBullion.Model.Inputs
/-!
# Coin age and the reward for it

Coin age is added up without a bound and narrowed to 64 bits at the end,
where a transaction is too small for the sum to be large. The rate a coin
year is rewarded with is found by bisection: what the two bounds close in
on moves with the target, and stays between them. With inputs whose total
is money, what is multiplied at last fits a signed word.
-/

namespace CryptoBullion

/-! ## The bisection -/

section
variable {bnTarget bnTarget' bnTargetLimit lower upper : ℤ} {fuel : ℕ}

/-- The bounds only move inwards. -/
theorem rewardCoinYearLoop_mem (hpos : 0 ≤ lower) (hle : lower ≤ upper) :
    lower ≤ rewardCoinYearLoop bnTarget bnTargetLimit fuel lower upper ∧
      rewardCoinYearLoop bnTarget bnTargetLimit fuel lower upper ≤ upper := by
  induction fuel generalizing lower upper with
  | zero => exact ⟨hle, le_rfl⟩
  | succ fuel ih =>
    rw [rewardCoinYearLoop]
    have hmid : (lower + upper).tdiv 2 = (lower + upper) / 2 := Int.tdiv_eq_ediv_of_nonneg (by omega)
    dsimp only
    split_ifs with hwide hcut
    · have h := ih hpos (show lower ≤ (lower + upper).tdiv 2 by omega)
      exact ⟨h.1, h.2.trans (by omega)⟩
    · have h := ih (show 0 ≤ (lower + upper).tdiv 2 by omega) (show (lower + upper).tdiv 2 ≤ upper by omega)
      exact ⟨le_trans (by omega) h.1, h.2⟩
    · exact ⟨hle, le_rfl⟩

/-- **A larger target leads to no smaller rate.** Where the two searches
part, one goes below the middle and the other above it. -/
theorem rewardCoinYearLoop_mono (hpos : 0 ≤ lower) (hle : lower ≤ upper) (htarget : bnTarget ≤ bnTarget') :
    rewardCoinYearLoop bnTarget bnTargetLimit fuel lower upper ≤
      rewardCoinYearLoop bnTarget' bnTargetLimit fuel lower upper := by
  induction fuel generalizing lower upper with
  | zero => exact le_rfl
  | succ fuel ih =>
    rw [rewardCoinYearLoop, rewardCoinYearLoop]
    have hmid : (lower + upper).tdiv 2 = (lower + upper) / 2 := Int.tdiv_eq_ediv_of_nonneg (by omega)
    have hcuts : maxMintProofOfStake ^ 4 * bnTarget ≤ maxMintProofOfStake ^ 4 * bnTarget' :=
      mul_le_mul_of_nonneg_left htarget (by decide)
    dsimp only
    split_ifs with hwide hcut hcut' hcut'
    · exact ih hpos (by omega)
    · have hbelow : rewardCoinYearLoop bnTarget bnTargetLimit fuel lower ((lower + upper).tdiv 2) ≤
          (lower + upper).tdiv 2 := (rewardCoinYearLoop_mem hpos (by omega)).2
      have habove : (lower + upper).tdiv 2 ≤
          rewardCoinYearLoop bnTarget' bnTargetLimit fuel ((lower + upper).tdiv 2) upper :=
        (rewardCoinYearLoop_mem (by omega) (by omega)).1
      exact hbelow.trans habove
    · exact absurd (hcuts.trans_lt hcut') hcut
    · exact ih (by omega) (by omega)
    · exact le_rfl

/-- **The bisection ends**: once there are turns enough to halve the
interval below a cent, more of them change nothing. -/
theorem rewardCoinYearLoop_ends (hpos : 0 ≤ lower) (hle : lower ≤ upper)
    (hfuel : upper - lower ≤ (cent - 1) * 2 ^ fuel) (more : ℕ) :
    rewardCoinYearLoop bnTarget bnTargetLimit (fuel + more) lower upper =
      rewardCoinYearLoop bnTarget bnTargetLimit fuel lower upper := by
  induction fuel generalizing lower upper with
  | zero =>
    rw [Nat.zero_add]
    rw [pow_zero, mul_one] at hfuel
    cases more with
    | zero => rfl
    | succ more =>
      have hend : rewardCoinYearLoop bnTarget bnTargetLimit (more + 1) lower upper = upper :=
        if_neg (by omega)
      exact hend
  | succ fuel ih =>
    have hmid : (lower + upper).tdiv 2 = (lower + upper) / 2 := Int.tdiv_eq_ediv_of_nonneg (by omega)
    rw [pow_succ, ← mul_assoc] at hfuel
    rw [Nat.add_right_comm, rewardCoinYearLoop, rewardCoinYearLoop]
    dsimp only
    split_ifs with hwide hcut
    · exact ih hpos (by omega) (by omega)
    · exact ih (by omega) (by omega) (by omega)
    · rfl

end

/-! ## The rate -/

section
variable [P : Platform] {nBits nBits' nTime : ℕ}

/-- `nRewardCoinYear` -/
def rewardCoinYear (nBits nTime : ℕ) : ℤ :=
  if P.fTestNet || protocolSwitchTime < nTime then
    let upper : ℤ := getUint64 (rewardCoinYearLoop (setCompact nBits)
      (setCompact (getCompact bnProofOfStakeLimit)) 64 (1 * cent) maxMintProofOfStake)
    if roundSwitchTime < nTime then min upper maxMintProofOfStake
    else min (upper.tdiv cent * cent) maxMintProofOfStake
  else 150

theorem getPoSReward_eq {nCoinAge : ℤ} : getPoSReward nCoinAge nBits nTime =
    if roundSwitchTime < nTime then (nCoinAge * 33 * rewardCoinYear nBits nTime).tdiv (365 * 33 + 8)
    else (nCoinAge * 33).tdiv (365 * 33 + 8) * rewardCoinYear nBits nTime := rfl

omit P in
theorem getUint64_of_lt {n : ℤ} (hpos : 0 ≤ n) (hlt : n < 2 ^ 64) : (getUint64 n : ℤ) = n := by
  unfold getUint64
  omega

omit P in
/-- The bounds of the bisection. -/
theorem cent_le_maxMint : 1 * cent ≤ maxMintProofOfStake := by decide

omit P in
/-- The search is between a cent and the base rate. -/
theorem rewardCoinYearLoop_mem_cent (bnTarget bnTargetLimit : ℤ) (fuel : ℕ) :
    1 * cent ≤ rewardCoinYearLoop bnTarget bnTargetLimit fuel (1 * cent) maxMintProofOfStake ∧
      rewardCoinYearLoop bnTarget bnTargetLimit fuel (1 * cent) maxMintProofOfStake ≤ maxMintProofOfStake :=
  rewardCoinYearLoop_mem (by decide) cent_le_maxMint

omit P in
/-- Where the search ends is within its bounds, so narrowing it changes
nothing. -/
theorem getUint64_rewardCoinYearLoop (bnTarget bnTargetLimit : ℤ) (fuel : ℕ) :
    (getUint64 (rewardCoinYearLoop bnTarget bnTargetLimit fuel (1 * cent) maxMintProofOfStake) : ℤ) =
      rewardCoinYearLoop bnTarget bnTargetLimit fuel (1 * cent) maxMintProofOfStake := by
  have h := rewardCoinYearLoop_mem_cent bnTarget bnTargetLimit fuel
  have hmax : maxMintProofOfStake < 2 ^ 64 := by decide
  have hcent : 0 ≤ 1 * cent := by decide
  exact getUint64_of_lt (by omega) (by omega)

/-- **The rate** is a cent at least and the base rate at most. -/
theorem rewardCoinYear_mem (nBits : ℕ) (hstage : P.fTestNet = true ∨ protocolSwitchTime < nTime) :
    1 * cent ≤ rewardCoinYear nBits nTime ∧ rewardCoinYear nBits nTime ≤ maxMintProofOfStake := by
  have hcond : (P.fTestNet || decide (protocolSwitchTime < nTime)) = true := by simpa using hstage
  have h := rewardCoinYearLoop_mem_cent (setCompact nBits) (setCompact (getCompact bnProofOfStakeLimit)) 64
  have hcent : 0 < cent := by decide
  unfold rewardCoinYear
  rw [if_pos hcond, getUint64_rewardCoinYearLoop]
  dsimp only
  split_ifs
  · exact ⟨le_min h.1 cent_le_maxMint, min_le_right _ _⟩
  · refine ⟨le_min ?_ cent_le_maxMint, min_le_right _ _⟩
    rw [Int.tdiv_eq_ediv_of_nonneg (by omega)]
    exact mul_le_mul_of_nonneg_right ((Int.le_ediv_iff_mul_le hcent).2 h.1) hcent.le

/-- **A larger target is rewarded with no smaller rate**: the rate does not
rise with the difficulty. -/
theorem rewardCoinYear_mono (htarget : setCompact nBits ≤ setCompact nBits') :
    rewardCoinYear nBits nTime ≤ rewardCoinYear nBits' nTime := by
  have hle : ∀ bnTargetLimit,
      rewardCoinYearLoop (setCompact nBits) bnTargetLimit 64 (1 * cent) maxMintProofOfStake ≤
        rewardCoinYearLoop (setCompact nBits') bnTargetLimit 64 (1 * cent) maxMintProofOfStake :=
    fun _ => rewardCoinYearLoop_mono (by decide) cent_le_maxMint htarget
  have hle := hle (setCompact (getCompact bnProofOfStakeLimit))
  have hmem := rewardCoinYearLoop_mem_cent (setCompact nBits) (setCompact (getCompact bnProofOfStakeLimit)) 64
  have hcent : 0 < cent := by decide
  unfold rewardCoinYear
  rw [getUint64_rewardCoinYearLoop, getUint64_rewardCoinYearLoop]
  dsimp only
  split_ifs
  · exact min_le_min_right _ hle
  · refine min_le_min_right _ (mul_le_mul_of_nonneg_right ?_ hcent.le)
    rw [Int.tdiv_eq_ediv_of_nonneg (by omega), Int.tdiv_eq_ediv_of_nonneg (by omega)]
    exact Int.ediv_le_ediv hcent hle
  · exact le_rfl

/-- Whatever the stage, the rate is small. -/
theorem rewardCoinYear_le (nBits nTime : ℕ) : 0 ≤ rewardCoinYear nBits nTime ∧ rewardCoinYear nBits nTime ≤ 10000 := by
  by_cases hstage : P.fTestNet = true ∨ protocolSwitchTime < nTime
  · have h := rewardCoinYear_mem nBits hstage
    have hcent : cent = 10000 := rfl
    have hmax : maxMintProofOfStake = 10000 := rfl
    omega
  · unfold rewardCoinYear
    rw [if_neg (by simpa using hstage)]
    omega

end

/-! ## Coin age -/

section
variable [P : Platform] {txdb : CTxDB} {files : List StoredBlock} {ans : Answer} {tx : CTransaction}
variable {txin : CTxIn} {vin : List CTxIn} {b : ℤ}

/-- The value of the output an input spends, where its transaction is found
in the main chain. -/
def spentValue (txdb : CTxDB) (files : List StoredBlock) (ans : Answer) (txin : CTxIn) : Option ℤ :=
  (readPrevTx txdb files ans txin.prevout).map fun p =>
    ((p.2.vout[txin.prevout.n]?).map (·.nValue)).getD 0

/-- The values a transaction spends. -/
def spentValues (txdb : CTxDB) (files : List StoredBlock) (ans : Answer) (tx : CTransaction) : List ℤ :=
  tx.vin.filterMap (spentValue txdb files ans)

/-- An input `GetCoinAge` fails on: it spends a later transaction, or one
whose block cannot be read. -/
def breaksCoinAge (txdb : CTxDB) (files : List StoredBlock) (ans : Answer) (tx : CTransaction)
    (txin : CTxIn) : Bool :=
  match readPrevTx txdb files ans txin.prevout with
  | none => false
  | some (txindex, txPrev) => tx.nTime < txPrev.nTime ||
    (readBlock files ans txindex.pos.nFile txindex.pos.nBlockPos false).toOption.isNone

/-- What an eligible input contributes: its value and the seconds it has
lain. An input is eligible if its transaction is found, and its block old
enough. -/
def coinAgeTerm (txdb : CTxDB) (files : List StoredBlock) (ans : Answer) (tx : CTransaction)
    (txin : CTxIn) : Option (ℤ × ℤ) :=
  match readPrevTx txdb files ans txin.prevout with
  | none => none
  | some (txindex, txPrev) =>
    match readBlock files ans txindex.pos.nFile txindex.pos.nBlockPos false with
    | .error _ => none
    | .ok block =>
      if block.nTime + getStakeMinAge tx.nTime ≤ tx.nTime then
        some (((txPrev.vout[txin.prevout.n]?).map (·.nValue)).getD 0, (tx.nTime : ℤ) - txPrev.nTime)
      else none

/-- The sum of the whole cent-seconds of the eligible inputs. -/
def centSeconds (txdb : CTxDB) (files : List StoredBlock) (ans : Answer) (tx : CTransaction)
    (vin : List CTxIn) : ℤ :=
  ((vin.filterMap (coinAgeTerm txdb files ans tx)).map fun e => e.1 * e.2 / cent).sum

/-- **The exact coin age**, in coin-days. -/
def coinDays (txdb : CTxDB) (files : List StoredBlock) (ans : Answer) (tx : CTransaction) : ℤ :=
  centSeconds txdb files ans tx tx.vin * cent / coin / (24 * 60 * 60)

/-- **The loop adds up what the eligible inputs contribute**, unless it
fails on one. -/
theorem coinAgeLoop_eq (hrange : ∀ v ∈ vin.filterMap (spentValue txdb files ans), 0 ≤ v) :
    coinAgeLoop txdb files ans tx b vin =
      if vin.any (breaksCoinAge txdb files ans tx) then .error .quiet
      else .ok (b + centSeconds txdb files ans tx vin) := by
  induction vin generalizing b with
  | nil => simp [coinAgeLoop, centSeconds]
  | cons txin vin ih =>
    have hrest : ∀ v ∈ vin.filterMap (spentValue txdb files ans), 0 ≤ v := by
      intro v hv
      obtain ⟨i, hi, hv⟩ := List.mem_filterMap.1 hv
      exact hrange v (List.mem_filterMap.2 ⟨i, List.mem_cons_of_mem _ hi, hv⟩)
    rw [coinAgeLoop, List.any_cons]
    rcases hprev : readPrevTx txdb files ans txin.prevout with _ | ⟨txindex, txPrev⟩
    · have hbreak : breaksCoinAge txdb files ans tx txin = false := by simp [breaksCoinAge, hprev]
      have hterm : coinAgeTerm txdb files ans tx txin = none := by simp [coinAgeTerm, hprev]
      rw [hbreak, Bool.false_or]
      simp only
      rw [ih hrest, centSeconds, centSeconds, List.filterMap_cons_none hterm]
    simp only
    by_cases hearly : tx.nTime < txPrev.nTime
    · have hbreak : breaksCoinAge txdb files ans tx txin = true := by simp [breaksCoinAge, hprev, hearly]
      rw [if_pos hearly, hbreak, Bool.true_or, if_pos rfl]
    rw [if_neg hearly]
    rcases hread : readBlock files ans txindex.pos.nFile txindex.pos.nBlockPos false with e | block
    · have hbreak : breaksCoinAge txdb files ans tx txin = true := by
        simp [breaksCoinAge, hprev, hread, Except.toOption]
      rw [hbreak, Bool.true_or, if_pos rfl]
    have hbreak : breaksCoinAge txdb files ans tx txin = false := by
      simp [breaksCoinAge, hprev, hread, hearly, Except.toOption]
    rw [hbreak, Bool.false_or]
    simp only
    by_cases hyoung : block.nTime + getStakeMinAge tx.nTime > tx.nTime
    · have hterm : coinAgeTerm txdb files ans tx txin = none := by
        simp [coinAgeTerm, hprev, hread, hyoung]
      rw [if_pos hyoung, ih hrest, centSeconds, centSeconds, List.filterMap_cons_none hterm]
    · -- an eligible input
      set nValueIn := ((txPrev.vout[txin.prevout.n]?).map (·.nValue)).getD 0 with hvalue
      have hterm : coinAgeTerm txdb files ans tx txin = some (nValueIn, (tx.nTime : ℤ) - txPrev.nTime) := by
        simp [coinAgeTerm, hprev, hread, not_lt.1 hyoung, hvalue]
      have hpos : 0 ≤ nValueIn := by
        refine hrange nValueIn (List.mem_filterMap.2 ⟨txin, List.mem_cons_self, ?_⟩)
        simp [spentValue, hprev, hvalue]
      have hseconds : ((tx.nTime - txPrev.nTime : ℕ) : ℤ) = (tx.nTime : ℤ) - txPrev.nTime :=
        Nat.cast_sub (not_lt.1 hearly)
      have hproduct : 0 ≤ nValueIn * ((tx.nTime : ℤ) - txPrev.nTime) := mul_nonneg hpos (by omega)
      rw [if_neg hyoung, ih hrest, hseconds, Int.tdiv_eq_ediv_of_nonneg hproduct, centSeconds, centSeconds,
        List.filterMap_cons_some hterm, List.map_cons, List.sum_cons, add_assoc]

/-- **What is added up is bounded** by the value spent, as if all of it had
lain as long as time can be written. -/
theorem centSeconds_le (hrange : ∀ v ∈ vin.filterMap (spentValue txdb files ans), 0 ≤ v)
    (hok : vin.any (breaksCoinAge txdb files ans tx) = false) (htime : tx.nTime ≤ uintMax) :
    0 ≤ centSeconds txdb files ans tx vin ∧
      centSeconds txdb files ans tx vin * cent ≤
        (vin.filterMap (spentValue txdb files ans)).sum * uintMax := by
  have hcent : 0 < cent := by decide
  induction vin with
  | nil => simp [centSeconds]
  | cons txin vin ih =>
    rw [List.any_cons, Bool.or_eq_false_iff] at hok
    obtain ⟨hbreak, hok⟩ := hok
    rcases hprev : readPrevTx txdb files ans txin.prevout with _ | ⟨txindex, txPrev⟩
    · have hterm : coinAgeTerm txdb files ans tx txin = none := by simp [coinAgeTerm, hprev]
      have hvalue : spentValue txdb files ans txin = none := by simp [spentValue, hprev]
      rw [List.filterMap_cons_none hvalue] at hrange ⊢
      unfold centSeconds
      rw [List.filterMap_cons_none hterm]
      exact ih hrange hok
    set nValueIn := ((txPrev.vout[txin.prevout.n]?).map (·.nValue)).getD 0 with hvalueIn
    have hvalue : spentValue txdb files ans txin = some nValueIn := by
      simp [spentValue, hprev, hvalueIn]
    rw [List.filterMap_cons_some hvalue] at hrange ⊢
    obtain ⟨hpos, hrest⟩ := List.forall_mem_cons.1 hrange
    obtain ⟨hsum, hle⟩ := ih hrest hok
    rw [List.sum_cons, add_mul]
    -- what this input contributes is no more than its value over all time
    have hcover : ∀ e, coinAgeTerm txdb files ans tx txin = some e →
        0 ≤ e.1 * e.2 / cent ∧ e.1 * e.2 / cent * cent ≤ nValueIn * uintMax := by
      intro e he
      rcases hread : readBlock files ans txindex.pos.nFile txindex.pos.nBlockPos false with _ | block
      · simp [coinAgeTerm, hprev, hread] at he
      · simp only [breaksCoinAge, hprev, hread, Except.toOption, Option.isNone_some, Bool.or_false,
          decide_eq_false_iff_not, not_lt] at hbreak
        simp only [coinAgeTerm, hprev, hread] at he
        split_ifs at he
        obtain rfl := Option.some.inj he
        have hproduct : 0 ≤ nValueIn * ((tx.nTime : ℤ) - txPrev.nTime) := mul_nonneg hpos (by omega)
        refine ⟨Int.ediv_nonneg hproduct hcent.le, (Int.ediv_mul_le _ hcent.ne').trans ?_⟩
        exact mul_le_mul_of_nonneg_left (by omega) hpos
    rcases hterm : coinAgeTerm txdb files ans tx txin with _ | e
    · have hnone : centSeconds txdb files ans tx (txin :: vin) = centSeconds txdb files ans tx vin := by
        unfold centSeconds
        rw [List.filterMap_cons_none hterm]
      rw [hnone]
      exact ⟨hsum, hle.trans (le_add_of_nonneg_left (mul_nonneg hpos (by decide)))⟩
    · have hsome : centSeconds txdb files ans tx (txin :: vin) =
          e.1 * e.2 / cent + centSeconds txdb files ans tx vin := by
        unfold centSeconds
        rw [List.filterMap_cons_some hterm, List.map_cons, List.sum_cons]
      obtain ⟨hterm₀, hterm₁⟩ := hcover e hterm
      rw [hsome, add_mul]
      exact ⟨add_nonneg hterm₀ hsum, add_le_add hterm₁ hle⟩

/-- Coin-days of inputs whose values add up to no more than `n` times all
the money there may be. -/
theorem coinDays_le {n : ℕ} (hrange : ∀ v ∈ spentValues txdb files ans tx, 0 ≤ v)
    (hok : tx.vin.any (breaksCoinAge txdb files ans tx) = false) (htime : tx.nTime ≤ uintMax)
    (htotal : (spentValues txdb files ans tx).sum ≤ n * maxMoney) :
    0 ≤ coinDays txdb files ans tx ∧ coinDays txdb files ans tx ≤ n * 100000000000 := by
  obtain ⟨hpos, hle⟩ := centSeconds_le hrange hok htime
  have hcent : cent = 10000 := rfl
  have hcoin : coin = 1000000 := rfl
  have hmoney : maxMoney = 2000000000000 := rfl
  have huint : (uintMax : ℤ) = 4294967295 := rfl
  unfold coinDays
  unfold spentValues at htotal
  rw [hcent] at hle
  rw [hcent, hcoin]
  rw [huint] at hle
  rw [hmoney] at htotal
  omega

omit P in
/-- Each input takes a byte at least. -/
theorem length_vin_le : tx.vin.length ≤ tx.getSerializeSize := by
  have hbytes : ∀ vin : List CTxIn, vin.length ≤ (vin.flatMap CTxIn.serialize).length := by
    intro vin
    induction vin with
    | nil => exact le_rfl
    | cons txin vin ih =>
      have hone : 1 ≤ txin.serialize.length := by
        simp only [CTxIn.serialize, List.length_append, length_leBytes]
        omega
      rw [List.flatMap_cons, List.length_append, List.length_cons]
      omega
  have hvin := hbytes tx.vin
  simp only [CTransaction.getSerializeSize, CTransaction.serialize, serializeVector, List.length_append]
  omega

omit P in
theorem not_isCoinBase_of_isCoinStake (h : tx.isCoinStake = true) : tx.isCoinBase = false := by
  unfold CTransaction.isCoinStake at h
  unfold CTransaction.isCoinBase
  rcases hvin : tx.vin with _ | ⟨i, _ | ⟨j, vin⟩⟩
  · simp
  · rw [hvin] at h
    split at h
    · rename_i heq _
      obtain ⟨rfl, -⟩ := List.cons.inj heq
      simp only [Bool.and_eq_true, Bool.not_eq_true'] at h
      simp [h.1]
    · exact absurd h (by simp)
  · simp

/-- **The coin age is exact**: nothing is lost when it is narrowed. -/
theorem getCoinAge_eq {n : ℕ} (hstake : tx.isCoinStake = true)
    (hrange : ∀ v ∈ spentValues txdb files ans tx, 0 ≤ v) (htime : tx.nTime ≤ uintMax)
    (htotal : (spentValues txdb files ans tx).sum ≤ n * maxMoney) (hn : n ≤ 1000000) :
    tx.getCoinAge txdb files ans =
      if tx.vin.any (breaksCoinAge txdb files ans tx) then .error .quiet
      else .ok (coinDays txdb files ans tx).toNat := by
  unfold CTransaction.getCoinAge
  rw [not_isCoinBase_of_isCoinStake hstake, coinAgeLoop_eq hrange]
  by_cases hbreak : tx.vin.any (breaksCoinAge txdb files ans tx) = true
  · rw [if_pos hbreak, if_pos hbreak]
    rfl
  · rw [if_neg hbreak, if_neg hbreak, if_neg Bool.false_ne_true]
    have hok : tx.vin.any (breaksCoinAge txdb files ans tx) = false := by simpa using hbreak
    obtain ⟨hpos, hle⟩ := coinDays_le hrange hok htime htotal
    obtain ⟨hsum, -⟩ := centSeconds_le hrange hok htime
    have hcent : 0 ≤ centSeconds txdb files ans tx tx.vin * cent := mul_nonneg hsum (by decide)
    have hday : ((centSeconds txdb files ans tx tx.vin * cent).tdiv coin).tdiv (24 * 60 * 60) =
        coinDays txdb files ans tx := by
      rw [Int.tdiv_eq_ediv_of_nonneg hcent,
        Int.tdiv_eq_ediv_of_nonneg (Int.ediv_nonneg hcent (by decide))]
      rfl
    have hnarrow : getUint64 (coinDays txdb files ans tx) = (coinDays txdb files ans tx).toNat := by
      have hexact := getUint64_of_lt hpos (by omega)
      omega
    show Except.ok (getUint64 ((((0 : ℤ) + centSeconds txdb files ans tx tx.vin) * cent).tdiv coin |>.tdiv
      (24 * 60 * 60))) = _
    rw [zero_add, hday, hnarrow]

/-- **Coin age and the reward for it are exact and bounded.** Of a coinstake
whose inputs are in the range of money, one by one, the coin age is the
exact sum, if the transaction is small enough to be in a block, or fails.
In the second stage the bisection ends with a rate between a cent and the
base rate, which does not rise with the difficulty. And if the inputs are
in the range of money together, as `ConnectInputs` has checked before, the
product with any such rate is a signed word. -/
theorem coinAge_reward_exact (txdb : CTxDB) (files : List StoredBlock) (ans : Answer) (tx : CTransaction)
    (hstake : tx.isCoinStake = true) (htime : tx.nTime ≤ uintMax)
    (hinputs : ∀ v ∈ spentValues txdb files ans tx, moneyRange v = true) :
    (tx.getSerializeSize ≤ maxBlockSize → tx.getCoinAge txdb files ans =
      if tx.vin.any (breaksCoinAge txdb files ans tx) then .error .quiet
      else .ok (coinDays txdb files ans tx).toNat) ∧
    (∀ nBits nTime, (P.fTestNet = true ∨ protocolSwitchTime < nTime) → 0 < setCompact nBits →
      setCompact nBits ≤ setCompact (getCompact bnProofOfStakeLimit) →
        (∀ turns, rewardCoinYearLoop (setCompact nBits) (setCompact (getCompact bnProofOfStakeLimit))
          (64 + turns) (1 * cent) maxMintProofOfStake =
            rewardCoinYearLoop (setCompact nBits) (setCompact (getCompact bnProofOfStakeLimit)) 64
              (1 * cent) maxMintProofOfStake) ∧
        1 * cent ≤ rewardCoinYear nBits nTime ∧ rewardCoinYear nBits nTime ≤ maxMintProofOfStake ∧
        ∀ nBits', setCompact nBits ≤ setCompact nBits' →
          rewardCoinYear nBits nTime ≤ rewardCoinYear nBits' nTime) ∧
    (moneyRange (spentValues txdb files ans tx).sum = true → ∀ nCoinAge : ℕ,
      tx.getCoinAge txdb files ans = .ok nCoinAge → ∀ nBits nTime,
        getPoSReward nCoinAge nBits nTime =
            (if roundSwitchTime < nTime then
              (nCoinAge * 33 * rewardCoinYear nBits nTime).tdiv (365 * 33 + 8)
            else (nCoinAge * 33 : ℤ).tdiv (365 * 33 + 8) * rewardCoinYear nBits nTime) ∧
          0 ≤ (nCoinAge : ℤ) * 33 * rewardCoinYear nBits nTime ∧
          (nCoinAge : ℤ) * 33 * rewardCoinYear nBits nTime < 2 ^ 63) := by
  have hrange : ∀ v ∈ spentValues txdb files ans tx, 0 ≤ v := fun v hv => (moneyRange_iff.1 (hinputs v hv)).1
  refine ⟨fun hsize => ?_, fun nBits nTime hstage _ _ => ?_, fun htotal nCoinAge hage nBits nTime => ?_⟩
  · -- every input is worth no more than all the money there may be
    have hsum : (spentValues txdb files ans tx).sum ≤
        (spentValues txdb files ans tx).length * maxMoney := by
      have h := List.sum_le_card_nsmul (spentValues txdb files ans tx) maxMoney
        fun v hv => (moneyRange_iff.1 (hinputs v hv)).2
      rwa [nsmul_eq_mul] at h
    have hcount : (spentValues txdb files ans tx).length ≤ 1000000 := by
      have hfound : (spentValues txdb files ans tx).length ≤ tx.vin.length := List.length_filterMap_le _ _
      exact hfound.trans (length_vin_le.trans hsize)
    exact getCoinAge_eq hstake hrange htime hsum hcount
  · refine ⟨fun turns => ?_, (rewardCoinYear_mem nBits hstage).1, (rewardCoinYear_mem nBits hstage).2,
      fun nBits' => rewardCoinYear_mono⟩
    exact rewardCoinYearLoop_ends (by decide) cent_le_maxMint (by decide) turns
  · have hone : (spentValues txdb files ans tx).sum ≤ (1 : ℕ) * maxMoney := by
      rw [Nat.cast_one, one_mul]
      exact (moneyRange_iff.1 htotal).2
    rw [getCoinAge_eq hstake hrange htime hone (by norm_num)] at hage
    split_ifs at hage with hbreak
    obtain rfl := Except.ok.inj hage
    obtain ⟨hpos, hle⟩ := coinDays_le hrange (by simpa using hbreak) htime hone
    obtain ⟨hrate, hrate'⟩ := rewardCoinYear_le nBits nTime
    rw [Int.toNat_of_nonneg hpos]
    refine ⟨getPoSReward_eq, mul_nonneg (by omega) hrate, ?_⟩
    have hproduct := mul_le_mul (show coinDays txdb files ans tx * 33 ≤ 3300000000000 by omega) hrate' hrate
      (by norm_num)
    exact hproduct.trans_lt (by norm_num)

end

section Toy

/-- Pays five coins. -/
def payingTx : CTransaction :=
  { nVersion := 1, nTime := 0, vin := [], vout := [⟨5 * coin, []⟩], nLockTime := 0 }

/-- A block of it. -/
def payingBlock : CBlock where
  nVersion := 1
  hashPrevBlock := 0
  hashMerkleRoot := 0
  nTime := 0
  nBits := 0
  nNonce := 0
  vtx := [payingTx]
  vchBlockSig := []

/-- Stakes them a hundred days later. -/
def agedStake : CTransaction where
  nVersion := 1
  nTime := 100 * 24 * 60 * 60
  vin := [{ prevout := ⟨7, 0⟩, scriptSig := [], nSequence := uintMax }]
  vout := [CTxOut.empty, ⟨5 * coin, []⟩]
  nLockTime := 0

/-- Where they are found. -/
def payingIndex : CTxDB :=
  { committed := (∅ : Map DbKey DbValue).insert (.tx 7) (.txIndex (.fresh ⟨1, 8, 89⟩ 1)), activeBatch := none }

/-- Everything can be read. -/
def readsAll : Answer := { nAdjustedTime := 0, fDbOk := true, fReadOk := fun _ _ => true }

theorem coinAge_reward_exact_days : letI := Platform.toy;
    agedStake.getCoinAge payingIndex [⟨1, 8, payingBlock⟩] readsAll = .ok 500 ∧
      (500 : ℤ) * 33 * rewardCoinYear 0 0 < 2 ^ 63 := by
  letI := Platform.toy
  have h := coinAge_reward_exact payingIndex [⟨1, 8, payingBlock⟩] readsAll agedStake
    (by decide) (by decide) (by decide)
  have hage : agedStake.getCoinAge payingIndex [⟨1, 8, payingBlock⟩] readsAll = .ok 500 := by
    rw [h.1 (by decide)]
    decide
  exact ⟨hage, (h.2.2 (by decide) 500 hage 0 0).2.2⟩

end Toy

end CryptoBullion
