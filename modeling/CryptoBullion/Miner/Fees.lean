import CryptoBullion.Model.Connect
import CryptoBullion.Model.Miner
/-!
# Fees on their way to the stake reward

From `HARDFORK_HEIGHTV4` on a coinstake may collect the fees of its block.
`ConnectBlock` and `CreateNewBlock` add them up in an `int64`, and both
hand the total on as an `int`: what arrives is the total exactly while it
is below `2 ^ 31`.
-/

namespace CryptoBullion

variable [P : Platform]
variable {s : NodeState} {pindex prev : Uint256} {nTime nCoinAge : ℕ} {nFees : ℤ}

/-- What a stake may earn of the supply per block: two per cent over 485169
blocks, rounded down once. -/
def stakeShare (nMoneySupply : ℤ) : ℤ := ⌊(nMoneySupply : ℚ) * (2 / 100) / 485169⌋

omit [P : Platform] in
theorem stakeShare_eq {nMoneySupply : ℤ} :
    stakeShare nMoneySupply = nMoneySupply * 2 / 48516900 := by
  have hq : (nMoneySupply : ℚ) * (2 / 100) / 485169 = ((nMoneySupply * 2 : ℤ) : ℚ) / (48516900 : ℕ) := by
    push_cast
    ring
  rw [stakeShare, hq, Rat.floor_intCast_div_natCast]
  rfl

omit [P : Platform] in
/-- **With the fees as they are**, the reward is the share and the fees. -/
theorem getPoSPRewardV2_eq {nMoneySupply n : ℤ} (hs : 0 ≤ nMoneySupply) (hn : 0 ≤ n) :
    getPoSPRewardV2 nMoneySupply n = stakeShare nMoneySupply + n := by
  rw [stakeShare_eq, getPoSPRewardV2]
  change (nMoneySupply * 2 + n * 48516900).tdiv 48516900 = _
  rw [Int.tdiv_eq_ediv_of_nonneg (by omega), Int.add_mul_ediv_right _ _ (by norm_num)]

omit [P : Platform] in
/-- With fewer, it is less. -/
theorem getPoSPRewardV2_lt {nMoneySupply n m : ℤ} (hs : 0 ≤ nMoneySupply) (hm : 0 < m)
    (h : n < m) : getPoSPRewardV2 nMoneySupply n < stakeShare nMoneySupply + m := by
  rcases le_or_gt 0 n with hn | hn
  · rw [getPoSPRewardV2_eq hs hn]
    omega
  rw [stakeShare_eq, getPoSPRewardV2]
  change (nMoneySupply * 2 + n * 48516900).tdiv 48516900 < _
  rcases le_or_gt 0 (nMoneySupply * 2 + n * 48516900) with h0 | h0
  · rw [Int.tdiv_eq_ediv_of_nonneg h0]
    omega
  · have hnonneg : 0 ≤ (-(nMoneySupply * 2 + n * 48516900)).tdiv 48516900 :=
      Int.tdiv_nonneg (by omega) (by norm_num)
    rw [Int.neg_tdiv] at hnonneg
    omega

/-- What `ConnectBlock` compares a coinstake with, from `HARDFORK_HEIGHTV4`
on. -/
theorem stakeRewardLimit_eq (hp : s.pprev pindex = some prev)
    (hV4 : (hardforkHeightV4 : ℤ) ≤ s.nHeight prev) (hint : s.nHeight prev < 2 ^ 31) :
    stakeRewardLimit s pindex nTime nCoinAge nFees =
      getPoSPRewardV2 (s.entry prev).nMoneySupply (toInt32 nFees) := by
  have hlow : (0 : ℤ) ≤ s.nHeight prev := le_trans (Int.natCast_nonneg _) hV4
  have hheight : hardforkHeightV4 ≤ toUInt32 (s.nHeight prev) := by
    have := toUInt32_of_lt hlow (by omega)
    omega
  rw [stakeRewardLimit, hp]
  simp only [getProofOfStakeReward, if_pos hheight]

/-- **The limit is the share and all the fees** exactly while an `int` holds
their total. -/
theorem stakeRewardLimit_eq_iff (hp : s.pprev pindex = some prev)
    (hV4 : (hardforkHeightV4 : ℤ) ≤ s.nHeight prev) (hint : s.nHeight prev < 2 ^ 31)
    (hsupply : moneyRange (s.entry prev).nMoneySupply = true) (hfees : moneyRange nFees = true) :
    stakeRewardLimit s pindex nTime nCoinAge nFees =
        stakeShare (s.entry prev).nMoneySupply + nFees ↔ nFees < 2 ^ 31 := by
  have hs := (moneyRange_iff.1 hsupply).1
  have hf := (moneyRange_iff.1 hfees).1
  rw [stakeRewardLimit_eq hp hV4 hint]
  constructor
  · intro h
    by_contra hbig
    have hlt : toInt32 nFees < nFees := by
      have := toInt32_le (n := nFees)
      omega
    exact absurd h (getPoSPRewardV2_lt hs (by omega) hlt).ne
  · intro hsmall
    rw [toInt32_eq_self_iff.2 ⟨by omega, by omega⟩, getPoSPRewardV2_eq hs hf]

/-- What a template hands on of its fees is their total as an `int`. -/
theorem pFees_of_createNewBlock {ans : Answer} {args : MinerArgs} {order : PriorityOrder}
    {fProofOfStake : Bool} {reservedKey : CScript} {strayTime : ℕ} {t : BlockTemplate}
    (h : createNewBlock s ans args order fProofOfStake reservedKey strayTime = .ok t) :
    t.pFees = toInt32 t.nFees := by
  rw [createNewBlock] at h
  rcases hbest : s.pindexBest with _ | pindexPrev <;> simp only [hbest] at h
  · exact absurd h (by simp)
  · simp only [except_bind_eq_ok] at h
    obtain ⟨sc, -, sel, -, h⟩ := h
    obtain rfl := Except.ok.inj h
    rfl

/-- A block of the height the rule begins at, and one to come after it. -/
def atFork : NodeState :=
  { NodeState.blank fun _ => ⟨0, true, fun _ _ => true⟩ with
    mapBlockIndex :=
      (({} : Map Uint256 CBlockIndex).insert 1
        { CBlockIndex.null with nHeight := 1584000, nMoneySupply := 1000000 * coin }).insert 2
        { CBlockIndex.null with pprev := some 1, nHeight := 1584001 } }

end CryptoBullion
