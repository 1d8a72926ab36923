import CryptoBullion.Model.Platform
/-!
# Targets, trust and rewards

Compact targets as `bignum.h` reads and writes them, the proof-of-work
test, and the reward schedule. Where the source computes a reward in
`double` the quotient is taken exactly and then truncated, as the
conversion to `int64` truncates.
-/

namespace CryptoBullion

/-! ## Machine words -/

/-- The conversion of an integer to `int`. -/
def toInt32 (n : ℤ) : ℤ := (n + 2147483648) % 4294967296 - 2147483648

/-- The conversion of an integer to `unsigned int`. -/
def toUInt32 (n : ℤ) : ℕ := (n % 4294967296).toNat

/-- **A value in range converts to itself**, and no other does. -/
theorem toInt32_eq_self_iff {n : ℤ} : toInt32 n = n ↔ -2147483648 ≤ n ∧ n < 2147483648 := by
  rw [toInt32]
  omega

/-- Adding to an `int` is adding and converting. -/
theorem toInt32_toInt32_add (a b : ℤ) : toInt32 (toInt32 a + b) = toInt32 (a + b) := by
  unfold toInt32
  omega

theorem toInt32_le {n : ℤ} : toInt32 n < 2147483648 := by
  rw [toInt32]
  omega

theorem toUInt32_of_lt {n : ℤ} (h0 : 0 ≤ n) (h : n < 4294967296) : (toUInt32 n : ℤ) = n := by
  rw [toUInt32]
  omega

/-! ## Compact numbers -/

/-- `CBigNum::SetCompact`: a byte count, a sign bit and three bytes, fewer
where the count is below three. -/
def setCompact (nCompact : ℕ) : ℤ :=
  let nSize := nCompact / 16777216 % 256
  let mantissa := nCompact % 8388608
  let magnitude :=
    if nSize ≤ 3 then mantissa / 256 ^ (3 - nSize) else mantissa * 256 ^ (nSize - 3)
  if 1 ≤ nSize ∧ nCompact / 8388608 % 2 = 1 then -(magnitude : ℤ) else magnitude

/-- The bytes `BN_bn2mpi` writes for a magnitude: one more than it needs
where the top bit would read as a sign. -/
def mpiSize (n : ℕ) : ℕ := if n = 0 then 0 else Nat.log2 n / 8 + 1 + (if Nat.log2 n % 8 = 7 then 1 else 0)

/-- `CBigNum::GetCompact` -/
def getCompact (n : ℤ) : ℕ :=
  let nSize := mpiSize n.natAbs
  let mantissa :=
    if nSize ≤ 3 then n.natAbs * 256 ^ (3 - nSize) else n.natAbs / 256 ^ (nSize - 3)
  nSize * 16777216 + mantissa + (if n < 0 then 8388608 else 0)

/-- `getuint256` -/
def getUint256 (n : ℤ) : Uint256 := BitVec.ofNat 256 n.natAbs

/-- `getuint64` -/
def getUint64 (n : ℤ) : ℕ := n.natAbs % 2 ^ 64

/-! ## Proof of work -/

variable [P : Platform]

/-- `bnProofOfWorkLimit`, wider on the test net -/
def bnProofOfWorkLimit : ℤ := if P.fTestNet then 2 ^ 240 - 1 else 2 ^ 236 - 1

/-- `bnProofOfStakeLimit` -/
def bnProofOfStakeLimit : ℤ := 2 ^ 232 - 1

/-- `CheckProofOfWork` -/
def checkProofOfWork (hash : Uint256) (nBits : ℕ) : Except Failure Unit :=
  let bnTarget := setCompact nBits
  if bnTarget ≤ 0 ∨ bnProofOfWorkLimit < bnTarget then
    .error (.error "CheckProofOfWork() : nBits below minimum work")
  else if getUint256 bnTarget < hash then
    .error (.error "CheckProofOfWork() : hash doesn't match nBits")
  else .ok ()

/-- `GetBlockTrust`: one for proof of work, the work a stake target stands
for otherwise -/
def getBlockTrust (nBits : ℕ) (fProofOfStake : Bool) : ℕ :=
  let bnTarget := setCompact nBits
  if bnTarget ≤ 0 then 0
  else if fProofOfStake then (2 ^ 256 / (bnTarget + 1)).toNat
  else 1

/-! ## Times -/

/-- `REWARD_SWITCH_TIME` -/
def rewardSwitchTime : ℤ := 1369432800
/-- `PROTOCOL_SWITCH_TIME` -/
def protocolSwitchTime : ℕ := 1371686400
/-- `ROUND_SWITCH_TIME` -/
def roundSwitchTime : ℕ := 1375747200
/-- `HARDFORK_TIME` -/
def hardforkTime : ℕ := 1451570400
/-- `HARDFORK_HEIGHTV4` -/
def hardforkHeightV4 : ℕ := 1584000
/-- `nMaxClockDrift` -/
def nMaxClockDrift : ℤ := 20 * 60
/-- `nStakeMinAge` -/
def nStakeMinAge : ℕ := 60 * 60
/-- `OLD_nStakeMinAge` -/
def oldNStakeMinAge : ℕ := 60 * 60 * 24 * 30
/-- `nCoinbaseMaturity` -/
def nCoinbaseMaturity : ℤ := 5

/-- `GetStakeMinAge` -/
def getStakeMinAge (nTime : ℕ) : ℕ := if hardforkTime ≤ nTime then nStakeMinAge else oldNStakeMinAge

/-! ## Rewards -/

/-- `MAX_MINT_PROOF_OF_WORK_LEGACY` -/
def maxMintProofOfWorkLegacy : ℤ := 10 * coin
/-- `MAX_MINT_PROOF_OF_STAKE` -/
def maxMintProofOfStake : ℤ := 1 * cent

/-- `GetProofOfWorkReward` -/
def getProofOfWorkReward (nHeight : ℕ) : ℤ :=
  if nHeight < 55001 then 10 * coin
  else if nHeight < 95001 then 5 * coin
  else if nHeight < 145001 then 2500000
  else if nHeight < 195001 then 1250000
  else if nHeight < 245001 then 625000
  else if nHeight < 295001 then 312500
  else if nHeight < 345001 then 156250
  else if nHeight < 395001 then 78125
  else if nHeight < 445001 then 39062
  else if nHeight < 545001 then 19531
  else if 545000 < nHeight then 10000
  else 0

/-- The bisection of `GetPoSReward`. Its bounds start a cent apart, so it
is never entered; the fuel bounds what it could do. -/
def rewardCoinYearLoop (bnTarget bnTargetLimit : ℤ) : ℕ → (lower upper : ℤ) → ℤ
  | 0, _, upper => upper
  | fuel + 1, lower, upper =>
    if lower + cent ≤ upper then
      let mid := (lower + upper).tdiv 2
      if maxMintProofOfStake ^ 4 * bnTarget < mid ^ 4 * bnTargetLimit then
        rewardCoinYearLoop bnTarget bnTargetLimit fuel lower mid
      else rewardCoinYearLoop bnTarget bnTargetLimit fuel mid upper
    else upper

/-- `GetPoSReward` -/
def getPoSReward (nCoinAge : ℤ) (nBits nTime : ℕ) : ℤ :=
  let nRewardCoinYear :=
    if P.fTestNet || protocolSwitchTime < nTime then
      let bnTargetLimit := setCompact (getCompact bnProofOfStakeLimit)
      let upper : ℤ := getUint64
        (rewardCoinYearLoop (setCompact nBits) bnTargetLimit 64 (1 * cent) maxMintProofOfStake)
      if roundSwitchTime < nTime then min upper maxMintProofOfStake
      else min (upper.tdiv cent * cent) maxMintProofOfStake
    else 150
  if roundSwitchTime < nTime then (nCoinAge * 33 * nRewardCoinYear).tdiv (365 * 33 + 8)
  else (nCoinAge * 33).tdiv (365 * 33 + 8) * nRewardCoinYear

/-- `GetPoSPRewardV1`: two per cent of the supply over 485169 blocks -/
def getPoSPRewardV1 (nMoneySupply : ℤ) : ℤ := (nMoneySupply * 2).tdiv (100 * 485169)

/-- `GetPoSPRewardV2`: the same and the fees, added before truncating -/
def getPoSPRewardV2 (nMoneySupply nFees : ℤ) : ℤ :=
  (nMoneySupply * 2 + nFees * (100 * 485169)).tdiv (100 * 485169)

/-- `GetProofOfStakeReward`. Its last parameter is an `int`: callers hand
it an `int64`. -/
def getProofOfStakeReward (nCoinAge : ℤ) (nBits nTime : ℕ) (nHeight : ℕ) (nMoneySupply : ℤ)
    (nFees : ℤ) : ℤ :=
  if hardforkHeightV4 ≤ nHeight then getPoSPRewardV2 nMoneySupply (toInt32 nFees)
  else if hardforkTime ≤ nTime then getPoSPRewardV1 nMoneySupply
  else getPoSReward nCoinAge nBits nTime

end CryptoBullion
