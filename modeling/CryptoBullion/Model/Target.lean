import CryptoBullion.Model.Inputs
/-!
# The target of the next block

`GetNextTargetRequired` and its three schedules, and the median of the
times before a block. A target moves by the spacing of the last two blocks
of its kind. Where the source computes with `CBigNum` a quotient is
truncated, as `BN_div` truncates.
-/

namespace CryptoBullion

variable [P : Platform]

/-! ## Constants -/

/-- `bnProofOfStakeHardLimit` -/
def bnProofOfStakeHardLimit : ℤ := 2 ^ 226 - 1
/-- `bnProofOfStakeLimitV2` -/
def bnProofOfStakeLimitV2 : ℤ := 2 ^ 230 - 1
/-- `POSP_TARGET_LIMIT` -/
def pospTargetLimit : ℕ := 503417504
/-- `HARDFORK_HEIGHTV2` -/
def hardforkHeightV2 : ℤ := 1310273
/-- `HARDFORK_TIMEV3` -/
def hardforkTimeV3 : ℕ := 1452272100 + 60 * 60 * 12
/-- `nTargetTimespan`: the `double` it is computed as lies just below
13824 -/
def nTargetTimespan : ℤ := 13823
/-- `OLD_nStakeTargetSpacing` -/
def oldNStakeTargetSpacing : ℤ := 60
/-- `nTargetSpacingWorkMax` -/
def nTargetSpacingWorkMax : ℤ := 12 * oldNStakeTargetSpacing

/-- `GetStakeTargetSpacing` -/
def getStakeTargetSpacing (nTime : ℕ) : ℤ :=
  if hardforkTime ≤ nTime then 65 else oldNStakeTargetSpacing

/-! ## Along the chain -/

/-- `GetLastBlockIndex`: the last block of a kind up to `pindex`, or the
first block -/
def getLastBlockIndex (s : NodeState) (fProofOfStake : Bool) : ℕ → Uint256 → Uint256
  | 0, pindex => pindex
  | fuel + 1, pindex =>
    match s.pprev pindex with
    | none => pindex
    | some prev =>
      if (s.entry pindex).fProofOfStake = fProofOfStake then pindex
      else getLastBlockIndex s fProofOfStake fuel prev

/-- The last two blocks of a kind, where there are two with a parent. -/
def lastTwo (s : NodeState) (fProofOfStake : Bool) (pindexLast : Uint256) :
    Option (Uint256 × Uint256) :=
  let pindexPrev := getLastBlockIndex s fProofOfStake (s.walkFuel pindexLast) pindexLast
  match s.pprev pindexPrev with
  | none => none
  | some prev =>
    let pindexPrevPrev := getLastBlockIndex s fProofOfStake (s.walkFuel prev) prev
    if s.pprev pindexPrevPrev = none then none else some (pindexPrev, pindexPrevPrev)

/-- The times of the last `n` blocks up to `pindex`. -/
def lastTimes (s : NodeState) : ℕ → Option Uint256 → List ℤ
  | 0, _ => []
  | _, none => []
  | n + 1, some pindex => (s.entry pindex).getBlockTime :: lastTimes s n (s.pprev pindex)

/-- `GetMedianTimePast`: of the last eleven blocks -/
def getMedianTimePast (s : NodeState) (pindex : Uint256) : ℤ :=
  let times := (lastTimes s 11 (some pindex)).mergeSort
  (times[times.length / 2]?).getD 0

/-! ## Schedules -/

/-- The exponential move toward the target spacing. -/
def moveTarget (nBits : ℕ) (nTimespan nTargetSpacing nActualSpacing : ℤ) : ℤ :=
  let nInterval := nTimespan.tdiv nTargetSpacing
  (setCompact nBits * ((nInterval - 1) * nTargetSpacing + nActualSpacing + nActualSpacing)).tdiv
    ((nInterval + 1) * nTargetSpacing)

/-- An actual spacing below zero counts as one second, one over sixteen
minutes as sixteen minutes. -/
def clampSpacing (nActualSpacing : ℤ) : ℤ :=
  if nActualSpacing < 0 then 1 else min nActualSpacing (16 * 60)

/-- `GetNextTargetRequiredPoSPV2` -/
def getNextTargetRequiredPoSPV2 (s : NodeState) (pindexLast : Uint256) : ℕ :=
  match lastTwo s true pindexLast with
  | none => getCompact bnProofOfStakeLimitV2
  | some (pindexPrev, pindexPrevPrev) =>
    let nActualSpacing :=
      clampSpacing ((s.entry pindexPrev).getBlockTime - (s.entry pindexPrevPrev).getBlockTime)
    let bnNew := moveTarget (s.entry pindexPrev).nBits (16 * 60)
      (getStakeTargetSpacing (s.entry pindexLast).nTime) nActualSpacing
    if bnProofOfStakeLimitV2 < bnNew ∨ bnNew ≤ 0 then getCompact bnProofOfStakeLimitV2
    else getCompact bnNew

/-- `GetNextTargetRequiredPoSP` -/
def getNextTargetRequiredPoSP (s : NodeState) (pindexLast : Uint256) : ℕ :=
  let last := s.entry pindexLast
  match lastTwo s true pindexLast with
  | none => getCompact (if P.fTestNet then bnProofOfStakeLimit else bnProofOfWorkLimit)
  | some (pindexPrev, pindexPrevPrev) =>
    let nActualSpacing :=
      (s.entry pindexPrev).getBlockTime - (s.entry pindexPrevPrev).getBlockTime
    if last.nHeight = hardforkHeightV2 then 487245310
    else if last.nTime < hardforkTimeV3 ∧ hardforkHeightV2 ≤ last.nHeight ∧ nActualSpacing < 0 then
      pospTargetLimit
    else
      let bnNew := moveTarget (s.entry pindexPrev).nBits (16 * 60)
        (getStakeTargetSpacing last.nTime)
        (if hardforkTimeV3 ≤ last.nTime then clampSpacing nActualSpacing else nActualSpacing)
      if pospTargetLimit < getCompact bnNew ∨ (hardforkHeightV2 ≤ last.nHeight ∧ bnNew ≤ 0) then
        pospTargetLimit
      else getCompact bnNew

/-- The limit `GetNextTargetRequiredHybrid` keeps to. -/
def hybridLimit (nHeight : ℤ) (fProofOfStake : Bool) : ℤ :=
  if fProofOfStake then
    if P.fTestNet then bnProofOfStakeLimit
    else if 15000 < nHeight + 1 then bnProofOfStakeLimit
    else if 14060 < nHeight + 1 then bnProofOfStakeHardLimit
    else bnProofOfWorkLimit
  else bnProofOfWorkLimit

/-- `GetNextTargetRequiredHybrid` -/
def getNextTargetRequiredHybrid (s : NodeState) (pindexLast : Uint256) (fProofOfStake : Bool) : ℕ :=
  let last := s.entry pindexLast
  let bnTargetLimit := hybridLimit last.nHeight fProofOfStake
  match lastTwo s fProofOfStake pindexLast with
  | none => getCompact bnTargetLimit
  | some (pindexPrev, pindexPrevPrev) =>
    let nActualSpacing :=
      (s.entry pindexPrev).getBlockTime - (s.entry pindexPrevPrev).getBlockTime
    let nTargetSpacing :=
      if fProofOfStake then getStakeTargetSpacing last.nTime
      else min nTargetSpacingWorkMax
        (getStakeTargetSpacing last.nTime * (1 + last.nHeight - s.nHeight pindexPrev))
    let bnNew :=
      moveTarget (s.entry pindexPrev).nBits nTargetTimespan nTargetSpacing nActualSpacing
    getCompact (min bnNew bnTargetLimit)

/-- `GetNextTargetRequired` -/
def getNextTargetRequired (s : NodeState) (pindexLast : Uint256) (fProofOfStake : Bool) : ℕ :=
  let last := s.entry pindexLast
  if fProofOfStake ∧ (P.fTestNet ∧ 10 < last.nHeight ∨ (hardforkHeightV4 : ℤ) ≤ last.nHeight) then
    getNextTargetRequiredPoSPV2 s pindexLast
  else if last.nTime < hardforkTime ∨ fProofOfStake = false then
    getNextTargetRequiredHybrid s pindexLast fProofOfStake
  else getNextTargetRequiredPoSP s pindexLast

end CryptoBullion
