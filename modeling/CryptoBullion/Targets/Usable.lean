import CryptoBullion.Targets.Retarget
/-!
# Targets that stay usable

A target nothing can meet ends the chain. The schedules keep every target
under the limit of their era, but the two older ones hand on a target that
has come out as zero or less: where times went back far enough, or where
the last target was next to nothing.
-/

namespace CryptoBullion

variable [P : Platform]

/-- **A chain as `AcceptBlock` lets it grow**: every block is later than the
median of the eleven before it, goes back no further than the drift
allows, and has the target that was required of it. -/
inductive TargetChain (s : NodeState) : Uint256 → Prop
  /-- the first block -/
  | genesis {pindex : Uint256} (hprev : s.pprev pindex = none) (hheight : s.nHeight pindex = 0) :
      TargetChain s pindex
  /-- one more -/
  | next {pindex prev : Uint256} (hrest : TargetChain s prev) (hprev : s.pprev pindex = some prev)
      (hheight : s.nHeight pindex = s.nHeight prev + 1)
      (hmedian : getMedianTimePast s prev < (s.entry pindex).getBlockTime)
      (hdrift : (s.entry prev).getBlockTime ≤ (s.entry pindex).getBlockTime +
        if s.nHeight pindex < 405000 then nOldMaxClockDrift else nMaxClockDrift)
      (hbits : (s.entry pindex).nBits = getNextTargetRequired s prev (s.entry pindex).fProofOfStake) :
      TargetChain s pindex

namespace NodeState

/-- The current schedule is the one that applies. -/
def UsesPoSPV2 (s : NodeState) (pindexLast : Uint256) (fProofOfStake : Bool) : Prop :=
  fProofOfStake ∧ (P.fTestNet ∧ 10 < s.nHeight pindexLast ∨
    (hardforkHeightV4 : ℤ) ≤ s.nHeight pindexLast)

/-- The first schedule is. -/
def UsesHybrid (s : NodeState) (pindexLast : Uint256) (fProofOfStake : Bool) : Prop :=
  (s.entry pindexLast).nTime < hardforkTime ∨ fProofOfStake = false

instance {s : NodeState} {pindexLast : Uint256} {fProofOfStake : Bool} :
    Decidable (s.UsesPoSPV2 pindexLast fProofOfStake) :=
  inferInstanceAs (Decidable (_ ∧ _))

omit P in
instance {s : NodeState} {pindexLast : Uint256} {fProofOfStake : Bool} :
    Decidable (s.UsesHybrid pindexLast fProofOfStake) :=
  inferInstanceAs (Decidable (_ ∨ _))

/-- The limit of the era a target comes from. -/
def targetLimit (s : NodeState) (pindexLast : Uint256) (fProofOfStake : Bool) : ℤ :=
  if s.UsesPoSPV2 pindexLast fProofOfStake then bnProofOfStakeLimitV2
  else if s.UsesHybrid pindexLast fProofOfStake then
    hybridLimit (s.nHeight pindexLast) fProofOfStake
  else if lastTwo s true pindexLast = none then
    if P.fTestNet then bnProofOfStakeLimit else bnProofOfWorkLimit
  else setCompact pospTargetLimit

/-- **The next target can be met**, and is within the limit. -/
def IsUsable (s : NodeState) (pindexLast : Uint256) (fProofOfStake : Bool) : Prop :=
  0 < setCompact (getNextTargetRequired s pindexLast fProofOfStake) ∧
    setCompact (getNextTargetRequired s pindexLast fProofOfStake) ≤
      s.targetLimit pindexLast fProofOfStake

/-- The spacing `GetNextTargetRequiredHybrid` aims at, after `pindexPrev`. -/
def hybridSpacing (s : NodeState) (pindexLast pindexPrev : Uint256) (fProofOfStake : Bool) : ℤ :=
  if fProofOfStake then getStakeTargetSpacing (s.entry pindexLast).nTime
  else min nTargetSpacingWorkMax (getStakeTargetSpacing (s.entry pindexLast).nTime *
    (1 + s.nHeight pindexLast - s.nHeight pindexPrev))

/-- The spacing `GetNextTargetRequiredPoSP` moves the target by. -/
def pospSpacing (s : NodeState) (pindexLast : Uint256) (nActualSpacing : ℤ) : ℤ :=
  if hardforkTimeV3 ≤ (s.entry pindexLast).nTime then clampSpacing nActualSpacing
  else nActualSpacing

/-- **When the next target stays usable.** The schedules that replace what
is not positive always do; under the others the last target and the last
spacing have to multiply to at least one. A target of the second schedule
that is far below zero passes for one above the limit. -/
def StaysUsable (s : NodeState) (pindexLast : Uint256) (fProofOfStake : Bool) : Prop :=
  ∀ p pp, lastTwo s fProofOfStake pindexLast = some (p, pp) →
    let nActualSpacing := (s.entry p).getBlockTime - (s.entry pp).getBlockTime
    let bnTarget := setCompact (s.entry p).nBits
    if s.UsesPoSPV2 pindexLast fProofOfStake then True
    else if s.UsesHybrid pindexLast fProofOfStake then
      let T := s.hybridSpacing pindexLast p fProofOfStake
      let n := nTargetTimespan / T
      (n + 1) * T ≤ bnTarget * ((n - 1) * T + 2 * nActualSpacing)
    else if hardforkHeightV2 ≤ s.nHeight pindexLast then True
    else
      let product := bnTarget * (13 * 65 + 2 * s.pospSpacing pindexLast nActualSpacing)
      15 * 65 ≤ product ∨ product ≤ -(2 ^ 231 * (15 * 65))

end NodeState

variable {s : NodeState} {pindexLast p pp : Uint256} {fProofOfStake : Bool}

/-! ## Heights -/

omit [P : Platform] in
theorem getLastBlockIndex_zero : getLastBlockIndex s fProofOfStake 0 p = p := rfl

/-- Walking back does not lead up. -/
theorem TargetChain.nHeight_getLastBlockIndex (h : TargetChain s pindexLast) :
    ∀ fuel, s.nHeight (getLastBlockIndex s fProofOfStake fuel pindexLast) ≤ s.nHeight pindexLast := by
  induction h with
  | genesis hprev hheight =>
    intro fuel
    cases fuel with
    | zero => exact le_rfl
    | succ fuel =>
      unfold getLastBlockIndex
      rw [hprev]
  | next hrest hprev hheight hmedian hdrift hbits ih =>
    intro fuel
    cases fuel with
    | zero => exact le_rfl
    | succ fuel =>
      unfold getLastBlockIndex
      rw [hprev]
      dsimp only
      split_ifs
      · exact le_rfl
      · exact (ih fuel).trans (by omega)

omit [P : Platform] in
/-- The first of the last two is where the walk ends. -/
theorem of_lastTwo (h : lastTwo s fProofOfStake pindexLast = some (p, pp)) :
    p = getLastBlockIndex s fProofOfStake (s.walkFuel pindexLast) pindexLast := by
  unfold lastTwo at h
  dsimp only at h
  split at h
  · exact absurd h (by simp)
  · split_ifs at h
    exact (Prod.mk.inj (Option.some.inj h)).1.symm

/-- The spacing aimed at is at least a minute. -/
theorem TargetChain.sixty_le_hybridSpacing (h : TargetChain s pindexLast)
    (htwo : lastTwo s fProofOfStake pindexLast = some (p, pp)) :
    60 ≤ s.hybridSpacing pindexLast p fProofOfStake := by
  have hle : s.nHeight p ≤ s.nHeight pindexLast := of_lastTwo htwo ▸ h.nHeight_getLastBlockIndex _
  unfold NodeState.hybridSpacing nTargetSpacingWorkMax oldNStakeTargetSpacing
  have hT := getStakeTargetSpacing_eq (s.entry pindexLast).nTime
  split_ifs
  · omega
  · refine le_min (by norm_num) ?_
    have hone : 1 ≤ 1 + s.nHeight pindexLast - s.nHeight p := by omega
    have hmul := mul_le_mul_of_nonneg_left hone (show 0 ≤ getStakeTargetSpacing
      (s.entry pindexLast).nTime by omega)
    omega

/-! ## The first schedule -/

omit [P : Platform] in
theorem moveTarget_pos_iff {nBits : ℕ} {T c : ℤ} (hT : 0 < T) :
    0 < moveTarget nBits nTargetTimespan T c ↔
      (nTargetTimespan / T + 1) * T ≤
        setCompact nBits * ((nTargetTimespan / T - 1) * T + 2 * c) := by
  have hdiv : nTargetTimespan.tdiv T = nTargetTimespan / T :=
    Int.tdiv_eq_ediv_of_nonneg (by decide)
  have hn : 0 ≤ nTargetTimespan / T := Int.ediv_nonneg (by decide) hT.le
  unfold moveTarget
  dsimp only
  rw [hdiv, tdiv_pos_iff (mul_pos (by omega) hT), add_assoc, ← two_mul]

theorem hybridLimit_pos (nHeight : ℤ) : 0 < hybridLimit nHeight fProofOfStake := by
  unfold hybridLimit bnProofOfStakeLimit bnProofOfStakeHardLimit bnProofOfWorkLimit
  split_ifs <;> norm_num

theorem hybridLimit_lt (nHeight : ℤ) : hybridLimit nHeight fProofOfStake < 2 ^ 256 := by
  unfold hybridLimit bnProofOfStakeLimit bnProofOfStakeHardLimit bnProofOfWorkLimit
  split_ifs <;> norm_num

omit [P : Platform] in
/-- The compact form of a number under a limit. -/
theorem usable_getCompact_iff {x L : ℤ} (hx : x ≤ L) (hL : L < 2 ^ 256) (h0 : 0 ≤ L) :
    0 < setCompact (getCompact x) ∧ setCompact (getCompact x) ≤ L ↔ 0 < x := by
  rw [setCompact_getCompact_pos_iff (hx.trans_lt hL)]
  exact and_iff_left (setCompact_getCompact_le (hx.trans_lt hL) h0 hx)

theorem usable_hybrid_iff (h : TargetChain s pindexLast)
    (htwo : lastTwo s fProofOfStake pindexLast = some (p, pp)) :
    (0 < setCompact (getNextTargetRequiredHybrid s pindexLast fProofOfStake) ∧
        setCompact (getNextTargetRequiredHybrid s pindexLast fProofOfStake) ≤
          hybridLimit (s.nHeight pindexLast) fProofOfStake) ↔
      let T := s.hybridSpacing pindexLast p fProofOfStake
      (nTargetTimespan / T + 1) * T ≤ setCompact (s.entry p).nBits *
        ((nTargetTimespan / T - 1) * T +
          2 * ((s.entry p).getBlockTime - (s.entry pp).getBlockTime)) := by
  have hvalue : getNextTargetRequiredHybrid s pindexLast fProofOfStake =
      getCompact (min (moveTarget (s.entry p).nBits nTargetTimespan
        (s.hybridSpacing pindexLast p fProofOfStake)
        ((s.entry p).getBlockTime - (s.entry pp).getBlockTime))
          (hybridLimit (s.nHeight pindexLast) fProofOfStake)) := by
    unfold getNextTargetRequiredHybrid
    rw [htwo]
    rfl
  have hT := h.sixty_le_hybridSpacing htwo
  rw [hvalue, usable_getCompact_iff (min_le_right _ _) (hybridLimit_lt _) (hybridLimit_pos _).le,
    lt_min_iff, and_iff_left (hybridLimit_pos _), moveTarget_pos_iff (by omega)]

/-! ## The second schedule -/

section

omit [P : Platform]

variable {x : ℤ}

theorem pospTargetLimit_eq : getCompact (setCompact pospTargetLimit) = pospTargetLimit := by
  decide

/-- **What the second schedule makes of a target** that it does not replace
for its sign: the sign bit of one far below zero reads as a large value. -/
theorem usable_posp_iff : (0 < setCompact (if pospTargetLimit < getCompact x then pospTargetLimit
      else getCompact x) ∧
    setCompact (if pospTargetLimit < getCompact x then pospTargetLimit else getCompact x) ≤
      setCompact pospTargetLimit) ↔ 0 < x ∨ x ≤ -2 ^ 231 := by
  have hlimit : 0 < setCompact pospTargetLimit := by decide
  rcases lt_trichotomy x 0 with hx | rfl | hx
  · -- below zero, only the size of the number counts
    have hcompact : getCompact x = mpiSize x.natAbs * 16777216 + mantissa x.natAbs + 8388608 := by
      simp only [getCompact, mantissa, if_pos hx]
    have hmant := mantissa_lt (n := x.natAbs) (by omega)
    have hsize : 30 ≤ mpiSize x.natAbs ↔ x ≤ -2 ^ 231 := by
      constructor
      · intro hle
        have hpow : 2 ^ (8 * 30 - 9) ≤ 2 ^ (8 * mpiSize x.natAbs - 9) :=
          Nat.pow_le_pow_right (by norm_num) (by omega)
        have := hpow.trans (two_pow_mpiSize_le (by omega))
        omega
      · intro hle
        by_contra hlt
        have hpow : 2 ^ (8 * mpiSize x.natAbs - 1) ≤ 2 ^ (8 * 29 - 1) :=
          Nat.pow_le_pow_right (by norm_num) (by omega)
        have := (lt_two_pow_mpiSize (n := x.natAbs) (by omega)).trans_le hpow
        omega
    unfold pospTargetLimit at *
    by_cases hlarge : 30 ≤ mpiSize x.natAbs
    · rw [if_pos (by omega)]
      exact ⟨fun _ => .inr (hsize.1 hlarge), fun _ => ⟨hlimit, le_rfl⟩⟩
    · rw [if_neg (by omega)]
      constructor
      · intro h
        exact absurd (setCompact_getCompact_nonpos hx.le) (not_le.2 h.1)
      · rintro (h | h)
        · omega
        · exact absurd (hsize.2 h) hlarge
  · decide
  · refine iff_of_true ?_ (.inl hx)
    split_ifs with hlt
    · exact ⟨hlimit, le_rfl⟩
    · have hcompact : getCompact x = mpiSize x.toNat * 16777216 + mantissa x.toNat := by
        rw [← getCompact_natCast, Int.toNat_of_nonneg hx.le]
      have hsmall : mpiSize x.toNat < 256 := by
        unfold pospTargetLimit at hlt
        omega
      have hle : leading x.toNat ≤ leading (setCompact pospTargetLimit).toNat := by
        refine leading_le_of_getCompact_le (by omega) (by omega) ?_
        rw [Int.toNat_of_nonneg hx.le, Int.toNat_of_nonneg hlimit.le, pospTargetLimit_eq]
        exact not_lt.1 hlt
      rw [setCompact_getCompact_of_pos hx hsmall]
      have hpos := leading_pos (n := x.toNat) (by omega)
      have hlead : leading (setCompact pospTargetLimit).toNat ≤ (setCompact pospTargetLimit).toNat :=
        leading_le
      omega

end

omit [P : Platform] in
/-- How the second schedule moves a target, and when that is no less than
one, or far below zero. -/
theorem moveTarget_posp_iff {nBits : ℕ} {c : ℤ} :
    (0 < moveTarget nBits (16 * 60) 65 c ∨ moveTarget nBits (16 * 60) 65 c ≤ -2 ^ 231) ↔
      15 * 65 ≤ setCompact nBits * (13 * 65 + 2 * c) ∨
        setCompact nBits * (13 * 65 + 2 * c) ≤ -(2 ^ 231 * (15 * 65)) := by
  have hmove : moveTarget nBits (16 * 60) 65 c =
      (setCompact nBits * (13 * 65 + 2 * c)).tdiv (15 * 65) := by
    rw [two_mul, ← add_assoc]
    rfl
  rw [hmove, tdiv_pos_iff (by norm_num)]
  generalize setCompact nBits * (13 * 65 + 2 * c) = a
  refine or_congr_right ?_
  rcases le_or_gt 0 a with ha | ha
  · have hnonneg := Int.tdiv_nonneg ha (show (0 : ℤ) ≤ 15 * 65 by norm_num)
    constructor <;> intro h <;> omega
  · rw [← neg_neg a, Int.neg_tdiv, Int.tdiv_eq_ediv_of_nonneg (by omega)]
    have hiff : (2 : ℤ) ^ 231 ≤ -a / (15 * 65) ↔ 2 ^ 231 * (15 * 65) ≤ -a :=
      Int.le_ediv_iff_mul_le (by norm_num)
    constructor <;> intro h <;> omega

omit [P : Platform] in
theorem usable_pospTargetLimit : 0 < setCompact pospTargetLimit := by
  decide

theorem getNextTargetRequiredPoSP_eq (htwo : lastTwo s true pindexLast = some (p, pp)) :
    getNextTargetRequiredPoSP s pindexLast =
      let nActualSpacing := (s.entry p).getBlockTime - (s.entry pp).getBlockTime
      let bnNew := moveTarget (s.entry p).nBits (16 * 60)
        (getStakeTargetSpacing (s.entry pindexLast).nTime) (s.pospSpacing pindexLast nActualSpacing)
      if (s.entry pindexLast).nHeight = hardforkHeightV2 then 487245310
      else if (s.entry pindexLast).nTime < hardforkTimeV3 ∧
          hardforkHeightV2 ≤ (s.entry pindexLast).nHeight ∧ nActualSpacing < 0 then pospTargetLimit
      else if pospTargetLimit < getCompact bnNew ∨
          (hardforkHeightV2 ≤ (s.entry pindexLast).nHeight ∧ bnNew ≤ 0) then pospTargetLimit
      else getCompact bnNew := by
  unfold getNextTargetRequiredPoSP
  rw [htwo]
  rfl

theorem usable_getNextTargetRequiredPoSP_iff (hlast : hardforkTime ≤ (s.entry pindexLast).nTime)
    (htwo : lastTwo s true pindexLast = some (p, pp)) :
    (0 < setCompact (getNextTargetRequiredPoSP s pindexLast) ∧
        setCompact (getNextTargetRequiredPoSP s pindexLast) ≤ setCompact pospTargetLimit) ↔
      (hardforkHeightV2 ≤ s.nHeight pindexLast ∨
        let product := setCompact (s.entry p).nBits * (13 * 65 +
          2 * s.pospSpacing pindexLast ((s.entry p).getBlockTime - (s.entry pp).getBlockTime))
        15 * 65 ≤ product ∨ product ≤ -(2 ^ 231 * (15 * 65))) := by
  have hT : getStakeTargetSpacing (s.entry pindexLast).nTime = 65 := by
    unfold getStakeTargetSpacing
    rw [if_pos hlast]
  rw [getNextTargetRequiredPoSP_eq htwo, hT]
  dsimp only
  rw [← moveTarget_posp_iff]
  unfold NodeState.nHeight
  generalize moveTarget (s.entry p).nBits (16 * 60) 65 (s.pospSpacing pindexLast
    ((s.entry p).getBlockTime - (s.entry pp).getBlockTime)) = x
  by_cases hheight : hardforkHeightV2 ≤ (s.entry pindexLast).nHeight
  · refine iff_of_true ?_ (.inl hheight)
    split_ifs with h₁ h₂ h₃
    · decide
    · exact ⟨usable_pospTargetLimit, le_rfl⟩
    · exact ⟨usable_pospTargetLimit, le_rfl⟩
    · have hx : ¬ pospTargetLimit < getCompact x ∧ 0 < x :=
        ⟨fun hlt => h₃ (.inl hlt), lt_of_not_ge fun hle => h₃ (.inr ⟨hheight, hle⟩)⟩
      have husable := usable_posp_iff.2 (.inl hx.2)
      rwa [if_neg hx.1] at husable
  · rw [if_neg (fun heq => hheight heq.ge), if_neg (fun hand => hheight hand.2.1),
      or_iff_right hheight]
    simp only [hheight, false_and, or_false]
    exact usable_posp_iff

/-! ## All of them -/

omit [P : Platform] in
theorem forall_some_pair {Q : Uint256 → Uint256 → Prop} :
    (∀ a b, some (p, pp) = some (a, b) → Q a b) ↔ Q p pp := by
  constructor
  · intro h
    exact h p pp rfl
  · rintro h a b ⟨⟩
    exact h

omit [P : Platform] in
/-- The median, with a sort that can be evaluated. -/
theorem getMedianTimePast_eq (s : NodeState) (pindex : Uint256) :
    getMedianTimePast s pindex =
      (((lastTimes s 11 (some pindex)).insertionSort (· ≤ ·))[(lastTimes s 11
        (some pindex)).length / 2]?).getD 0 := by
  have hsort : (lastTimes s 11 (some pindex)).mergeSort =
      (lastTimes s 11 (some pindex)).insertionSort (· ≤ ·) :=
    ((List.mergeSort_perm _ _).trans (List.perm_insertionSort _ _).symm).eq_of_pairwise'
      (List.pairwise_mergeSort' (· ≤ ·) _) (List.pairwise_insertionSort _ _)
  unfold getMedianTimePast
  rw [hsort]
  dsimp only
  rw [List.length_insertionSort]

omit [P : Platform] in
/-- One block more, checked. -/
theorem targetChain_succ {s : NodeState} {prev pindex : Uint256}
    (hrest : TargetChain (P := Platform.toy) s prev)
    (hnext : (decide (s.pprev pindex = some prev) &&
      decide (s.nHeight pindex = s.nHeight prev + 1) &&
      decide ((((lastTimes s 11 (some prev)).insertionSort (· ≤ ·))[(lastTimes s 11
        (some prev)).length / 2]?).getD 0 < (s.entry pindex).getBlockTime) &&
      decide ((s.entry prev).getBlockTime ≤ (s.entry pindex).getBlockTime +
        if s.nHeight pindex < 405000 then nOldMaxClockDrift else nMaxClockDrift) &&
      decide ((s.entry pindex).nBits = getNextTargetRequired (P := Platform.toy) s prev
        (s.entry pindex).fProofOfStake)) = true) :
    TargetChain (P := Platform.toy) s pindex := by
  simp only [Bool.and_eq_true, decide_eq_true_eq] at hnext
  obtain ⟨⟨⟨⟨hprev, hheight⟩, hmedian⟩, hdrift⟩, hbits⟩ := hnext
  rw [← getMedianTimePast_eq] at hmedian
  exact .next (P := Platform.toy) hrest hprev hheight hmedian hdrift hbits

/-! ## Back in time -/

namespace BackInTime

/-- Times and targets of nine mined blocks. The last but one is five hours
late, and the last goes back two hours less a second. -/
def blocks : List (ℕ × ℕ) :=
  [(1000000, 520159231), (1000001, 520159231), (1000002, 520159231), (1000003, 520158673),
    (1000004, 520158119), (1000005, 520157570), (1000006, 520157026), (1020000, 520156486),
    (1012801, 520159231)]

/-- Their index, by height. -/
def node : NodeState :=
  { NodeState.blank fun _ => ⟨1500000000, true, fun _ _ => true⟩ with
    mapBlockIndex := blocks.zipIdx.foldl (fun m b => m.insert (BitVec.ofNat 256 b.2)
      { CBlockIndex.null with
        pprev := if b.2 = 0 then none else some (BitVec.ofNat 256 (b.2 - 1))
        nHeight := b.2
        nTime := b.1.1
        nBits := b.1.2 }) ∅ }

omit [P : Platform] in
theorem targetChain₇ : TargetChain (P := Platform.toy) node 7 := by
  have h₀ : TargetChain (P := Platform.toy) node 0 :=
    .genesis (P := Platform.toy) (by decide) (by decide)
  have h₁ : TargetChain (P := Platform.toy) node 1 := targetChain_succ h₀ (by decide)
  have h₂ : TargetChain (P := Platform.toy) node 2 := targetChain_succ h₁ (by decide)
  have h₃ : TargetChain (P := Platform.toy) node 3 := targetChain_succ h₂ (by decide)
  have h₄ : TargetChain (P := Platform.toy) node 4 := targetChain_succ h₃ (by decide)
  have h₅ : TargetChain (P := Platform.toy) node 5 := targetChain_succ h₄ (by decide)
  have h₆ : TargetChain (P := Platform.toy) node 6 := targetChain_succ h₅ (by decide)
  exact targetChain_succ h₆ (by decide)

end BackInTime

end CryptoBullion
