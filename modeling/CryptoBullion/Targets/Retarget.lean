import CryptoBullion.Targets.Compact
import CryptoBullion.Model.AcceptBlock
/-!
# Whether a target can be met

A target moves with the spacing of the last two blocks of its kind, and
that spacing can be negative: times may go back. Only the later schedules
replace a target that is not positive; the earlier ones hand it on. The
current one, for proof of stake, counts a spacing within bounds, and so
moves its target within bounds.
-/

namespace CryptoBullion

variable [P : Platform]

/-! ## Numbers in a target's range -/

section

omit [P : Platform]

variable {x L : ℤ}

theorem mpiSize_lt_of_lt (hx : 0 < x) (h : x < 2 ^ 256) : mpiSize x.toNat < 256 := by
  have hlt : x.toNat < 2 ^ (8 * 34 - 9) := by omega
  have hsize := mpiSize_lt (by omega) hlt (by norm_num)
  omega

/-- What is read back of a number that fits. -/
theorem setCompact_getCompact_of_pos (hx : 0 < x) (h : mpiSize x.toNat < 256) :
    setCompact (getCompact x) = leading x.toNat := by
  obtain ⟨n, rfl⟩ := Int.eq_ofNat_of_zero_le hx.le
  rw [Int.toNat_natCast] at h ⊢
  exact setCompact_getCompact (by omega) h

/-- **It is positive where the number is.** -/
theorem setCompact_getCompact_pos_iff (h : x < 2 ^ 256) :
    0 < setCompact (getCompact x) ↔ 0 < x := by
  constructor
  · intro hpos
    by_contra hx
    exact absurd (setCompact_getCompact_nonpos (not_lt.1 hx)) (not_le.2 hpos)
  · intro hx
    rw [setCompact_getCompact_of_pos hx (mpiSize_lt_of_lt hx h)]
    exact_mod_cast leading_pos (by omega)

/-- **And no more than the number.** -/
theorem setCompact_getCompact_le (h : x < 2 ^ 256) (hL : 0 ≤ L) (hx : x ≤ L) :
    setCompact (getCompact x) ≤ L := by
  rcases le_or_gt x 0 with hneg | hpos
  · exact (setCompact_getCompact_nonpos hneg).trans hL
  · rw [setCompact_getCompact_of_pos hpos (mpiSize_lt_of_lt hpos h)]
    have hle : leading x.toNat ≤ x.toNat := leading_le
    omega

/-- It keeps the order. -/
theorem setCompact_getCompact_mono {y : ℤ} (hx : 0 < x) (hxy : x ≤ y) (hy : y < 2 ^ 256) :
    setCompact (getCompact x) ≤ setCompact (getCompact y) := by
  have hpos := hx.trans_le hxy
  rw [setCompact_getCompact_of_pos hx (mpiSize_lt_of_lt hx (hxy.trans_lt hy)),
    setCompact_getCompact_of_pos hpos (mpiSize_lt_of_lt hpos hy)]
  exact_mod_cast leading_mono (Int.toNat_le_toNat hxy)

/-- **And changes nothing the second time.** -/
theorem setCompact_getCompact_setCompact {c : ℕ} (hc : 0 < setCompact c)
    (h : setCompact c < 2 ^ 256) : setCompact (getCompact (setCompact c)) = setCompact c := by
  rw [setCompact_getCompact_of_pos hc (mpiSize_lt_of_lt hc h)]
  have hnat : (setCompact c).toNat = (setCompact c).natAbs := by omega
  rw [hnat, leading_setCompact]
  omega

theorem tdiv_pos_iff {a b : ℤ} (hb : 0 < b) : 0 < a.tdiv b ↔ b ≤ a := by
  rcases le_or_gt 0 a with ha | ha
  · have hiff : 1 ≤ a / b ↔ 1 * b ≤ a := Int.le_ediv_iff_mul_le hb
    rw [Int.tdiv_eq_ediv_of_nonneg ha]
    rw [one_mul] at hiff
    rw [← hiff]
    exact Int.add_one_le_iff.symm
  · have hpos := Int.tdiv_nonneg (neg_nonneg.2 ha.le) hb.le
    rw [Int.neg_tdiv] at hpos
    constructor <;> intro h <;> omega

/-- A quotient cut towards zero. -/
def truncate (q : ℚ) : ℤ := if 0 ≤ q then ⌊q⌋ else ⌈q⌉

theorem tdiv_eq_truncate {a b : ℤ} (hb : 0 < b) : a.tdiv b = truncate ((a : ℚ) / b) := by
  obtain ⟨n, rfl⟩ := Int.eq_ofNat_of_zero_le hb.le
  have hn : (0 : ℚ) < (n : ℤ) := by exact_mod_cast hb
  unfold truncate
  rcases le_or_gt 0 a with ha | ha
  · rw [if_pos (div_nonneg (by exact_mod_cast ha) hn.le), Int.tdiv_eq_ediv_of_nonneg ha]
    rw [Int.cast_natCast, Rat.floor_intCast_div_natCast]
  · have hneg : ¬ (0 : ℚ) ≤ (a : ℚ) / (n : ℤ) := by
      rw [not_le]
      exact div_neg_of_neg_of_pos (by exact_mod_cast ha) hn
    have hswap : (a : ℚ) / (n : ℤ) = -(((-a : ℤ) : ℚ) / (n : ℕ)) := by
      push_cast
      ring
    rw [if_neg hneg, hswap, Int.ceil_neg, Rat.floor_intCast_div_natCast,
      ← Int.tdiv_eq_ediv_of_nonneg (by omega), Int.neg_tdiv, neg_neg]

end

/-! ## Proof of stake now -/

/-- The change factor of `GetNextTargetRequiredPoSPV2` for a target
spacing `T` and a spacing that counts as `c`, with `n = 960 / T`. -/
def changeFactor (T c : ℤ) : ℚ :=
  let n := 960 / T
  (((n - 1) * T + 2 * c : ℤ) : ℚ) / (((n + 1) * T : ℤ) : ℚ)

/-- What a target out of bounds is replaced by. -/
def keepV2 (bnNew : ℤ) : ℤ :=
  if bnProofOfStakeLimitV2 < bnNew ∨ bnNew ≤ 0 then bnProofOfStakeLimitV2 else bnNew

section

omit [P : Platform]

variable {s s' : NodeState} {pindexLast pindexLast' p p' pp pp' : Uint256} {T c c' : ℤ}
variable {nBits nTime : ℕ}

theorem keepV2_pos (x : ℤ) : 0 < keepV2 x := by
  unfold keepV2
  split_ifs with h
  · unfold bnProofOfStakeLimitV2
    norm_num
  · omega

theorem keepV2_le (x : ℤ) : keepV2 x ≤ bnProofOfStakeLimitV2 := by
  unfold keepV2
  split_ifs <;> omega

theorem keepV2_lt (x : ℤ) : keepV2 x < 2 ^ 256 := by
  have hle := keepV2_le x
  unfold bnProofOfStakeLimitV2 at hle
  omega

theorem clampSpacing_nonneg (n : ℤ) : 0 ≤ clampSpacing n := by
  unfold clampSpacing
  split_ifs <;> omega

theorem clampSpacing_le (n : ℤ) : clampSpacing n ≤ 960 := by
  unfold clampSpacing
  split_ifs <;> omega

/-- The target spacing is sixty seconds or sixty-five. -/
theorem getStakeTargetSpacing_eq (nTime : ℕ) :
    getStakeTargetSpacing nTime = 65 ∨ getStakeTargetSpacing nTime = 60 := by
  unfold getStakeTargetSpacing oldNStakeTargetSpacing
  split_ifs
  · exact .inl rfl
  · exact .inr rfl

/-- How a target moves: `n` spacings of `T` seconds are 960 seconds, or
nearly. -/
theorem moveTarget_eq (nBits nTime : ℕ) (c : ℤ) : ∃ n T, getStakeTargetSpacing nTime = T ∧
    (n = 14 ∧ T = 65 ∨ n = 16 ∧ T = 60) ∧ 960 / T = n ∧
      moveTarget nBits (16 * 60) (getStakeTargetSpacing nTime) c =
        (setCompact nBits * ((n - 1) * T + 2 * c)).tdiv ((n + 1) * T) := by
  rcases getStakeTargetSpacing_eq nTime with h | h
  · refine ⟨14, 65, h, .inl ⟨rfl, rfl⟩, by decide, ?_⟩
    rw [h, two_mul, ← add_assoc]
    rfl
  · refine ⟨16, 60, h, .inr ⟨rfl, rfl⟩, by decide, ?_⟩
    rw [h, two_mul, ← add_assoc]
    rfl

/-- **A moved target is the target times the change factor**, cut towards
zero. -/
theorem moveTarget_eq_truncate :
    moveTarget nBits (16 * 60) (getStakeTargetSpacing nTime) c =
      truncate (setCompact nBits * changeFactor (getStakeTargetSpacing nTime) c) := by
  obtain ⟨n, T, hT, hcases, hn, heq⟩ := moveTarget_eq nBits nTime c
  rw [heq, hT, changeFactor, hn, tdiv_eq_truncate (by rcases hcases with ⟨rfl, rfl⟩ | ⟨rfl, rfl⟩ <;> norm_num)]
  congr 1
  rw [Int.cast_mul, mul_div_assoc]

/-- The result, whatever the last two blocks were. -/
theorem getNextTargetRequiredPoSPV2_eq (h : lastTwo s true pindexLast = some (p, pp)) :
    getNextTargetRequiredPoSPV2 s pindexLast = getCompact (keepV2 (moveTarget (s.entry p).nBits
      (16 * 60) (getStakeTargetSpacing (s.entry pindexLast).nTime)
      (clampSpacing ((s.entry p).getBlockTime - (s.entry pp).getBlockTime)))) := by
  unfold getNextTargetRequiredPoSPV2 keepV2
  rw [h]
  dsimp only
  split_ifs <;> rfl

/-- **The target is positive and within the limit**, whatever the chain. -/
theorem setCompact_getNextTargetRequiredPoSPV2 (s : NodeState) (pindexLast : Uint256) :
    0 < setCompact (getNextTargetRequiredPoSPV2 s pindexLast) ∧
      setCompact (getNextTargetRequiredPoSPV2 s pindexLast) ≤ bnProofOfStakeLimitV2 := by
  have hkept : ∀ x, 0 < setCompact (getCompact (keepV2 x)) ∧
      setCompact (getCompact (keepV2 x)) ≤ bnProofOfStakeLimitV2 := fun x =>
    ⟨(setCompact_getCompact_pos_iff (keepV2_lt x)).2 (keepV2_pos x),
      setCompact_getCompact_le (keepV2_lt x) ((keepV2_pos x).le.trans (keepV2_le x)) (keepV2_le x)⟩
  rcases htwo : lastTwo s true pindexLast with _ | ⟨p, pp⟩
  · have hlimit : getNextTargetRequiredPoSPV2 s pindexLast = getCompact (keepV2 0) := by
      unfold getNextTargetRequiredPoSPV2
      rw [htwo]
      rfl
    rw [hlimit]
    exact hkept 0
  · rw [getNextTargetRequiredPoSPV2_eq htwo]
    exact hkept _

/-- More time, a larger target. -/
theorem moveTarget_mono (nTime : ℕ) (hbits : 0 ≤ setCompact nBits) (hc : 0 ≤ c) (hcc : c ≤ c') :
    moveTarget nBits (16 * 60) (getStakeTargetSpacing nTime) c ≤
      moveTarget nBits (16 * 60) (getStakeTargetSpacing nTime) c' := by
  obtain ⟨n, T, hT, hcases, hn, heq⟩ := moveTarget_eq nBits nTime c
  obtain ⟨n', T', hT', -, hn', heq'⟩ := moveTarget_eq nBits nTime c'
  obtain rfl : T' = T := hT'.symm.trans hT
  obtain rfl : n' = n := hn'.symm.trans hn
  have hnum : 0 ≤ (n' - 1) * T' + 2 * c := by
    rcases hcases with ⟨rfl, rfl⟩ | ⟨rfl, rfl⟩ <;> omega
  have hle : setCompact nBits * ((n' - 1) * T' + 2 * c) ≤
      setCompact nBits * ((n' - 1) * T' + 2 * c') :=
    mul_le_mul_of_nonneg_left (by omega) hbits
  have hnonneg := mul_nonneg hbits hnum
  rw [heq, heq', Int.tdiv_eq_ediv_of_nonneg hnonneg,
    Int.tdiv_eq_ediv_of_nonneg (hnonneg.trans hle)]
  exact Int.ediv_le_ediv (by rcases hcases with ⟨rfl, rfl⟩ | ⟨rfl, rfl⟩ <;> norm_num) hle

/-- **It comes down to nothing only from a target of one**, and only under
the target spacing. -/
theorem moveTarget_pos (hbits : 0 < setCompact nBits) (hc : 0 ≤ c)
    (hone : setCompact nBits = 1 → getStakeTargetSpacing nTime ≤ c) :
    0 < moveTarget nBits (16 * 60) (getStakeTargetSpacing nTime) c := by
  obtain ⟨n, T, hT, hcases, -, heq⟩ := moveTarget_eq nBits nTime c
  rw [hT] at hone
  rw [heq, tdiv_pos_iff (by rcases hcases with ⟨rfl, rfl⟩ | ⟨rfl, rfl⟩ <;> norm_num)]
  have hnum : (n + 1) * T ≤ 2 * ((n - 1) * T + 2 * c) := by
    rcases hcases with ⟨rfl, rfl⟩ | ⟨rfl, rfl⟩ <;> omega
  rcases (show setCompact nBits = 1 ∨ 2 ≤ setCompact nBits by omega) with heq | htwo
  · have hle := hone heq
    rw [heq]
    rcases hcases with ⟨rfl, rfl⟩ | ⟨rfl, rfl⟩ <;> omega
  · refine hnum.trans (mul_le_mul_of_nonneg_right htwo ?_)
    rcases hcases with ⟨rfl, rfl⟩ | ⟨rfl, rfl⟩ <;> omega

/-- A spacing as it should be moves nothing. -/
theorem moveTarget_self :
    moveTarget nBits (16 * 60) (getStakeTargetSpacing nTime) (getStakeTargetSpacing nTime) =
      setCompact nBits := by
  obtain ⟨n, T, hT, hcases, -, heq⟩ :=
    moveTarget_eq nBits nTime (getStakeTargetSpacing nTime)
  have hsame : (n - 1) * T + 2 * T = (n + 1) * T := by ring
  rw [heq, hT, hsame]
  refine Int.mul_tdiv_cancel _ ?_
  rcases hcases with ⟨rfl, rfl⟩ | ⟨rfl, rfl⟩ <;> norm_num

/-- **`GetNextTargetRequiredPoSPV2` is a bounded controller.** Its target is
positive and within the limit, whatever the chain. The last target is
multiplied by the change factor of the spacing as it counts, cut towards
zero, and replaced by the limit where it is out of bounds. It does not fall
when the spacing counts for more, unless it comes down to nothing, as a
target of one does under the target spacing; and it stays where it is when
the spacing is the target spacing. -/
theorem getNextTargetRequiredPoSPV2_controls :
    (∀ (s : NodeState) (pindexLast : Uint256),
      0 < setCompact (getNextTargetRequiredPoSPV2 s pindexLast) ∧
        setCompact (getNextTargetRequiredPoSPV2 s pindexLast) ≤ bnProofOfStakeLimitV2) ∧
    (∀ (s : NodeState) (pindexLast p pp : Uint256), lastTwo s true pindexLast = some (p, pp) →
      let T := getStakeTargetSpacing (s.entry pindexLast).nTime
      let spacing := (s.entry p).getBlockTime - (s.entry pp).getBlockTime
      let counted := if spacing < 0 then 1 else min spacing 960
      getNextTargetRequiredPoSPV2 s pindexLast =
          getCompact (keepV2 (truncate (setCompact (s.entry p).nBits * changeFactor T counted))) ∧
        (spacing = T → 0 < setCompact (s.entry p).nBits →
          setCompact (s.entry p).nBits ≤ bnProofOfStakeLimitV2 →
            setCompact (getNextTargetRequiredPoSPV2 s pindexLast) =
              setCompact (s.entry p).nBits)) ∧
    ∀ (s s' : NodeState) (pindexLast pindexLast' p p' pp pp' : Uint256),
      lastTwo s true pindexLast = some (p, pp) →
      lastTwo s' true pindexLast' = some (p', pp') →
      getStakeTargetSpacing (s.entry pindexLast).nTime =
        getStakeTargetSpacing (s'.entry pindexLast').nTime →
      setCompact (s.entry p).nBits = setCompact (s'.entry p').nBits →
      0 < setCompact (s.entry p).nBits →
      clampSpacing ((s.entry p).getBlockTime - (s.entry pp).getBlockTime) ≤
        clampSpacing ((s'.entry p').getBlockTime - (s'.entry pp').getBlockTime) →
      (setCompact (s.entry p).nBits = 1 → getStakeTargetSpacing (s.entry pindexLast).nTime ≤
        clampSpacing ((s.entry p).getBlockTime - (s.entry pp).getBlockTime)) →
      setCompact (getNextTargetRequiredPoSPV2 s pindexLast) ≤
        setCompact (getNextTargetRequiredPoSPV2 s' pindexLast') := by
  refine ⟨setCompact_getNextTargetRequiredPoSPV2, ?_, ?_⟩
  · intro s pindexLast p pp htwo
    refine ⟨?_, fun hspacing hpos hle => ?_⟩
    · rw [getNextTargetRequiredPoSPV2_eq htwo, moveTarget_eq_truncate]
      rfl
    · have hcount : clampSpacing ((s.entry p).getBlockTime - (s.entry pp).getBlockTime) =
          getStakeTargetSpacing (s.entry pindexLast).nTime := by
        rw [hspacing]
        rcases getStakeTargetSpacing_eq (s.entry pindexLast).nTime with h | h <;> rw [h] <;> rfl
      have hkeep : keepV2 (setCompact (s.entry p).nBits) = setCompact (s.entry p).nBits := by
        unfold keepV2
        rw [if_neg (by omega)]
      rw [getNextTargetRequiredPoSPV2_eq htwo, hcount, moveTarget_self, hkeep]
      exact setCompact_getCompact_setCompact hpos (hkeep ▸ keepV2_lt _)
  · intro s s' pindexLast pindexLast' p p' pp pp' htwo htwo' hT hbits hpos hcc hone
    have hmove := moveTarget_pos hpos (clampSpacing_nonneg _) hone
    have hle := moveTarget_mono (s.entry pindexLast).nTime hpos.le
      (clampSpacing_nonneg _) hcc
    have hsame : moveTarget (s'.entry p').nBits (16 * 60)
        (getStakeTargetSpacing (s'.entry pindexLast').nTime)
        (clampSpacing ((s'.entry p').getBlockTime - (s'.entry pp').getBlockTime)) =
        moveTarget (s.entry p).nBits (16 * 60) (getStakeTargetSpacing (s.entry pindexLast).nTime)
          (clampSpacing ((s'.entry p').getBlockTime - (s'.entry pp').getBlockTime)) := by
      unfold moveTarget
      rw [hT, hbits]
    rw [getNextTargetRequiredPoSPV2_eq htwo, getNextTargetRequiredPoSPV2_eq htwo', hsame]
    refine setCompact_getCompact_mono (keepV2_pos _) ?_ (keepV2_lt _)
    unfold keepV2
    split_ifs <;> omega

/-! ### A target of one -/

namespace TargetOfOne

/-- A staked block `nSpacing` seconds after another, with the smallest
target there is. -/
def node (nSpacing : ℕ) : NodeState :=
  { NodeState.blank fun _ => ⟨1500000000, true, fun _ _ => true⟩ with
    mapBlockIndex := ((((∅ : Map Uint256 CBlockIndex).insert 1
      { CBlockIndex.null with nTime := 1500000000 }).insert 2
      { CBlockIndex.null with pprev := some 1, nHeight := 1, nTime := 1500000000 }).insert 3
      { CBlockIndex.null with
        pprev := some 2
        nHeight := 2
        nTime := 1500000000
        fProofOfStake := true }).insert 4
      { CBlockIndex.null with
        pprev := some 3
        nHeight := 3
        nTime := 1500000000 + nSpacing
        nBits := 0x01010000
        fProofOfStake := true } }

/-- At the target spacing it stays. -/
theorem getNextTargetRequiredPoSPV2_node :
    lastTwo (node 65) true 4 = some (4, 3) ∧
      setCompact (getNextTargetRequiredPoSPV2 (node 65) 4) = 1 := by
  have htwo : lastTwo (node 65) true 4 = some (4, 3) := by decide
  have hone : setCompact ((node 65).entry 4).nBits = 1 := by decide
  have hstays := (getNextTargetRequiredPoSPV2_controls.2.1 (node 65) 4 4 3 htwo).2
    (by decide) (by rw [hone]; decide) (by rw [hone]; decide)
  exact ⟨htwo, hstays.trans hone⟩

/-- **A second more, and the target falls from the limit to one.** -/
theorem not_mono :
    ¬ ∀ (s s' : NodeState) (pindexLast pindexLast' p p' pp pp' : Uint256),
      lastTwo s true pindexLast = some (p, pp) →
      lastTwo s' true pindexLast' = some (p', pp') →
      getStakeTargetSpacing (s.entry pindexLast).nTime =
        getStakeTargetSpacing (s'.entry pindexLast').nTime →
      setCompact (s.entry p).nBits = setCompact (s'.entry p').nBits →
      0 < setCompact (s.entry p).nBits →
      (s.entry p).getBlockTime - (s.entry pp).getBlockTime ≤
        (s'.entry p').getBlockTime - (s'.entry pp').getBlockTime →
      setCompact (getNextTargetRequiredPoSPV2 s pindexLast) ≤
        setCompact (getNextTargetRequiredPoSPV2 s' pindexLast') := by
  intro h
  have hle := h (node 64) (node 65) 4 4 4 4 3 3 (by decide) (by decide)
    (by decide) (by decide) (by decide) (by decide)
  exact absurd hle (by decide)

end TargetOfOne

end

end CryptoBullion
