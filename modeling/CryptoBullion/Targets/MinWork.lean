import CryptoBullion.Targets.Usable
import CryptoBullion.Model.OrphanBlocks
/-!
# The least work there may be

`ComputeMinWork` takes it that a target doubles in a day at most. The
schedule knows no days: it moves the target with the spacing of the last
two mined blocks, and a single spacing of some hours moves it further than
that. How large the spacing may be for the bound to hold follows from what
is doubled, what is cut, and what is left out when a target is written.
-/

namespace CryptoBullion

/-! ## The next compact number -/

section

variable {m n : ℕ}

/-- The least number that is written larger than `n` is. -/
def nextCompact (n : ℕ) : ℕ := leading n + 256 ^ (mpiSize n - 3)

/-- What is kept is kept again: it takes as many bytes. -/
theorem leading_leading (n : ℕ) : leading (leading n) = leading n := by
  rcases Nat.eq_zero_or_pos n with rfl | hn
  · rfl
  have hsize : mpiSize (leading n) = mpiSize n := by
    have hlow := (two_pow_le_leading hn).trans_lt (lt_two_pow_mpiSize (leading_pos hn))
    have hpow := (Nat.pow_lt_pow_iff_right (show 1 < 2 by norm_num)).1 hlow
    have hmono := mpiSize_mono (leading_pos hn) (leading_le (n := n))
    omega
  have hagain : leading (leading n) = leading n / 256 ^ (mpiSize n - 3) * 256 ^ (mpiSize n - 3) := by
    rewrite [← hsize]
    rfl
  rw [hagain]
  exact Nat.div_mul_cancel (Dvd.intro_left _ rfl)

theorem leading_le_leading_iff {m : ℕ} : leading m ≤ leading n ↔ leading m ≤ n :=
  ⟨fun h => h.trans leading_le, fun h => (leading_leading m).symm.trans_le (leading_mono h)⟩

theorem lt_nextCompact (n : ℕ) : n < nextCompact n := by
  have hdiv := Nat.lt_div_mul_add (a := n) (show 0 < 256 ^ (mpiSize n - 3) by positivity)
  exact hdiv

/-- It is written with as many bytes, or is the first number that is not. -/
theorem nextCompact_le (hn : 0 < n) : nextCompact n ≤ 2 ^ (8 * mpiSize n - 1) := by
  have hlt := lt_two_pow_mpiSize hn
  have hpos := mpiSize_pos hn
  unfold nextCompact leading
  rcases Nat.lt_or_ge (mpiSize n) 3 with hk | hk
  · rw [Nat.sub_eq_zero_of_le hk.le, pow_zero, Nat.div_one, mul_one]
    exact hlt
  · -- the bound is so many of the last bytes' units
    have hsplit : 2 ^ (8 * mpiSize n - 1) = 2 ^ 23 * 256 ^ (mpiSize n - 3) := by
      rw [two_fifty_six_pow, ← pow_add]
      congr 1
      omega
    have hunits : n / 256 ^ (mpiSize n - 3) < 2 ^ 23 := by
      rw [Nat.div_lt_iff_lt_mul (by positivity), ← hsplit]
      exact hlt
    rw [hsplit, ← Nat.succ_mul]
    exact Nat.mul_le_mul_right _ hunits

/-- **What is kept of a number is no more than `n`** as long as the number
is below the next one that can be written. -/
theorem leading_le_iff (hn : 0 < n) : leading m ≤ n ↔ m < nextCompact n := by
  constructor
  · intro hle
    by_contra hge
    have hnm : n < m := (lt_nextCompact n).trans_le (not_lt.1 hge)
    rcases (mpiSize_mono hn hnm.le).eq_or_lt with heq | hlt
    · -- as many bytes: the next number is kept whole
      have hunits : n / 256 ^ (mpiSize n - 3) + 1 ≤ m / 256 ^ (mpiSize n - 3) := by
        rw [Nat.le_div_iff_mul_le (by positivity), Nat.succ_mul]
        exact not_lt.1 hge
      have hkept : nextCompact n ≤ leading m := by
        unfold leading
        rw [← heq]
        unfold nextCompact leading
        rw [← Nat.succ_mul]
        exact Nat.mul_le_mul_right _ hunits
      exact absurd (hkept.trans hle) (not_le.2 (lt_nextCompact n))
    · have hpow : 2 ^ (8 * mpiSize n - 1) ≤ 2 ^ (8 * mpiSize m - 9) :=
        Nat.pow_le_pow_right (by norm_num) (by omega)
      have hfar := (lt_two_pow_mpiSize hn).trans_le (hpow.trans (two_pow_le_leading (hn.trans hnm)))
      exact absurd hle (not_le.2 hfar)
  · intro hlt
    rcases le_or_gt m n with hle | hgt
    · exact leading_le.trans hle
    · -- between the two nothing takes another byte
      have hsize : mpiSize m = mpiSize n := by
        have hlow := (two_pow_mpiSize_le (hn.trans hgt)).trans_lt (hlt.trans_le (nextCompact_le hn))
        have hpow := (Nat.pow_lt_pow_iff_right (show 1 < 2 by norm_num)).1 hlow
        have hmono := mpiSize_mono hn hgt.le
        omega
      have hunits : m / 256 ^ (mpiSize n - 3) ≤ n / 256 ^ (mpiSize n - 3) := by
        rw [← Nat.lt_succ_iff, Nat.div_lt_iff_lt_mul (by positivity), Nat.succ_mul]
        exact hlt
      calc leading m = m / 256 ^ (mpiSize n - 3) * 256 ^ (mpiSize n - 3) := by
            unfold leading
            rw [hsize]
        _ ≤ leading n := Nat.mul_le_mul_right _ hunits
        _ ≤ n := leading_le

end

/-! ## The loop -/

/-- Days that have begun. -/
def startedDays (nTime : ℤ) : ℕ := ((nTime + 86399) / 86400).toNat

/-- **The target doubles with every day that has begun**, up to the limit. -/
theorem minWorkLoop_eq {bnTargetLimit bnResult nTime : ℤ} {fuel : ℕ} (hpos : 0 < bnResult)
    (hfuel : startedDays nTime ≤ fuel) :
    min (minWorkLoop bnTargetLimit fuel bnResult nTime) bnTargetLimit =
      min (bnResult * 2 ^ startedDays nTime) bnTargetLimit := by
  induction fuel generalizing bnResult nTime with
  | zero =>
    rw [Nat.le_zero.1 hfuel, pow_zero, mul_one]
    rfl
  | succ fuel ih =>
    unfold minWorkLoop
    split_ifs with hloop
    · have hday : startedDays nTime = startedDays (nTime - 24 * 60 * 60) + 1 := by
        unfold startedDays
        omega
      rw [ih (by omega) (by omega), hday, pow_succ, mul_assoc, mul_comm 2]
    · rcases not_and_or.1 hloop with hover | hlimit
      · have hnone : startedDays nTime = 0 := by
          unfold startedDays
          omega
        rw [hnone, pow_zero, mul_one]
      · -- the limit is reached, and more days do not lead back
        have hmore : bnResult ≤ bnResult * 2 ^ startedDays nTime :=
          le_mul_of_one_le_right hpos.le (one_le_pow₀ (by norm_num))
        rw [min_eq_right (not_lt.1 hlimit), min_eq_right ((not_lt.1 hlimit).trans hmore)]

/-! ## Chains -/

variable [P : Platform]

/-- **A chain of valid blocks from a mined one on**: each is as
`AcceptBlock` lets it be, and the mined ones have the work their targets
ask for. -/
inductive WorkChain (s : NodeState) (base : Uint256) : Uint256 → Prop
  /-- the block it starts at -/
  | base (hchain : TargetChain s base) (hmined : (s.entry base).fProofOfStake = false)
      (hwork : checkProofOfWork base (s.entry base).nBits = .ok ()) : WorkChain s base base
  /-- one more -/
  | next {pindex prev : Uint256} (hrest : WorkChain s base prev) (hchain : TargetChain s pindex)
      (hprev : s.pprev pindex = some prev)
      (hwork : (s.entry pindex).fProofOfStake = false →
        checkProofOfWork pindex (s.entry pindex).nBits = .ok ()) : WorkChain s base pindex

namespace NodeState

/-- The target of `base`, doubled once and once more for every day that has
begun. -/
def allowance (s : NodeState) (base : Uint256) (nTime : ℤ) : ℕ :=
  (setCompact (s.entry base).nBits).toNat * 2 ^ (startedDays nTime + 1)

/-- **When the bound is one.** Either it is at the limit, or the spacing of
the last two mined blocks is too small to move the target of the last one
as far as the next compact number after what the days allow. -/
def KeepsPace (s : NodeState) (base pindexLast : Uint256) (nTime : ℤ) : Prop :=
  bnProofOfWorkLimit < nextCompact (s.allowance base nTime) ∨
    ∃ p pp, lastTwo s false pindexLast = some (p, pp) ∧
      let T := s.hybridSpacing pindexLast p false
      let n := nTargetTimespan / T
      setCompact (s.entry p).nBits *
          ((n - 1) * T + 2 * ((s.entry p).getBlockTime - (s.entry pp).getBlockTime)) <
        nextCompact (s.allowance base nTime) * ((n + 1) * T)

end NodeState

variable {s : NodeState} {base pindexLast p pp : Uint256} {nTime : ℤ}

theorem WorkChain.targetChain (h : WorkChain s base pindexLast) : TargetChain s pindexLast := by
  cases h with
  | base hchain => exact hchain
  | next hrest hchain => exact hchain

/-- The target at its start is a target. -/
theorem WorkChain.setCompact_pos (h : WorkChain s base pindexLast) :
    0 < setCompact (s.entry base).nBits := by
  induction h with
  | base hchain hmined hwork =>
    by_contra hneg
    unfold checkProofOfWork at hwork
    dsimp only at hwork
    rw [if_pos (.inl (not_lt.1 hneg))] at hwork
    exact absurd hwork (by simp)
  | next hrest hchain hprev hwork ih => exact ih

theorem WorkChain.fProofOfStake_base (h : WorkChain s base pindexLast) :
    (s.entry base).fProofOfStake = false := by
  induction h with
  | base hchain hmined hwork => exact hmined
  | next hrest hchain hprev hwork ih => exact ih

/-! ## The bound -/

theorem bnProofOfWorkLimit_pos : 0 < bnProofOfWorkLimit := by
  unfold bnProofOfWorkLimit
  split_ifs <;> norm_num

theorem bnProofOfWorkLimit_lt : bnProofOfWorkLimit < 2 ^ 256 := by
  unfold bnProofOfWorkLimit
  split_ifs <;> norm_num

/-- **What `ComputeMinWork` comes to.** -/
theorem computeMinWork_eq (hpos : 0 < setCompact (s.entry base).nBits) :
    computeMinWork (s.entry base).nBits nTime =
      getCompact (min (s.allowance base nTime : ℤ) bnProofOfWorkLimit) := by
  have hfuel : startedDays nTime ≤ nTime.toNat / (24 * 60 * 60) + 1 := by
    unfold startedDays
    omega
  have hallowance : (s.allowance base nTime : ℤ) =
      setCompact (s.entry base).nBits * 2 * 2 ^ startedDays nTime := by
    unfold NodeState.allowance
    rw [Nat.cast_mul, Int.toNat_of_nonneg hpos.le, pow_succ, mul_comm _ 2, mul_assoc]
    push_cast
    rfl
  unfold computeMinWork
  rw [minWorkLoop_eq (mul_pos hpos (by norm_num)) hfuel, hallowance]

omit P in
/-- A quotient below a positive number. -/
theorem tdiv_lt_iff {a b c : ℤ} (hb : 0 < b) (hc : 0 < c) : a.tdiv b < c ↔ a < c * b := by
  rcases le_or_gt 0 a with ha | ha
  · rw [Int.tdiv_eq_ediv_of_nonneg ha]
    exact Int.ediv_lt_iff_lt_mul hb
  · have hneg := Int.tdiv_nonneg (neg_nonneg.2 ha.le) hb.le
    rw [Int.neg_tdiv] at hneg
    exact iff_of_true (by omega) (ha.trans (mul_pos hc hb))

/-- Of two targets under the limit, cut to what can be written. -/
theorem setCompact_min_le_iff {x : ℤ} {A : ℕ} (hA : 0 < A) :
    setCompact (getCompact (min x bnProofOfWorkLimit)) ≤
        setCompact (getCompact (min (A : ℤ) bnProofOfWorkLimit)) ↔
      bnProofOfWorkLimit < nextCompact A ∨ x < nextCompact A := by
  have hlimit := bnProofOfWorkLimit_pos
  have hmax := bnProofOfWorkLimit_lt
  have hnext := lt_nextCompact A
  have hbound : 0 < min (A : ℤ) bnProofOfWorkLimit := lt_min (by omega) hlimit
  have hread := setCompact_getCompact_of_pos hbound
    (mpiSize_lt_of_lt hbound ((min_le_right _ _).trans_lt hmax))
  rcases le_or_gt x 0 with hx | hx
  · have hnonpos := setCompact_getCompact_nonpos ((min_le_left x bnProofOfWorkLimit).trans hx)
    have hpos := (setCompact_getCompact_pos_iff ((min_le_right (A : ℤ) _).trans_lt hmax)).2 hbound
    exact iff_of_true (by omega) (.inr (by omega))
  have hmoved : 0 < min x bnProofOfWorkLimit := lt_min hx hlimit
  rw [setCompact_getCompact_of_pos hmoved (mpiSize_lt_of_lt hmoved ((min_le_right _ _).trans_lt hmax)),
    hread, Nat.cast_le, leading_le_leading_iff, leading_le_iff (by omega)]
  rcases le_or_gt (A : ℤ) bnProofOfWorkLimit with hle | hgt
  · rw [min_eq_left hle, Int.toNat_natCast]
    omega
  · -- with the limit for a bound, everything is within it
    rw [min_eq_right hgt.le]
    have hself := lt_nextCompact bnProofOfWorkLimit.toNat
    exact iff_of_true (by omega) (.inl (by omega))

/-- What the schedule asks of the next mined block. -/
theorem getNextTargetRequired_mined :
    getNextTargetRequired s pindexLast false = match lastTwo s false pindexLast with
      | none => getCompact bnProofOfWorkLimit
      | some (p, pp) => getCompact (min (moveTarget (s.entry p).nBits nTargetTimespan
          (s.hybridSpacing pindexLast p false)
          ((s.entry p).getBlockTime - (s.entry pp).getBlockTime)) bnProofOfWorkLimit) := by
  have hschedule : getNextTargetRequired s pindexLast false =
      getNextTargetRequiredHybrid s pindexLast false := by
    unfold getNextTargetRequired
    dsimp only
    rw [if_neg fun h => Bool.false_ne_true h.1, if_pos (.inr rfl)]
  rw [hschedule]
  unfold getNextTargetRequiredHybrid
  rcases lastTwo s false pindexLast with _ | ⟨p, pp⟩ <;> rfl

/-- **The bound is one exactly where the target keeps pace with it.** -/
theorem required_le_minWork_iff (h : WorkChain s base pindexLast) :
    setCompact (getNextTargetRequired s pindexLast false) ≤
        setCompact (computeMinWork (s.entry base).nBits nTime) ↔
      s.KeepsPace base pindexLast nTime := by
  have hbase := h.setCompact_pos
  have hallowance : 0 < s.allowance base nTime :=
    Nat.mul_pos (by omega) (Nat.two_pow_pos _)
  rw [computeMinWork_eq hbase, getNextTargetRequired_mined]
  unfold NodeState.KeepsPace
  rcases htwo : lastTwo s false pindexLast with _ | ⟨p, pp⟩
  · -- no two mined blocks yet: the limit is required
    have hsame := setCompact_min_le_iff (x := bnProofOfWorkLimit) hallowance
    rw [min_self] at hsame
    dsimp only
    rw [hsame, or_self, or_iff_left]
    rintro ⟨p, pp, hnone, -⟩
    exact absurd hnone (by simp)
  · have hT := h.targetChain.sixty_le_hybridSpacing htwo
    have hn : 0 ≤ nTargetTimespan / s.hybridSpacing pindexLast p false :=
      Int.ediv_nonneg (by decide) (by omega)
    have hdiv : nTargetTimespan.tdiv (s.hybridSpacing pindexLast p false) =
        nTargetTimespan / s.hybridSpacing pindexLast p false :=
      Int.tdiv_eq_ediv_of_nonneg (by decide)
    have hnext : 0 < nextCompact (s.allowance base nTime) := (Nat.zero_le _).trans_lt (lt_nextCompact _)
    dsimp only
    rw [setCompact_min_le_iff hallowance]
    refine or_congr_right ?_
    unfold moveTarget
    dsimp only
    rw [hdiv, tdiv_lt_iff (mul_pos (by omega) (by omega)) (by omega), add_assoc, ← two_mul]
    constructor
    · intro hlt
      exact ⟨p, pp, rfl, hlt⟩
    · rintro ⟨q, qq, heq, hlt⟩
      obtain ⟨rfl, rfl⟩ := Prod.mk.inj (Option.some.inj heq)
      exact hlt

omit P in
/-- A mined block is the last one up to itself. -/
theorem getLastBlockIndex_self (hmined : (s.entry base).fProofOfStake = false) (fuel : ℕ) :
    getLastBlockIndex s false fuel base = base := by
  cases fuel with
  | zero => rfl
  | succ fuel =>
    unfold getLastBlockIndex
    rcases s.pprev base with _ | prev
    · rfl
    · exact if_pos hmined

/-- **`ComputeMinWork` is a bound where the last spacing is small enough.**
For a block mined on a chain of valid blocks from `base` on, `nTime`
seconds after it, what the schedule requires is no more than the least
work exactly if the target keeps pace with what the days allow. And where
`base` is the checkpoint, this is exactly when `ProcessBlock` lets such a
block pass, with the target it has to have. -/
theorem computeMinWork_bounds_iff (s : NodeState) (base prev : Uint256)
    (h : WorkChain s base prev) (nTime : ℤ) :
    (setCompact (getNextTargetRequired s prev false) ≤
        setCompact (computeMinWork (s.entry base).nBits nTime) ↔ s.KeepsPace base prev nTime) ∧
    ∀ (full : FullNode) (block : CBlock), full.getLastSyncCheckpoint = some base →
      full.node.entry base = s.entry base → block.isProofOfStake = false →
      block.hashPrevBlock ≠ full.node.hashBestChain →
      full.orphans.wantedByPendingSyncCheckpoint block.getHash = .ok false →
      block.nBits = getNextTargetRequired s prev false →
      block.getBlockTime - (s.entry base).getBlockTime = nTime →
        (full.checkMinWork block = .ok () ↔ s.KeepsPace base prev nTime) := by
  refine ⟨required_le_minWork_iff h, fun full block hcheckpoint hentry hpos hside hwanted hbits htime => ?_⟩
  have hlast : ∀ fuel, getLastBlockIndex full.node false fuel base = base :=
    getLastBlockIndex_self (hentry ▸ h.fProofOfStake_base)
  have hsync : (block.isProofOfStake || decide (block.hashPrevBlock = full.node.hashBestChain)) = false := by
    rw [hpos, Bool.false_or]
    exact decide_eq_false hside
  have hcheck : full.checkMinWork block =
      reject (setCompact (computeMinWork (s.entry base).nBits nTime) < setCompact block.nBits)
        (.error "ProcessBlock() : block with too little proof-of-work") := by
    unfold FullNode.checkMinWork
    rw [hcheckpoint]
    dsimp only
    rw [hsync, if_neg Bool.false_ne_true, hwanted, hlast, hentry, ← htime]
    rfl
  rw [hcheck, ← required_le_minWork_iff h, hbits]
  unfold reject
  split_ifs with hless
  · exact iff_of_false (by simp) (not_le.2 hless)
  · exact iff_of_true rfl (not_lt.1 hless)

/-! ## A day without blocks -/

namespace QuietDay

/-- Times and targets of twelve mined blocks. The eighth is late and the
ninth is not, so that the tenth is hard to mine; and after it nothing comes
for a day. -/
def blocks : List (ℕ × ℕ) :=
  [(1000000, 520159231), (1000060, 520159231), (1000120, 520159231), (1000180, 520159231),
    (1000240, 520159231), (1000300, 520159231), (1000360, 520159231), (1007000, 520159231),
    (1000400, 520159231), (1000460, 503970127), (1086800, 503970127), (1086860, 520128038)]

/-- The index of the first of them, by height. -/
def node (n : ℕ) : NodeState :=
  { NodeState.blank fun _ => ⟨1500000000, true, fun _ _ => true⟩ with
    hashBestChain := 9
    mapBlockIndex := (blocks.take n).zipIdx.foldl (fun m b => m.insert (BitVec.ofNat 256 b.2)
      { CBlockIndex.null with
        pprev := if b.2 = 0 then none else some (BitVec.ofNat 256 (b.2 - 1))
        nHeight := b.2
        nTime := b.1.1
        nBits := b.1.2 }) ∅ }

/-- A node whose tip and checkpoint are the tenth. -/
def full : FullNode where
  node := node 10
  orphans := ⟨∅, [], 0⟩
  setStakeSeenOrphan := ∅
  hashSyncCheckpoint := 9
  hashInvalidCheckpoint := 0
  hashSyncCheckpointOnDisk := some 9
  fNoSyncCheckpoints := false
  attempts := []

/-- The last, which comes before the one it is built on. -/
def block : CBlock where
  nVersion := 1
  hashPrevBlock := 10
  hashMerkleRoot := 0
  nTime := 1086860
  nBits := 520128038
  nNonce := 0
  vtx := []
  vchBlockSig := []

omit P

theorem targetChain : TargetChain (P := Platform.toy) (node 12) 9 := by
  have h₀ : TargetChain (P := Platform.toy) (node 12) 0 :=
    .genesis (P := Platform.toy) (by decide) (by decide)
  have h₁ : TargetChain (P := Platform.toy) (node 12) 1 := targetChain_succ h₀ (by decide)
  have h₂ : TargetChain (P := Platform.toy) (node 12) 2 := targetChain_succ h₁ (by decide)
  have h₃ : TargetChain (P := Platform.toy) (node 12) 3 := targetChain_succ h₂ (by decide)
  have h₄ : TargetChain (P := Platform.toy) (node 12) 4 := targetChain_succ h₃ (by decide)
  have h₅ : TargetChain (P := Platform.toy) (node 12) 5 := targetChain_succ h₄ (by decide)
  have h₆ : TargetChain (P := Platform.toy) (node 12) 6 := targetChain_succ h₅ (by decide)
  have h₇ : TargetChain (P := Platform.toy) (node 12) 7 := targetChain_succ h₆ (by decide)
  have h₈ : TargetChain (P := Platform.toy) (node 12) 8 := targetChain_succ h₇ (by decide)
  exact targetChain_succ h₈ (by decide)

/-- Up to the block after the day. -/
theorem workChain : WorkChain (P := Platform.toy) (node 12) 9 10 :=
  .next (P := Platform.toy) (.base (P := Platform.toy) targetChain (by decide) (by decide))
    (targetChain_succ targetChain (by decide)) (by decide) fun _ => by decide

/-- The day is too long for the bound. -/
theorem not_keepsPace : ¬ (node 12).KeepsPace (P := Platform.toy) 9 10 86400 := by
  have htwo : lastTwo (node 12) false 10 = some (10, 9) := by decide
  rintro (h | ⟨p, pp, h, hlt⟩)
  · exact absurd h (by decide)
  · obtain ⟨rfl, rfl⟩ := Prod.mk.inj (Option.some.inj (htwo.symm.trans h))
    exact absurd hlt (by decide)

end QuietDay

omit P in
open QuietDay in
/-- The last block is punished for the target it has to have. -/
theorem computeMinWork_bounds_iff_quietDay : letI := Platform.toy;
    ¬ setCompact (getNextTargetRequired (node 12) 10 false) ≤
        setCompact (computeMinWork ((node 12).entry 9).nBits 86400) ∧
      full.checkMinWork block ≠ .ok () := by
  letI := Platform.toy
  have h := computeMinWork_bounds_iff (node 12) 9 10 workChain 86400
  have hcheck := h.2 full block (by decide) (by decide) (by decide)
    (by decide) (by decide) (by decide) (by decide)
  exact ⟨fun hle => not_keepsPace (h.1.1 hle), fun hok => not_keepsPace (hcheck.1 hok)⟩

omit P in
open QuietDay in
/-- **The least work is no bound**: behind a block that is a day late the
target is thirteen times what it was, where the bound has four times. And
sent ahead of that block, its successor is refused. -/
theorem computeMinWork_not_bound :
    (¬ ∀ (_ : Platform) (s : NodeState) (base prev pindex : Uint256), WorkChain s base prev →
      WorkChain s base pindex → s.pprev pindex = some prev → (s.entry pindex).fProofOfStake = false →
        setCompact (getNextTargetRequired s prev false) ≤ setCompact (computeMinWork (s.entry base).nBits
          ((s.entry pindex).getBlockTime - (s.entry base).getBlockTime))) ∧
    letI := Platform.toy
    full.getLastSyncCheckpoint = some 9 ∧ block.nBits = getNextTargetRequired (node 12) 10 false ∧
      full.checkMinWork block = .error (.error "ProcessBlock() : block with too little proof-of-work") := by
  refine ⟨fun h => ?_, by decide, by decide, by decide⟩
  have hlast : WorkChain (P := Platform.toy) (node 12) 9 11 :=
    .next (P := Platform.toy) workChain
      (targetChain_succ (WorkChain.targetChain (P := Platform.toy) workChain) (by decide))
      (by decide) fun _ => by decide
  have hle := h Platform.toy (node 12) 9 10 11 workChain hlast (by decide) (by decide)
  exact absurd hle (by decide)

end CryptoBullion
