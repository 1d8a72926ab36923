import CryptoBullion.Model.Work
/-!
# Compact numbers

What `GetCompact` keeps of a number: its length in bytes and the three
leading ones. Reading it back rounds the number down, keeps the order, and
changes nothing where the number came out of a compact value.
-/

namespace CryptoBullion

variable {m n : ℕ}

/-! ## How long a number is -/

theorem mpiSize_pos (hn : 0 < n) : 1 ≤ mpiSize n := by
  unfold mpiSize
  split_ifs <;> omega

/-- The top bit of the first byte is clear. -/
theorem lt_two_pow_mpiSize (hn : 0 < n) : n < 2 ^ (8 * mpiSize n - 1) := by
  refine Nat.lt_log2_self.trans_le (Nat.pow_le_pow_right (by norm_num) ?_)
  unfold mpiSize
  split_ifs <;> omega

/-- And no byte could be left out. -/
theorem two_pow_mpiSize_le (hn : 0 < n) : 2 ^ (8 * mpiSize n - 9) ≤ n := by
  refine (Nat.pow_le_pow_right (by norm_num) ?_).trans (Nat.log2_self_le hn.ne')
  unfold mpiSize
  split_ifs <;> omega

theorem mpiSize_lt (hn : 0 < n) {k : ℕ} (h : n < 2 ^ (8 * k - 9)) (hk : 2 ≤ k) :
    mpiSize n < k := by
  by_contra hle
  have hmono : 2 ^ (8 * k - 9) ≤ 2 ^ (8 * mpiSize n - 9) :=
    Nat.pow_le_pow_right (by norm_num) (by omega)
  exact absurd ((hmono.trans (two_pow_mpiSize_le hn)).trans_lt h) (lt_irrefl _)

theorem mpiSize_mono (hm : 0 < m) (h : m ≤ n) : mpiSize m ≤ mpiSize n := by
  by_contra hlt
  have hpow : 2 ^ (8 * mpiSize n - 1) ≤ 2 ^ (8 * mpiSize m - 9) :=
    Nat.pow_le_pow_right (by norm_num) (by omega)
  have hlt := lt_two_pow_mpiSize (hm.trans_le h)
  have hle := two_pow_mpiSize_le hm
  omega

/-! ## What is kept -/

/-- A number without the bytes after the third. -/
def leading (n : ℕ) : ℕ := n / 256 ^ (mpiSize n - 3) * 256 ^ (mpiSize n - 3)

theorem leading_le : leading n ≤ n := Nat.div_mul_le_self _ _

theorem two_fifty_six_pow (k : ℕ) : 256 ^ k = 2 ^ (8 * k) := by
  rw [pow_mul]
  norm_num

/-- The first byte, or the bit behind it, is kept. -/
theorem two_pow_le_leading (hn : 0 < n) : 2 ^ (8 * mpiSize n - 9) ≤ leading n := by
  have hle := two_pow_mpiSize_le hn
  unfold leading
  rw [two_fifty_six_pow]
  obtain ⟨e, he⟩ : ∃ e, 8 * mpiSize n - 9 = 8 * (mpiSize n - 3) + e ∨ mpiSize n - 3 = 0 := by
    refine ⟨8 * mpiSize n - 9 - 8 * (mpiSize n - 3), ?_⟩
    omega
  rcases he with he | he
  · have hdiv : 2 ^ e ≤ n / 2 ^ (8 * (mpiSize n - 3)) := by
      rw [Nat.le_div_iff_mul_le (Nat.two_pow_pos _), ← pow_add, add_comm, ← he]
      exact hle
    calc 2 ^ (8 * mpiSize n - 9) = 2 ^ e * 2 ^ (8 * (mpiSize n - 3)) := by
          rw [he, pow_add, mul_comm]
      _ ≤ n / 2 ^ (8 * (mpiSize n - 3)) * 2 ^ (8 * (mpiSize n - 3)) :=
          Nat.mul_le_mul_right _ hdiv
  · rw [he]
    simpa using hle

theorem leading_pos (hn : 0 < n) : 0 < leading n :=
  (Nat.two_pow_pos _).trans_le (two_pow_le_leading hn)

/-- **Cutting a number keeps the order.** -/
theorem leading_mono (h : m ≤ n) : leading m ≤ leading n := by
  rcases Nat.eq_zero_or_pos m with rfl | hm
  · simp [leading]
  rcases (mpiSize_mono hm h).eq_or_lt with heq | hlt
  · unfold leading
    rw [heq]
    exact Nat.mul_le_mul_right _ (Nat.div_le_div_right h)
  · have hpow : 2 ^ (8 * mpiSize m - 1) ≤ 2 ^ (8 * mpiSize n - 9) :=
      Nat.pow_le_pow_right (by norm_num) (by omega)
    have hlow := lt_two_pow_mpiSize hm
    have hhigh := two_pow_le_leading (hm.trans_le h)
    exact leading_le.trans (hlow.le.trans (hpow.trans hhigh))

/-! ## Reading it back -/

/-- The three bytes a compact value has of a number. -/
def mantissa (n : ℕ) : ℕ :=
  if mpiSize n ≤ 3 then n * 256 ^ (3 - mpiSize n) else n / 256 ^ (mpiSize n - 3)

theorem getCompact_natCast : getCompact (n : ℤ) = mpiSize n * 16777216 + mantissa n := by
  have hneg : ¬ (n : ℤ) < 0 := by omega
  simp only [getCompact, mantissa, Int.natAbs_natCast, if_neg hneg, add_zero]

theorem mantissa_lt (hn : 0 < n) : mantissa n < 8388608 := by
  have hlt := lt_two_pow_mpiSize hn
  have hpos := mpiSize_pos hn
  unfold mantissa
  split_ifs with hk
  · calc n * 256 ^ (3 - mpiSize n) < 2 ^ (8 * mpiSize n - 1) * 256 ^ (3 - mpiSize n) :=
          Nat.mul_lt_mul_of_pos_right hlt (by positivity)
      _ = 2 ^ 23 := by
          rw [two_fifty_six_pow, ← pow_add]
          congr 1
          omega
      _ = 8388608 := by norm_num
  · rw [Nat.div_lt_iff_lt_mul (by positivity)]
    refine hlt.trans_eq ?_
    rw [two_fifty_six_pow, show 8388608 = 2 ^ 23 by norm_num, ← pow_add]
    congr 1
    omega

/-- **A number read back** is what was kept of it. -/
theorem setCompact_getCompact (hn : 0 < n) (hsize : mpiSize n < 256) :
    setCompact (getCompact (n : ℤ)) = leading n := by
  have hlt := mantissa_lt hn
  have hk : (mpiSize n * 16777216 + mantissa n) / 16777216 % 256 = mpiSize n := by omega
  have hm : (mpiSize n * 16777216 + mantissa n) % 8388608 = mantissa n := by omega
  have hsign : ¬ (1 ≤ mpiSize n ∧ (mpiSize n * 16777216 + mantissa n) / 8388608 % 2 = 1) := by
    omega
  rw [getCompact_natCast]
  simp only [setCompact, hk, hm, if_neg hsign]
  unfold leading mantissa
  split_ifs with hle
  · rw [Nat.mul_div_cancel _ (by positivity), Nat.sub_eq_zero_of_le hle]
    simp
  · rfl

/-- What is not positive does not become so. -/
theorem setCompact_getCompact_nonpos {n : ℤ} (hn : n ≤ 0) : setCompact (getCompact n) ≤ 0 := by
  rcases hn.eq_or_lt with rfl | hneg
  · decide
  have hnat : 0 < n.natAbs := by omega
  have hlt := mantissa_lt hnat
  have hpos := mpiSize_pos hnat
  have hcompact : getCompact n = mpiSize n.natAbs * 16777216 + mantissa n.natAbs + 8388608 := by
    simp only [getCompact, mantissa, if_pos hneg]
  rw [hcompact]
  unfold setCompact
  dsimp only
  split_ifs with hsign hk hk
  · exact Int.neg_nonpos_of_nonneg (Int.natCast_nonneg _)
  · exact Int.neg_nonpos_of_nonneg (Int.natCast_nonneg _)
  all_goals
    -- the sign is there, so the size byte has come out as zero
    have hzero : (mpiSize n.natAbs * 16777216 + mantissa n.natAbs + 8388608) / 16777216 % 256 = 0 := by
      omega
    have hm : (mpiSize n.natAbs * 16777216 + mantissa n.natAbs + 8388608) % 8388608 < 256 ^ 3 := by
      omega
  · rw [hzero, Nat.sub_zero, Nat.div_eq_of_lt hm]
    rfl
  · omega

/-! ## What comes out of a compact value -/

theorem natAbs_setCompact (c : ℕ) : (setCompact c).natAbs =
    if c / 16777216 % 256 ≤ 3 then c % 8388608 / 256 ^ (3 - c / 16777216 % 256)
    else c % 8388608 * 256 ^ (c / 16777216 % 256 - 3) := by
  unfold setCompact
  dsimp only
  split <;> simp only [Int.natAbs_neg, Int.natAbs_natCast]

/-- **A number out of a compact value** goes back into one unchanged. -/
theorem leading_setCompact (c : ℕ) : leading (setCompact c).natAbs = (setCompact c).natAbs := by
  have hm : c % 8388608 < 2 ^ 23 := Nat.mod_lt _ (by norm_num)
  rcases Nat.eq_zero_or_pos (setCompact c).natAbs with hzero | hpos
  · rw [hzero]
    rfl
  rw [natAbs_setCompact] at hpos ⊢
  unfold leading
  split_ifs at hpos ⊢ with hk
  · have hsize := mpiSize_lt hpos (k := 4)
      ((Nat.div_le_self _ _).trans_lt (hm.trans_eq (by norm_num))) (by norm_num)
    have hnone : mpiSize (c % 8388608 / 256 ^ (3 - c / 16777216 % 256)) - 3 = 0 := by omega
    rw [hnone, pow_zero, Nat.div_one, mul_one]
  · have hlt : c % 8388608 * 256 ^ (c / 16777216 % 256 - 3) <
        2 ^ (8 * (c / 16777216 % 256 + 1) - 9) := by
      calc c % 8388608 * 256 ^ (c / 16777216 % 256 - 3)
          < 2 ^ 23 * 256 ^ (c / 16777216 % 256 - 3) := Nat.mul_lt_mul_of_pos_right hm (by positivity)
        _ = 2 ^ (8 * (c / 16777216 % 256 + 1) - 9) := by
            rw [two_fifty_six_pow, ← pow_add]
            congr 1
            omega
    have hsize := mpiSize_lt hpos hlt (by omega)
    refine Nat.div_mul_cancel ((pow_dvd_pow 256 ?_).mul_left _)
    omega

/-- The order of compact values is that of what they keep. -/
theorem leading_le_of_getCompact_le (hm : 0 < m) (hn : 0 < n)
    (h : getCompact (m : ℤ) ≤ getCompact (n : ℤ)) : leading m ≤ leading n := by
  have hml := mantissa_lt hm
  have hnl := mantissa_lt hn
  rw [getCompact_natCast, getCompact_natCast] at h
  rcases (show mpiSize m ≤ mpiSize n by omega).eq_or_lt with heq | hlt
  · have hle : mantissa m ≤ mantissa n := by omega
    unfold mantissa at hle
    rw [heq] at hle
    unfold leading
    rw [heq]
    split_ifs at hle with hk
    · rw [Nat.sub_eq_zero_of_le hk]
      simpa using hle
    · exact Nat.mul_le_mul_right _ hle
  · have hpow : 2 ^ (8 * mpiSize m - 1) ≤ 2 ^ (8 * mpiSize n - 9) :=
      Nat.pow_le_pow_right (by norm_num) (by omega)
    have hlow := lt_two_pow_mpiSize hm
    exact leading_le.trans (hlow.le.trans (hpow.trans (two_pow_le_leading hn)))

end CryptoBullion
