import CryptoBullion.Model.BaseUint
import CryptoBullion.Wallet.Dump
/-!
# Integers of a fixed width are numbers modulo a power of two

What each loop over the words does to the number: a carry is worth the next
word's one, the highest words that differ decide an order, and a bit of a
word goes where a shift says. A number is read back from its digits.
-/

namespace CryptoBullion

namespace BaseUint

open Words

variable {WIDTH : ℕ} {a b pn : List (BitVec 32)}

/-! ## Sums -/

theorem toNat_zero_word : (0 : BitVec 32).toNat = 0 := rfl

/-- **The loop of `operator+=`** adds, and the carry in; what is carried out
of the last word is lost. -/
theorem value_addLoop (carry : BitVec 64) (hcarry : carry.toNat ≤ 1) (h : a.length = b.length) :
    ∃ out, value (addLoop carry a b) + 2 ^ (32 * a.length) * out =
      value a + value b + carry.toNat := by
  induction a generalizing b carry with
  | nil =>
    obtain rfl := List.length_eq_zero_iff.1 h.symm
    exact ⟨carry.toNat, by simp [addLoop]⟩
  | cons p a ih =>
    rcases b with _ | ⟨q, b⟩
    · exact absurd h (by simp)
    have hp := p.isLt
    have hq := q.isLt
    rw [addLoop]
    obtain ⟨n, hn⟩ : ∃ n, n = carry + p.setWidth 64 + q.setWidth 64 := ⟨_, rfl⟩
    rw [← hn]
    have hsum : n.toNat = carry.toNat + p.toNat + q.toNat := by
      rw [hn, BitVec.toNat_add, BitVec.toNat_add, BitVec.toNat_setWidth, BitVec.toNat_setWidth]
      omega
    have hlow : ((n &&& 0xffffffff).setWidth 32).toNat = n.toNat % 2 ^ 32 := by
      have hmask : (0xffffffff : BitVec 64).toNat = 2 ^ 32 - 1 := rfl
      rw [BitVec.toNat_setWidth, BitVec.toNat_and, hmask, Nat.and_two_pow_sub_one_eq_mod,
        Nat.mod_mod]
    have hhigh : (n >>> 32).toNat = n.toNat / 2 ^ 32 := by
      rw [BitVec.toNat_ushiftRight, Nat.shiftRight_eq_div_pow]
    obtain ⟨out, hout⟩ := ih (n >>> 32) (by rw [hhigh]; omega) (by simpa using h)
    refine ⟨out, ?_⟩
    rw [hhigh] at hout
    rw [value_cons, value_cons, value_cons, hlow, List.length_cons, Nat.mul_succ, pow_add]
    -- the word and its carry are the sum of two words
    have hword := Nat.mod_add_div n.toNat (2 ^ 32)
    calc n.toNat % 2 ^ 32 + 2 ^ 32 * value (addLoop (n >>> 32) a b) +
          2 ^ (32 * a.length) * 2 ^ 32 * out
        = n.toNat % 2 ^ 32 +
            2 ^ 32 * (value (addLoop (n >>> 32) a b) + 2 ^ (32 * a.length) * out) := by ring
      _ = n.toNat % 2 ^ 32 + 2 ^ 32 * (n.toNat / 2 ^ 32) + 2 ^ 32 * (value a + value b) := by
          rw [hout]
          ring
      _ = p.toNat + 2 ^ 32 * value a + (q.toNat + 2 ^ 32 * value b) + carry.toNat := by
          rw [hword, hsum]
          ring

/-- **The loop of `operator++`** adds one. -/
theorem value_incrLoop (pn : List (BitVec 32)) :
    ∃ out, value (incrLoop pn) + 2 ^ (32 * pn.length) * out =
      value pn + if pn = [] then 0 else 1 := by
  induction pn with
  | nil => exact ⟨0, rfl⟩
  | cons p pn ih =>
    have hp := p.isLt
    have hone : (p + 1).toNat = (p.toNat + 1) % 2 ^ 32 := BitVec.toNat_add p 1
    obtain ⟨out, hout⟩ := ih
    rw [incrLoop, if_neg (List.cons_ne_nil _ _), value_cons, value_cons, List.length_cons,
      Nat.mul_succ, pow_add]
    by_cases hzero : p + 1 = 0
    · have hmax : p.toNat + 1 = 2 ^ 32 := by
        rw [hzero, toNat_zero_word] at hone
        omega
      rcases eq_or_ne pn [] with rfl | hne
      · refine ⟨1, ?_⟩
        rw [if_neg (fun h => h.2 rfl), hzero, toNat_zero_word, value_nil, List.length_nil]
        omega
      · rw [if_pos ⟨hzero, hne⟩, hzero]
        rw [if_neg hne] at hout
        refine ⟨out, ?_⟩
        calc (0 : BitVec 32).toNat + 2 ^ 32 * value (incrLoop pn) +
              2 ^ (32 * pn.length) * 2 ^ 32 * out
            = 2 ^ 32 * (value (incrLoop pn) + 2 ^ (32 * pn.length) * out) := by
              rw [toNat_zero_word]
              ring
          _ = (p.toNat + 1) + 2 ^ 32 * value pn := by rw [hout, hmax]; ring
          _ = p.toNat + 2 ^ 32 * value pn + 1 := by ring
    · refine ⟨0, ?_⟩
      have hlt : p.toNat + 1 ≠ 2 ^ 32 := fun h => hzero (BitVec.eq_of_toNat_eq (by
        rw [hone, h]
        rfl))
      rw [if_neg (fun h => hzero h.1), hone, Nat.mod_eq_of_lt (by omega)]
      ring

/-- **The loop of `operator--`** takes one away. -/
theorem value_decrLoop (pn : List (BitVec 32)) :
    ∃ out, value (decrLoop pn) + (if pn = [] then 0 else 1) =
      value pn + 2 ^ (32 * pn.length) * out := by
  induction pn with
  | nil => exact ⟨0, rfl⟩
  | cons p pn ih =>
    have hp := p.isLt
    obtain ⟨out, hout⟩ := ih
    rw [decrLoop, if_neg (List.cons_ne_nil _ _), value_cons, value_cons, List.length_cons,
      Nat.mul_succ, pow_add]
    by_cases hzero : p = 0
    · subst hzero
      have hmax : (0 : BitVec 32) - 1 = 0xffffffff := rfl
      rw [hmax]
      rcases eq_or_ne pn [] with rfl | hne
      · exact ⟨1, by rw [if_neg (fun h => h.2 rfl)]; rfl⟩
      · rw [if_pos ⟨rfl, hne⟩]
        rw [if_neg hne] at hout
        refine ⟨out, ?_⟩
        have hword : (0xffffffff : BitVec 32).toNat + 1 = 2 ^ 32 := rfl
        calc (0xffffffff : BitVec 32).toNat + 2 ^ 32 * value (decrLoop pn) + 1
            = 2 ^ 32 * (value (decrLoop pn) + 1) := by
              rw [Nat.mul_succ, ← hword]
              ring
          _ = (0 : BitVec 32).toNat + 2 ^ 32 * value pn + 2 ^ (32 * pn.length) * 2 ^ 32 * out := by
              rw [hout, toNat_zero_word]
              ring
    · have hpos : p.toNat ≠ 0 := fun h => hzero (BitVec.eq_of_toNat_eq h)
      have hone : (p - 1).toNat = p.toNat - 1 := by
        rw [BitVec.toNat_sub, show (1 : BitVec 32).toNat = 1 from rfl]
        omega
      have hnot : p - 1 ≠ 0xffffffff := fun h => by
        rw [h] at hone
        have hword : (0xffffffff : BitVec 32).toNat = 2 ^ 32 - 1 := rfl
        omega
      refine ⟨0, ?_⟩
      rw [if_neg (fun h => hnot h.1), hone]
      omega

/-! ## Order -/

/-- **The loop of the comparisons** finds which number is less, or that
neither is. -/
theorem lessLoop_eq (equal : Bool) (h : a.length = b.length) : lessLoop equal a b =
    (decide (value a.reverse < value b.reverse) ||
      equal && decide (value a.reverse = value b.reverse)) := by
  induction a generalizing b with
  | nil =>
    obtain rfl := List.length_eq_zero_iff.1 h.symm
    cases equal <;> rfl
  | cons p a ih =>
    rcases b with _ | ⟨q, b⟩
    · exact absurd h (by simp)
    have hlen : a.reverse.length = b.reverse.length := by simpa using h
    have hless := value_append_lt (x := p) (y := q) hlen
    have hmore := value_append_lt (x := q) (y := p) hlen.symm
    rw [lessLoop, List.reverse_cons, List.reverse_cons]
    by_cases hpq : p < q
    · rw [if_pos hpq, decide_eq_true (hless.2 (.inl hpq))]
      rfl
    by_cases hqp : q < p
    · have hgt := hmore.2 (.inl hqp)
      rw [if_neg hpq, if_pos hqp, decide_eq_false (by omega), decide_eq_false (by omega)]
      simp
    · obtain rfl : p = q := BitVec.eq_of_toNat_eq (by
        rw [BitVec.lt_def] at hpq hqp
        omega)
      have hvalue : value (a.reverse ++ [p]) < value (b.reverse ++ [p]) ↔
          value a.reverse < value b.reverse := by
        rw [hless]
        simp
      have hequal : value (a.reverse ++ [p]) = value (b.reverse ++ [p]) ↔
          value a.reverse = value b.reverse := by
        rw [value_append, value_append, hlen]
        omega
      rw [if_neg hpq, if_neg hqp, ih (by simpa using h)]
      simp only [hvalue, hequal]

theorem equalLoop_eq (h : a.length = b.length) : equalLoop a b = decide (a = b) := by
  induction a generalizing b with
  | nil =>
    obtain rfl := List.length_eq_zero_iff.1 h.symm
    rfl
  | cons p a ih =>
    rcases b with _ | ⟨q, b⟩
    · exact absurd h (by simp)
    rw [equalLoop]
    by_cases hpq : p = q
    · rw [if_neg (fun hne => hne hpq), ih (by simpa using h)]
      simp [hpq]
    · rw [if_pos hpq]
      simp [hpq]

/-! ## Shifts -/

section
variable {k shift i j r : ℕ}

/-- What a turn of `operator<<=` ors in. -/
def shlWords (WIDTH k shift : ℕ) (a : List (BitVec 32)) (i : ℕ) : List (ℕ × BitVec 32) :=
  (if i + k + 1 < WIDTH ∧ shift ≠ 0 then [(i + k + 1, a.getD i 0 >>> (32 - shift))] else []) ++
    if i + k < WIDTH then [(i + k, a.getD i 0 <<< shift)] else []

theorem shlTurn_eq (pn : List (BitVec 32)) (i : ℕ) :
    shlTurn WIDTH k shift a pn i = orAll pn (shlWords WIDTH k shift a i) := by
  unfold shlTurn shlWords
  split_ifs <;> rfl

/-- What a turn of `operator>>=` ors in. -/
def shrWords (k shift : ℕ) (a : List (BitVec 32)) (i : ℕ) : List (ℕ × BitVec 32) :=
  (if k + 1 ≤ i ∧ shift ≠ 0 then [(i - k - 1, a.getD i 0 <<< (32 - shift))] else []) ++
    if k ≤ i then [(i - k, a.getD i 0 >>> shift)] else []

theorem shrTurn_eq (pn : List (BitVec 32)) (i : ℕ) :
    shrTurn k shift a pn i = orAll pn (shrWords k shift a i) := by
  unfold shrTurn shrWords
  split_ifs <;> rfl

/-- **A bit after a shift to the left** is the one that many places below. -/
theorem mem_shlWords_iff (hshift : shift < 32) (hj : j < WIDTH) (hr : r < 32) :
    (∃ c ∈ (List.range WIDTH).flatMap (shlWords WIDTH k shift a), c.1 = j ∧ c.2.getLsbD r = true) ↔
      32 * k + shift ≤ 32 * j + r ∧ (a.getD ((32 * j + r - (32 * k + shift)) / 32) 0).getLsbD
        ((32 * j + r - (32 * k + shift)) % 32) = true := by
  simp only [List.mem_flatMap, List.mem_range, shlWords, List.mem_append]
  constructor
  · rintro ⟨c, ⟨i, hi, hc | hc⟩, hcj, hbit⟩
    · -- the upper bits of the word before
      split_ifs at hc with hcond
      · obtain rfl := List.mem_singleton.1 hc
        dsimp only at hcj hbit
        rw [BitVec.getLsbD_ushiftRight] at hbit
        have hlow : 32 - shift + r < 32 := by
          by_contra hge
          rw [BitVec.getLsbD_of_ge _ _ (not_lt.1 hge)] at hbit
          exact absurd hbit (by simp)
        have hdiv : (32 * j + r - (32 * k + shift)) / 32 = i := by omega
        have hmod : (32 * j + r - (32 * k + shift)) % 32 = 32 - shift + r := by omega
        rw [hdiv, hmod]
        exact ⟨by omega, hbit⟩
      · exact absurd hc List.not_mem_nil
    · -- the lower bits of the word itself
      split_ifs at hc with hcond
      · obtain rfl := List.mem_singleton.1 hc
        dsimp only at hcj hbit
        rw [BitVec.getLsbD_shiftLeft] at hbit
        simp only [Bool.and_eq_true, decide_eq_true_eq, Bool.not_eq_true', decide_eq_false_iff_not,
          not_lt] at hbit
        obtain ⟨⟨-, hle⟩, hbit⟩ := hbit
        have hdiv : (32 * j + r - (32 * k + shift)) / 32 = i := by omega
        have hmod : (32 * j + r - (32 * k + shift)) % 32 = r - shift := by omega
        rw [hdiv, hmod]
        exact ⟨by omega, hbit⟩
      · exact absurd hc List.not_mem_nil
  · rintro ⟨hle, hbit⟩
    rcases Nat.lt_or_ge r shift with hlt | hge
    · have hdiv : (32 * j + r - (32 * k + shift)) / 32 = j - k - 1 := by omega
      have hmod : (32 * j + r - (32 * k + shift)) % 32 = 32 - shift + r := by omega
      rw [hdiv, hmod] at hbit
      refine ⟨(j - k - 1 + k + 1, a.getD (j - k - 1) 0 >>> (32 - shift)),
        ⟨j - k - 1, by omega, .inl ?_⟩, by dsimp only; omega, ?_⟩
      · rw [if_pos ⟨by omega, by omega⟩]
        exact List.mem_singleton_self _
      · rw [BitVec.getLsbD_ushiftRight]
        exact hbit
    · have hdiv : (32 * j + r - (32 * k + shift)) / 32 = j - k := by omega
      have hmod : (32 * j + r - (32 * k + shift)) % 32 = r - shift := by omega
      rw [hdiv, hmod] at hbit
      refine ⟨(j - k + k, a.getD (j - k) 0 <<< shift), ⟨j - k, by omega, .inr ?_⟩,
        by dsimp only; omega, ?_⟩
      · rw [if_pos (by omega)]
        exact List.mem_singleton_self _
      · rw [BitVec.getLsbD_shiftLeft, hbit]
        simp [hr, hge]

/-- **A bit after a shift to the right** is the one that many places above. -/
theorem mem_shrWords_iff (hshift : shift < 32) (hlen : a.length = WIDTH) (hr : r < 32) :
    (∃ c ∈ (List.range WIDTH).flatMap (shrWords k shift a), c.1 = j ∧ c.2.getLsbD r = true) ↔
      (a.getD ((32 * j + r + (32 * k + shift)) / 32) 0).getLsbD
        ((32 * j + r + (32 * k + shift)) % 32) = true := by
  have hbound : ∀ i q, (a.getD i 0).getLsbD q = true → i < WIDTH := by
    intro i q hbit
    by_contra hge
    rw [List.getD_eq_default _ _ (by omega)] at hbit
    exact absurd hbit (by simp)
  simp only [List.mem_flatMap, List.mem_range, shrWords, List.mem_append]
  constructor
  · rintro ⟨c, ⟨i, hi, hc | hc⟩, hcj, hbit⟩
    · -- the lower bits of the word behind
      split_ifs at hc with hcond
      · obtain rfl := List.mem_singleton.1 hc
        dsimp only at hcj hbit
        rw [BitVec.getLsbD_shiftLeft] at hbit
        simp only [Bool.and_eq_true, decide_eq_true_eq, Bool.not_eq_true', decide_eq_false_iff_not,
          not_lt] at hbit
        obtain ⟨⟨-, hle⟩, hbit⟩ := hbit
        have hdiv : (32 * j + r + (32 * k + shift)) / 32 = i := by omega
        have hmod : (32 * j + r + (32 * k + shift)) % 32 = r - (32 - shift) := by omega
        rw [hdiv, hmod]
        exact hbit
      · exact absurd hc List.not_mem_nil
    · -- the upper bits of the word itself
      split_ifs at hc with hcond
      · obtain rfl := List.mem_singleton.1 hc
        dsimp only at hcj hbit
        rw [BitVec.getLsbD_ushiftRight] at hbit
        have hlow : shift + r < 32 := by
          by_contra hge
          rw [BitVec.getLsbD_of_ge _ _ (not_lt.1 hge)] at hbit
          exact absurd hbit (by simp)
        have hdiv : (32 * j + r + (32 * k + shift)) / 32 = i := by omega
        have hmod : (32 * j + r + (32 * k + shift)) % 32 = shift + r := by omega
        rw [hdiv, hmod]
        exact hbit
      · exact absurd hc List.not_mem_nil
  · intro hbit
    have hi := hbound _ _ hbit
    rcases Nat.lt_or_ge (shift + r) 32 with hlt | hge
    · have hdiv : (32 * j + r + (32 * k + shift)) / 32 = j + k := by omega
      have hmod : (32 * j + r + (32 * k + shift)) % 32 = shift + r := by omega
      rw [hdiv] at hi
      rw [hdiv, hmod] at hbit
      refine ⟨(j + k - k, a.getD (j + k) 0 >>> shift), ⟨j + k, hi, .inr ?_⟩,
        by dsimp only; omega, ?_⟩
      · rw [if_pos (by omega)]
        exact List.mem_singleton_self _
      · rw [BitVec.getLsbD_ushiftRight]
        exact hbit
    · have hdiv : (32 * j + r + (32 * k + shift)) / 32 = j + k + 1 := by omega
      have hmod : (32 * j + r + (32 * k + shift)) % 32 = r - (32 - shift) := by omega
      rw [hdiv] at hi
      rw [hdiv, hmod] at hbit
      refine ⟨(j + k + 1 - k - 1, a.getD (j + k + 1) 0 <<< (32 - shift)),
        ⟨j + k + 1, hi, .inl ?_⟩, by dsimp only; omega, ?_⟩
      · rw [if_pos ⟨by omega, by omega⟩]
        exact List.mem_singleton_self _
      · rw [BitVec.getLsbD_shiftLeft, hbit]
        simp [hr]
        omega

end

/-! ## The operators -/

section
variable (x y : BaseUint WIDTH) (shift : ℕ)

theorem toNat_lt : x.toNat < 2 ^ (32 * WIDTH) := by
  have h := value_lt x.pn
  rwa [x.length_pn] at h

theorem eq_of_toNat {x y : BaseUint WIDTH} (h : x.toNat = y.toNat) : x = y := by
  obtain ⟨a, ha⟩ := x
  obtain ⟨b, hb⟩ := y
  obtain rfl : a = b := eq_of_value (ha.trans hb.symm) h
  rfl

theorem toNat_shl : (x.shl shift).toNat = x.toNat * 2 ^ shift % 2 ^ (32 * WIDTH) := by
  have hsplit : 32 * (shift / 32) + shift % 32 = shift := Nat.div_add_mod shift 32
  have hlt : shift % 32 < 32 := Nat.mod_lt _ (by norm_num)
  unfold shl shlAssign toNat
  dsimp only
  rw [foldl_eq_orAll _ (shlWords WIDTH (shift / 32) (shift % 32) x.pn) shlTurn_eq]
  refine value_orAll (by norm_num) (Nat.mod_lt _ (Nat.two_pow_pos _)) fun j hj r hr => ?_
  rw [mem_shlWords_iff hlt hj hr, hsplit, Nat.testBit_mod_two_pow, ← Nat.shiftLeft_eq,
    Nat.testBit_shiftLeft, testBit_value (by norm_num),
    decide_eq_true (show 32 * j + r < 32 * WIDTH by omega)]
  simp

theorem toNat_shr : (x.shr shift).toNat = x.toNat / 2 ^ shift := by
  have hsplit : 32 * (shift / 32) + shift % 32 = shift := Nat.div_add_mod shift 32
  have hlt : shift % 32 < 32 := Nat.mod_lt _ (by norm_num)
  unfold shr shrAssign toNat
  dsimp only
  rw [foldl_eq_orAll _ (shrWords (shift / 32) (shift % 32) x.pn) shrTurn_eq]
  refine value_orAll (by norm_num) ((Nat.div_le_self _ _).trans_lt x.toNat_lt) fun j hj r hr => ?_
  rw [mem_shrWords_iff hlt x.length_pn hr, hsplit, ← Nat.shiftRight_eq_div_pow,
    Nat.testBit_shiftRight, testBit_value (by norm_num), Nat.add_comm shift]

/-- A number below the modulus is what it differs from by multiples. -/
theorem natCast_eq_emod {n M : ℕ} {m c : ℤ} (hn : n < M) (h : (n : ℤ) = m + M * c) :
    (n : ℤ) = m % M := by
  rw [← Int.add_mul_emod_self_left m M c, ← h, Int.emod_eq_of_lt (by omega) (by omega)]

theorem toNat_add : ((x.add y).toNat : ℤ) = ((x.toNat : ℤ) + y.toNat) % (2 ^ (32 * WIDTH) : ℕ) := by
  obtain ⟨out, hout⟩ := value_addLoop 0 (Nat.zero_le 1) (x.length_pn.trans y.length_pn.symm)
  rw [x.length_pn, show (0 : BitVec 64).toNat = 0 from rfl, Nat.add_zero] at hout
  refine natCast_eq_emod (c := -out) (toNat_lt _) ?_
  change (value (addLoop 0 x.pn y.pn) : ℤ) = (value x.pn : ℤ) + value y.pn + _
  have hcast := congrArg (Nat.cast (R := ℤ)) hout
  push_cast at hcast ⊢
  linarith

theorem toNat_preIncr : (x.preIncr.toNat : ℤ) = ((x.toNat : ℤ) + 1) % (2 ^ (32 * WIDTH) : ℕ) := by
  obtain ⟨out, hout⟩ := value_incrLoop x.pn
  rw [x.length_pn] at hout
  have hone : ∃ c : ℤ, (if x.pn = [] then 0 else 1 : ℕ) = (1 : ℤ) + (2 ^ (32 * WIDTH) : ℕ) * c := by
    split_ifs with hnil
    · have hzero : WIDTH = 0 := by rw [← x.length_pn, hnil]; rfl
      exact ⟨-1, by rw [hzero]; rfl⟩
    · exact ⟨0, by simp⟩
  obtain ⟨c, hc⟩ := hone
  refine natCast_eq_emod (c := c - out) (toNat_lt _) ?_
  change (value (incrLoop x.pn) : ℤ) = (value x.pn : ℤ) + 1 + _
  have hcast := congrArg (Nat.cast (R := ℤ)) hout
  rw [Nat.cast_add, Nat.cast_add, hc] at hcast
  push_cast at hcast ⊢
  linarith

theorem toNat_preDecr : (x.preDecr.toNat : ℤ) = ((x.toNat : ℤ) - 1) % (2 ^ (32 * WIDTH) : ℕ) := by
  obtain ⟨out, hout⟩ := value_decrLoop x.pn
  rw [x.length_pn] at hout
  have hone : ∃ c : ℤ, (if x.pn = [] then 0 else 1 : ℕ) = (1 : ℤ) + (2 ^ (32 * WIDTH) : ℕ) * c := by
    split_ifs with hnil
    · have hzero : WIDTH = 0 := by rw [← x.length_pn, hnil]; rfl
      exact ⟨-1, by rw [hzero]; rfl⟩
    · exact ⟨0, by simp⟩
  obtain ⟨c, hc⟩ := hone
  refine natCast_eq_emod (c := out - c) (toNat_lt _) ?_
  change (value (decrLoop x.pn) : ℤ) = (value x.pn : ℤ) - 1 + _
  have hcast := congrArg (Nat.cast (R := ℤ)) hout
  rw [Nat.cast_add, Nat.cast_add, hc] at hcast
  push_cast at hcast ⊢
  linarith

theorem toNat_neg : (x.neg.toNat : ℤ) = -(x.toNat : ℤ) % (2 ^ (32 * WIDTH) : ℕ) := by
  have hnot := value_not x.pn
  rw [x.length_pn] at hnot
  have hret : ((value (x.pn.map fun p => ~~~p) : ℕ) : ℤ) + 1 =
      -(x.toNat : ℤ) + (2 ^ (32 * WIDTH) : ℕ) * 1 := by
    have hcast := congrArg (Nat.cast (R := ℤ)) hnot
    rw [Nat.cast_add, Nat.cast_add] at hcast
    rw [mul_one, ← hcast, toNat]
    push_cast
    ring
  unfold neg
  refine (toNat_preIncr _).trans ?_
  change ((value (x.pn.map fun p => ~~~p) : ℕ) + 1 : ℤ) % _ = _
  rw [hret, Int.add_mul_emod_self_left]

theorem toNat_sub : ((x.sub y).toNat : ℤ) = ((x.toNat : ℤ) - y.toNat) % (2 ^ (32 * WIDTH) : ℕ) := by
  refine (toNat_add x y.neg).trans ?_
  rw [toNat_neg, Int.add_emod_emod, ← sub_eq_add_neg]

theorem lt_iff : x.lt y = decide (x.toNat < y.toNat) := by
  rw [lt, lessLoop_eq false (by simp [x.length_pn, y.length_pn]), List.reverse_reverse,
    List.reverse_reverse, Bool.false_and, Bool.or_false]
  rfl

theorem le_iff : x.le y = decide (x.toNat ≤ y.toNat) := by
  rw [le, lessLoop_eq true (by simp [x.length_pn, y.length_pn]), List.reverse_reverse,
    List.reverse_reverse, Bool.true_and, ← Bool.decide_or]
  simp only [← le_iff_lt_or_eq]
  rfl

theorem eq_iff : x.eq y = decide (x.toNat = y.toNat) := by
  rw [eq, equalLoop_eq (x.length_pn.trans y.length_pn.symm)]
  refine decide_eq_decide.2 ⟨fun h => congrArg value h, fun h => congrArg pn (eq_of_toNat h)⟩

end

/-! ## As bit vectors -/

section
variable (x y : BaseUint WIDTH) (shift : ℕ)

/-- The words as one. -/
def toBitVec : BitVec (32 * WIDTH) := BitVec.ofNat (32 * WIDTH) x.toNat

/-- What a number is modulo the power says what its bit vector is. -/
theorem toBitVec_eq {m : ℤ} (h : (x.toNat : ℤ) = m % (2 ^ (32 * WIDTH) : ℕ)) :
    x.toBitVec = BitVec.ofInt (32 * WIDTH) m := by
  apply BitVec.eq_of_toNat_eq
  rw [toBitVec, BitVec.toNat_ofNat, Nat.mod_eq_of_lt x.toNat_lt, BitVec.toNat_ofInt, ← h,
    Int.toNat_natCast]

/-- **The operators are those of bit vectors.** -/
theorem toBitVec_add : (x.add y).toBitVec = x.toBitVec + y.toBitVec := by
  rw [toBitVec_eq _ (toNat_add x y), BitVec.ofInt_add, BitVec.ofInt_natCast, BitVec.ofInt_natCast]
  rfl

theorem toBitVec_neg : x.neg.toBitVec = -x.toBitVec := by
  rw [toBitVec_eq _ (toNat_neg x), BitVec.ofInt_neg, BitVec.ofInt_natCast]
  rfl

theorem toBitVec_sub : (x.sub y).toBitVec = x.toBitVec - y.toBitVec := by
  rw [BitVec.sub_eq_add_neg, ← toBitVec_neg, ← toBitVec_add]
  rfl

theorem toBitVec_shl : (x.shl shift).toBitVec = x.toBitVec <<< shift := by
  apply BitVec.eq_of_toNat_eq
  rw [toBitVec, toBitVec, BitVec.toNat_shiftLeft, BitVec.toNat_ofNat, BitVec.toNat_ofNat, toNat_shl,
    Nat.mod_mod, Nat.mod_eq_of_lt x.toNat_lt, Nat.shiftLeft_eq]

theorem toBitVec_shr : (x.shr shift).toBitVec = x.toBitVec >>> shift := by
  apply BitVec.eq_of_toNat_eq
  rw [toBitVec, toBitVec, BitVec.toNat_ushiftRight, BitVec.toNat_ofNat, BitVec.toNat_ofNat,
    Nat.mod_eq_of_lt (toNat_lt _), Nat.mod_eq_of_lt x.toNat_lt, toNat_shr,
    Nat.shiftRight_eq_div_pow]

end

/-! ## Digits -/

/-- What a digit that was written is for the loops of `SetHex`. -/
theorem hexDigit_spec : ∀ n < 16, Dump.hexDigit n ≠ 0 ∧ isSpace (Dump.hexDigit n) = false ∧
    Dump.hexDigit n ≠ 120 ∧ Dump.hexDigit n ≠ 88 ∧
      (hexdigit (Dump.hexDigit n) ≠ 0 ∨ Dump.hexDigit n = 48) := by
  decide

/-- A byte is read from its two digits. -/
theorem hexdigit_hexStr (c : UInt8) : hexdigit (Dump.hexDigit (c.toNat % 16)) |||
    hexdigit (Dump.hexDigit (c.toNat / 16)) <<< 4 = c := by
  have hall : ∀ n < 256, hexdigit (Dump.hexDigit (n % 16)) |||
      hexdigit (Dump.hexDigit (n / 16)) <<< 4 = UInt8.ofNat n := by
    decide +kernel
  rw [hall c.toNat c.toNat_lt, UInt8.ofNat_toNat]

/-- Every character that is written is a digit. -/
theorem mem_flatMap_hexStr {v : List UInt8} {c : UInt8} (h : c ∈ v.flatMap Dump.hexStr) :
    ∃ n < 16, c = Dump.hexDigit n := by
  obtain ⟨b, -, hc⟩ := List.mem_flatMap.1 h
  have hb := b.toNat_lt
  simp only [Dump.hexStr, List.mem_cons, List.not_mem_nil, or_false] at hc
  rcases hc with rfl | rfl
  · exact ⟨_, by omega, rfl⟩
  · exact ⟨_, by omega, rfl⟩

/-- **`SetHex` finds all that was written.** -/
theorem hexDigits_flatMap (v : List UInt8) :
    hexDigits (v.flatMap Dump.hexStr) = v.flatMap Dump.hexStr := by
  have hdigit : ∀ c ∈ v.flatMap Dump.hexStr, ∃ n < 16, c = Dump.hexDigit n :=
    fun c h => mem_flatMap_hexStr h
  generalize v.flatMap Dump.hexStr = psz at hdigit
  have hcstr : cStr psz = psz := List.takeWhile_eq_self_iff.2 fun c hc => by
    obtain ⟨n, hn, rfl⟩ := hdigit c hc
    simpa using (hexDigit_spec n hn).1
  have hspace : psz.dropWhile isSpace = psz := List.dropWhile_eq_self_iff.2 fun hpos => by
    obtain ⟨n, hn, hc⟩ := hdigit _ (List.getElem_mem hpos)
    rw [hc, (hexDigit_spec n hn).2.1]
    exact Bool.false_ne_true
  have hmark : ¬ (psz.getD 0 0 = 48 ∧ (psz.getD 1 0 = 120 ∨ psz.getD 1 0 = 88)) := by
    rintro ⟨-, h⟩
    rcases Nat.lt_or_ge 1 psz.length with hlen | hlen
    · rw [List.getD_eq_getElem _ _ hlen] at h
      obtain ⟨n, hn, hc⟩ := hdigit _ (List.getElem_mem hlen)
      rw [hc] at h
      obtain ⟨-, -, h₁, h₂, -⟩ := hexDigit_spec n hn
      exact h.elim h₁ h₂
    · rw [List.getD_eq_default _ _ hlen] at h
      exact absurd h (by decide)
  unfold hexDigits
  dsimp only
  rw [hcstr, hspace, if_neg hmark]
  refine List.takeWhile_eq_self_iff.2 fun c hc => ?_
  obtain ⟨n, hn, rfl⟩ := hdigit c hc
  have h := (hexDigit_spec n hn).2.2.2.2
  simpa using h

/-- The digits from the last give the bytes. -/
theorem hexBytes_reverse (v : List UInt8) :
    hexBytes v.length (v.reverse.flatMap Dump.hexStr).reverse = v := by
  rw [List.reverse_flatMap, List.reverse_reverse]
  induction v with
  | nil => rfl
  | cons c v ih =>
    have hpair : (List.reverse ∘ Dump.hexStr) c =
        [Dump.hexDigit (c.toNat % 16), Dump.hexDigit (c.toNat / 16)] := rfl
    rw [List.flatMap_cons, List.length_cons, hpair, List.cons_append, List.singleton_append,
      hexBytes, ih, hexdigit_hexStr]

theorem length_bytes (pn : List (BitVec 32)) : (bytes pn).length = 4 * pn.length := by
  induction pn with
  | nil => rfl
  | cons p pn ih =>
    rw [bytes, List.flatMap_cons, ← bytes, List.length_append, ih, length_leBytes, List.length_cons]
    ring

/-- **The bytes of the words** are read back as the words. -/
theorem wordsOf_bytes (pn : List (BitVec 32)) : wordsOf pn.length (bytes pn) = pn := by
  induction pn with
  | nil => rfl
  | cons p pn ih =>
    have hlen : (leBytes 4 p.toNat).length = 4 := length_leBytes
    rw [bytes, List.flatMap_cons, ← bytes, List.length_cons, wordsOf, List.take_left' hlen,
      List.drop_left' hlen, ih, ofLeBytes_leBytes (p.isLt.trans_eq (by norm_num))]
    rw [BitVec.ofNat_toNat, BitVec.setWidth_eq]

theorem SetHex_GetHex (x y : BaseUint WIDTH) : y.SetHex x.GetHex = x := by
  obtain ⟨pn, rfl⟩ := x
  have hlen := length_bytes pn
  unfold SetHex GetHex
  congr 1
  dsimp only
  rw [hexDigits_flatMap, ← hlen, hexBytes_reverse, wordsOf_bytes]

/-- **Integers of a fixed width are arithmetic modulo `2 ^ BITS`**, their order
is that of the numbers, and their digits give them back. -/
theorem fixed_width_arithmetic (WIDTH : ℕ) (x y : BaseUint WIDTH) (shift : ℕ) :
    ((x.add y).toNat : ℤ) = ((x.toNat : ℤ) + y.toNat) % (2 ^ (32 * WIDTH) : ℕ) ∧
    ((x.sub y).toNat : ℤ) = ((x.toNat : ℤ) - y.toNat) % (2 ^ (32 * WIDTH) : ℕ) ∧
    (x.neg.toNat : ℤ) = -(x.toNat : ℤ) % (2 ^ (32 * WIDTH) : ℕ) ∧
    (x.preIncr.toNat : ℤ) = ((x.toNat : ℤ) + 1) % (2 ^ (32 * WIDTH) : ℕ) ∧
    x.postIncr = (x, x.preIncr) ∧
    (x.preDecr.toNat : ℤ) = ((x.toNat : ℤ) - 1) % (2 ^ (32 * WIDTH) : ℕ) ∧
    x.postDecr = (x, x.preDecr) ∧
    (x.shl shift).toNat = x.toNat * 2 ^ shift % 2 ^ (32 * WIDTH) ∧
    (x.shr shift).toNat = x.toNat / 2 ^ shift % 2 ^ (32 * WIDTH) ∧
    x.lt y = decide (x.toNat < y.toNat) ∧ x.le y = decide (x.toNat ≤ y.toNat) ∧
    x.gt y = decide (x.toNat > y.toNat) ∧ x.ge y = decide (x.toNat ≥ y.toNat) ∧
    x.eq y = decide (x.toNat = y.toNat) ∧ x.ne y = decide (x.toNat ≠ y.toNat) ∧
    y.SetHex x.GetHex = x := by
  refine ⟨toNat_add x y, toNat_sub x y, toNat_neg x, toNat_preIncr x, rfl, toNat_preDecr x, rfl,
    toNat_shl x shift, ?_, lt_iff x y, le_iff x y, lt_iff y x, le_iff y x, eq_iff x y, ?_,
    SetHex_GetHex x y⟩
  · rw [toNat_shr, Nat.mod_eq_of_lt ((Nat.div_le_self _ _).trans_lt x.toNat_lt)]
  · rw [ne, eq_iff, ← decide_not]

end BaseUint

end CryptoBullion
