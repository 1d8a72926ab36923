import CryptoBullion.Model.Money
/-!
# Amounts are exact

A string is worth what its digits are worth. `ParseMoney` takes the strings
that are an amount and nothing else, and no product or sum on the way leaves
64 bits: ten digits in front of the point are less than `10 ^ 16` units.
What `FormatMoney` trims is zeros, and never the last two digits.
-/

namespace CryptoBullion

variable {n m k : ℕ} {c : UInt8} {p s whole rest : List UInt8}

/-! ## Digits -/

theorem isDigit_iff : isDigit c = true ↔ 48 ≤ c.toNat ∧ c.toNat ≤ 57 := by
  unfold isDigit
  rw [Bool.and_eq_true, decide_eq_true_iff, decide_eq_true_iff, UInt8.le_iff_toNat_le,
    UInt8.le_iff_toNat_le]
  rfl

theorem isSpace_iff : isSpace c = true ↔ c.toNat = 32 ∨ 9 ≤ c.toNat ∧ c.toNat ≤ 13 := by
  unfold isSpace
  rw [Bool.or_eq_true, Bool.and_eq_true, decide_eq_true_iff, decide_eq_true_iff, decide_eq_true_iff,
    UInt8.le_iff_toNat_le, UInt8.le_iff_toNat_le, ← UInt8.toNat_inj]
  rfl

theorem not_isSpace_of_isDigit (h : isDigit c = true) : ¬ isSpace c = true := by
  rw [isDigit_iff] at h
  rw [isSpace_iff]
  omega

theorem digitVal_le (h : isDigit c = true) : digitVal c ≤ 9 := by
  rw [isDigit_iff] at h
  unfold digitVal
  omega

@[simp] theorem decimalValue_nil : decimalValue [] = 0 := rfl

theorem foldl_decimal (v : ℕ) :
    s.foldl (fun v c => 10 * v + digitVal c) v = v * 10 ^ s.length + decimalValue s := by
  unfold decimalValue
  induction s generalizing v with
  | nil => simp
  | cons c s ih =>
    rw [List.foldl_cons, List.foldl_cons, ih (10 * v + digitVal c), ih (10 * 0 + digitVal c),
      List.length_cons]
    ring

/-- The first digit is worth as much as all behind it and one more. -/
theorem decimalValue_cons : decimalValue (c :: s) = digitVal c * 10 ^ s.length + decimalValue s := by
  unfold decimalValue
  rw [List.foldl_cons, foldl_decimal]
  simp [decimalValue]

theorem decimalValue_append :
    decimalValue (s ++ p) = decimalValue s * 10 ^ p.length + decimalValue p := by
  unfold decimalValue
  rw [List.foldl_append, foldl_decimal]
  rfl

theorem decimalValue_lt (h : ∀ c ∈ s, isDigit c = true) : decimalValue s < 10 ^ s.length := by
  induction s with
  | nil => simp
  | cons c s ih =>
    have hc := digitVal_le (h c List.mem_cons_self)
    have hs := ih fun c' hc' => h c' (List.mem_cons_of_mem c hc')
    have hmul : digitVal c * 10 ^ s.length ≤ 9 * 10 ^ s.length := Nat.mul_le_mul_right _ hc
    rw [decimalValue_cons, List.length_cons, pow_succ]
    omega

/-! ## What is printed -/

theorem digit_ofNat (h : n < 10) :
    isDigit (UInt8.ofNat (48 + n)) = true ∧ digitVal (UInt8.ofNat (48 + n)) = n := by
  have hto : (UInt8.ofNat (48 + n)).toNat = 48 + n := by
    rw [UInt8.toNat_ofNat', Nat.mod_eq_of_lt (by omega)]
  rw [isDigit_iff, digitVal, hto]
  omega

theorem decimalValue_digits {l : List ℕ} (h : ∀ d ∈ l, d < 10) :
    decimalValue (l.reverse.map fun d => UInt8.ofNat (48 + d)) = Nat.ofDigits 10 l := by
  induction l with
  | nil => rfl
  | cons d l ih =>
    have hd := (digit_ofNat (h d List.mem_cons_self)).2
    rw [List.reverse_cons, List.map_append, decimalValue_append,
      ih fun d' hd' => h d' (List.mem_cons_of_mem d hd'), List.map_singleton, decimalValue_cons, hd,
      Nat.ofDigits_cons]
    simp
    ring

/-- **A number is printed** in digits worth it, as many as it takes. -/
theorem printDecimal_spec (n : ℕ) : (∀ c ∈ printDecimal n, isDigit c = true) ∧
    decimalValue (printDecimal n) = n ∧
    (0 < k → n < 10 ^ k → (printDecimal n).length ≤ k) := by
  unfold printDecimal
  by_cases h0 : n = 0
  · rw [if_pos h0, h0]
    exact ⟨List.forall_mem_singleton.2 rfl, rfl, fun hk _ => hk⟩
  · rw [if_neg h0]
    have hlt : ∀ d ∈ Nat.digits 10 n, d < 10 := fun d => Nat.digits_lt_base (by norm_num)
    refine ⟨fun c hc => ?_, ?_, fun _ hn => ?_⟩
    · obtain ⟨d, hd, rfl⟩ := List.mem_map.1 hc
      exact (digit_ofNat (hlt d (List.mem_reverse.1 hd))).1
    · rw [decimalValue_digits hlt, Nat.ofDigits_digits]
    · rw [List.length_map, List.length_reverse]
      exact (Nat.digits_length_le_iff (by norm_num) n).2 hn

theorem printDecimal_ne_nil : printDecimal n ≠ [] := by
  unfold printDecimal
  split_ifs with h0
  · exact List.cons_ne_nil _ _
  · simpa [Nat.digits_eq_nil_iff_eq_zero] using h0

theorem decimalValue_zeros (m : ℕ) : decimalValue (List.replicate m 48 ++ s) = decimalValue s := by
  induction m with
  | zero => rfl
  | succ m ih =>
    rw [List.replicate_succ, List.cons_append, decimalValue_cons, ih]
    simp [digitVal]

/-- And with zeros in front, in so many digits where these are enough. -/
theorem printPadded_spec (hk : 0 < k) (hn : n < 10 ^ k) :
    (∀ c ∈ printPadded k n, isDigit c = true) ∧ decimalValue (printPadded k n) = n ∧
      (printPadded k n).length = k := by
  obtain ⟨hdigit, hvalue, hlen⟩ := printDecimal_spec (k := k) n
  unfold printPadded
  refine ⟨fun c hc => ?_, ?_, ?_⟩
  · rcases List.mem_append.1 hc with hc | hc
    · rw [List.eq_of_mem_replicate hc]
      rfl
    · exact hdigit c hc
  · rw [decimalValue_zeros, hvalue]
  · rw [List.length_append, List.length_replicate]
    exact Nat.sub_add_cancel (hlen hk hn)

/-! ## What is parsed -/

/-- A string that is an amount of `n` units: some space, ten digits at
most, maybe a point and six digits at most, and some space. -/
def IsAmount (s : List UInt8) (n : ℤ) : Prop :=
  ∃ before whole point frac after : List UInt8,
    s = before ++ whole ++ point ++ frac ++ after ∧
    (∀ c ∈ before, isSpace c = true) ∧ (∀ c ∈ after, isSpace c = true) ∧
    (∀ c ∈ whole, isDigit c = true) ∧ whole.length ≤ 10 ∧
    (∀ c ∈ frac, isDigit c = true) ∧ frac.length ≤ 6 ∧
    (point = [pointChar] ∨ point = [] ∧ frac = []) ∧
    (n : ℚ) = (decimalValue whole + decimalValue frac / 10 ^ frac.length) * coin

theorem int64_eq_ok {x : ℤ} (h : -2 ^ 63 ≤ x ∧ x < 2 ^ 63) : int64 x = .ok x := if_pos h

/-- What a digit behind the point is worth, where `m` more may follow it
and it. -/
def multAt : ℕ → ℤ
  | 0 => 0
  | m + 1 => 10 ^ m

theorem tdiv_multAt : (multAt (m + 1)).tdiv 10 = multAt m := by
  rcases m with _ | m
  · rfl
  · show ((10 : ℤ) ^ (m + 1)).tdiv 10 = 10 ^ m
    rw [pow_succ, Int.mul_tdiv_cancel _ (by norm_num)]

/-- **The units**: as many digits as there are, up to `m`, and no overflow. -/
theorem parseUnits_eq {u : ℤ} (h0 : 0 ≤ u) (hu : u + 10 ^ m < 2 ^ 63) :
    parseUnits p (multAt m) u =
      .ok (u + decimalValue ((p.takeWhile isDigit).take m) *
          10 ^ (m - ((p.takeWhile isDigit).take m).length),
        p.drop ((p.takeWhile isDigit).take m).length) := by
  induction p generalizing m u with
  | nil => simp [parseUnits]
  | cons c p ih =>
    unfold parseUnits
    by_cases hc : isDigit c = true
    · rw [List.takeWhile_cons_of_pos hc]
      rcases m with _ | m
      · simp [multAt]
      · have hpos : 0 < multAt (m + 1) := by
          show (0 : ℤ) < 10 ^ m
          positivity
        have hc9 : (digitVal c : ℤ) ≤ 9 := by exact_mod_cast digitVal_le hc
        have hmul : multAt (m + 1) * digitVal c ≤ 9 * 10 ^ m := by
          rw [mul_comm]
          exact mul_le_mul_of_nonneg_right hc9 hpos.le
        have hmul0 : 0 ≤ multAt (m + 1) * digitVal c := mul_nonneg hpos.le (Int.natCast_nonneg _)
        rw [pow_succ] at hu
        rw [if_pos (by simp [hc, hpos]), int64_eq_ok (by omega)]
        simp only [bind, Except.bind]
        rw [int64_eq_ok (by omega)]
        dsimp only
        rw [tdiv_multAt, ih (by omega) (by omega), List.take_succ_cons, List.length_cons,
          List.drop_succ_cons, Nat.add_sub_add_right]
        -- a digit with more behind it is worth a power of ten
        have hlen : ((p.takeWhile isDigit).take m).length ≤ m := List.length_take_le _ _
        have hpow : (10 : ℤ) ^ m = 10 ^ ((p.takeWhile isDigit).take m).length *
            10 ^ (m - ((p.takeWhile isDigit).take m).length) := by
          rw [← pow_add, Nat.add_sub_cancel' hlen]
        rw [decimalValue_cons, show multAt (m + 1) = 10 ^ m from rfl, hpow]
        push_cast
        congr 2
        ring
    · rw [List.takeWhile_cons_of_neg hc]
      simp [hc]

/-- The number of digits behind the point is six at most. -/
theorem multAt_six : multAt 6 = cent * 10 := by decide

/-- What the loop over the digits in front of the point does where they
end. -/
def stopWhole (strWhole : List UInt8) : List UInt8 → Except Failure (List UInt8 × ℤ × List UInt8)
  | [] => .ok (strWhole, 0, [])
  | c :: p =>
    if c = pointChar then (parseUnits p (cent * 10) 0).map fun r => (strWhole, r.1, r.2)
    else if isSpace c then .ok (strWhole, 0, c :: p)
    else .error .quiet

/-- **The digits in front of the point**, and what stops them. -/
theorem parseWhole_eq (hwhole : ∀ c ∈ s, isDigit c = true) (hrest : rest.takeWhile isDigit = []) :
    parseWhole (s ++ rest) whole = stopWhole (whole ++ s) rest := by
  induction s generalizing whole with
  | nil =>
    rw [List.nil_append, List.append_nil]
    rcases rest with _ | ⟨c, p⟩
    · rfl
    · have hc : ¬ isDigit c = true := fun hc => by
        rw [List.takeWhile_cons_of_pos hc] at hrest
        exact absurd hrest (by simp)
      have hno : (!isDigit c) = true := by rw [Bool.not_eq_true'] at *; simpa using hc
      unfold parseWhole stopWhole
      dsimp only
      rw [if_pos hno]
      split_ifs with hpoint
      · rcases parseUnits p (cent * 10) 0 with _ | r <;> rfl
      · rfl
      · rfl
  | cons c s ih =>
    have hc := hwhole c List.mem_cons_self
    have hne : c ≠ pointChar := fun h => by
      rw [h] at hc
      exact absurd hc (by decide)
    rw [List.cons_append, parseWhole, if_neg hne, if_neg (not_isSpace_of_isDigit hc), if_neg (by simp [hc]),
      ih fun c' hc' => hwhole c' (List.mem_cons_of_mem c hc'), List.append_assoc]
    rfl

/-- The decimal value in units, from the digits on both sides. -/
theorem units_eq {a b l : ℕ} {n : ℤ} (hl : l ≤ 6) :
    (n : ℚ) = (a + b / 10 ^ l) * coin ↔ n = a * coin + b * 10 ^ (6 - l) := by
  have hcoin : (coin : ℚ) = 10 ^ (6 - l) * 10 ^ l := by
    rw [← pow_add, Nat.sub_add_cancel hl]
    norm_num [coin]
  have hpow : (10 : ℚ) ^ l ≠ 0 := by positivity
  have hvalue : ((a : ℚ) + b / 10 ^ l) * coin = ((a * coin + b * 10 ^ (6 - l) : ℤ) : ℚ) := by
    push_cast
    rw [add_mul, hcoin]
    field_simp
  rw [hvalue, Int.cast_inj]

/-- **What passes the checks at the end.** -/
theorem finish_eq (rest : List UInt8) {nUnits : ℤ} (hwhole : ∀ c ∈ whole, isDigit c = true) (h0 : 0 ≤ nUnits)
    (hunits : nUnits < 10 ^ 6) :
    (do
      reject (rest.any fun c => !isSpace c) .quiet
      reject (10 < whole.length) .quiet
      reject (nUnits < 0 ∨ coin < nUnits) .quiet
      let nScaled ← int64 (atoi64 whole * coin)
      int64 (nScaled + nUnits) : Except Failure ℤ) =
    if (∀ c ∈ rest, isSpace c = true) ∧ whole.length ≤ 10 then
      .ok (decimalValue whole * coin + nUnits) else .error .quiet := by
  have hcoin : coin = 10 ^ 6 := by decide
  have hrange : reject (nUnits < 0 ∨ coin < nUnits) .quiet = .ok () :=
    if_neg fun h => h.elim h0.not_gt (by omega)
  by_cases hrest : ∀ c ∈ rest, isSpace c = true
  · have hany : reject (rest.any fun c => !isSpace c) .quiet = .ok () :=
      if_neg (by simpa using hrest)
    by_cases hlen : whole.length ≤ 10
    · have hlt : decimalValue whole < 10 ^ 10 :=
        (decimalValue_lt hwhole).trans_le (Nat.pow_le_pow_right (by norm_num) hlen)
      have hatoi : atoi64 whole = decimalValue whole := by
        unfold atoi64
        omega
      have hlong : reject (10 < whole.length) .quiet = .ok () := if_neg (by omega)
      have hscaled : int64 (decimalValue whole * coin) = .ok (decimalValue whole * coin) :=
        int64_eq_ok (by rw [hcoin]; omega)
      have hsum : int64 (decimalValue whole * coin + nUnits) =
          .ok (decimalValue whole * coin + nUnits) := int64_eq_ok (by rw [hcoin]; omega)
      rw [if_pos ⟨hrest, hlen⟩, hany, hlong, hrange, hatoi, hscaled]
      exact hsum
    · have hlong : reject (10 < whole.length) .quiet = .error .quiet := if_pos (by omega)
      rw [if_neg (fun h => hlen h.2), hany, hlong]
      rfl
  · have hany : reject (rest.any fun c => !isSpace c) .quiet = .error .quiet :=
      if_pos (by simpa using hrest)
    rw [if_neg (fun h => hrest h.1), hany]
    rfl

/-- **A string read to its end**: space, digits, maybe a point and digits,
and what is left decides. -/
theorem parseMoneyPsz_of_parts (point frac after : List UInt8) {before : List UInt8}
    (hbefore : ∀ c ∈ before, isSpace c = true) (hwhole : ∀ c ∈ whole, isDigit c = true)
    (hfrac : ∀ c ∈ frac, isDigit c = true) (hlen : frac.length ≤ 6)
    (hpoint : point = [pointChar] ∨ point = [] ∧ frac = [])
    (hafter : frac.length < 6 → after.takeWhile isDigit = [])
    (hstart : whole = [] → point = [] → after.dropWhile isSpace = after)
    (hnext : point = [] → after.takeWhile isDigit = [] ∧ after.head? ≠ some pointChar) :
    parseMoneyPsz (before ++ whole ++ point ++ frac ++ after) =
      if (∀ c ∈ after, isSpace c = true) ∧ whole.length ≤ 10 then
        .ok (decimalValue whole * coin + decimalValue frac * 10 ^ (6 - frac.length))
      else .error .quiet := by
  have hdrop : (before ++ whole ++ point ++ frac ++ after).dropWhile isSpace =
      whole ++ (point ++ frac ++ after) := by
    rw [List.append_assoc, List.append_assoc, List.append_assoc, List.dropWhile_append_of_pos hbefore,
      ← List.append_assoc point]
    rcases whole with _ | ⟨c, whole⟩
    · rcases hpoint with rfl | ⟨rfl, rfl⟩
      · rfl
      · exact hstart rfl rfl
    · exact List.dropWhile_cons_of_neg (not_isSpace_of_isDigit (hwhole c List.mem_cons_self))
  unfold parseMoneyPsz
  rw [hdrop]
  rcases hpoint with rfl | ⟨rfl, rfl⟩
  · -- the digits behind the point, as many as are taken
    have htake : ((frac ++ after).takeWhile isDigit).take 6 = frac := by
      rw [List.takeWhile_append_of_pos hfrac]
      rcases hlen.lt_or_eq with hlt | heq
      · rw [hafter hlt, List.append_nil, List.take_of_length_le hlen]
      · rw [← heq, List.take_left']
        rfl
    have hunits : parseUnits (frac ++ after) (cent * 10) 0 =
        .ok (decimalValue frac * 10 ^ (6 - frac.length), after) := by
      rw [← multAt_six, parseUnits_eq le_rfl (by norm_num), htake, zero_add, List.drop_left']
      rfl
    have hstop : ([pointChar] ++ frac ++ after).takeWhile isDigit = [] := rfl
    have hread : parseWhole (whole ++ ([pointChar] ++ frac ++ after)) [] =
        .ok (whole, decimalValue frac * 10 ^ (6 - frac.length), after) := by
      rw [parseWhole_eq hwhole hstop]
      show stopWhole whole (pointChar :: (frac ++ after)) = _
      rw [stopWhole, if_pos rfl, hunits]
      rfl
    have hsmall : (decimalValue frac : ℤ) * 10 ^ (6 - frac.length) < 10 ^ 6 := by
      have hlt : (decimalValue frac : ℤ) < 10 ^ frac.length := by
        exact_mod_cast decimalValue_lt hfrac
      calc (decimalValue frac : ℤ) * 10 ^ (6 - frac.length)
          < 10 ^ frac.length * 10 ^ (6 - frac.length) :=
            mul_lt_mul_of_pos_right hlt (by positivity)
        _ = 10 ^ 6 := by rw [← pow_add, Nat.add_sub_cancel' hlen]
    rw [hread]
    exact finish_eq after hwhole (by positivity) hsmall
  · obtain ⟨hstop, hhead⟩ := hnext rfl
    have hunits : (decimalValue [] : ℤ) * 10 ^ (6 - ([] : List UInt8).length) = 0 := by simp
    rw [List.nil_append, List.nil_append, hunits]
    rcases after with _ | ⟨c, p⟩
    · rw [parseWhole_eq hwhole hstop, stopWhole]
      exact finish_eq [] hwhole le_rfl (by norm_num)
    · have hne : c ≠ pointChar := fun h => hhead (congrArg some h)
      rw [parseWhole_eq hwhole hstop, stopWhole, if_neg hne]
      by_cases hspace : isSpace c = true
      · rw [if_pos hspace]
        exact finish_eq (c :: p) hwhole le_rfl (by norm_num)
      · rw [if_neg hspace, if_neg fun h => hspace (h.1 c List.mem_cons_self)]
        rfl

/-- Every string has such parts. -/
theorem exists_parts (s : List UInt8) : ∃ before whole point frac after : List UInt8,
    s = before ++ whole ++ point ++ frac ++ after ∧ (∀ c ∈ before, isSpace c = true) ∧
    (∀ c ∈ whole, isDigit c = true) ∧ (∀ c ∈ frac, isDigit c = true) ∧ frac.length ≤ 6 ∧
    (point = [pointChar] ∨ point = [] ∧ frac = []) ∧
    (frac.length < 6 → after.takeWhile isDigit = []) ∧
    (whole = [] → point = [] → after.dropWhile isSpace = after) ∧
    (point = [] → after.takeWhile isDigit = [] ∧ after.head? ≠ some pointChar) := by
  have hdrop : ∀ (f : UInt8 → Bool) (l : List UInt8), (l.dropWhile f).takeWhile f = [] := by
    intro f l
    have h := List.takeWhile_append_dropWhile (p := f) (l := l.dropWhile f)
    rw [List.dropWhile_idempotent] at h
    exact List.append_left_eq_self.1 h
  have htake : ∀ (f : UInt8 → Bool) (l : List UInt8), ∀ c ∈ l.takeWhile f, f c = true :=
    fun f l c hc => List.mem_takeWhile_imp hc
  have hsplit : s = s.takeWhile isSpace ++ (s.dropWhile isSpace).takeWhile isDigit ++
      (s.dropWhile isSpace).dropWhile isDigit := by
    rw [List.append_assoc, List.takeWhile_append_dropWhile, List.takeWhile_append_dropWhile]
  have hstop := hdrop isDigit (s.dropWhile isSpace)
  rcases hrest : (s.dropWhile isSpace).dropWhile isDigit with _ | ⟨c, p⟩
  · rw [hrest] at hsplit
    refine ⟨s.takeWhile isSpace, (s.dropWhile isSpace).takeWhile isDigit, [], [], [], by simpa using hsplit,
      htake _ _, htake _ _, by simp, by simp, .inr ⟨rfl, rfl⟩, fun _ => rfl, fun _ _ => rfl,
      fun _ => ⟨rfl, by simp⟩⟩
  rw [hrest] at hsplit hstop
  by_cases hpoint : c = pointChar
  · refine ⟨s.takeWhile isSpace, (s.dropWhile isSpace).takeWhile isDigit, [pointChar],
      (p.takeWhile isDigit).take 6, p.drop ((p.takeWhile isDigit).take 6).length, ?_, htake _ _,
      htake _ _, fun d hd => htake _ _ d (List.mem_of_mem_take hd), List.length_take_le _ _, .inl rfl,
      fun hlt => ?_, fun _ h => absurd h (by simp), fun h => absurd h (by simp)⟩
    · obtain ⟨tail, htail⟩ := (List.take_prefix 6 _).trans (List.takeWhile_prefix isDigit (l := p))
      rw [hpoint] at hsplit
      nth_rewrite 3 [← htail]
      rw [List.drop_left, List.append_assoc _ _ tail, htail, List.append_assoc _ [pointChar] p]
      exact hsplit
    · have hall : (p.takeWhile isDigit).take 6 = p.takeWhile isDigit := by
        rw [List.length_take] at hlt
        exact List.take_of_length_le (by omega)
      have hrest : p.drop (p.takeWhile isDigit).length = p.dropWhile isDigit := by
        have hsplit := List.takeWhile_append_dropWhile (p := isDigit) (l := p)
        nth_rewrite 2 [← hsplit]
        exact List.drop_left
      rw [hall, hrest]
      exact hdrop isDigit p
  · refine ⟨s.takeWhile isSpace, (s.dropWhile isSpace).takeWhile isDigit, [], [], c :: p,
      by simpa using hsplit, htake _ _, htake _ _, by simp, by simp, .inr ⟨rfl, rfl⟩,
      fun _ => hstop, fun hwhole _ => ?_, fun _ => ⟨hstop, by simpa using hpoint⟩⟩
    have hall := List.takeWhile_append_dropWhile (p := isDigit) (l := s.dropWhile isSpace)
    rw [hwhole, hrest, List.nil_append] at hall
    rw [hall]
    exact List.dropWhile_idempotent _ _

/-- **`ParseMoney` takes the amounts**, for what they are worth. -/
theorem parseMoneyPsz_eq_ok_iff {n : ℤ} : parseMoneyPsz s = .ok n ↔ IsAmount s n := by
  constructor
  · intro h
    obtain ⟨before, whole, point, frac, after, hs, hbefore, hwhole, hfrac, hlen, hpoint, h1, h2, h3⟩ :=
      exists_parts s
    rw [hs, parseMoneyPsz_of_parts _ _ _ hbefore hwhole hfrac hlen hpoint h1 h2 h3] at h
    split_ifs at h with hok
    exact ⟨before, whole, point, frac, after, hs, hbefore, hok.1, hwhole, hok.2, hfrac, hlen, hpoint,
      (units_eq hlen).2 (Except.ok.inj h).symm⟩
  · rintro ⟨before, whole, point, frac, after, hs, hbefore, hafter, hwhole, hten, hfrac, hlen, hpoint,
      hvalue⟩
    rw [units_eq hlen] at hvalue
    have hnone : after.takeWhile isDigit = [] := by
      rcases after with _ | ⟨c, after⟩
      · rfl
      · exact List.takeWhile_cons_of_neg fun h =>
          not_isSpace_of_isDigit h (hafter c List.mem_cons_self)
    have hhead : after.head? ≠ some pointChar := fun h =>
      absurd (hafter pointChar (List.mem_of_head? h)) (by decide)
    by_cases hblank : whole = [] ∧ point = []
    · -- nothing but space
      obtain ⟨rfl, rfl⟩ := hblank
      obtain rfl : frac = [] := hpoint.elim (fun h => absurd h (by simp)) And.right
      have hspace : ∀ c ∈ before ++ after, isSpace c = true := fun c hc =>
        (List.mem_append.1 hc).elim (hbefore c) (hafter c)
      have hparts := parseMoneyPsz_of_parts [] [] [] hspace
        (fun c hc => hwhole c hc) hfrac hlen hpoint (fun _ => rfl) (fun _ _ => rfl)
        fun _ => ⟨rfl, by simp⟩
      rw [hs, hvalue]
      simpa using hparts
    · rw [hs, parseMoneyPsz_of_parts _ _ _ hbefore hwhole hfrac hlen hpoint (fun _ => hnone)
        (fun hw hp => absurd ⟨hw, hp⟩ hblank) fun _ => ⟨hnone, hhead⟩, if_pos ⟨hafter, hten⟩, hvalue]

/-- **Nothing overflows on the way**, and a string is taken or it is not. -/
theorem parseMoneyPsz_eq_error {f : Failure} (h : parseMoneyPsz s = .error f) : f = .quiet := by
  obtain ⟨before, whole, point, frac, after, hs, hbefore, hwhole, hfrac, hlen, hpoint, h1, h2, h3⟩ :=
    exists_parts s
  rw [hs, parseMoneyPsz_of_parts _ _ _ hbefore hwhole hfrac hlen hpoint h1 h2 h3] at h
  split_ifs at h
  exact (Except.error.inj h).symm

/-! ## What is formatted -/

/-- **What the loop trims** is zeros. -/
theorem trimZeros_spec {i : ℕ} (hi : i < s.length) : trimZeros s i ≤ i ∧
    s.take (i + 1) = s.take (i + 1 - trimZeros s i) ++ List.replicate (trimZeros s i) 48 := by
  induction i with
  | zero => exact ⟨le_rfl, by simp [trimZeros]⟩
  | succ i ih =>
    obtain ⟨hle, htake⟩ := ih (by omega)
    unfold trimZeros
    split_ifs with hzero
    · have hlast : s[i + 1] = 48 := by
        rw [Bool.and_eq_true, decide_eq_true_iff, List.getD_eq_getElem _ _ hi] at hzero
        exact hzero.1
      refine ⟨by omega, ?_⟩
      rw [List.take_succ_eq_append_getElem hi, hlast, htake, List.append_assoc,
        List.replicate_succ', Nat.add_sub_add_right]
    · exact ⟨Nat.zero_le _, by simp⟩

theorem decimalValue_append_zeros :
    decimalValue (s ++ List.replicate m 48) = decimalValue s * 10 ^ m := by
  have hzero := decimalValue_zeros (s := []) m
  rw [List.append_nil] at hzero
  rw [decimalValue_append, hzero, List.length_replicate, decimalValue_nil, Nat.add_zero]

/-- **What `FormatMoney` prints** is the amount. -/
theorem isAmount_formatMoney {n : ℤ} (h0 : 0 ≤ n) (hn : n < 10 ^ 16) :
    IsAmount (formatMoney n false) n ∧ (0 : UInt8) ∉ formatMoney n false := by
  have hcoin : coin = 10 ^ 6 := by decide
  obtain ⟨n, rfl⟩ := Int.eq_ofNat_of_zero_le h0
  have hquot : n / 10 ^ 6 < 10 ^ 10 := by omega
  obtain ⟨hwhole, hvalue, hten⟩ := printDecimal_spec (k := 10) (n / 10 ^ 6)
  obtain ⟨hd, hdvalue, hdlen⟩ := printPadded_spec (k := 6) (n := n % 10 ^ 6) (by norm_num)
    (Nat.mod_lt _ (by norm_num))
  -- where the zeros are trimmed, the point stays
  have hstr : ∃ frac m, printPadded 6 (n % 10 ^ 6) = frac ++ List.replicate m 48 ∧
      formatMoney n false = printDecimal (n / 10 ^ 6) ++ pointChar :: frac := by
    have hunfold : formatMoney n false =
        (printDecimal (n / 10 ^ 6) ++ pointChar :: printPadded 6 (n % 10 ^ 6)).take
          ((printDecimal (n / 10 ^ 6) ++ pointChar :: printPadded 6 (n % 10 ^ 6)).length -
            trimZeros (printDecimal (n / 10 ^ 6) ++ pointChar :: printPadded 6 (n % 10 ^ 6))
              ((printDecimal (n / 10 ^ 6) ++ pointChar :: printPadded 6 (n % 10 ^ 6)).length - 1)) := by
      unfold formatMoney
      rw [if_neg (by omega)]
      rfl
    rw [hunfold]
    have hpos : 0 < (printDecimal (n / 10 ^ 6) ++ pointChar :: printPadded 6 (n % 10 ^ 6)).length := by
      simp
    obtain ⟨-, htake⟩ := trimZeros_spec (Nat.sub_one_lt_of_lt hpos)
    rw [Nat.sub_add_cancel hpos, List.take_length] at htake
    rcases List.append_eq_append_iff.1 htake with ⟨a, ha, htail⟩ | ⟨a, -, htail⟩
    · rcases a with _ | ⟨c, frac⟩
      · have hmem : pointChar ∈ List.replicate _ (48 : UInt8) := htail ▸ List.mem_cons_self
        exact absurd (List.eq_of_mem_replicate hmem) (by decide)
      · obtain ⟨rfl, hpad⟩ := List.cons.inj htail
        exact ⟨frac, _, hpad, ha⟩
    · have hmem : pointChar ∈ List.replicate _ (48 : UInt8) :=
        htail ▸ List.mem_append_right _ List.mem_cons_self
      exact absurd (List.eq_of_mem_replicate hmem) (by decide)
  obtain ⟨frac, m, hpad, hformat⟩ := hstr
  rw [hpad] at hd hdvalue hdlen
  rw [List.length_append, List.length_replicate] at hdlen
  rw [decimalValue_append_zeros] at hdvalue
  have hfrac : ∀ c ∈ frac, isDigit c = true := fun c hc => hd c (List.mem_append_left _ hc)
  refine ⟨⟨[], printDecimal (n / 10 ^ 6), [pointChar], frac, [], ?_, by simp, by simp, hwhole,
    hten (by norm_num) hquot, hfrac, by omega, .inl rfl, ?_⟩, fun hmem => ?_⟩
  · rw [hformat]
    simp
  · rw [units_eq (by omega), hvalue, hcoin, show 6 - frac.length = m by omega]
    have hval : ((decimalValue frac : ℕ) : ℤ) * 10 ^ m = (n % 10 ^ 6 : ℕ) := by
      exact_mod_cast hdvalue
    rw [hval]
    push_cast
    omega
  · rw [hformat] at hmem
    rcases List.mem_append.1 hmem with hmem | hmem
    · exact absurd (hwhole 0 hmem) (by decide)
    · rcases List.mem_cons.1 hmem with hmem | hmem
      · exact absurd hmem (by decide)
      · exact absurd (hfrac 0 hmem) (by decide)

/-- **Money text is exact.** What `FormatMoney` prints is parsed as it was.
What `ParseMoney` takes of a string, up to its first NUL, are the amounts
and nothing else, for their decimal value. What it does not take it
returns false for: no operation on the way overflows. -/
theorem moneyText_exact :
    (∀ n : ℤ, 0 ≤ n → n < 10 ^ 16 → parseMoney (formatMoney n false) = .ok n) ∧
    (∀ (str : List UInt8) (n : ℤ), parseMoney str = .ok n ↔ IsAmount (cStr str) n) ∧
    ∀ str, (∃ n, parseMoney str = .ok n) ∨ parseMoney str = .error .quiet := by
  refine ⟨fun n h0 hn => ?_, fun str n => parseMoneyPsz_eq_ok_iff, fun str => ?_⟩
  · obtain ⟨hamount, hnul⟩ := isAmount_formatMoney h0 hn
    have hstr : cStr (formatMoney n false) = formatMoney n false := by
      unfold cStr
      rw [List.takeWhile_eq_self_iff]
      intro c hc
      rw [decide_eq_true_iff]
      exact fun h => hnul (h ▸ hc)
    unfold parseMoney
    rw [hstr]
    exact parseMoneyPsz_eq_ok_iff.2 hamount
  · rcases h : parseMoney str with f | n
    · rw [parseMoneyPsz_eq_error h]
      exact .inr rfl
    · exact .inl ⟨n, rfl⟩

end CryptoBullion
