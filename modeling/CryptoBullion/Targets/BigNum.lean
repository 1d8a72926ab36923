import CryptoBullion.Model.BigNum
import CryptoBullion.Targets.Compact
/-!
# Big numbers lose nothing in their bytes

What the setters write into their buffers is read by `BN_mpi2bn` as the
number they were given, and what `BN_bn2mpi` writes is the same for every
number. So the conversions are exact at every length and sign, and compact
numbers are what `setCompact` and `getCompact` say.
-/

namespace CryptoBullion

variable {k n m : ℕ} {c : UInt8} {l body bytes vch : List UInt8} {fNegative : Bool} {a : ℤ}

/-! ## Bytes -/

@[simp] theorem length_beBytes : (beBytes k n).length = k := by
  rw [beBytes, List.length_reverse, length_leBytes]

theorem ofBeBytes_beBytes (h : n < 256 ^ k) : ofBeBytes (beBytes k n) = n := by
  rw [ofBeBytes, beBytes, List.reverse_reverse, ofLeBytes_leBytes h]

theorem beBytes_ofBeBytes (l : List UInt8) : beBytes l.length (ofBeBytes l) = l := by
  rw [beBytes, ofBeBytes, ← List.length_reverse, leBytes_ofLeBytes, List.reverse_reverse]

theorem ofBeBytes_lt (l : List UInt8) : ofBeBytes l < 256 ^ l.length := by
  rw [← List.length_reverse]
  exact ofLeBytes_lt

@[simp] theorem ofBeBytes_nil : ofBeBytes [] = 0 := rfl

theorem ofBeBytes_cons (c : UInt8) (l : List UInt8) :
    ofBeBytes (c :: l) = c.toNat * 256 ^ l.length + ofBeBytes l := by
  rw [ofBeBytes, List.reverse_cons, ofLeBytes_append, List.length_reverse, ofBeBytes]
  simp [ofLeBytes]
  ring

/-- A byte's top bit. -/
theorem and_top_ne_zero (c : UInt8) : c &&& 0x80 ≠ 0 ↔ 128 ≤ c.toNat := by
  have h : ∀ n < 256, UInt8.ofNat n &&& 0x80 ≠ 0 ↔ 128 ≤ n := by decide +kernel
  have hc := h c.toNat c.toNat_lt
  rwa [UInt8.ofNat_toNat] at hc

theorem toNat_or_top (h : c.toNat < 128) : (c ||| 0x80).toNat = c.toNat + 128 := by
  have hall : ∀ n < 128, (UInt8.ofNat n ||| 0x80).toNat = n + 128 := by decide
  have hc := hall c.toNat h
  rwa [UInt8.ofNat_toNat] at hc

theorem toNat_and_rest (c : UInt8) : (c &&& 0x7f).toNat = c.toNat % 128 := by
  have h : ∀ n < 256, (UInt8.ofNat n &&& 0x7f).toNat = n % 128 := by decide +kernel
  have hc := h c.toNat c.toNat_lt
  rwa [UInt8.ofNat_toNat] at hc

theorem numBits_eq (hle : 2 ^ k ≤ n) (hlt : n < 2 ^ (k + 1)) : numBits n = k + 1 := by
  have hn : n ≠ 0 := by
    rintro rfl
    exact absurd hle (not_le.2 (Nat.two_pow_pos k))
  rw [numBits, if_neg hn, (Nat.log2_eq_iff hn).2 ⟨hle, hlt⟩]

theorem numBits_le (h : n < 2 ^ k) : numBits n ≤ k := by
  unfold numBits
  split_ifs with hn
  · exact Nat.zero_le k
  · exact (Nat.log2_lt hn).2 h

/-! ## Reading a buffer -/

/-- The number that a buffer behind its length stands for. -/
def bodyValue : List UInt8 → ℤ
  | [] => 0
  | c :: l =>
    if 128 ≤ c.toNat then -(((c.toNat - 128) * 256 ^ l.length + ofBeBytes l : ℕ) : ℤ)
    else (ofBeBytes (c :: l) : ℤ)

/-- **`BN_mpi2bn` reads a buffer** behind its length. -/
theorem mpi2bn_withSize (h : body.length < 2 ^ 32) :
    mpi2bn (CBigNum.withSize body) = some (bodyValue body) := by
  have hsize : ofBeBytes (beBytes 4 body.length) = body.length :=
    ofBeBytes_beBytes (h.trans_eq (by norm_num))
  have htake : (CBigNum.withSize body).take 4 = beBytes 4 body.length :=
    List.take_left' length_beBytes
  have hdrop : (CBigNum.withSize body).drop 4 = body := List.drop_left' length_beBytes
  have hlen : (CBigNum.withSize body).length = 4 + body.length := by
    rw [CBigNum.withSize, List.length_append, length_beBytes]
  have hgood : ¬ ((CBigNum.withSize body).length < 4 ∨
      ofBeBytes ((CBigNum.withSize body).take 4) + 4 ≠ (CBigNum.withSize body).length) := by
    rw [htake, hsize, hlen]
    omega
  rw [mpi2bn, if_neg hgood, hdrop]
  rcases body with _ | ⟨c, l⟩
  · rfl
  dsimp only
  rw [bodyValue]
  by_cases hc : 128 ≤ c.toNat
  · -- the sign's bit is the highest
    rw [if_pos ((and_top_ne_zero c).2 hc), if_pos hc]
    have hl := ofBeBytes_lt l
    have hc' := c.toNat_lt
    have hpow : 2 ^ (8 * l.length + 7) = 128 * 256 ^ l.length := by
      rw [two_fifty_six_pow, pow_add]
      ring
    have hpow' : 2 ^ (8 * l.length + 7 + 1) = 256 * 256 ^ l.length := by
      rw [pow_succ, hpow]
      ring
    have hmul : 128 * 256 ^ l.length ≤ c.toNat * 256 ^ l.length := Nat.mul_le_mul_right _ hc
    have hmul' : c.toNat * 256 ^ l.length ≤ 255 * 256 ^ l.length :=
      Nat.mul_le_mul_right _ (by omega)
    have hbits : numBits (ofBeBytes (c :: l)) = 8 * l.length + 7 + 1 := by
      refine numBits_eq ?_ ?_ <;> rw [ofBeBytes_cons]
      · rw [hpow]
        omega
      · rw [hpow']
        omega
    rw [hbits, Nat.add_sub_cancel, hpow, ofBeBytes_cons, Nat.sub_mul, Nat.sub_add_comm hmul]
  · rw [if_neg (fun h => hc ((and_top_ne_zero c).1 h)), if_neg hc]

/-! ## Writing one -/

theorem setLoop_false (fNegative : Bool) (bytes : List UInt8) :
    CBigNum.setLoop fNegative false bytes = bytes := by
  induction bytes with
  | nil => rfl
  | cons c bytes ih => rw [CBigNum.setLoop, if_neg (by simp), ih]

/-- **The setters' loop writes the number** with its sign. -/
theorem bodyValue_setLoop (fNegative : Bool) (bytes : List UInt8) :
    bodyValue (CBigNum.setLoop fNegative true bytes) =
      if fNegative then -(ofBeBytes bytes : ℤ) else ofBeBytes bytes := by
  induction bytes with
  | nil => cases fNegative <;> rfl
  | cons c bytes ih =>
    rw [CBigNum.setLoop, if_pos rfl, setLoop_false, ofBeBytes_cons]
    split_ifs with hc hneg htop hneg hneg
    · rw [ih, if_pos hneg, hc]
      simp
    · rw [ih, if_neg hneg, hc]
      simp
    · rw [bodyValue, if_pos (by decide), ofBeBytes_cons]
      simp
    · rw [bodyValue, if_neg (by decide), ofBeBytes_cons, ofBeBytes_cons]
      simp
    · rw [and_top_ne_zero, not_le] at htop
      rw [bodyValue, if_pos (by rw [toNat_or_top htop]; omega), toNat_or_top htop,
        Nat.add_sub_cancel]
    · rw [and_top_ne_zero] at htop
      rw [bodyValue, if_neg htop, ofBeBytes_cons]

theorem length_setLoop_le (fNegative : Bool) (bytes : List UInt8) :
    (CBigNum.setLoop fNegative true bytes).length ≤ bytes.length + 1 := by
  induction bytes with
  | nil => exact Nat.zero_le _
  | cons c bytes ih =>
    rw [CBigNum.setLoop, if_pos rfl, setLoop_false]
    split_ifs <;> simp only [List.length_cons] <;> omega

/-- The getters take the sign away again. -/
theorem ofBeBytes_clearSign_setLoop (fNegative : Bool) (bytes : List UInt8) :
    ofBeBytes (CBigNum.clearSign (CBigNum.setLoop fNegative true bytes)) = ofBeBytes bytes := by
  induction bytes with
  | nil => rfl
  | cons c bytes ih =>
    rw [CBigNum.setLoop, if_pos rfl, setLoop_false]
    split_ifs with hc htop hneg hneg
    · rw [ih, ofBeBytes_cons, hc]
      simp
    · rw [CBigNum.clearSign, ofBeBytes_cons, toNat_and_rest]
      simp
    · rw [CBigNum.clearSign, ofBeBytes_cons, toNat_and_rest]
      simp
    · rw [and_top_ne_zero, not_le] at htop
      rw [CBigNum.clearSign, ofBeBytes_cons, toNat_and_rest, toNat_or_top htop, ofBeBytes_cons,
        Nat.add_mod_right, Nat.mod_eq_of_lt htop]
    · rw [and_top_ne_zero, not_le] at htop
      rw [CBigNum.clearSign, ofBeBytes_cons, toNat_and_rest, ofBeBytes_cons, Nat.mod_eq_of_lt htop]

/-! ## What `BN_bn2mpi` writes -/

theorem beBytes_succ (k n : ℕ) :
    beBytes (k + 1) n = UInt8.ofNat (n / 256 ^ k % 256) :: beBytes k n := by
  rw [beBytes, leBytes_succ_last, List.reverse_append, List.reverse_singleton,
    List.singleton_append, beBytes]

theorem lt_two_pow_numBits (n : ℕ) : n < 2 ^ numBits n := by
  unfold numBits
  split_ifs with hn
  · rw [hn]
    exact Nat.one_pos
  · exact Nat.lt_log2_self

theorem two_pow_numBits_le (hn : n ≠ 0) : 2 ^ (numBits n - 1) ≤ n := by
  rw [numBits, if_neg hn, Nat.add_sub_cancel]
  exact Nat.log2_self_le hn

theorem ofBeBytes_bn2bin (n : ℕ) : ofBeBytes (bn2bin n) = n := by
  refine ofBeBytes_beBytes ((lt_two_pow_numBits n).trans_le ?_)
  rw [two_fifty_six_pow]
  exact Nat.pow_le_pow_right (by norm_num) (by omega)

/-- The first byte of a magnitude is not zero, and its top bit is set where
the bits fill the bytes. -/
theorem bn2bin_eq_cons (hn : n ≠ 0) :
    ∃ c l, bn2bin n = c :: l ∧ c ≠ 0 ∧ (128 ≤ c.toNat ↔ numBits n % 8 = 0) := by
  have hlt := lt_two_pow_numBits n
  have hle := two_pow_numBits_le hn
  have hpos : numBits n ≠ 0 := by
    rw [numBits, if_neg hn]
    exact Nat.succ_ne_zero _
  obtain ⟨k, hk⟩ : ∃ k, (numBits n + 7) / 8 = k + 1 := ⟨(numBits n + 7) / 8 - 1, by omega⟩
  have hbyte : n / 256 ^ k < 256 := by
    rw [Nat.div_lt_iff_lt_mul (by positivity), ← pow_succ', two_fifty_six_pow]
    exact hlt.trans_le (Nat.pow_le_pow_right (by norm_num) (by omega))
  have hone : 1 ≤ n / 256 ^ k := by
    rw [Nat.le_div_iff_mul_le (by positivity), one_mul, two_fifty_six_pow]
    exact (Nat.pow_le_pow_right (by norm_num) (by omega)).trans hle
  have htoNat : (UInt8.ofNat (n / 256 ^ k % 256)).toNat = n / 256 ^ k := by
    rw [Nat.mod_eq_of_lt hbyte, UInt8.toNat_ofNat_of_lt' hbyte]
  refine ⟨_, _, by rw [bn2bin, hk, beBytes_succ], fun hzero => ?_, ?_⟩
  · rw [hzero] at htoNat
    exact absurd htoNat.symm (by simp only [UInt8.toNat_zero]; omega)
  · rw [htoNat, Nat.le_div_iff_mul_le (by positivity), two_fifty_six_pow,
      show 128 = 2 ^ 7 by norm_num, ← pow_add]
    constructor
    · intro hhigh
      have hexp := (Nat.pow_lt_pow_iff_right (by norm_num)).1 (hhigh.trans_lt hlt)
      omega
    · intro hmod
      exact (Nat.pow_le_pow_right (by norm_num) (by omega)).trans hle

/-- **The library writes what the setters write.** -/
theorem bn2mpi_eq (a : ℤ) :
    bn2mpi a = CBigNum.withSize (CBigNum.setLoop (a < 0) true (bn2bin a.natAbs)) := by
  have hlen : (bn2bin a.natAbs).length = (numBits a.natAbs + 7) / 8 := by
    rw [bn2bin, length_beBytes]
  rcases eq_or_ne a.natAbs 0 with hzero | hne
  · obtain rfl := Int.natAbs_eq_zero.1 hzero
    rfl
  obtain ⟨c, l, hbin, hc, htop⟩ := bn2bin_eq_cons hne
  have hbits : 0 < numBits a.natAbs := by
    rw [numBits, if_neg hne]
    exact Nat.succ_pos _
  rw [hbin, List.length_cons] at hlen
  unfold bn2mpi
  dsimp only
  rw [hbin, CBigNum.setLoop, if_pos rfl, if_neg hc, setLoop_false, ← hlen]
  by_cases hmod : numBits a.natAbs % 8 = 0
  · rw [if_pos ⟨hbits, hmod⟩, if_pos ((and_top_ne_zero c).2 (htop.2 hmod)), CBigNum.withSize]
    by_cases ha : a < 0 <;> simp [ha, setSign]
  · rw [if_neg (fun h => hmod h.2),
      if_neg (fun h => hmod (htop.1 ((and_top_ne_zero c).1 h))), CBigNum.withSize]
    by_cases ha : a < 0 <;> simp [ha, setSign]

theorem length_setLoop_bn2bin_lt {a : ℤ} (h : numBits a.natAbs < 2 ^ 31) :
    (CBigNum.setLoop (a < 0) true (bn2bin a.natAbs)).length < 2 ^ 32 := by
  refine (length_setLoop_le _ _).trans_lt ?_
  rw [bn2bin, length_beBytes]
  omega

/-! ## There and back -/

namespace CBigNum

variable {self : CBigNum}

/-- A buffer becomes the number it stands for. -/
theorem val_ofMpi (hbody : body.length < 2 ^ 32)
    (hbits : numBits (bodyValue body).natAbs < 2 ^ 31) :
    (self.ofMpi (withSize body)).val = bodyValue body := by
  unfold ofMpi
  rw [mpi2bn_withSize hbody]
  dsimp only
  rw [dif_pos hbits]

/-- **What a setter's loop has written** is the number. -/
theorem val_ofMpi_setLoop (hlen : bytes.length < 2 ^ 28) :
    (self.ofMpi (withSize (setLoop fNegative true bytes))).val =
      if fNegative then -(ofBeBytes bytes : ℤ) else ofBeBytes bytes := by
  have hbits : numBits (ofBeBytes bytes) ≤ 8 * bytes.length := by
    refine numBits_le ((ofBeBytes_lt bytes).trans_eq (two_fifty_six_pow _))
  rw [val_ofMpi ((length_setLoop_le _ _).trans_lt (by omega)), bodyValue_setLoop]
  rw [bodyValue_setLoop]
  split_ifs
  · rw [Int.natAbs_neg, Int.natAbs_natCast]
    omega
  · rw [Int.natAbs_natCast]
    omega

theorem length_topBytes (k : ℕ) (n : BitVec 64) : (topBytes k n).length = k := by
  induction k generalizing n with
  | zero => rfl
  | succ k ih => rw [topBytes, List.length_cons, ih]

/-- The bytes the setters take off a word spell its upper part. -/
theorem ofBeBytes_topBytes (hk : k ≤ 8) (n : BitVec 64) :
    ofBeBytes (topBytes k n) = n.toNat / 256 ^ (8 - k) := by
  induction k generalizing n with
  | zero =>
    have hlt := n.isLt
    rw [topBytes, Nat.sub_zero, Nat.div_eq_of_lt (by omega)]
    rfl
  | succ k ih =>
    have hlt := n.isLt
    have htop : (n >>> 56).toNat = n.toNat / 2 ^ 56 := by
      rw [BitVec.toNat_ushiftRight, Nat.shiftRight_eq_div_pow]
    have hrest : (n <<< 8).toNat = n.toNat * 256 % 2 ^ 64 := by
      rw [BitVec.toNat_shiftLeft, Nat.shiftLeft_eq]
    have hbyte : n.toNat / 2 ^ 56 < 256 := by omega
    rw [topBytes, ofBeBytes_cons, ih (by omega), length_topBytes, hrest, htop,
      UInt8.toNat_ofNat_of_lt' hbyte]
    -- what the shift drops is the byte that was taken
    obtain ⟨j, hj⟩ : ∃ j, 7 = k + j := ⟨7 - k, by omega⟩
    have hdiv : n.toNat * 256 % 2 ^ 64 = n.toNat % 2 ^ 56 * 256 := by omega
    have hpow : 2 ^ 56 = 256 ^ k * 256 ^ j := by
      rw [← pow_add, ← hj]
      norm_num
    rw [hdiv, show 8 - k = j + 1 by omega, show 8 - (k + 1) = j by omega, pow_succ 256 j,
      Nat.mul_div_mul_right _ _ (by norm_num)]
    conv_rhs => rw [← Nat.div_add_mod n.toNat (2 ^ 56)]
    rw [hpow, mul_comm (256 ^ k), mul_assoc, Nat.mul_add_div (by positivity)]
    ring

theorem ofBeBytes_topBytes_eight (n : BitVec 64) : ofBeBytes (topBytes 8 n) = n.toNat := by
  rw [ofBeBytes_topBytes le_rfl, Nat.sub_self, pow_zero, Nat.div_one]

/-- The getters take the low bytes of the magnitude. -/
theorem ofLeBytes_lowBytes (b : CBigNum) (k : ℕ) :
    ofLeBytes (b.lowBytes k) = b.val.natAbs % 256 ^ k := by
  have hdrop : (bn2mpi b.val).drop 4 = setLoop (b.val < 0) true (bn2bin b.val.natAbs) := by
    rw [bn2mpi_eq]
    exact List.drop_left' length_beBytes
  rw [lowBytes, ofLeBytes_take, hdrop]
  congr 1
  exact (ofBeBytes_clearSign_setLoop _ _).trans (ofBeBytes_bn2bin _)

theorem val_setint64 (sn : BitVec 64) : (self.setint64 sn).val = sn.toInt := by
  unfold setint64
  dsimp only
  rw [val_ofMpi_setLoop (by rw [length_topBytes]; norm_num), ofBeBytes_topBytes_eight]
  by_cases hneg : sn.slt 0 = true
  · rw [if_pos hneg, if_pos hneg]
    have hlt : sn.toInt < 0 := by simpa [BitVec.slt] using hneg
    have hone : -(sn + 1) + 1 = -sn := by
      rw [neg_add, neg_add_cancel_right]
    rw [hone]
    have hcond := BitVec.toInt_eq_toNat_cond sn
    have hsn := sn.isLt
    rw [BitVec.toNat_neg]
    split_ifs at hcond <;> omega
  · rw [if_neg hneg, if_neg hneg]
    have hle : 0 ≤ sn.toInt := by simpa [BitVec.slt] using hneg
    have hcond := BitVec.toInt_eq_toNat_cond sn
    have hsn := sn.isLt
    split_ifs at hcond <;> omega

theorem val_setuint64 (n : BitVec 64) : (self.setuint64 n).val = n.toNat := by
  unfold setuint64
  rw [val_ofMpi_setLoop (by rw [length_topBytes]; norm_num), ofBeBytes_topBytes_eight]
  rfl

theorem val_setuint256 (n : Uint256) : (self.setuint256 n).val = n.toNat := by
  unfold setuint256
  have hlt : n.toNat < 256 ^ 32 := n.isLt.trans_eq (by norm_num)
  rw [val_ofMpi_setLoop (by rw [List.length_reverse, length_leBytes]; norm_num), ofBeBytes,
    List.reverse_reverse, ofLeBytes_leBytes hlt]
  rfl

/-- The number in the library's own bytes is the number. -/
theorem val_ofMpi_bn2mpi (b : CBigNum) : (self.ofMpi (bn2mpi b.val)).val = b.val := by
  have hvalue : bodyValue (setLoop (b.val < 0) true (bn2bin b.val.natAbs)) = b.val := by
    rw [bodyValue_setLoop, ofBeBytes_bn2bin]
    by_cases hneg : b.val < 0
    · rw [if_pos (decide_eq_true hneg)]
      omega
    · rw [if_neg (by simpa using hneg)]
      omega
  have h : (self.ofMpi (withSize (setLoop (b.val < 0) true (bn2bin b.val.natAbs)))).val = _ :=
    val_ofMpi (length_setLoop_bn2bin_lt b.numBits_lt) (by rw [hvalue]; exact b.numBits_lt)
  rwa [hvalue, ← bn2mpi_eq] at h

theorem setvch_getvch (b : CBigNum) : self.setvch b.getvch = self.ofMpi (bn2mpi b.val) := by
  have hsize := bn2mpi_eq b.val
  have hvch : b.getvch.reverse = setLoop (b.val < 0) true (bn2bin b.val.natAbs) := by
    have hdrop : (bn2mpi b.val).drop 4 = setLoop (b.val < 0) true (bn2bin b.val.natAbs) := by
      rw [hsize]
      exact List.drop_left' length_beBytes
    unfold getvch
    split_ifs with hlen
    · rw [← hdrop, List.drop_eq_nil_of_le hlen]
      rfl
    · rw [hdrop, List.reverse_reverse]
  rw [setvch, ← List.length_reverse, hvch, hsize, withSize]

/-- **Big-number conversions are exact.** -/
theorem conversions_exact (self : CBigNum) :
    (∀ sn : BitVec 64, (self.setint64 sn).val = sn.toInt) ∧
    (∀ n : BitVec 64, (self.setuint64 n).val = n.toNat ∧ (self.setuint64 n).getuint64 = n) ∧
    (∀ n : Uint256, (self.setuint256 n).val = n.toNat ∧ (self.setuint256 n).getuint256 = n) ∧
    (∀ b : CBigNum, 0 ≤ b.val →
      (b.getuint64.toNat : ℤ) = b.val % 2 ^ 64 ∧ (b.getuint256.toNat : ℤ) = b.val % 2 ^ 256) ∧
    (∀ b : CBigNum, (self.setvch b.getvch).val = b.val) := by
  have h64 : ∀ b : CBigNum, b.getuint64.toNat = b.val.natAbs % 2 ^ 64 := by
    intro b
    rw [getuint64, BitVec.toNat_ofNat, ofLeBytes_lowBytes, show 256 ^ 8 = 2 ^ 64 by norm_num,
      Nat.mod_mod]
  have h256 : ∀ b : CBigNum, b.getuint256.toNat = b.val.natAbs % 2 ^ 256 := by
    intro b
    rw [getuint256, BitVec.toNat_ofNat, ofLeBytes_lowBytes, show 256 ^ 32 = 2 ^ 256 by norm_num,
      Nat.mod_mod]
  refine ⟨fun sn => val_setint64 sn, fun n => ⟨val_setuint64 n, ?_⟩,
    fun n => ⟨val_setuint256 n, ?_⟩, fun b hb => ⟨?_, ?_⟩, fun b => ?_⟩
  · apply BitVec.eq_of_toNat_eq
    rw [h64, val_setuint64, Int.natAbs_natCast, Nat.mod_eq_of_lt n.isLt]
  · apply BitVec.eq_of_toNat_eq
    rw [h256, val_setuint256, Int.natAbs_natCast, Nat.mod_eq_of_lt n.isLt]
  · rw [h64]
    omega
  · rw [h256, Int.natCast_mod, Int.natAbs_of_nonneg hb]
    rfl
  · rw [setvch_getvch, val_ofMpi_bn2mpi]

/-- A number a bit longer than a word. -/
theorem conversions_exact_word :
    (((⟨2 ^ 64 + 5, by decide⟩ : CBigNum).getuint64).toNat : ℤ) = (2 ^ 64 + 5) % 2 ^ 64 :=
  ((conversions_exact ⟨0, by decide⟩).2.2.2.1 ⟨2 ^ 64 + 5, by decide⟩ (by decide)).1

/-! ## Compact numbers -/

/-- The buffer of `SetCompact`: the three bytes, as far as there is room, and
zeros behind them. -/
def compactBody (nSize b₁ b₂ b₃ : ℕ) : List UInt8 :=
  ([b₁, b₂, b₃].map UInt8.ofNat ++ List.replicate (nSize - 3) 0).take nSize

theorem ofMpi_compactBody (nCompact : ℕ) : self.SetCompact nCompact = self.ofMpi (withSize
    (compactBody (nCompact / 16777216 % 256) (nCompact / 65536 % 256) (nCompact / 256 % 256)
      (nCompact % 256))) := by
  have hlt : nCompact / 16777216 % 256 < 256 := Nat.mod_lt _ (by norm_num)
  unfold SetCompact
  dsimp only
  generalize nCompact / 16777216 % 256 = nSize at hlt ⊢
  congr 1
  have hsize : beBytes 4 nSize = [0, 0, 0, UInt8.ofNat nSize] := by
    have h₁ : nSize / 256 = 0 := by omega
    simp [beBytes, leBytes, Nat.mod_eq_of_lt hlt, h₁]
  have hlen : (compactBody nSize (nCompact / 65536 % 256) (nCompact / 256 % 256)
      (nCompact % 256)).length = nSize := by
    rw [compactBody, List.length_take, List.length_append, List.length_replicate, List.length_map]
    simp only [List.length_cons, List.length_nil]
    omega
  rw [withSize, hlen, hsize, compactBody]
  obtain rfl | rfl | rfl | ⟨k, rfl⟩ : nSize = 0 ∨ nSize = 1 ∨ nSize = 2 ∨ ∃ k, nSize = k + 3 := by
    rcases Nat.lt_or_ge nSize 3 with h | h
    · omega
    · exact .inr (.inr (.inr ⟨nSize - 3, by omega⟩))
  · rfl
  · rfl
  · rfl
  · have hrep : 4 + (k + 3) = k + 1 + 1 + 1 + 1 + 1 + 1 + 1 := by omega
    simp [hrep, List.replicate_succ]

theorem ofBeBytes_append (l l' : List UInt8) :
    ofBeBytes (l ++ l') = ofBeBytes l * 256 ^ l'.length + ofBeBytes l' := by
  rw [ofBeBytes, List.reverse_append, ofLeBytes_append, List.length_reverse, ofBeBytes, ofBeBytes]
  ring

theorem ofBeBytes_replicate (k : ℕ) : ofBeBytes (List.replicate k 0) = 0 := by
  induction k with
  | zero => rfl
  | succ k ih =>
    rw [List.replicate_succ, ofBeBytes_cons, ih, UInt8.toNat_zero, zero_mul]

theorem length_compactBody (nSize b₁ b₂ b₃ : ℕ) :
    (compactBody nSize b₁ b₂ b₃).length = nSize := by
  rw [compactBody, List.length_take, List.length_append, List.length_replicate, List.length_map]
  simp only [List.length_cons, List.length_nil]
  omega

theorem numBits_bodyValue_le (body : List UInt8) :
    numBits (bodyValue body).natAbs ≤ 8 * body.length := by
  refine numBits_le ?_
  rw [← two_fifty_six_pow]
  rcases body with _ | ⟨c, l⟩
  · exact Nat.one_pos
  rw [bodyValue]
  refine lt_of_le_of_lt ?_ (ofBeBytes_lt (c :: l))
  split_ifs
  · rw [Int.natAbs_neg, Int.natAbs_natCast, ofBeBytes_cons]
    exact Nat.add_le_add_right (Nat.mul_le_mul_right _ (Nat.sub_le _ _)) _
  · rw [Int.natAbs_natCast]

/-- What the buffer of `SetCompact` stands for. -/
theorem bodyValue_compactBody {nSize b₁ b₂ b₃ : ℕ} (h₁ : b₁ < 256) (h₂ : b₂ < 256) (h₃ : b₃ < 256) :
    bodyValue (compactBody nSize b₁ b₂ b₃) =
      if 1 ≤ nSize ∧ 128 ≤ b₁ then
        -(((b₁ % 128 * 65536 + b₂ * 256 + b₃) / 256 ^ (3 - nSize) * 256 ^ (nSize - 3) : ℕ) : ℤ)
      else
        (((b₁ % 128 * 65536 + b₂ * 256 + b₃) / 256 ^ (3 - nSize) * 256 ^ (nSize - 3) : ℕ) : ℤ) := by
  have hb : ∀ b : ℕ, b < 256 → (UInt8.ofNat b).toNat = b := fun b h => UInt8.toNat_ofNat_of_lt' h
  obtain rfl | rfl | rfl | ⟨k, rfl⟩ : nSize = 0 ∨ nSize = 1 ∨ nSize = 2 ∨ ∃ k, nSize = k + 3 := by
    rcases Nat.lt_or_ge nSize 3 with h | h
    · omega
    · exact .inr (.inr (.inr ⟨nSize - 3, by omega⟩))
  · have hzero : (b₁ % 128 * 65536 + b₂ * 256 + b₃) / 256 ^ (3 - 0) = 0 := by omega
    rw [hzero, zero_mul, if_neg (by omega)]
    rfl
  · have hbody : compactBody 1 b₁ b₂ b₃ = [UInt8.ofNat b₁] := rfl
    have hdiv : (b₁ % 128 * 65536 + b₂ * 256 + b₃) / 256 ^ (3 - 1) * 256 ^ (1 - 3) = b₁ % 128 := by
      omega
    rw [hbody, bodyValue, hdiv]
    simp only [ofBeBytes_cons, hb b₁ h₁, ofBeBytes_nil, List.length_nil, pow_zero]
    split_ifs <;> omega
  · have hbody : compactBody 2 b₁ b₂ b₃ = [UInt8.ofNat b₁, UInt8.ofNat b₂] := rfl
    have hdiv : (b₁ % 128 * 65536 + b₂ * 256 + b₃) / 256 ^ (3 - 2) * 256 ^ (2 - 3) =
        b₁ % 128 * 256 + b₂ := by omega
    rw [hbody, bodyValue, hdiv]
    simp only [ofBeBytes_cons, hb b₁ h₁, hb b₂ h₂, ofBeBytes_nil, List.length_nil,
      List.length_cons, pow_zero, pow_one, zero_add]
    split_ifs <;> omega
  · have hbody : compactBody (k + 3) b₁ b₂ b₃ =
        UInt8.ofNat b₁ :: UInt8.ofNat b₂ :: UInt8.ofNat b₃ :: List.replicate k 0 := by
      simp [compactBody]
    have hdiv : (b₁ % 128 * 65536 + b₂ * 256 + b₃) / 256 ^ (3 - (k + 3)) * 256 ^ (k + 3 - 3) =
        (b₁ % 128 * 65536 + b₂ * 256 + b₃) * 256 ^ k := by
      rw [Nat.sub_eq_zero_of_le (by omega), pow_zero, Nat.div_one, Nat.add_sub_cancel]
    rw [hbody, bodyValue, hdiv]
    simp only [ofBeBytes_cons, hb b₁ h₁, hb b₂ h₂, hb b₃ h₃, ofBeBytes_replicate, List.length_cons,
      List.length_replicate, Nat.add_zero]
    by_cases hsign : 128 ≤ b₁
    · have hrest : b₁ % 128 = b₁ - 128 := by omega
      rw [if_pos hsign, if_pos ⟨by omega, hsign⟩, hrest]
      congr 2
      ring
    · have hrest : b₁ % 128 = b₁ := by omega
      rw [if_neg hsign, if_neg (fun h => hsign h.2), hrest]
      congr 1
      ring

/-- **`SetCompact` is `setCompact`.** -/
theorem val_SetCompact (nCompact : ℕ) : (self.SetCompact nCompact).val = setCompact nCompact := by
  have hsize : nCompact / 16777216 % 256 < 256 := Nat.mod_lt _ (by norm_num)
  have hlen := length_compactBody (nCompact / 16777216 % 256) (nCompact / 65536 % 256)
    (nCompact / 256 % 256) (nCompact % 256)
  have hbits := numBits_bodyValue_le (compactBody (nCompact / 16777216 % 256)
    (nCompact / 65536 % 256) (nCompact / 256 % 256) (nCompact % 256))
  rw [ofMpi_compactBody, val_ofMpi (by omega) (by omega),
    bodyValue_compactBody (Nat.mod_lt _ (by norm_num)) (Nat.mod_lt _ (by norm_num))
      (Nat.mod_lt _ (by norm_num))]
  have hmantissa : nCompact / 65536 % 256 % 128 * 65536 + nCompact / 256 % 256 * 256 +
      nCompact % 256 = nCompact % 8388608 := by omega
  have hsign : 128 ≤ nCompact / 65536 % 256 ↔ nCompact / 8388608 % 2 = 1 := by omega
  unfold setCompact
  dsimp only
  rw [hmantissa]
  simp only [hsign]
  split_ifs with hneg hle hle
  · rw [Nat.sub_eq_zero_of_le hle, pow_zero, mul_one]
  · rw [Nat.sub_eq_zero_of_le (not_le.1 hle).le, pow_zero, Nat.div_one]
  · rw [Nat.sub_eq_zero_of_le hle, pow_zero, mul_one]
  · rw [Nat.sub_eq_zero_of_le (not_le.1 hle).le, pow_zero, Nat.div_one]

theorem mpiSize_eq {n : ℕ} (hn : n ≠ 0) :
    mpiSize n = (numBits n + 7) / 8 + if 0 < numBits n ∧ numBits n % 8 = 0 then 1 else 0 := by
  rw [mpiSize, if_neg hn, numBits, if_neg hn]
  split_ifs <;> omega

theorem length_setLoop_bn2bin {n : ℕ} (hn : n ≠ 0) :
    (setLoop false true (bn2bin n)).length = mpiSize n := by
  obtain ⟨c, l, hbin, hc, htop⟩ := bn2bin_eq_cons hn
  have hlen : (bn2bin n).length = (numBits n + 7) / 8 := by
    rw [bn2bin, length_beBytes]
  have hbits : 0 < numBits n := by
    rw [numBits, if_neg hn]
    exact Nat.succ_pos _
  rw [mpiSize_eq hn, ← hlen, hbin, setLoop, if_pos rfl, if_neg hc, setLoop_false,
    if_neg Bool.false_ne_true, if_neg Bool.false_ne_true]
  by_cases hmod : numBits n % 8 = 0
  · rw [if_pos ((and_top_ne_zero c).2 (htop.2 hmod)), if_pos ⟨hbits, hmod⟩, List.length_cons]
  · rw [if_neg (fun h => hmod (htop.1 ((and_top_ne_zero c).1 h))), if_neg (fun h => hmod h.2)]
    rfl

/-- A body spells its number, with or without a byte for the sign. -/
theorem ofBeBytes_setLoop (bytes : List UInt8) :
    ofBeBytes (setLoop false true bytes) = ofBeBytes bytes := by
  induction bytes with
  | nil => rfl
  | cons c bytes ih =>
    rw [setLoop, if_pos rfl, setLoop_false, if_neg Bool.false_ne_true, if_neg Bool.false_ne_true]
    split_ifs with hc htop
    · rw [ih, ofBeBytes_cons, hc, UInt8.toNat_zero, zero_mul, zero_add]
    · rw [ofBeBytes_cons, UInt8.toNat_zero, zero_mul, zero_add]
    · rfl

theorem getD_withSize (body : List UInt8) (i : ℕ) :
    (withSize body).getD (4 + i) 0 = body.getD i 0 := by
  rw [withSize, List.getD_append_right _ _ _ _ (by rw [length_beBytes]; omega), length_beBytes,
    Nat.add_sub_cancel_left]

/-- Or-ing a word's parts together adds them. -/
theorem mul_two_pow_or (h : m < 2 ^ k) : n * 2 ^ k ||| m = n * 2 ^ k + m := by
  rw [mul_comm, Nat.two_pow_add_eq_or_of_lt h]

theorem or_first {L b₁ : ℕ} (h₁ : b₁ < 256) :
    L * 2 ^ 24 ||| b₁ * 65536 = L * 16777216 + b₁ * 65536 :=
  mul_two_pow_or (by omega)

theorem or_second {L b₁ b₂ : ℕ} (h₂ : b₂ < 256) :
    (L * 16777216 + b₁ * 65536) ||| b₂ * 256 = L * 16777216 + b₁ * 65536 + b₂ * 256 := by
  have hword : L * 16777216 + b₁ * 65536 = (L * 256 + b₁) * 2 ^ 16 := by ring
  rw [hword, mul_two_pow_or (by omega)]

theorem or_third {L b₁ b₂ b₃ : ℕ} (h₃ : b₃ < 256) :
    (L * 16777216 + b₁ * 65536 + b₂ * 256) ||| b₃ =
      L * 16777216 + b₁ * 65536 + b₂ * 256 + b₃ := by
  have hword : L * 16777216 + b₁ * 65536 + b₂ * 256 = (L * 65536 + b₁ * 256 + b₂) * 2 ^ 8 := by ring
  rw [hword, mul_two_pow_or (by omega)]

/-- The value of `GetCompact` for a body. -/
theorem GetCompact_of_body (b : CBigNum) (hbody : bn2mpi b.val = withSize body)
    (hlen : body.length < 256) : b.GetCompact = body.length * 16777216 +
      if body.length ≤ 3 then ofBeBytes body * 256 ^ (3 - body.length)
      else ofBeBytes body / 256 ^ (body.length - 3) := by
  have hsize : (bn2mpi b.val).length - 4 = body.length := by
    rw [hbody, withSize, List.length_append, length_beBytes, Nat.add_sub_cancel_left]
  have hfit : body.length * 16777216 % 4294967296 = body.length * 2 ^ 24 := by omega
  unfold GetCompact
  dsimp only
  rw [hsize, hfit, hbody, getD_withSize body 0, getD_withSize body 1, getD_withSize body 2]
  rcases body with _ | ⟨b₁, _ | ⟨b₂, _ | ⟨b₃, l⟩⟩⟩
  · rfl
  · rw [if_neg (by simp), if_neg (by simp), if_pos (by simp), if_pos (by simp),
      List.getD_cons_zero, or_first b₁.toNat_lt, ofBeBytes_cons, ofBeBytes_nil]
    simp only [List.length_cons, List.length_nil]
    omega
  · rw [if_neg (by simp), if_pos (by simp), if_pos (by simp), if_pos (by simp),
      List.getD_cons_zero, List.getD_cons_succ, List.getD_cons_zero, or_first b₁.toNat_lt,
      or_second b₂.toNat_lt, ofBeBytes_cons, ofBeBytes_cons, ofBeBytes_nil]
    simp only [List.length_cons, List.length_nil]
    omega
  · have hvalue : (if (b₁ :: b₂ :: b₃ :: l).length ≤ 3 then
        ofBeBytes (b₁ :: b₂ :: b₃ :: l) * 256 ^ (3 - (b₁ :: b₂ :: b₃ :: l).length)
        else ofBeBytes (b₁ :: b₂ :: b₃ :: l) / 256 ^ ((b₁ :: b₂ :: b₃ :: l).length - 3)) =
        b₁.toNat * 65536 + b₂.toNat * 256 + b₃.toNat := by
      have hl := ofBeBytes_lt l
      have hsplit : ofBeBytes (b₁ :: b₂ :: b₃ :: l) =
          (b₁.toNat * 65536 + b₂.toNat * 256 + b₃.toNat) * 256 ^ l.length + ofBeBytes l := by
        simp only [ofBeBytes_cons, List.length_cons]
        ring
      have hdiv : ofBeBytes (b₁ :: b₂ :: b₃ :: l) / 256 ^ l.length =
          b₁.toNat * 65536 + b₂.toNat * 256 + b₃.toNat := by
        rw [hsplit, mul_comm, Nat.mul_add_div (by positivity), Nat.div_eq_of_lt hl, Nat.add_zero]
      have hrest : (b₁ :: b₂ :: b₃ :: l).length - 3 = l.length := by
        simp only [List.length_cons]
        omega
      split_ifs with hle
      · have hnil : l.length = 0 := by
          simp only [List.length_cons] at hle
          omega
        rw [hnil, pow_zero, Nat.div_one] at hdiv
        rw [show 3 - (b₁ :: b₂ :: b₃ :: l).length = 0 by simp only [List.length_cons]; omega,
          pow_zero, mul_one, hdiv]
      · rw [hrest, hdiv]
    rw [hvalue, if_pos (by simp), if_pos (by simp), if_pos (by simp),
      List.getD_cons_zero, List.getD_cons_succ, List.getD_cons_zero, List.getD_cons_succ,
      List.getD_cons_succ, List.getD_cons_zero, or_first b₁.toNat_lt, or_second b₂.toNat_lt,
      or_third b₃.toNat_lt]
    ring

/-- **`GetCompact` is `getCompact`** where the length fits its byte. -/
theorem GetCompact_eq (b : CBigNum) (hpos : 0 < b.val) (hsize : mpiSize b.val.natAbs < 256) :
    b.GetCompact = getCompact b.val := by
  obtain ⟨n, hn⟩ : ∃ n : ℕ, b.val = n := ⟨b.val.toNat, (Int.toNat_of_nonneg hpos.le).symm⟩
  rw [hn] at hpos hsize ⊢
  rw [Int.natAbs_natCast] at hsize
  have hne : n ≠ 0 := by omega
  have hneg : decide ((n : ℤ) < 0) = false := by simp
  have hbody : bn2mpi b.val = withSize (setLoop false true (bn2bin n)) := by
    rw [hn, bn2mpi_eq, Int.natAbs_natCast, hneg]
  rw [GetCompact_of_body b hbody (by rwa [length_setLoop_bn2bin hne]), length_setLoop_bn2bin hne,
    ofBeBytes_setLoop, ofBeBytes_bn2bin, getCompact_natCast, mantissa]

/-- The length of a positive number's bytes, the size in front included. -/
theorem length_bn2mpi {a : ℤ} (ha : 0 < a) : (bn2mpi a).length = 4 + mpiSize a.natAbs := by
  have hneg : decide (a < 0) = false := decide_eq_false (by omega)
  rw [bn2mpi_eq, withSize, List.length_append, length_beBytes, hneg,
    length_setLoop_bn2bin (by omega)]

/-- What a positive number becomes by way of a compact one. -/
theorem val_SetCompact_GetCompact (b : CBigNum) (hpos : 0 < b.val)
    (hfits : (bn2mpi b.val).length ≤ 4 + 255) :
    (self.SetCompact b.GetCompact).val = leading b.val.natAbs := by
  rw [length_bn2mpi hpos] at hfits
  have hsize : mpiSize b.val.natAbs < 256 := by omega
  obtain ⟨n, hn⟩ : ∃ n : ℕ, b.val = n := ⟨b.val.toNat, (Int.toNat_of_nonneg hpos.le).symm⟩
  rw [val_SetCompact, GetCompact_eq b hpos hsize, hn, Int.natAbs_natCast]
  rw [hn, Int.natAbs_natCast] at hsize
  exact setCompact_getCompact (by omega) hsize

/-- The bytes that are cut weigh little. -/
theorem sub_leading_lt {n : ℕ} (hn : 0 < n) : (n - leading n) * 2 ^ 15 < n := by
  have hrest : n - leading n = n % 256 ^ (mpiSize n - 3) := by
    have hdiv := Nat.div_add_mod n (256 ^ (mpiSize n - 3))
    rw [mul_comm] at hdiv
    rw [leading]
    omega
  have hlt : n - leading n < 256 ^ (mpiSize n - 3) := by
    rw [hrest]
    exact Nat.mod_lt _ (by positivity)
  have hle := two_pow_mpiSize_le hn
  rw [two_fifty_six_pow] at hlt
  rcases Nat.lt_or_ge 3 (mpiSize n) with hsize | hsize
  · calc (n - leading n) * 2 ^ 15 < 2 ^ (8 * (mpiSize n - 3)) * 2 ^ 15 :=
          Nat.mul_lt_mul_of_pos_right hlt (by norm_num)
      _ = 2 ^ (8 * mpiSize n - 9) := by
          rw [← pow_add]
          congr 1
          omega
      _ ≤ n := hle
  · rw [Nat.sub_eq_zero_of_le hsize, Nat.mul_zero, pow_zero] at hlt
    have hzero : n - leading n = 0 := by omega
    rw [hzero, zero_mul]
    exact hn

/-- **The compact code is a faithful approximation** of every positive number
whose bytes fit its size, and keeps the order of two. -/
theorem compact_faithful (self : CBigNum) :
    (∀ n : CBigNum, 0 < n.val → (bn2mpi n.val).length ≤ 4 + 255 →
      0 < (self.SetCompact n.GetCompact).val ∧ (self.SetCompact n.GetCompact).val ≤ n.val ∧
      (n.val - (self.SetCompact n.GetCompact).val) * 2 ^ 15 < n.val ∧
      (self.SetCompact (self.SetCompact n.GetCompact).GetCompact).val =
        (self.SetCompact n.GetCompact).val) ∧
    (∀ m n : CBigNum, 0 < m.val → m.val ≤ n.val → (bn2mpi n.val).length ≤ 4 + 255 →
      (self.SetCompact m.GetCompact).val ≤ (self.SetCompact n.GetCompact).val) := by
  constructor
  · intro n hpos hfits
    have hnat : 0 < n.val.natAbs := by omega
    have hx : (self.SetCompact n.GetCompact).val = leading n.val.natAbs :=
      val_SetCompact_GetCompact n hpos hfits
    have hxpos : 0 < (self.SetCompact n.GetCompact).val := by
      rw [hx]
      exact_mod_cast leading_pos hnat
    have hle : leading n.val.natAbs ≤ n.val.natAbs := leading_le
    have hsub := sub_leading_lt hnat
    -- rounding down a second time changes nothing
    have hagain : leading (self.SetCompact n.GetCompact).val.natAbs =
        (self.SetCompact n.GetCompact).val.natAbs := by
      rw [val_SetCompact]
      exact leading_setCompact _
    have hxfits : (bn2mpi (self.SetCompact n.GetCompact).val).length ≤ 4 + 255 := by
      rw [length_bn2mpi hpos] at hfits
      rw [length_bn2mpi hxpos]
      have hmono := mpiSize_mono (leading_pos hnat) hle
      rw [hx, Int.natAbs_natCast]
      omega
    refine ⟨hxpos, ?_, ?_, ?_⟩
    · rw [hx]
      omega
    · rw [hx]
      omega
    · rw [val_SetCompact_GetCompact _ hxpos hxfits, hagain]
      omega
  · intro m n hm hle hfits
    have hmn : m.val.natAbs ≤ n.val.natAbs := by omega
    have hmfits : (bn2mpi m.val).length ≤ 4 + 255 := by
      rw [length_bn2mpi (hm.trans_le hle)] at hfits
      rw [length_bn2mpi hm]
      have hmono := mpiSize_mono (by omega) hmn
      omega
    rw [val_SetCompact_GetCompact m hm hmfits,
      val_SetCompact_GetCompact n (hm.trans_le hle) hfits]
    exact_mod_cast leading_mono hmn

/-- A number of four bytes, the last of which is cut. -/
theorem compact_faithful_cut :
    (305419896 - ((⟨0, by decide⟩ : CBigNum).SetCompact
      (⟨305419896, by decide⟩ : CBigNum).GetCompact).val) * 2 ^ 15 < 305419896 :=
  ((compact_faithful ⟨0, by decide⟩).1 ⟨305419896, by decide⟩ (by decide)
    (by decide)).2.2.1

end CBigNum

end CryptoBullion
