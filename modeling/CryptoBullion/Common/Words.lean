import Mathlib.Tactic.Ring
import Mathlib.Tactic.Linarith
import Mathlib.Data.List.GetD
/-!
# Numbers in words

A list of words of `w` bits, the lowest first, and the number it stands
for. What is done word by word is known by what it does to the number, or,
where bits are moved, to the number's bits.
-/

namespace CryptoBullion

namespace Words

variable {w : ℕ} {l l' : List (BitVec w)} {x y : BitVec w} {i j p r : ℕ}

/-- The number that words stand for. -/
def value : List (BitVec w) → ℕ
  | [] => 0
  | x :: l => x.toNat + 2 ^ w * value l

@[simp] theorem value_nil : value ([] : List (BitVec w)) = 0 := rfl

theorem value_cons : value (x :: l) = x.toNat + 2 ^ w * value l := rfl

theorem value_append (l l' : List (BitVec w)) :
    value (l ++ l') = value l + 2 ^ (w * l.length) * value l' := by
  induction l with
  | nil => simp
  | cons x l ih =>
    rw [List.cons_append, value_cons, ih, value_cons, List.length_cons, Nat.mul_succ, pow_add]
    ring

theorem value_lt (l : List (BitVec w)) : value l < 2 ^ (w * l.length) := by
  induction l with
  | nil => exact Nat.one_pos
  | cons x l ih =>
    have hx := x.isLt
    rw [value_cons, List.length_cons, Nat.mul_succ, pow_add, mul_comm _ (2 ^ w)]
    calc x.toNat + 2 ^ w * value l < 2 ^ w * (value l + 1) := by rw [Nat.mul_succ]; omega
      _ ≤ 2 ^ w * 2 ^ (w * l.length) := Nat.mul_le_mul_left _ ih

/-- **As many words with one value** are the same. -/
theorem eq_of_value (hlen : l.length = l'.length) (h : value l = value l') : l = l' := by
  induction l generalizing l' with
  | nil => exact (List.length_eq_zero_iff.1 hlen.symm).symm
  | cons x l ih =>
    rcases l' with _ | ⟨y, l'⟩
    · exact absurd hlen (by simp)
    rw [value_cons, value_cons] at h
    have hmod := congrArg (· % 2 ^ w) h
    simp only [Nat.add_mul_mod_self_left, Nat.mod_eq_of_lt x.isLt, Nat.mod_eq_of_lt y.isLt] at hmod
    have hrest : value l = value l' := by
      rw [hmod] at h
      exact Nat.eq_of_mul_eq_mul_left (Nat.two_pow_pos w) (Nat.add_left_cancel h)
    rw [BitVec.eq_of_toNat_eq hmod, ih (by simpa using hlen) hrest]

theorem value_replicate (n : ℕ) : value (List.replicate n (0 : BitVec w)) = 0 := by
  induction n with
  | zero => rfl
  | succ n ih => rw [List.replicate_succ, value_cons, ih]; rfl

/-- All bits the other way. -/
theorem value_not (l : List (BitVec w)) :
    value (l.map fun x => ~~~x) + value l + 1 = 2 ^ (w * l.length) := by
  induction l with
  | nil => rfl
  | cons x l ih =>
    have hx := x.isLt
    rw [List.map_cons, value_cons, value_cons, BitVec.toNat_not, List.length_cons, Nat.mul_succ,
      pow_add, ← ih]
    calc 2 ^ w - 1 - x.toNat + 2 ^ w * value (l.map fun x => ~~~x) + (x.toNat + 2 ^ w * value l) + 1
        = (2 ^ w - 1 - x.toNat + x.toNat + 1) +
            2 ^ w * (value (l.map fun x => ~~~x) + value l) := by ring
      _ = 2 ^ w + 2 ^ w * (value (l.map fun x => ~~~x) + value l) := by
          congr 1
          omega
      _ = (value (l.map fun x => ~~~x) + value l + 1) * 2 ^ w := by ring

/-- **The highest words decide**, and the others where those are equal. -/
theorem value_append_lt (hlen : l.length = l'.length) :
    value (l ++ [x]) < value (l' ++ [y]) ↔ x.toNat < y.toNat ∨ x = y ∧ value l < value l' := by
  have hl := value_lt l
  have hl' := value_lt l'
  rw [value_append, value_append, value_cons, value_cons, value_nil, mul_zero, add_zero, add_zero,
    hlen]
  rw [hlen] at hl
  constructor
  · intro h
    rcases lt_trichotomy x.toNat y.toNat with hlt | heq | hgt
    · exact .inl hlt
    · rw [heq] at h
      exact .inr ⟨BitVec.eq_of_toNat_eq heq, Nat.lt_of_add_lt_add_right h⟩
    · have hmul := Nat.mul_le_mul_left (2 ^ (w * l'.length)) (Nat.succ_le_of_lt hgt)
      rw [Nat.mul_succ] at hmul
      omega
  · rintro (hlt | ⟨rfl, hlt⟩)
    · have hmul := Nat.mul_le_mul_left (2 ^ (w * l'.length)) (Nat.succ_le_of_lt hlt)
      rw [Nat.mul_succ] at hmul
      omega
    · omega

/-! ## Bits -/

/-- **A bit of the number** is one of a word. -/
theorem testBit_value (hw : 0 < w) (l : List (BitVec w)) (p : ℕ) :
    (value l).testBit p = (l.getD (p / w) 0).getLsbD (p % w) := by
  induction l generalizing p with
  | nil => simp
  | cons x l ih =>
    rw [value_cons, add_comm, Nat.testBit_two_pow_mul_add _ x.isLt]
    split_ifs with hp
    · rw [Nat.div_eq_of_lt hp, Nat.mod_eq_of_lt hp, List.getD_cons_zero, BitVec.testBit_toNat]
    · have hdiv : p / w = (p - w) / w + 1 := by
        rw [← Nat.add_div_right _ hw, Nat.sub_add_cancel (not_lt.1 hp)]
      have hmod : p % w = (p - w) % w := by
        rw [← Nat.add_mod_right (p - w), Nat.sub_add_cancel (not_lt.1 hp)]
      rw [ih, hdiv, hmod, List.getD_cons_succ]

/-- `l[i] |= x` -/
def orAt (l : List (BitVec w)) (i : ℕ) (x : BitVec w) : List (BitVec w) :=
  l.set i (l.getD i 0 ||| x)

/-- One word after another is or-ed in. -/
def orAll (l : List (BitVec w)) (cs : List (ℕ × BitVec w)) : List (BitVec w) :=
  cs.foldl (fun l c => orAt l c.1 c.2) l

@[simp] theorem length_orAt : (orAt l i x).length = l.length := List.length_set

theorem getLsbD_orAt (hj : j < l.length) : ((orAt l i x).getD j 0).getLsbD r =
    ((l.getD j 0).getLsbD r || (decide (i = j) && x.getLsbD r)) := by
  rw [orAt, List.getD_eq_getElem?_getD, List.getElem?_set]
  by_cases hij : i = j
  · subst hij
    rw [if_pos rfl, if_pos hj]
    simp [BitVec.getLsbD_or]
  · rw [if_neg hij, ← List.getD_eq_getElem?_getD]
    simp [hij]

variable {cs : List (ℕ × BitVec w)}

@[simp] theorem length_orAll : (orAll l cs).length = l.length := by
  induction cs generalizing l with
  | nil => rfl
  | cons c cs ih => rw [orAll, List.foldl_cons, ← orAll, ih, length_orAt]

/-- **A bit is set** where it was, or where a word that was or-ed in has it. -/
theorem getLsbD_orAll (hj : j < l.length) : ((orAll l cs).getD j 0).getLsbD r = true ↔
    (l.getD j 0).getLsbD r = true ∨ ∃ c ∈ cs, c.1 = j ∧ c.2.getLsbD r = true := by
  induction cs generalizing l with
  | nil => simp [orAll]
  | cons c cs ih =>
    rw [orAll, List.foldl_cons, ← orAll, ih (by rwa [length_orAt]), getLsbD_orAt hj]
    simp only [Bool.or_eq_true, Bool.and_eq_true, decide_eq_true_eq, List.mem_cons,
      exists_eq_or_imp, or_assoc]

theorem orAll_append (cs cs' : List (ℕ × BitVec w)) :
    orAll l (cs ++ cs') = orAll (orAll l cs) cs' := List.foldl_append

/-- A loop whose turns or words in does so with all of them. -/
theorem foldl_eq_orAll {ι : Type} (turn : List (BitVec w) → ι → List (BitVec w))
    (cs : ι → List (ℕ × BitVec w)) (hturn : ∀ l i, turn l i = orAll l (cs i)) (is : List ι) :
    is.foldl turn l = orAll l (is.flatMap cs) := by
  induction is generalizing l with
  | nil => rfl
  | cons i is ih => rw [List.foldl_cons, hturn, ih, List.flatMap_cons, orAll_append]

/-- **Words that are or-ed into zeros** set the bits of a number where each of
its bits is in one of them. -/
theorem value_orAll {WIDTH n : ℕ} (hw : 0 < w) (hn : n < 2 ^ (w * WIDTH))
    (h : ∀ j < WIDTH, ∀ r < w,
      n.testBit (w * j + r) = true ↔ ∃ c ∈ cs, c.1 = j ∧ c.2.getLsbD r = true) :
    value (orAll (List.replicate WIDTH 0) cs) = n := by
  refine Nat.eq_of_testBit_eq fun p => ?_
  rcases Nat.lt_or_ge p (w * WIDTH) with hp | hp
  · have hj : p / w < WIDTH := Nat.div_lt_of_lt_mul hp
    have hr : p % w < w := Nat.mod_lt _ hw
    have hbit := h (p / w) hj (p % w) hr
    rw [Nat.div_add_mod] at hbit
    have hzero :
        ((List.replicate WIDTH (0 : BitVec w)).getD (p / w) 0).getLsbD (p % w) = false := by
      rw [List.getD_replicate _ hj]
      exact BitVec.getLsbD_zero
    rw [testBit_value hw, Bool.eq_iff_iff, getLsbD_orAll (by rwa [List.length_replicate]), hbit,
      hzero, Bool.false_eq_true, false_or]
  · have hvalue := value_lt (orAll (List.replicate WIDTH 0) cs)
    rw [length_orAll, List.length_replicate] at hvalue
    have hpow : 2 ^ (w * WIDTH) ≤ 2 ^ p := Nat.pow_le_pow_right (by norm_num) hp
    rw [Nat.testBit_lt_two_pow (hvalue.trans_le hpow), Nat.testBit_lt_two_pow (hn.trans_le hpow)]

end Words

end CryptoBullion
