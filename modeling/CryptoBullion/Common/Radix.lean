import Mathlib
/-!
# From one base to another

A list of digits, the most significant first, is written in another base
with its leading zeros kept: as many zeros as it has, and then the digits
of its value. Leading zeros and value are all there is to such a list, so
writing it back gives the list itself.
-/

namespace CryptoBullion

namespace Radix

variable {b c n : ℕ} {l : List ℕ}

/-- The number of zeros in front. -/
def leadingZeros (l : List ℕ) : ℕ := (l.takeWhile fun d => d = 0).length

/-- The value of digits, the most significant first. -/
def value (b : ℕ) (l : List ℕ) : ℕ := Nat.ofDigits b l.reverse

/-- The digits in base `c` of a list in base `b`, leading zeros kept. -/
def convert (b c : ℕ) (l : List ℕ) : List ℕ :=
  List.replicate (leadingZeros l) 0 ++ (Nat.digits c (value b l)).reverse

theorem value_replicate_append : value b (List.replicate n 0 ++ l) = value b l := by
  unfold value
  rw [List.reverse_append, List.reverse_replicate, Nat.ofDigits_append_replicate_zero]

/-- A list is its zeros and what follows them. -/
theorem eq_replicate_append (l : List ℕ) :
    l = List.replicate (leadingZeros l) 0 ++ l.dropWhile fun d => d = 0 := by
  nth_rewrite 1 [← List.takeWhile_append_dropWhile (p := fun d => d = 0) (l := l)]
  congr 1
  refine List.eq_replicate_of_mem fun d hd => ?_
  simpa using List.mem_takeWhile_imp hd

/-- What starts with another digit has as many zeros as are put in front
of it. -/
theorem leadingZeros_replicate_append (h : l.head? ≠ some 0) :
    leadingZeros (List.replicate n 0 ++ l) = n := by
  unfold leadingZeros
  rw [List.takeWhile_append_of_pos (by simp), List.length_append, List.length_replicate]
  rcases l with _ | ⟨d, l⟩
  · rfl
  · have hd : d ≠ 0 := fun h0 => h (congrArg some h0)
    rw [List.takeWhile_cons_of_neg (by simpa using hd)]
    rfl

theorem head_dropWhile (l : List ℕ) : (l.dropWhile fun d => d = 0).head? ≠ some 0 := by
  intro h
  have hnot := List.head?_dropWhile_not (fun d => d = 0) l
  rw [h] at hnot
  simp at hnot

/-- The most significant digit is not zero. -/
theorem head_digits : (Nat.digits c n).reverse.head? ≠ some 0 := by
  rw [List.head?_reverse]
  intro h
  have hne : Nat.digits c n ≠ [] := fun h0 => by simp [h0] at h
  rw [List.getLast?_eq_some_getLast hne] at h
  have hn : n ≠ 0 := Nat.digits_ne_nil_iff_ne_zero.1 hne
  exact Nat.getLast_digit_ne_zero c hn (Option.some.inj h)

@[simp] theorem leadingZeros_convert : leadingZeros (convert b c l) = leadingZeros l :=
  leadingZeros_replicate_append head_digits

@[simp] theorem value_convert : value c (convert b c l) = value b l := by
  unfold convert
  rw [value_replicate_append]
  unfold value
  rw [List.reverse_reverse, Nat.ofDigits_digits]

/-- **There and back** is the list itself. -/
theorem convert_convert (hb : 1 < b) (hl : ∀ d ∈ l, d < b) :
    convert c b (convert b c l) = l := by
  have hrest : Nat.digits b (value b l) = (l.dropWhile fun d => d = 0).reverse := by
    nth_rewrite 1 [eq_replicate_append l]
    rw [value_replicate_append]
    refine Nat.digits_ofDigits b hb _ (fun d hd => ?_) fun hne h0 => ?_
    · exact hl d (List.dropWhile_suffix _ |>.subset (List.mem_reverse.1 hd))
    · rw [List.getLast_reverse] at h0
      have hne' : (l.dropWhile fun d => d = 0) ≠ [] := List.reverse_ne_nil_iff.1 hne
      exact head_dropWhile l (by rw [List.head?_eq_some_head hne', h0])
  have hback : convert c b (convert b c l) = List.replicate (leadingZeros (convert b c l)) 0 ++
      (Nat.digits b (value c (convert b c l))).reverse := rfl
  rw [hback, leadingZeros_convert, value_convert, hrest, List.reverse_reverse]
  exact (eq_replicate_append l).symm

/-- The digits are those of the base. -/
theorem lt_of_mem_convert (hc : 1 < c) {d : ℕ} (hd : d ∈ convert b c l) : d < c := by
  rcases List.mem_append.1 hd with hd | hd
  · rw [List.eq_of_mem_replicate hd]
    exact Nat.zero_lt_of_lt hc
  · exact Nat.digits_lt_base hc (List.mem_reverse.1 hd)

end Radix

end CryptoBullion
