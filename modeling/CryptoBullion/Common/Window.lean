import Mathlib
/-!
# Places in a sorted window

The window over a stream is its last values. Once they are sorted, what
stands at a place is a matter of counting: it is at most `v` exactly if
more values than there are places before it are (`getElem_le_iff`). Where
`v` is the least value there is, that says when a place holds just that
value.
-/

namespace CryptoBullion

namespace Window

variable {α : Type} {n i : ℕ} {v : α} {l : List α}

/-! ## Sliding -/

/-- **One more value** pushes the oldest one out of a full window. -/
theorem rtake_append_singleton (hn : 0 < n) : (l ++ [v]).rtake n =
    (if (l.rtake n).length = n then (l.rtake n).drop 1 else l.rtake n) ++ [v] := by
  unfold List.rtake
  rw [List.length_append, List.length_singleton, List.length_drop]
  split_ifs with hfull
  · rw [List.drop_append_of_le_length (by omega), List.drop_drop]
    congr 2
    omega
  · rw [List.drop_append_of_le_length (by omega)]
    congr 2
    omega

theorem length_rtake : (l.rtake n).length = min n l.length := by
  unfold List.rtake
  rw [List.length_drop]
  omega

/-- A stream that has not filled the window is all in it. -/
theorem rtake_eq_self (h : l.length ≤ n) : l.rtake n = l := by
  unfold List.rtake
  rw [Nat.sub_eq_zero_of_le h, List.drop_zero]

/-! ## Counting -/

variable [LinearOrder α]

/-- **A place holds at most `v`** exactly if the values that do reach it. -/
theorem getElem_le_iff (hl : l.Pairwise (· ≤ ·)) (hi : i < l.length) :
    l[i] ≤ v ↔ i < l.countP (· ≤ v) := by
  induction l generalizing i with
  | nil => exact absurd hi (Nat.not_lt_zero _)
  | cons a l ih =>
    obtain ⟨hle, hl⟩ := List.pairwise_cons.1 hl
    rw [List.countP_cons]
    by_cases ha : a ≤ v
    · cases i with
      | zero => simp [ha]
      | succ i =>
        rw [List.getElem_cons_succ, ih hl]
        simp [ha]
    · -- nothing behind a value that is too large is small enough
      have hlarge : ∀ b ∈ a :: l, ¬ b ≤ v := by
        intro b hb hbv
        rcases List.mem_cons.1 hb with rfl | hb
        · exact ha hbv
        · exact ha ((hle b hb).trans hbv)
      have hnone : l.countP (· ≤ v) = 0 := by
        rw [List.countP_eq_zero]
        exact fun b hb => by simpa using hlarge b (List.mem_cons_of_mem a hb)
      have hget := hlarge _ (List.getElem_mem hi)
      simp [hget, hnone, ha]

/-- The same of values that are sorted here. -/
theorem getElem_insertionSort_le_iff (hi : i < (l.insertionSort (· ≤ ·)).length) :
    (l.insertionSort (· ≤ ·))[i] ≤ v ↔ i < l.countP (· ≤ v) := by
  rw [getElem_le_iff (List.pairwise_insertionSort _ l) hi, (List.perm_insertionSort _ l).countP_eq]

/-- **A place holds the least value** exactly if that many values are. -/
theorem getElem_insertionSort_eq_iff (hv : ∀ a : α, v ≤ a)
    (hi : i < (l.insertionSort (· ≤ ·)).length) :
    (l.insertionSort (· ≤ ·))[i] = v ↔ i < l.count v := by
  have hle : ∀ a : α, a ≤ v ↔ a = v := fun a => ⟨fun h => le_antisymm h (hv a), le_of_eq⟩
  rw [← hle, getElem_insertionSort_le_iff hi, List.count]
  simp only [hle, beq_eq_decide]

end Window

end CryptoBullion
