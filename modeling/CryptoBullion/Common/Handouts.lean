import Mathlib
/-!
# Places handed out among positions

A list is gone through in which some have a position and some, written as
-1, have none. Who has none is handed the place after everybody before
him. Who has a position moves up by the number of places handed out that
are not above the position he came with. Those who had positions keep
their order, whatever the list is. That nobody is given a place somebody
moves to is another matter, and depends on the list.
-/

namespace CryptoBullion

namespace Handouts

variable {O T l : List ℤ} {p q r m v o nNext : ℤ}

/-- Where a position moves to, of the places `O` handed out. -/
def moved (O : List ℤ) (p : ℤ) : ℤ := p + O.countP (· ≤ p)

/-- The positions that are given, in the order of the list: `nNext` is next,
and `O` was handed out. -/
def values (nNext : ℤ) (O : List ℤ) : List ℤ → List ℤ
  | [] => []
  | p :: l =>
    if p = -1 then nNext :: values (nNext + 1) (O ++ [nNext]) l
    else moved O p :: values (max nNext (moved O p + 1)) O l

/-- What is handed out in the end. -/
def offsets (nNext : ℤ) (O : List ℤ) : List ℤ → List ℤ
  | [] => O
  | p :: l =>
    if p = -1 then offsets (nNext + 1) (O ++ [nNext]) l
    else offsets (max nNext (moved O p + 1)) O l

/-- And what is next then. -/
def nextAfter (nNext : ℤ) (O : List ℤ) : List ℤ → ℤ
  | [] => nNext
  | p :: l =>
    if p = -1 then nextAfter (nNext + 1) (O ++ [nNext]) l
    else nextAfter (max nNext (moved O p + 1)) O l

/-- The places, told from the positions alone: each is one more than the
one before, and than where the largest position before it moves to. -/
def places (m : ℤ) (O : List ℤ) : List ℤ → List ℤ
  | [] => O
  | p :: l =>
    if p = -1 then places m (O ++ [max (O.getLast?.getD (-1)) (moved O m) + 1]) l
    else places (max m p) O l

/-! ## Moving -/

theorem le_moved : p ≤ moved O p := by
  unfold moved
  omega

/-- **Moving keeps the order.** -/
theorem moved_lt_moved (h : p < q) : moved O p < moved O q := by
  have hcount : O.countP (· ≤ p) ≤ O.countP (· ≤ q) :=
    List.countP_mono_left fun o _ ho => by
      rw [decide_eq_true_eq] at ho ⊢
      omega
  unfold moved
  omega

theorem moved_injective : Function.Injective (moved O) := fun p q h => by
  rcases lt_trichotomy p q with hlt | heq | hlt
  · exact absurd h (moved_lt_moved hlt).ne
  · exact heq
  · exact absurd h (moved_lt_moved hlt).ne'

theorem moved_max : moved O (max p q) = max (moved O p) (moved O q) := by
  have hmono : Monotone (moved O) := StrictMono.monotone fun _ _ => moved_lt_moved
  exact hmono.map_max

/-- What is handed out above a position does not move it. -/
theorem moved_append (h : ∀ o ∈ T, p < o) : moved (O ++ T) p = moved O p := by
  have hcount : T.countP (· ≤ p) = 0 :=
    List.countP_eq_zero.2 fun o ho => by
      rw [decide_eq_true_eq, not_le]
      exact h o ho
  unfold moved
  rw [List.countP_append, hcount, Nat.add_zero]

/-! ## One after the other -/

theorem length_values : (values nNext O l).length = l.length := by
  induction l generalizing nNext O with
  | nil => rfl
  | cons p l ih =>
    unfold values
    split_ifs
    · rw [List.length_cons, ih, List.length_cons]
    · rw [List.length_cons, ih, List.length_cons]

/-- What is handed out later is not below what is next. -/
theorem exists_offsets_eq (nNext : ℤ) (O l : List ℤ) : ∃ T, offsets nNext O l = O ++ T ∧ ∀ o ∈ T, nNext ≤ o := by
  induction l generalizing nNext O with
  | nil => exact ⟨[], (List.append_nil O).symm, by simp⟩
  | cons p l ih =>
    unfold offsets
    split_ifs
    · obtain ⟨T, hT, hle⟩ := ih (nNext + 1) (O ++ [nNext])
      refine ⟨nNext :: T, by rw [hT, List.append_assoc]; rfl, fun o ho => ?_⟩
      rcases List.mem_cons.1 ho with rfl | ho
      · exact le_rfl
      · have := hle o ho
        omega
    · obtain ⟨T, hT, hle⟩ := ih (max nNext (moved O p + 1)) O
      exact ⟨T, hT, fun o ho => (le_max_left _ _).trans (hle o ho)⟩

/-- **Who has a position** moves as what is handed out in the end says. -/
theorem getElem?_values_of_ne : ∀ {l : List ℤ} {k : ℕ} {nNext : ℤ} {O : List ℤ},
    l[k]? = some p → p ≠ -1 → (values nNext O l)[k]? = some (moved (offsets nNext O l) p)
  | [], k, _, _, hk, _ => by simp at hk
  | q :: l, 0, nNext, O, hk, hp => by
    obtain rfl : q = p := Option.some.inj hk
    unfold values offsets
    rw [if_neg hp, if_neg hp, List.getElem?_cons_zero]
    obtain ⟨T, hT, hle⟩ := exists_offsets_eq (max nNext (moved O q + 1)) O l
    rw [hT, moved_append fun o ho => ?_]
    have hnext := (le_max_right nNext (moved O q + 1)).trans (hle o ho)
    have := le_moved (O := O) (p := q)
    omega
  | q :: l, k + 1, nNext, O, hk, hp => by
    rw [List.getElem?_cons_succ] at hk
    unfold values offsets
    split_ifs
    · exact (List.getElem?_cons_succ).trans (getElem?_values_of_ne hk hp)
    · exact (List.getElem?_cons_succ).trans (getElem?_values_of_ne hk hp)

/-- **Who has none** is handed a place. -/
theorem exists_getElem?_values_eq : ∀ {l : List ℤ} {k : ℕ} {nNext : ℤ} {O : List ℤ},
    l[k]? = some (-1) → ∃ o ∈ offsets nNext O l, (values nNext O l)[k]? = some o
  | [], k, _, _, hk => by simp at hk
  | q :: l, 0, nNext, O, hk => by
    obtain rfl : q = -1 := Option.some.inj hk
    unfold values offsets
    rw [if_pos rfl, if_pos rfl]
    obtain ⟨T, hT, -⟩ := exists_offsets_eq (nNext + 1) (O ++ [nNext]) l
    exact ⟨nNext, by rw [hT]; simp, List.getElem?_cons_zero⟩
  | q :: l, k + 1, nNext, O, hk => by
    rw [List.getElem?_cons_succ] at hk
    unfold values offsets
    split_ifs
    · exact exists_getElem?_values_eq hk
    · exact exists_getElem?_values_eq hk

/-- And nobody else. -/
theorem mem_offsets : ∀ {l : List ℤ} {nNext : ℤ} {O : List ℤ}, o ∈ offsets nNext O l →
    o ∈ O ∨ ∃ k : ℕ, l[k]? = some (-1) ∧ (values nNext O l)[k]? = some o
  | [], _, _, ho => .inl ho
  | q :: l, nNext, O, ho => by
    unfold offsets at ho
    unfold values
    split_ifs at ho ⊢ with hq
    · rcases mem_offsets ho with hmem | ⟨k, hk, hv⟩
      · rcases List.mem_append.1 hmem with hmem | hmem
        · exact .inl hmem
        · obtain rfl := List.mem_singleton.1 hmem
          exact .inr ⟨0, by rw [hq]; rfl, rfl⟩
      · exact .inr ⟨k + 1, hk, hv⟩
    · rcases mem_offsets ho with hmem | ⟨k, hk, hv⟩
      · exact .inl hmem
      · exact .inr ⟨k + 1, hk, hv⟩

/-- A place that is handed out is not below what was next. -/
theorem le_of_getElem?_values : ∀ {l : List ℤ} {k : ℕ} {nNext : ℤ} {O : List ℤ},
    l[k]? = some (-1) → (values nNext O l)[k]? = some v → nNext ≤ v
  | [], k, _, _, hk, _ => by simp at hk
  | q :: l, 0, nNext, O, hk, hv => by
    obtain rfl : q = -1 := Option.some.inj hk
    unfold values at hv
    rw [if_pos rfl] at hv
    exact (Option.some.inj hv).le
  | q :: l, k + 1, nNext, O, hk, hv => by
    rw [List.getElem?_cons_succ] at hk
    unfold values at hv
    split_ifs at hv
    · exact (by omega : nNext ≤ nNext + 1).trans (le_of_getElem?_values hk hv)
    · exact (le_max_left _ _).trans (le_of_getElem?_values hk hv)

/-- **A place is after everybody before it.** -/
theorem lt_of_lt_of_getElem?_values : ∀ {l : List ℤ} {j k : ℕ} {nNext : ℤ} {O : List ℤ},
    j < k → l[k]? = some (-1) → (values nNext O l)[j]? = some v →
    (values nNext O l)[k]? = some o → v < o
  | [], _, _, _, _, _, hk, _, _ => by simp at hk
  | q :: l, 0, k + 1, nNext, O, _, hk, hj, hv => by
    rw [List.getElem?_cons_succ] at hk
    unfold values at hj hv
    split_ifs at hj hv
    · have hle := le_of_getElem?_values hk hv
      obtain rfl : nNext = v := Option.some.inj hj
      omega
    · have hle := le_of_getElem?_values hk hv
      obtain rfl : moved O q = v := Option.some.inj hj
      have := le_max_right nNext (moved O q + 1)
      omega
  | q :: l, j + 1, k + 1, nNext, O, hlt, hk, hj, hv => by
    rw [List.getElem?_cons_succ] at hk
    unfold values at hj hv
    split_ifs at hj hv
    · exact lt_of_lt_of_getElem?_values (Nat.lt_of_succ_lt_succ hlt) hk hj hv
    · exact lt_of_lt_of_getElem?_values (Nat.lt_of_succ_lt_succ hlt) hk hj hv

/-- **What is next** is above what was, and above all that is given. -/
theorem lt_nextAfter_iff : r < nextAfter nNext O l ↔
    r < nNext ∨ ∃ v ∈ values nNext O l, r ≤ v := by
  induction l generalizing nNext O with
  | nil => simp [nextAfter, values]
  | cons p l ih =>
    unfold nextAfter values
    split_ifs
    · rw [ih, List.exists_mem_cons_iff, Int.lt_add_one_iff, ← or_assoc]
      exact or_congr ⟨.inr, fun h => h.elim le_of_lt id⟩ Iff.rfl
    · rw [ih, List.exists_mem_cons_iff, lt_max_iff, Int.lt_add_one_iff, or_assoc]

theorem nonneg_of_mem_values (hnext : 0 ≤ nNext) (hl : ∀ p ∈ l, p = -1 ∨ 0 ≤ p)
    (hv : v ∈ values nNext O l) : 0 ≤ v := by
  induction l generalizing nNext O with
  | nil => simp [values] at hv
  | cons p l ih =>
    have hrest : ∀ p ∈ l, p = -1 ∨ 0 ≤ p := fun p hp => hl p (List.mem_cons_of_mem _ hp)
    unfold values at hv
    split_ifs at hv with hp
    · rcases List.mem_cons.1 hv with rfl | hv
      · exact hnext
      · exact ih (by omega) hrest hv
    · rcases List.mem_cons.1 hv with rfl | hv
      · exact ((hl p List.mem_cons_self).resolve_left hp).trans le_moved
      · exact ih (hnext.trans (le_max_left _ _)) hrest hv

/-- **The places are told from the positions alone.** -/
theorem offsets_eq_places (hnext : nNext = max (O.getLast?.getD (-1)) (moved O m) + 1) :
    offsets nNext O l = places m O l := by
  induction l generalizing nNext O m with
  | nil => rfl
  | cons p l ih =>
    unfold offsets places
    split_ifs
    · rw [← hnext]
      refine ih ?_
      rw [List.getLast?_append, List.getLast?_singleton, Option.some_or, Option.getD_some,
        moved_append fun o ho => ?_]
      · have := le_max_right (O.getLast?.getD (-1)) (moved O m)
        omega
      · obtain rfl := List.mem_singleton.1 ho
        have := le_max_right (O.getLast?.getD (-1)) (moved O m)
        have := le_moved (O := O) (p := m)
        omega
    · refine ih ?_
      rw [hnext, moved_max]
      omega

/-- Where everybody has a position, everybody keeps it. -/
theorem values_of_forall_ne (hl : ∀ p ∈ l, p ≠ -1) : values nNext [] l = l := by
  induction l generalizing nNext with
  | nil => rfl
  | cons p l ih =>
    unfold values
    rw [if_neg (hl p List.mem_cons_self), ih fun p hp => hl p (List.mem_cons_of_mem _ hp)]
    simp [moved]

end Handouts

end CryptoBullion
