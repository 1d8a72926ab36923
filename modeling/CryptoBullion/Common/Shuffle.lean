import Mathlib
/-!
# A partial shuffle

The first few places of a list are filled one after the other with what is
drawn from the places not filled yet: step `i` exchanges place `i` with
place `draw i`, which is `i` or behind it. What a step has drawn stays at
its place through all later steps. What it was exchanged for is moved
again by any later step that draws it.

Where the least of the drawn is looked for on the way, the first step that
drew it is what is found (`Shuffle.least`).
-/

namespace CryptoBullion

namespace Shuffle

variable {α β : Type} {l : List α} {draw : ℕ → ℕ} {i j p k : ℕ} {a : α}

/-- Exchange two places. -/
def exchange (l : List α) (i p : ℕ) : List α :=
  match l[i]?, l[p]? with
  | some a, some b => (l.set p a).set i b
  | _, _ => l

/-- `k` steps, from step `i` on. -/
def shuffle (draw : ℕ → ℕ) : ℕ → ℕ → List α → List α
  | 0, _, l => l
  | k + 1, i, l => shuffle draw k (i + 1) (exchange l i (draw i))

/-! ## One step -/

theorem exchange_of_lt (hi : i < l.length) (hp : p < l.length) :
    exchange l i p = (l.set p l[i]).set i l[p] := by
  unfold exchange
  rw [List.getElem?_eq_getElem hi, List.getElem?_eq_getElem hp]

theorem exchange_of_not_lt (h : ¬ (i < l.length ∧ p < l.length)) : exchange l i p = l := by
  unfold exchange
  split
  next hi hp =>
    exact absurd ⟨(List.getElem?_eq_some_iff.1 hi).1, (List.getElem?_eq_some_iff.1 hp).1⟩ h
  next => rfl

/-- Nothing is lost and nothing is made. -/
theorem perm_exchange : (exchange l i p).Perm l := by
  by_cases h : i < l.length ∧ p < l.length
  · rw [exchange_of_lt h.1 h.2]
    exact List.set_set_perm h.2 h.1
  · rw [exchange_of_not_lt h]

theorem length_exchange : (exchange l i p).length = l.length := perm_exchange.length_eq

/-- What is drawn comes to its step's place. -/
theorem getElem?_exchange_self (hi : i < l.length) (hp : p < l.length) :
    (exchange l i p)[i]? = l[p]? := by
  rw [exchange_of_lt hi hp, List.getElem?_set_self (by rwa [List.length_set]),
    List.getElem?_eq_getElem hp]

/-- The places before are not touched. -/
theorem getElem?_exchange_of_lt (hj : j < i) (hp : i ≤ p) : (exchange l i p)[j]? = l[j]? := by
  by_cases h : i < l.length ∧ p < l.length
  · rw [exchange_of_lt h.1 h.2, List.getElem?_set_ne (by omega), List.getElem?_set_ne (by omega)]
  · rw [exchange_of_not_lt h]

/-! ## All steps -/

theorem perm_shuffle : (shuffle draw k i l).Perm l := by
  induction k generalizing i l with
  | zero => exact List.Perm.refl l
  | succ k ih => exact ih.trans perm_exchange

theorem length_shuffle : (shuffle draw k i l).length = l.length := perm_shuffle.length_eq

/-- **What has been drawn stays where it is.** -/
theorem getElem?_shuffle_of_lt (hdraw : ∀ n, n ≤ draw n) (hj : j < i) :
    (shuffle draw k i l)[j]? = l[j]? := by
  induction k generalizing i l with
  | zero => rfl
  | succ k ih =>
    rw [shuffle, ih (by omega), getElem?_exchange_of_lt hj (hdraw i)]

/-- So the step's place has what the step drew. -/
theorem getElem?_shuffle_self (hdraw : ∀ n, n ≤ draw n) (hi : i < l.length)
    (hp : draw i < l.length) : (shuffle draw (k + 1) i l)[i]? = l[draw i]? := by
  rw [shuffle, getElem?_shuffle_of_lt hdraw (Nat.lt_succ_self i), getElem?_exchange_self hi hp]

/-! ## The least of the drawn -/

variable [LinearOrder β]

/-- The first of the first `m` steps whose place has the least value. -/
def least (value : ℕ → β) (m : ℕ) : Option ℕ := (List.range m).argmin value

theorem least_zero {value : ℕ → β} : least value 0 = none := rfl

/-- **One more step**: it takes over where its value is less. -/
theorem least_succ {value : ℕ → β} {m : ℕ} : least value (m + 1) =
    match least value m with
    | none => some m
    | some k => if value m < value k then some m else some k := by
  unfold least
  rw [List.range_succ, List.argmin_concat]
  cases (List.range m).argmin value <;> rfl

/-- **What is found** is a least, and the first of them. -/
theorem least_eq_some_iff {value : ℕ → β} {m : ℕ} : least value m = some k ↔
    k < m ∧ (∀ j < m, value k ≤ value j) ∧ ∀ j < k, value k < value j := by
  induction m generalizing k with
  | zero => simp [least_zero]
  | succ m ih =>
    rw [least_succ]
    rcases hm : least value m with _ | k'
    · have hzero : m = 0 := by
        rw [least, List.argmin_eq_none, List.range_eq_nil] at hm
        exact hm
      subst hzero
      constructor
      · rintro ⟨⟩
        refine ⟨Nat.zero_lt_one, fun j hj => ?_, fun j hj => absurd hj (Nat.not_lt_zero j)⟩
        rw [Nat.lt_one_iff.1 hj]
      · rintro ⟨hk, -⟩
        rw [Nat.lt_one_iff.1 hk]
    · obtain ⟨hlt, hle, hfirst⟩ := ih.1 hm
      dsimp only
      split_ifs with hless
      · -- the last is less than all before it
        have hall : ∀ j < m, value m < value j := fun j hj => hless.trans_le (hle j hj)
        constructor
        · rintro ⟨⟩
          refine ⟨Nat.lt_succ_self m, fun j hj => ?_, hall⟩
          rcases Nat.lt_succ_iff_lt_or_eq.1 hj with hj | rfl
          · exact (hall j hj).le
          · exact le_rfl
        · rintro ⟨hk, hmin, -⟩
          rcases Nat.lt_succ_iff_lt_or_eq.1 hk with hk | rfl
          · exact absurd (hall k hk) (not_lt.2 (hmin m (Nat.lt_succ_self m)))
          · rfl
      · rw [not_lt] at hless
        rw [← hm, ih]
        constructor
        · rintro ⟨hk, hmin, hfst⟩
          refine ⟨hk.trans (Nat.lt_succ_self m), fun j hj => ?_, hfst⟩
          rcases Nat.lt_succ_iff_lt_or_eq.1 hj with hj | rfl
          · exact hmin j hj
          · exact (hmin k' hlt).trans hless
        · rintro ⟨hk, hmin, hfst⟩
          rcases Nat.lt_succ_iff_lt_or_eq.1 hk with hk | rfl
          · exact ⟨hk, fun j hj => hmin j (hj.trans (Nat.lt_succ_self m)), hfst⟩
          · exact absurd (hfst k' hlt) (not_lt.2 hless)

theorem lt_of_least {value : ℕ → β} {m : ℕ} (h : least value m = some k) : k < m :=
  (least_eq_some_iff.1 h).1

theorem exists_least {value : ℕ → β} {m : ℕ} (hm : 0 < m) : ∃ k, least value m = some k := by
  rcases h : least value m with _ | k
  · rw [least, List.argmin_eq_none, List.range_eq_nil] at h
    omega
  · exact ⟨k, rfl⟩

end Shuffle

end CryptoBullion
