import Mathlib
/-!
# Lists picked out by flags

A list of flags beside a list of things picks some of them. Raising one
flag adds one thing, and lowering it again takes it away.
-/

namespace CryptoBullion

namespace Picking

variable {α : Type} {flags : List Bool} {l : List α} {a : α} {i n : ℕ}

/-- The elements whose flags are up. -/
def picked : List Bool → List α → List α
  | true :: flags, a :: l => a :: picked flags l
  | false :: flags, _ :: l => picked flags l
  | _, _ => []

theorem picked_sublist : ∀ {flags : List Bool} {l : List α}, (picked flags l).Sublist l
  | [], _ => List.nil_sublist _
  | true :: _, [] => List.nil_sublist _
  | false :: _, [] => List.nil_sublist _
  | true :: flags, a :: l => by
    rw [picked]
    exact picked_sublist.cons_cons a
  | false :: flags, a :: l => by
    rw [picked]
    exact picked_sublist.cons a

/-- All flags up pick everything. -/
theorem picked_replicate_true : ∀ {l : List α}, picked (List.replicate l.length true) l = l
  | [] => rfl
  | a :: l => by rw [List.length_cons, List.replicate_succ, picked, picked_replicate_true]

/-- No flag up picks nothing. -/
theorem picked_replicate_false : ∀ {n : ℕ} {l : List α}, picked (List.replicate n false) l = []
  | 0, _ => rfl
  | n + 1, [] => rfl
  | n + 1, _ :: _ => by rw [List.replicate_succ, picked, picked_replicate_false]

/-- **Raising a flag** picks one element more. -/
theorem picked_set_true (hflag : flags[i]? = some false) (ha : l[i]? = some a) :
    (picked (flags.set i true) l).Perm (a :: picked flags l) := by
  induction l generalizing flags i with
  | nil => exact absurd ha (by simp)
  | cons x l ih =>
    rcases flags with _ | ⟨flag, flags⟩
    · exact absurd hflag (by simp)
    rcases i with _ | i
    · obtain rfl : flag = false := Option.some.inj hflag
      obtain rfl : x = a := Option.some.inj ha
      exact List.Perm.refl _
    · have hperm : (picked (flags.set i true) l).Perm (a :: picked flags l) := ih hflag ha
      cases flag
      · exact hperm
      · exact (hperm.cons x).trans (List.Perm.swap _ _ _)

/-- A flag raised and lowered again is as it was. -/
theorem set_true_set_false (h : flags[i]? = some false) : (flags.set i true).set i false = flags := by
  obtain ⟨hlt, hget⟩ := List.getElem?_eq_some_iff.1 h
  rw [List.set_set, ← hget, List.set_getElem_self]

end Picking

end CryptoBullion
