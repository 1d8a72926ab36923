import Mathlib
/-!
# Elements in several buckets

`copies f a` is how many of the buckets `f` have `a`. Putting `a` into one
more bucket, taking it out of one and taking it out of all change that
number for `a` as one would expect, and for nothing else.
-/

namespace CryptoBullion

namespace Buckets

variable {β α : Type} [Fintype β] [DecidableEq β] [DecidableEq α]
variable {f : β → Finset α} {a a' : α} {b : β}

/-- In how many buckets `a` is. -/
def copies (f : β → Finset α) (a : α) : ℕ := (Finset.univ.filter fun b => a ∈ f b).card

/-- `a` also goes into bucket `b`. -/
def put (f : β → Finset α) (b : β) (a : α) : β → Finset α := Function.update f b (insert a (f b))

/-- `a` comes out of bucket `b`. -/
def take (f : β → Finset α) (b : β) (a : α) : β → Finset α := Function.update f b ((f b).erase a)

/-- `a` comes out of all buckets. -/
def takeAll (f : β → Finset α) (a : α) : β → Finset α := fun b => (f b).erase a

omit [Fintype β] in
theorem mem_put {c : β} : a' ∈ put f b a c ↔ (a' = a ∧ c = b) ∨ a' ∈ f c := by
  unfold put
  rw [Function.update_apply]
  split_ifs with hc
  · subst hc
    rw [Finset.mem_insert]
    tauto
  · tauto

omit [Fintype β] in
theorem mem_take {c : β} : a' ∈ take f b a c ↔ ¬ (a' = a ∧ c = b) ∧ a' ∈ f c := by
  unfold take
  rw [Function.update_apply]
  split_ifs with hc
  · subst hc
    rw [Finset.mem_erase]
    tauto
  · tauto

omit [Fintype β] [DecidableEq β] in
theorem mem_takeAll {c : β} : a' ∈ takeAll f a c ↔ a' ≠ a ∧ a' ∈ f c := Finset.mem_erase

omit [DecidableEq β] in
theorem copies_eq_zero_iff : copies f a = 0 ↔ ∀ b, a ∉ f b := by
  unfold copies
  rw [Finset.card_eq_zero, Finset.filter_eq_empty_iff]
  simp

omit [DecidableEq β] in
theorem copies_pos_iff : 0 < copies f a ↔ ∃ b, a ∈ f b := by
  rw [Nat.pos_iff_ne_zero, Ne, copies_eq_zero_iff]
  push_neg
  rfl

theorem copies_put_self (h : a ∉ f b) : copies (put f b a) a = copies f a + 1 := by
  have hset : (Finset.univ.filter fun c => a ∈ put f b a c) =
      insert b (Finset.univ.filter fun c => a ∈ f c) := by
    ext c
    simp [mem_put]
  unfold copies
  rw [hset, Finset.card_insert_of_notMem (by simpa using h)]

theorem copies_put_of_ne (h : a' ≠ a) : copies (put f b a) a' = copies f a' := by
  unfold copies
  congr 1
  ext c
  simp [mem_put, h]

theorem copies_take_self (h : a ∈ f b) : copies (take f b a) a + 1 = copies f a := by
  have hset : (Finset.univ.filter fun c => a ∈ take f b a c) =
      (Finset.univ.filter fun c => a ∈ f c).erase b := by
    ext c
    simp [mem_take]
  unfold copies
  rw [hset, Finset.card_erase_add_one (by simpa using h)]

theorem copies_take_of_ne (h : a' ≠ a) : copies (take f b a) a' = copies f a' := by
  unfold copies
  congr 1
  ext c
  simp [mem_take, h]

omit [DecidableEq β] in
theorem copies_takeAll_self : copies (takeAll f a) a = 0 :=
  copies_eq_zero_iff.2 fun _ h => (mem_takeAll.1 h).1 rfl

omit [DecidableEq β] in
theorem copies_takeAll_of_ne (h : a' ≠ a) : copies (takeAll f a) a' = copies f a' := by
  unfold copies
  congr 1
  ext c
  simp [mem_takeAll, h]

/-! ## Sizes -/

omit [Fintype β] in
theorem card_put_le {c : β} {k : ℕ} (h : ∀ c, (f c).card ≤ k) (hb : (f b).card < k) :
    (put f b a c).card ≤ k := by
  unfold put
  rw [Function.update_apply]
  split_ifs
  · exact (Finset.card_insert_le _ _).trans hb
  · exact h c

omit [Fintype β] in
theorem card_take_le {c : β} : (take f b a c).card ≤ (f c).card :=
  Finset.card_le_card fun _ h => (mem_take.1 h).2

omit [Fintype β] [DecidableEq β] in
theorem card_takeAll_le {c : β} : (takeAll f a c).card ≤ (f c).card :=
  Finset.card_le_card (Finset.erase_subset _ _)

end Buckets

end CryptoBullion
