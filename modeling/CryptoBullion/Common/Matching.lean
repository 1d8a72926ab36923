import Mathlib
/-!
# Matching two lists in order

A list is matched into another when each of its elements can be assigned to
a related one of the other, later elements to later ones. Going through
both lists once and taking every match as soon as there is one finds such
an assignment whenever there is one: what the first element can be matched
with it may be matched with, since any other assignment leaves less of the
second list for the rest (`InOrder.of_cons`).
-/

namespace CryptoBullion

namespace Matching

variable {α β : Type} {R : α → β → Prop} {r : α → β → Bool} {x : α} {y : β} {xs : List α} {ys : List β}

/-- The elements of one list are assigned to related elements of the other,
in order. -/
def InOrder (R : α → β → Prop) (xs : List α) (ys : List β) : Prop :=
  ∃ f : Fin xs.length → Fin ys.length, StrictMono f ∧ ∀ i, R (xs.get i) (ys.get (f i))

/-- Every match is taken. -/
def greedy (r : α → β → Bool) : List α → List β → Bool
  | [], _ => true
  | _ :: _, [] => false
  | x :: xs, y :: ys => if r x y then greedy r xs ys else greedy r (x :: xs) ys

/-- An assignment picks out a sublist. -/
theorem inOrder_iff : InOrder R xs ys ↔ List.SublistForall₂ R xs ys := by
  rw [List.sublistForall₂_iff]
  constructor
  · rintro ⟨f, hf, hR⟩
    refine ⟨List.ofFn fun i => ys.get (f i), ?_, ?_⟩
    · refine List.forall₂_iff_get.2 ⟨by simp, fun i hi hi' => ?_⟩
      simpa using hR ⟨i, hi⟩
    · rw [List.sublist_iff_exists_fin_orderEmbedding_get_eq]
      refine ⟨OrderEmbedding.ofStrictMono
        (fun i => f (Fin.cast (by simp) i)) fun i j hij => hf (by simpa using hij), fun i => ?_⟩
      simp only [List.get_eq_getElem, List.getElem_ofFn]
      rfl
  · rintro ⟨l, hl, hsub⟩
    obtain ⟨f, hf⟩ := List.sublist_iff_exists_fin_orderEmbedding_get_eq.1 hsub
    obtain ⟨hlen, hget⟩ := List.forall₂_iff_get.1 hl
    refine ⟨fun i => f (Fin.cast hlen i), fun i j hij => f.strictMono (by simpa using hij), fun i => ?_⟩
    rw [← hf]
    exact hget i i.2 (hlen ▸ i.2)

/-- Nothing is left over to match. -/
theorem inOrder_nil : InOrder R [] ys := inOrder_iff.2 .nil

theorem not_inOrder_nil : ¬ InOrder R (x :: xs) [] := by
  rw [inOrder_iff]
  rintro ⟨⟩

/-- **A match can be taken as soon as there is one.** -/
theorem inOrder_cons_of_rel (h : R x y) : InOrder R (x :: xs) (y :: ys) ↔ InOrder R xs ys := by
  simp only [inOrder_iff]
  refine ⟨fun hx => ?_, .cons h⟩
  cases hx with
  | cons _ hxs => exact hxs
  | cons_right hxs =>
    -- the first element is matched further on, so the rest is matched behind it
    obtain ⟨l, hl, hsub⟩ := List.sublistForall₂_iff.1 hxs
    cases hl with
    | cons _ hl =>
      exact List.sublistForall₂_iff.2 ⟨_, hl, (List.sublist_of_cons_sublist hsub)⟩

theorem inOrder_cons_of_not_rel (h : ¬ R x y) :
    InOrder R (x :: xs) (y :: ys) ↔ InOrder R (x :: xs) ys := by
  simp only [inOrder_iff]
  refine ⟨fun hx => ?_, .cons_right⟩
  cases hx with
  | cons hxy _ => exact absurd hxy h
  | cons_right hxs => exact hxs

/-- **Taking every match decides whether there is an assignment.** -/
theorem greedy_iff : greedy r xs ys = true ↔ InOrder (fun x y => r x y = true) xs ys := by
  induction ys generalizing xs with
  | nil =>
    cases xs with
    | nil => simp [greedy, inOrder_nil]
    | cons x xs => simp [greedy, not_inOrder_nil]
  | cons y ys ih =>
    cases xs with
    | nil => simp [greedy, inOrder_nil]
    | cons x xs =>
      rw [greedy]
      split_ifs with hxy
      · exact ih.trans (inOrder_cons_of_rel (R := fun x y => r x y = true) hxy).symm
      · exact ih.trans (inOrder_cons_of_not_rel (R := fun x y => r x y = true) hxy).symm

/-- More cannot be matched into fewer. -/
theorem length_le_of_inOrder (h : InOrder R xs ys) : xs.length ≤ ys.length := by
  obtain ⟨f, hf, -⟩ := h
  simpa using Fintype.card_le_of_injective f hf.injective

/-- Both lists can be turned round. -/
theorem inOrder_reverse : InOrder R xs.reverse ys.reverse ↔ InOrder R xs ys := by
  have hback : ∀ {xs : List α} {ys : List β}, InOrder R xs ys → InOrder R xs.reverse ys.reverse := by
    intro xs ys h
    obtain ⟨l, hl, hsub⟩ := List.sublistForall₂_iff.1 (inOrder_iff.1 h)
    exact inOrder_iff.2 (List.sublistForall₂_iff.2
      ⟨l.reverse, List.rel_reverse hl, List.reverse_sublist.2 hsub⟩)
  refine ⟨fun h => ?_, hback⟩
  simpa only [List.reverse_reverse] using hback h

/-- The first of the elements are matched as well. -/
theorem InOrder.take (h : InOrder R xs ys) (n : ℕ) : InOrder R (xs.take n) ys := by
  obtain ⟨l, hl, hsub⟩ := List.sublistForall₂_iff.1 (inOrder_iff.1 h)
  exact inOrder_iff.2 (List.sublistForall₂_iff.2
    ⟨l.take n, List.forall₂_take n hl, (List.take_sublist n l).trans hsub⟩)

/-- What is picked for some of the elements is matched to them. -/
theorem inOrder_filterMap {f : β → Option α} (h : ∀ y ∈ ys, ∀ x, f y = some x → R x y) :
    InOrder R (ys.filterMap f) ys := by
  rw [inOrder_iff]
  induction ys with
  | nil => exact .nil
  | cons y ys ih =>
    have hys := ih fun y' hy' => h y' (List.mem_cons_of_mem y hy')
    rcases hy : f y with _ | x
    · rw [List.filterMap_cons_none hy]
      exact .cons_right hys
    · rw [List.filterMap_cons_some hy]
      exact .cons (h y List.mem_cons_self x hy) hys

/-- As many are covered as are matched. -/
theorem InOrder.length_le_countP [DecidablePred fun y => ∃ x ∈ xs, R x y] (h : InOrder R xs ys) :
    xs.length ≤ ys.countP fun y => ∃ x ∈ xs, R x y := by
  obtain ⟨l, hl, hsub⟩ := List.sublistForall₂_iff.1 (inOrder_iff.1 h)
  have hall : ∀ y ∈ l, decide (∃ x ∈ xs, R x y) = true := by
    intro y hy
    obtain ⟨i, hi, rfl⟩ := List.getElem_of_mem hy
    have hlen := (List.forall₂_iff_get.1 hl).1
    exact decide_eq_true ⟨_, List.getElem_mem (hlen ▸ hi), (List.forall₂_iff_get.1 hl).2 i (hlen ▸ hi) hi⟩
  calc xs.length = l.length := (List.forall₂_iff_get.1 hl).1
    _ = l.countP _ := (List.countP_eq_length.2 hall).symm
    _ ≤ ys.countP _ := hsub.countP_le

end Matching

end CryptoBullion
