import Mathlib
/-!
# Classes of a relation, kept by merging

Groups of elements are given one after the other, and two elements of one
group belong together. A family of sets is kept: a new group absorbs the
members it meets. Whatever the order, the family is at every moment the
classes of the smallest equivalence that puts the elements of each group
together. A group that is empty is a member by itself, and nothing else
makes one.
-/

namespace CryptoBullion

namespace Classes

variable {α : Type*} {G F : Set (Set α)} {g C D : Set α} {a b : α}

/-- Two elements are in one group. -/
def Linked (G : Set (Set α)) (a b : α) : Prop := ∃ g ∈ G, a ∈ g ∧ b ∈ g

/-- The family after one more group. -/
def absorb (g : Set α) (F : Set (Set α)) : Set (Set α) :=
  insert (g ∪ ⋃₀ {C ∈ F | (C ∩ g).Nonempty}) {C ∈ F | ¬ (C ∩ g).Nonempty}

/-- A family that keeps the classes of the groups. -/
structure Keeps (F G : Set (Set α)) : Prop where
  /-- each group is in a member -/
  covers : ∀ g ∈ G, ∃ C ∈ F, g ⊆ C
  /-- a member has all of a group it meets -/
  closed : ∀ C ∈ F, ∀ g ∈ G, (C ∩ g).Nonempty → g ⊆ C
  /-- what is in one member belongs together -/
  joined : ∀ C ∈ F, ∀ a ∈ C, ∀ b ∈ C, Relation.EqvGen (Linked G) a b
  /-- and comes from a group -/
  seen : ∀ C ∈ F, ∀ a ∈ C, ∃ g ∈ G, a ∈ g
  empty_iff : ∅ ∈ F ↔ ∅ ∈ G

theorem Linked.symm (h : Linked G a b) : Linked G b a :=
  let ⟨g, hg, ha, hb⟩ := h
  ⟨g, hg, hb, ha⟩

/-- More groups link more. -/
theorem eqvGen_mono {G' : Set (Set α)} (hsub : G ⊆ G') (h : Relation.EqvGen (Linked G) a b) :
    Relation.EqvGen (Linked G') a b :=
  h.mono fun _ _ ⟨g, hg, hab⟩ => ⟨g, hsub hg, hab⟩

/-- Groups of one element each link nothing new. -/
theorem eqvGen_iff_of_subsingleton {G' : Set (Set α)} (hsub : G ⊆ G')
    (hlone : ∀ g ∈ G', g ∉ G → g.Subsingleton) :
    Relation.EqvGen (Linked G') a b ↔ Relation.EqvGen (Linked G) a b := by
  refine ⟨fun h => ?_, eqvGen_mono hsub⟩
  induction h with
  | rel a b hab =>
    obtain ⟨g, hg, ha, hb⟩ := hab
    by_cases hmem : g ∈ G
    · exact .rel _ _ ⟨g, hmem, ha, hb⟩
    · rw [hlone g hg hmem ha hb]
      exact .refl _
  | refl a => exact .refl a
  | symm a b _ ih => exact .symm _ _ ih
  | trans a b c _ _ ih₁ ih₂ => exact .trans _ _ _ ih₁ ih₂

namespace Keeps

/-- What belongs together is in one member. -/
theorem mem_iff_of_eqvGen (h : Keeps F G) (hC : C ∈ F) (hab : Relation.EqvGen (Linked G) a b) :
    a ∈ C ↔ b ∈ C := by
  induction hab with
  | rel a b hab =>
    obtain ⟨g, hg, ha, hb⟩ := hab
    exact ⟨fun hmem => h.closed C hC g hg ⟨a, hmem, ha⟩ hb,
      fun hmem => h.closed C hC g hg ⟨b, hmem, hb⟩ ha⟩
  | refl a => rfl
  | symm a b _ ih => exact ih.symm
  | trans a b c _ _ ih₁ ih₂ => exact ih₁.trans ih₂

/-- **A member is the class of each of its elements.** -/
theorem eq_class (h : Keeps F G) (hC : C ∈ F) (ha : a ∈ C) :
    C = {b | Relation.EqvGen (Linked G) a b} := by
  ext b
  exact ⟨fun hb => h.joined C hC a ha b hb, fun hab => (h.mem_iff_of_eqvGen hC hab).1 ha⟩

/-- Members that share an element are one. -/
theorem eq_of_mem (h : Keeps F G) (hC : C ∈ F) (hD : D ∈ F) (haC : a ∈ C) (haD : a ∈ D) :
    C = D :=
  (h.eq_class hC haC).trans (h.eq_class hD haD).symm

/-- **Each grouped element is in exactly one member.** -/
theorem existsUnique (h : Keeps F G) (hg : g ∈ G) (ha : a ∈ g) : ∃! C, C ∈ F ∧ a ∈ C := by
  obtain ⟨C, hC, hgC⟩ := h.covers g hg
  exact ⟨C, ⟨hC, hgC ha⟩, fun D hD => h.eq_of_mem hD.1 hC hD.2 (hgC ha)⟩

/-- **The members are the classes**, where no group is empty. -/
theorem mem_iff (h : Keeps F G) (hempty : ∅ ∉ G) :
    C ∈ F ↔ ∃ a, (∃ g ∈ G, a ∈ g) ∧ C = {b | Relation.EqvGen (Linked G) a b} := by
  constructor
  · intro hC
    have hne : C.Nonempty := by
      rw [Set.nonempty_iff_ne_empty]
      rintro rfl
      exact hempty (h.empty_iff.1 hC)
    obtain ⟨a, ha⟩ := hne
    exact ⟨a, h.seen C hC a ha, h.eq_class hC ha⟩
  · rintro ⟨a, ⟨g, hg, ha⟩, rfl⟩
    obtain ⟨C, hC, hgC⟩ := h.covers g hg
    rwa [← h.eq_class hC (hgC ha)]

theorem nil : Keeps (∅ : Set (Set α)) ∅ where
  covers g hg := absurd hg (Set.notMem_empty g)
  closed C hC := absurd hC (Set.notMem_empty C)
  joined C hC := absurd hC (Set.notMem_empty C)
  seen C hC := absurd hC (Set.notMem_empty C)
  empty_iff := Iff.rfl

/-- Everything the new group reaches, belongs together. -/
theorem eqvGen_absorbed (h : Keeps F G) (ha : a ∈ g ∪ ⋃₀ {C ∈ F | (C ∩ g).Nonempty})
    (hb : b ∈ g) : Relation.EqvGen (Linked (insert g G)) a b := by
  rcases ha with ha | ⟨C, ⟨hC, c, hcC, hcg⟩, haC⟩
  · exact .rel _ _ ⟨g, Set.mem_insert g G, ha, hb⟩
  · have hac := eqvGen_mono (Set.subset_insert g G) (h.joined C hC a haC c hcC)
    exact .trans _ _ _ hac (.rel _ _ ⟨g, Set.mem_insert g G, hcg, hb⟩)

/-- **One more group.** -/
theorem absorb (h : Keeps F G) : Keeps (absorb g F) (insert g G) where
  covers := by
    rintro g' (rfl | hg')
    · exact ⟨_, Set.mem_insert _ _, Set.subset_union_left⟩
    · obtain ⟨C, hC, hgC⟩ := h.covers g' hg'
      by_cases hmeet : (C ∩ g).Nonempty
      · exact ⟨_, Set.mem_insert _ _, fun a ha => .inr ⟨C, ⟨hC, hmeet⟩, hgC ha⟩⟩
      · exact ⟨C, .inr ⟨hC, hmeet⟩, hgC⟩
  closed := by
    rintro C (rfl | ⟨hC, hmeet⟩) g' (rfl | hg') ⟨a, haC, hag⟩
    · exact Set.subset_union_left
    · -- a group that meets what is absorbed is in a member that is
      obtain ⟨D, hD, hgD⟩ := h.covers g' hg'
      have hmeetD : (D ∩ g).Nonempty := by
        rcases haC with hag' | ⟨E, ⟨hE, hEg⟩, haE⟩
        · exact ⟨a, hgD hag, hag'⟩
        · rwa [h.eq_of_mem hD hE (hgD hag) haE]
      exact fun b hb => .inr ⟨D, ⟨hD, hmeetD⟩, hgD hb⟩
    · exact absurd ⟨a, haC, hag⟩ hmeet
    · exact h.closed C hC g' hg' ⟨a, haC, hag⟩
  joined := by
    rintro C (rfl | ⟨hC, -⟩) a ha b hb
    · have hne : g.Nonempty := by
        rcases ha with ha | ⟨D, ⟨-, hDg⟩, -⟩
        · exact ⟨a, ha⟩
        · exact hDg.right
      obtain ⟨c, hc⟩ := hne
      exact .trans _ _ _ (h.eqvGen_absorbed ha hc) (.symm _ _ (h.eqvGen_absorbed hb hc))
    · exact eqvGen_mono (Set.subset_insert g G) (h.joined C hC a ha b hb)
  seen := by
    rintro C (rfl | ⟨hC, -⟩) a ha
    · rcases ha with ha | ⟨D, ⟨hD, -⟩, haD⟩
      · exact ⟨g, Set.mem_insert g G, ha⟩
      · obtain ⟨g', hg', hag'⟩ := h.seen D hD a haD
        exact ⟨g', Set.mem_insert_of_mem g hg', hag'⟩
    · obtain ⟨g', hg', hag'⟩ := h.seen C hC a ha
      exact ⟨g', Set.mem_insert_of_mem g hg', hag'⟩
  empty_iff := by
    constructor
    · rintro (hempty | ⟨hempty, -⟩)
      · exact .inl (Set.union_empty_iff.1 hempty.symm).1.symm
      · exact .inr (h.empty_iff.1 hempty)
    · rintro (rfl | hempty)
      · refine .inl (Eq.symm ?_)
        simp
      · exact .inr ⟨h.empty_iff.2 hempty, by simp⟩

end Keeps

end Classes

end CryptoBullion
