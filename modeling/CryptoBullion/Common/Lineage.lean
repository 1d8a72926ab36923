import Mathlib
/-!
# Lines of descent in a forest of parent pointers

A forest is given by a partial `parent` function. The lineage of a node
is the list of itself and its ancestors down to a root: determined by the
node, existing wherever some height strictly falls along parents, and
closed under taking an ancestor's own lineage as a suffix. Two nodes with
a common ancestor therefore share a tail, which is what a reorganisation
between two tips keeps.
-/

namespace CryptoBullion

variable {ι : Type} {parent parent' : ι → Option ι} {height : ι → ℤ}
variable {a b i j : ι} {l l' pre suf : List ι}

/-- `l` is `i` followed by its ancestors, nearest first, down to a root. -/
inductive Lineage (parent : ι → Option ι) : ι → List ι → Prop
  | root {i : ι} (h : parent i = none) : Lineage parent i [i]
  | step {i j : ι} {l : List ι} (h : parent i = some j) (hl : Lineage parent j l) :
      Lineage parent i (i :: l)

/-- A height that no node lacks and that strictly falls from a node to its
parent. -/
structure Graded (parent : ι → Option ι) (height : ι → ℤ) : Prop where
  nonneg : ∀ i, 0 ≤ height i
  lt : ∀ {i j}, parent i = some j → height j < height i

/-- A height that counts the steps from a root. -/
structure Leveled (parent : ι → Option ι) (height : ι → ℤ) : Prop where
  root : ∀ {i}, parent i = none → height i = 0
  succ : ∀ {i j}, parent i = some j → height i = height j + 1

namespace Lineage

/-- A lineage starts at its own node. -/
theorem exists_cons (h : Lineage parent i l) : ∃ t, l = i :: t := by
  cases h with
  | root _ => exact ⟨[], rfl⟩
  | step _ _ => exact ⟨_, rfl⟩

theorem self_mem (h : Lineage parent i l) : i ∈ l := by
  obtain ⟨t, rfl⟩ := h.exists_cons
  exact List.mem_cons_self

theorem head?_eq (h : Lineage parent i l) : l.head? = some i := by
  obtain ⟨t, rfl⟩ := h.exists_cons
  rfl

theorem ne_nil (h : Lineage parent i l) : l ≠ [] := by
  obtain ⟨t, rfl⟩ := h.exists_cons
  exact List.cons_ne_nil _ _

/-- The parent's lineage, one node shorter. -/
theorem tail (h : Lineage parent i (a :: l)) (hp : parent i = some j) :
    Lineage parent j l := by
  cases h with
  | root h => rw [h] at hp; exact absurd hp (by simp)
  | step h hl =>
    rw [h] at hp
    cases hp
    exact hl

/-- **A node has one lineage.** -/
theorem unique (h : Lineage parent i l) (h' : Lineage parent i l') : l = l' := by
  induction h generalizing l' with
  | root h =>
    cases h' with
    | root _ => rfl
    | step h₂ _ => rw [h] at h₂; exact absurd h₂ (by simp)
  | step h _ ih =>
    cases h' with
    | root h₂ => rw [h] at h₂; exact absurd h₂ (by simp)
    | step h₂ hl₂ =>
      rw [h] at h₂
      cases h₂
      rw [ih hl₂]

/-- **And it has one wherever heights fall along parents.** -/
theorem exists_of_graded (hg : Graded parent height) (i : ι) :
    ∃ l, Lineage parent i l := by
  obtain ⟨n, hn⟩ : ∃ n : ℕ, (height i).toNat < n := ⟨_, Nat.lt_succ_self _⟩
  induction n generalizing i with
  | zero => exact absurd hn (Nat.not_lt_zero _)
  | succ n ih =>
    rcases hp : parent i with _ | j
    · exact ⟨[i], root hp⟩
    · have hlt := hg.lt hp
      have hj := hg.nonneg j
      obtain ⟨l, hl⟩ := ih j (by omega)
      exact ⟨i :: l, step hp hl⟩

/-- **An ancestor's lineage is a suffix.** -/
theorem exists_suffix (h : Lineage parent i l) (ha : a ∈ l) :
    ∃ pre suf, l = pre ++ suf ∧ Lineage parent a suf := by
  induction h with
  | root h =>
    rw [List.mem_singleton] at ha
    subst ha
    exact ⟨[], _, rfl, root h⟩
  | @step i j l h hl ih =>
    rcases List.mem_cons.1 ha with rfl | ha
    · exact ⟨[], _, rfl, step h hl⟩
    · obtain ⟨pre, suf, rfl, hs⟩ := ih ha
      exact ⟨i :: pre, suf, rfl, hs⟩

/-- Whatever follows a prefix of a lineage is the lineage of its first
node. -/
theorem suffix (h : Lineage parent i (pre ++ a :: suf)) : Lineage parent a (a :: suf) := by
  induction pre generalizing i with
  | nil =>
    obtain ⟨t, ht⟩ := h.exists_cons
    rw [List.nil_append, List.cons.injEq] at ht
    obtain ⟨rfl, rfl⟩ := ht
    exact h
  | cons b pre ih =>
    rw [List.cons_append] at h
    generalize ht : pre ++ a :: suf = t at h
    cases h with
    | root _ => exact absurd ht (by simp)
    | step _ hl => exact ih (ht ▸ hl)

/-- Every node of the lineage but the last has the next one as parent. -/
theorem parent_of_append (h : Lineage parent i (pre ++ a :: b :: suf)) :
    parent a = some b := by
  have h' := h.suffix
  cases h' with
  | step hp hl =>
    obtain ⟨t, ht⟩ := hl.exists_cons
    rw [List.cons.injEq] at ht
    rw [hp, ht.1]

/-- Only the last node of a lineage has no parent. -/
theorem parent_ne_none (h : Lineage parent i (pre ++ j :: suf)) (ha : a ∈ pre) :
    parent a ≠ none := by
  obtain ⟨before, after, rfl⟩ := List.append_of_mem ha
  rw [List.append_assoc, List.cons_append] at h
  rcases hrest : after ++ j :: suf with _ | ⟨b, t⟩
  · simp at hrest
  · rw [hrest] at h
    rw [h.parent_of_append]
    simp

theorem mem_iff_reflTransGen (h : Lineage parent i l) :
    a ∈ l ↔ Relation.ReflTransGen (fun x y => parent x = some y) i a := by
  constructor
  · intro ha
    induction h with
    | root _ =>
      rw [List.mem_singleton] at ha
      rw [ha]
    | step h _ ih =>
      rcases List.mem_cons.1 ha with rfl | ha
      · exact Relation.ReflTransGen.refl
      · exact Relation.ReflTransGen.head h (ih ha)
  · intro ha
    induction ha using Relation.ReflTransGen.head_induction_on generalizing l with
    | refl => exact h.self_mem
    | head hp _ ih =>
      cases h with
      | root h => rw [h] at hp; exact absurd hp (by simp)
      | step h hl =>
        rw [h] at hp
        cases hp
        exact List.mem_cons_of_mem _ (ih hl)

/-- Heights fall along a lineage, so it holds no node above its first. -/
theorem height_le (hg : Graded parent height) (h : Lineage parent i l) (ha : a ∈ l) :
    height a ≤ height i := by
  induction h with
  | root _ => rw [List.mem_singleton] at ha; rw [ha]
  | step h _ ih =>
    rcases List.mem_cons.1 ha with rfl | ha
    · exact le_rfl
    · exact (ih ha).trans (hg.lt h).le

theorem height_lt (hg : Graded parent height) (h : Lineage parent i (i :: l)) (ha : a ∈ l) :
    height a < height i := by
  cases h with
  | root _ => exact absurd ha List.not_mem_nil
  | step h hl => exact (hl.height_le hg ha).trans_lt (hg.lt h)

/-- **No node repeats.** -/
theorem nodup (hg : Graded parent height) (h : Lineage parent i l) : l.Nodup := by
  induction h with
  | root _ => exact List.nodup_singleton _
  | step h hl ih =>
    exact List.nodup_cons.2 ⟨fun hm => (height_lt hg (step h hl) hm).false, ih⟩

/-- **No two nodes of a lineage are at one height.** -/
theorem eq_of_height_eq (hg : Graded parent height) (h : Lineage parent i l) (ha : a ∈ l)
    (hb : b ∈ l) (heq : height a = height b) : a = b := by
  induction h with
  | root _ =>
    rw [List.mem_singleton] at ha hb
    rw [ha, hb]
  | @step i j l hp hl ih =>
    have hbelow : ∀ c ∈ l, height c < height i := fun c hc => (step hp hl).height_lt hg hc
    rcases List.mem_cons.1 ha with rfl | ha' <;> rcases List.mem_cons.1 hb with rfl | hb'
    · rfl
    · exact absurd heq (hbelow b hb').ne'
    · exact absurd heq (hbelow a ha').ne
    · exact ih ha' hb'

/-- **A lineage depends on the parents of its own nodes only.** -/
theorem congr (h : Lineage parent i l) (hp : ∀ a ∈ l, parent' a = parent a) :
    Lineage parent' i l := by
  induction h with
  | root h => exact root ((hp _ List.mem_cons_self).trans h)
  | step h _ ih =>
    exact step ((hp _ List.mem_cons_self).trans h)
      (ih fun a ha => hp a (List.mem_cons_of_mem _ ha))

/-- A lineage ends at a root. -/
theorem exists_getLast (h : Lineage parent i l) :
    ∃ r, l.getLast? = some r ∧ r ∈ l ∧ parent r = none := by
  induction h with
  | @root i h => exact ⟨i, rfl, List.mem_singleton_self i, h⟩
  | step _ hl ih =>
    obtain ⟨r, hlast, hr, hp⟩ := ih
    obtain ⟨t, rfl⟩ := hl.exists_cons
    exact ⟨r, by rwa [List.getLast?_cons_cons], List.mem_cons_of_mem _ hr, hp⟩

/-- The roots two nodes reach agree once the nodes share an ancestor. -/
theorem getLast_eq (h : Lineage parent i l) (h' : Lineage parent j l') (ha : a ∈ l)
    (ha' : a ∈ l') : l.getLast? = l'.getLast? := by
  obtain ⟨pre, suf, rfl, hs⟩ := h.exists_suffix ha
  obtain ⟨pre', suf', rfl, hs'⟩ := h'.exists_suffix ha'
  rw [hs.unique hs', List.getLast?_append_of_ne_nil _ hs'.ne_nil,
    List.getLast?_append_of_ne_nil _ hs'.ne_nil]

end Lineage

end CryptoBullion
