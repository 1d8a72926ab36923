import CryptoBullion.Common.Lineage
/-!
# A lineage threaded by forward links

In a forest only the way to the root is written down. A thread adds, for
the nodes of one lineage, the way back: each node's link leads to its child
on the lineage, and no other node has a link. Moving the thread to another
tip takes links away from the old branch, tip first, and adds them along
the new one, from the fork on; `unlink_all` and `link_all` say that this is
all it takes.
-/

namespace CryptoBullion

variable {ι : Type} {parent next next' : ι → Option ι} {height : ι → ℤ}
variable {a b i j p r tip : ι} {l pre suf : List ι}

namespace Lineage

/-- A lineage is closed under parents. -/
theorem parent_mem (h : Lineage parent i l) (ha : a ∈ l) (hp : parent a = some b) : b ∈ l := by
  rw [h.mem_iff_reflTransGen] at ha ⊢
  exact ha.tail hp

/-- Every node but the first has a child on the lineage. -/
theorem exists_child (h : Lineage parent i l) (ha : a ∈ l) :
    a = i ∨ ∃ c ∈ l, parent c = some a := by
  induction h with
  | root _ => exact .inl (List.mem_singleton.1 ha)
  | @step i j l hp hl ih =>
    rcases List.mem_cons.1 ha with rfl | ha
    · exact .inl rfl
    · rcases ih ha with rfl | ⟨c, hc, hpc⟩
      · exact .inr ⟨i, List.mem_cons_self, hp⟩
      · exact .inr ⟨c, List.mem_cons_of_mem _ hc, hpc⟩

/-- Where the links run along a lineage, the root reaches all of it. -/
theorem reachable (h : Lineage parent i l)
    (hn : ∀ a ∈ l, ∀ b, parent a = some b → next b = some a) (hr : l.getLast? = some r) :
    ∀ a ∈ l, Relation.ReflTransGen (fun x y => next x = some y) r a := by
  induction h with
  | root _ =>
    intro a ha
    obtain rfl : _ = r := by simpa using hr
    rw [List.mem_singleton.1 ha]
  | @step i j l hp hl ih =>
    have hlast : l.getLast? = some r := by
      obtain ⟨t, rfl⟩ := hl.exists_cons
      simpa using hr
    have ih := ih (fun a ha b hb => hn a (List.mem_cons_of_mem _ ha) b hb) hlast
    intro a ha
    rcases List.mem_cons.1 ha with rfl | ha
    · exact (ih j hl.self_mem).tail (hn _ List.mem_cons_self _ hp)
    · exact ih a ha

end Lineage

/-- The links of the forest are those of one lineage. -/
structure Threaded (parent next : ι → Option ι) (tip : ι) (l : List ι) : Prop where
  lineage : Lineage parent tip l
  next_iff : ∀ i j, next i = some j ↔ j ∈ l ∧ parent j = some i

namespace Threaded

/-- **The nodes a thread leads through are the lineage.** -/
theorem mem_iff_reachable (h : Threaded parent next tip l) (hr : l.getLast? = some r) :
    a ∈ l ↔ Relation.ReflTransGen (fun x y => next x = some y) r a := by
  constructor
  · exact h.lineage.reachable (fun a ha b hb => (h.next_iff b a).2 ⟨ha, hb⟩) hr a
  · intro ha
    induction ha with
    | refl => exact List.mem_of_getLast? hr
    | tail _ hn _ => exact ((h.next_iff _ _).1 hn).1

/-- A node is on the lineage exactly when it has a link or is the tip. -/
theorem mem_iff_next (h : Threaded parent next tip l) :
    a ∈ l ↔ (next a).isSome ∨ a = tip := by
  constructor
  · intro ha
    rcases h.lineage.exists_child ha with rfl | ⟨c, hc, hp⟩
    · exact .inr rfl
    · rw [(h.next_iff a c).2 ⟨hc, hp⟩]
      exact .inl rfl
  · rintro (hn | rfl)
    · obtain ⟨c, hc⟩ := Option.isSome_iff_exists.1 hn
      obtain ⟨hmem, hp⟩ := (h.next_iff a c).1 hc
      exact h.lineage.parent_mem hmem hp
    · exact h.lineage.self_mem

variable [DecidableEq ι]

/-- Give a node's parent a link, or take it away. -/
def link (parent : ι → Option ι) (v : Option ι) (i : ι) (next : ι → Option ι) : ι → Option ι :=
  match parent i with
  | none => next
  | some p => Function.update next p v

theorem link_of_parent {v : Option ι} (hp : parent i = some p) :
    link parent v i next = Function.update next p v := by
  rw [link, hp]

/-- Linking the tip to a child of it makes the child the tip. -/
theorem extend (hg : Graded parent height) (h : Threaded parent next tip l)
    (hp : parent j = some tip) : Threaded parent (link parent (some j) j next) j (j :: l) := by
  refine ⟨.step hp h.lineage, fun a b => ?_⟩
  have hlow : ∀ c ∈ l, parent c ≠ some tip := by
    intro c hc hpc
    have h₁ := h.lineage.height_le hg hc
    have h₂ := hg.lt hpc
    omega
  rw [link_of_parent hp, Function.update_apply, List.mem_cons]
  split_ifs with ha
  · subst ha
    constructor
    · intro hb
      obtain rfl := Option.some.inj hb
      exact ⟨.inl rfl, hp⟩
    · rintro ⟨rfl | hb, hpb⟩
      · rfl
      · exact absurd hpb (hlow b hb)
  · rw [h.next_iff]
    constructor
    · exact fun ⟨hb, hpb⟩ => ⟨.inr hb, hpb⟩
    · rintro ⟨rfl | hb, hpb⟩
      · rw [hp] at hpb
        exact absurd (Option.some.inj hpb).symm ha
      · exact ⟨hb, hpb⟩

/-- Taking away the link that leads to the tip makes its parent the tip. -/
theorem retreat (hg : Graded parent height) (h : Threaded parent next tip (tip :: l))
    (hp : parent tip = some p) : Threaded parent (link parent none tip next) p l := by
  have hl : Lineage parent p l := h.lineage.tail hp
  refine ⟨hl, fun a b => ?_⟩
  rw [link_of_parent hp, Function.update_apply]
  split_ifs with ha
  · subst ha
    constructor
    · intro hb
      exact absurd hb (by simp)
    · rintro ⟨hb, hpb⟩
      have h₁ := hl.height_le hg hb
      have h₂ := hg.lt hpb
      omega
  · rw [h.next_iff, List.mem_cons]
    constructor
    · rintro ⟨rfl | hb, hpb⟩
      · rw [hp] at hpb
        exact absurd (Option.some.inj hpb).symm ha
      · exact ⟨hb, hpb⟩
    · exact fun ⟨hb, hpb⟩ => ⟨.inr hb, hpb⟩

/-- **Taking a branch's links away, tip first**, leaves the thread of the
node it grew from. -/
theorem unlink_all (hg : Graded parent height) (h : Threaded parent next tip (pre ++ j :: suf)) :
    Threaded parent (pre.foldl (fun next i => link parent none i next) next) j (j :: suf) := by
  induction pre generalizing tip next with
  | nil =>
    obtain ⟨t, ht⟩ := h.lineage.exists_cons
    rw [List.nil_append, List.cons.injEq] at ht
    rw [← ht.1] at h
    exact h
  | cons i pre ih =>
    obtain ⟨t, ht⟩ := h.lineage.exists_cons
    rw [List.cons_append, List.cons.injEq] at ht
    obtain ⟨rfl, rfl⟩ := ht
    rcases hp : parent i with _ | p
    · have := h.lineage.unique (.root hp)
      simp at this
    · exact ih (h.retreat hg hp)

/-- **Adding a branch's links, from the fork on**, makes its last block the
tip. -/
theorem link_all (hg : Graded parent height) (h : Threaded parent next j (j :: suf))
    (hl : Lineage parent tip (pre ++ j :: suf)) :
    Threaded parent (pre.reverse.foldl (fun next i => link parent (some i) i next) next) tip
      (pre ++ j :: suf) := by
  induction pre generalizing tip with
  | nil =>
    obtain ⟨t, ht⟩ := hl.exists_cons
    rw [List.nil_append, List.cons.injEq] at ht
    rw [← ht.1]
    exact h
  | cons i pre ih =>
    obtain ⟨t, ht⟩ := hl.exists_cons
    rw [List.cons_append, List.cons.injEq] at ht
    obtain ⟨rfl, rfl⟩ := ht
    rcases hp : parent i with _ | p
    · have := hl.unique (.root hp)
      simp at this
    · rw [List.reverse_cons, List.foldl_append]
      exact (ih (hl.tail hp)).extend hg hp

end Threaded

end CryptoBullion
