import Mathlib
/-!
# An index kept beside a map

A map `κ → α` whose entries each refer to some `ρ`, and beside it, for each
`ρ` that is referred to, the entries that do. Entering and removing an
entry change the index one reference at a time, and a reference may come
up more than once. Nothing here knows what refers to what.

The index is right when looking `k` up under `r` gives what the map has
under `k` where that refers to `r`, and nothing elsewhere (`Of`). That
alone allows keys with nothing under them: those are its `Hollow` keys, and
only `touch` makes one.
-/

namespace CryptoBullion

variable {ρ κ α : Type} [Ord ρ] [Ord κ]

/-- For each `ρ`, some of the entries of a map `κ → α`. -/
abbrev ReverseIndex (ρ κ α : Type) [Ord ρ] [Ord κ] :=
  Std.ExtTreeMap ρ (Std.ExtTreeMap κ α compare) compare

namespace ReverseIndex

set_option linter.unusedSectionVars false

variable [Std.TransOrd ρ] [Std.TransOrd κ]

/-- What refers to `r`. -/
def inner (i : ReverseIndex ρ κ α) (r : ρ) : Std.ExtTreeMap κ α compare := (i[r]?).getD ∅

/-- Look `r` up, making a key of it. -/
def touch (i : ReverseIndex ρ κ α) (r : ρ) : ReverseIndex ρ κ α := i.insertIfNew r ∅

/-- Enter `k` under `r`, unless it is there. -/
def link (k : κ) (a : α) (i : ReverseIndex ρ κ α) (r : ρ) : ReverseIndex ρ κ α :=
  i.insert r ((i.inner r).insertIfNew k a)

/-- Remove `k` from under `r`; a key with nothing left under it goes too. -/
def unlink (k : κ) (i : ReverseIndex ρ κ α) (r : ρ) : ReverseIndex ρ κ α :=
  let rest := (i.inner r).erase k
  if rest.isEmpty then i.erase r else i.insert r rest

/-- A key with nothing under it. -/
def Hollow (i : ReverseIndex ρ κ α) (r : ρ) : Prop := i[r]? = some ∅

variable [Std.LawfulEqOrd ρ] [Std.LawfulEqOrd κ] [DecidableEq ρ] [DecidableEq κ]
variable {i : ReverseIndex ρ κ α} {r r' : ρ} {rs : List ρ} {k k' : κ} {a : α}

/-! ## One reference -/

@[simp] theorem inner_empty : (∅ : ReverseIndex ρ κ α).inner r = ∅ := by
  simp [inner]

@[simp] theorem not_hollow_empty : ¬ Hollow (∅ : ReverseIndex ρ κ α) r := by
  simp [Hollow]

/-- Looking up shows nothing new. -/
@[simp] theorem inner_touch : (i.touch r).inner r' = i.inner r' := by
  simp only [inner, touch, Std.ExtTreeMap.getElem?_insertIfNew, Std.compare_eq_iff_eq]
  split_ifs with h
  · obtain ⟨rfl, hr⟩ := h
    simp [Std.ExtTreeMap.getElem?_eq_none hr]
  · rfl

/-- **And leaves a hollow key where there was none.** -/
theorem hollow_touch : Hollow (i.touch r) r' ↔ Hollow i r' ∨ r' = r ∧ r ∉ i := by
  simp only [Hollow, touch, Std.ExtTreeMap.getElem?_insertIfNew, Std.compare_eq_iff_eq]
  split_ifs with h
  · obtain ⟨rfl, hr⟩ := h
    simp [hr]
  · constructor
    · exact .inl
    · rintro (h' | ⟨rfl, hr⟩)
      · exact h'
      · exact absurd ⟨rfl, hr⟩ h

theorem inner_link : (link k a i r).inner r' =
    if r = r' then (i.inner r).insertIfNew k a else i.inner r' := by
  simp only [inner, link, Std.ExtTreeMap.getElem?_insert, Std.compare_eq_iff_eq]
  split_ifs <;> rfl

theorem inner_unlink : (unlink k i r).inner r' =
    if r = r' then (i.inner r).erase k else i.inner r' := by
  unfold unlink
  dsimp only
  split_ifs with hempty heq heq
  · rw [Std.ExtTreeMap.isEmpty_iff.1 hempty]
    simp [inner, heq]
  · simp [inner, Std.ExtTreeMap.getElem?_erase, heq]
  · simp [inner, heq]
  · simp [inner, Std.ExtTreeMap.getElem?_insert, heq]

/-- A key that something was entered under is not hollow. -/
theorem hollow_link : Hollow (link k a i r) r' ↔ r ≠ r' ∧ Hollow i r' := by
  simp only [Hollow, link, Std.ExtTreeMap.getElem?_insert, Std.compare_eq_iff_eq]
  split_ifs with h
  · simp only [Option.some.injEq, h, ne_eq, not_true_eq_false, false_and, iff_false]
    exact Std.ExtTreeMap.insertIfNew_ne_empty
  · simp [h]

/-- Nor is one that something was removed from under. -/
theorem hollow_unlink : Hollow (unlink k i r) r' ↔ r ≠ r' ∧ Hollow i r' := by
  unfold unlink Hollow
  dsimp only
  split_ifs with hempty
  · simp [Std.ExtTreeMap.getElem?_erase]
  · simp only [Std.ExtTreeMap.getElem?_insert, Std.compare_eq_iff_eq]
    split_ifs with h
    · subst h
      simp only [Option.some.injEq, ne_eq, not_true_eq_false, false_and, iff_false]
      exact fun h' => hempty (Std.ExtTreeMap.isEmpty_iff.2 h')
    · simp [h]

/-! ## All references of an entry -/

/-- **Entering an entry under all it refers to.** -/
theorem getElem?_foldl_link : ∀ {rs : List ρ} {i : ReverseIndex ρ κ α},
    ((rs.foldl (link k a) i).inner r)[k']? =
      if k = k' ∧ r ∈ rs then some ((i.inner r)[k]?.getD a) else (i.inner r)[k']?
  | [], i => by simp
  | r₀ :: rs, i => by
    rw [List.foldl_cons, getElem?_foldl_link]
    by_cases hr : r₀ = r
    · subst hr
      rw [inner_link, if_pos rfl]
      simp only [Std.ExtTreeMap.getElem?_insertIfNew, Std.compare_eq_iff_eq, List.mem_cons,
        true_or, and_true]
      by_cases hk : k = k'
      · subst hk
        by_cases hmem : k ∈ i.inner r₀
        · obtain ⟨v, hv⟩ := Option.isSome_iff_exists.1 (Std.ExtTreeMap.isSome_getElem?_iff_mem.2 hmem)
          simp [hmem]
        · simp [hmem]
      · simp [hk]
    · rw [inner_link, if_neg hr]
      simp [show r ≠ r₀ from fun h => hr h.symm]

/-- **Removing it from under all it refers to.** -/
theorem getElem?_foldl_unlink : ∀ {rs : List ρ} {i : ReverseIndex ρ κ α},
    ((rs.foldl (unlink k) i).inner r)[k']? =
      if k = k' ∧ r ∈ rs then none else (i.inner r)[k']?
  | [], i => by simp
  | r₀ :: rs, i => by
    rw [List.foldl_cons, getElem?_foldl_unlink]
    by_cases hr : r₀ = r
    · subst hr
      rw [inner_unlink, if_pos rfl]
      by_cases hk : k = k' <;> simp [hk, Std.ExtTreeMap.getElem?_erase]
    · rw [inner_unlink, if_neg hr]
      simp [show r ≠ r₀ from fun h => hr h.symm]

theorem hollow_foldl_link : ∀ {rs : List ρ} {i : ReverseIndex ρ κ α},
    Hollow (rs.foldl (link k a) i) r ↔ r ∉ rs ∧ Hollow i r
  | [], i => by simp
  | r₀ :: rs, i => by
    rw [List.foldl_cons, hollow_foldl_link, hollow_link, List.mem_cons, not_or, eq_comm]
    tauto

theorem hollow_foldl_unlink : ∀ {rs : List ρ} {i : ReverseIndex ρ κ α},
    Hollow (rs.foldl (unlink k) i) r ↔ r ∉ rs ∧ Hollow i r
  | [], i => by simp
  | r₀ :: rs, i => by
    rw [List.foldl_cons, hollow_foldl_unlink, hollow_unlink, List.mem_cons, not_or, eq_comm]
    tauto

/-! ## What the index is of -/

/-- `i` has under each `r` the entries of `m` that refer to it. -/
def Of (i : ReverseIndex ρ κ α) (m : Std.ExtTreeMap κ α compare) (Refers : α → ρ → Prop) : Prop :=
  ∀ (r : ρ) (k : κ) (a : α), (i.inner r)[k]? = some a ↔ m[k]? = some a ∧ Refers a r

variable {m : Std.ExtTreeMap κ α compare} {Refers Refers' : α → ρ → Prop}

theorem of_empty : (∅ : ReverseIndex ρ κ α).Of ∅ Refers := by
  intro r k a
  simp

theorem Of.touch (h : i.Of m Refers) : (i.touch r).Of m Refers := by
  intro r' k a
  rw [inner_touch]
  exact h r' k a

/-- **A new entry**, entered under what it refers to. What the others refer
to may be said anew. -/
theorem Of.link (h : i.Of m Refers) (hk : m[k]? = none)
    (hRefers : ∀ (k' : κ) (a' : α), m[k']? = some a' → ∀ r, Refers' a' r ↔ Refers a' r)
    (hnew : ∀ r, Refers' a r ↔ r ∈ rs) :
    ReverseIndex.Of (rs.foldl (ReverseIndex.link k a) i) (m.insert k a) Refers' := by
  intro r k' a'
  have hnone : (i.inner r)[k]? = none := by
    rw [Option.eq_none_iff_forall_ne_some]
    intro b hb
    rw [((h r k b).1 hb).1] at hk
    exact absurd hk (by simp)
  rw [getElem?_foldl_link, Std.ExtTreeMap.getElem?_insert, hnone]
  simp only [Std.compare_eq_iff_eq, Option.getD_none]
  by_cases hkk : k = k'
  · subst hkk
    simp only [true_and, if_true, Option.some.injEq]
    split_ifs with hr
    · constructor
      · rintro ⟨⟩
        exact ⟨rfl, (hnew r).2 hr⟩
      · rintro ⟨rfl, -⟩
        rfl
    · rw [hnone]
      constructor
      · simp
      · rintro ⟨rfl, hrefers⟩
        exact absurd ((hnew r).1 hrefers) hr
  · simp only [hkk, false_and, if_false]
    rw [h r k' a']
    exact and_congr_right fun hm => (hRefers k' a' hm r).symm

/-- **An entry that goes**, removed from under what it refers to. -/
theorem Of.unlink (h : i.Of m Refers) (hk : m[k]? = some a)
    (hRefers : ∀ (k' : κ) (a' : α), k' ≠ k → m[k']? = some a' → ∀ r, Refers' a' r ↔ Refers a' r)
    (hold : ∀ r, Refers a r → r ∈ rs) :
    ReverseIndex.Of (rs.foldl (ReverseIndex.unlink k) i) (m.erase k) Refers' := by
  intro r k' a'
  rw [getElem?_foldl_unlink, Std.ExtTreeMap.getElem?_erase]
  simp only [Std.compare_eq_iff_eq]
  by_cases hkk : k = k'
  · subst hkk
    simp only [true_and, if_true]
    split_ifs with hr
    · simp
    · constructor
      · intro hin
        obtain ⟨hm, hrefers⟩ := (h r k a').1 hin
        obtain rfl : a = a' := Option.some.inj (hk.symm.trans hm)
        exact absurd (hold r hrefers) hr
      · simp
  · simp only [hkk, false_and, if_false]
    rw [h r k' a']
    exact and_congr_right fun hm => (hRefers k' a' (fun h => hkk h.symm) hm r).symm

/-- A key is hollow, or something is under it. -/
theorem mem_iff : r ∈ i ↔ Hollow i r ∨ ∃ (k : κ) (a : α), (i.inner r)[k]? = some a := by
  unfold Hollow inner
  rcases h : i[r]? with _ | e
  · have hr : r ∉ i := fun hmem => by
      rw [← Std.ExtTreeMap.isSome_getElem?_iff_mem, h] at hmem
      exact absurd hmem (by simp)
    simp [hr]
  · have hr : r ∈ i := Std.ExtTreeMap.isSome_getElem?_iff_mem.1 (by rw [h]; rfl)
    simp only [hr, Option.some.injEq, Option.getD_some, true_iff]
    by_cases he : e = ∅
    · exact .inl he
    · rw [Std.ExtTreeMap.eq_empty_iff_forall_not_mem, not_forall] at he
      obtain ⟨k, hk⟩ := he
      rw [not_not] at hk
      obtain ⟨a, ha⟩ := Option.isSome_iff_exists.1 (Std.ExtTreeMap.isSome_getElem?_iff_mem.2 hk)
      exact .inr ⟨k, a, ha⟩

/-- **Without hollow keys, a key is what some entry refers to.** -/
theorem Of.mem_iff (h : i.Of m Refers) (hhollow : ∀ r, ¬ Hollow i r) :
    r ∈ i ↔ ∃ (k : κ) (a : α), m[k]? = some a ∧ Refers a r := by
  rw [ReverseIndex.mem_iff]
  simp only [hhollow r, false_or]
  exact exists_congr fun k => exists_congr fun a => h r k a

/-- A map whose keys are all in a list has at most as many. -/
theorem size_le {β : Type} {m : Std.ExtTreeMap ρ β compare} (h : ∀ r ∈ m, r ∈ rs) :
    m.size ≤ rs.length := by
  rw [← Std.ExtTreeMap.length_keys]
  have hnodup : m.keys.Nodup := by
    refine List.Pairwise.imp (fun {a b} hne heq => ?_) Std.ExtTreeMap.distinct_keys
    exact hne (Std.compare_eq_iff_eq.2 heq)
  exact (hnodup.subperm fun r hr => h r (Std.ExtTreeMap.mem_keys.1 hr)).length_le

end ReverseIndex

end CryptoBullion
