import Mathlib
/-!
# Trees of hashes over lists of any length

A row of hashes is paired off into the row above it, the last of an odd
row with itself, until one hash is left, the root. Lists of different
lengths can have one root: a last pair of twins is a last hash alone. With
no twins there is nothing to confuse: as long as pairs have hashes of their
own, and no leaf is the hash of a pair, a root belongs to one list without
repetitions (`Root.unique`). The argument goes up level by level, since a
row above a list without repetitions has none either.

A branch is what it takes to hash one's way up from one leaf: the other
hash of each pair on the way. It leads to the root (`climb_branch`), and
from one leaf only (`climb_injOn`).
-/

namespace CryptoBullion

namespace MerkleTree

variable {η : Type} {node : η → η → η} {l l' : List η} {r x y : η} {n k : ℕ}

/-! ## Rows -/

/-- The row above. -/
def row (node : η → η → η) : List η → List η
  | [] => []
  | [x] => [node x x]
  | x :: y :: l => node x y :: row node l

theorem length_row : ∀ {l : List η}, (row node l).length = (l.length + 1) / 2
  | [] => by simp [row]
  | [_] => by simp [row]
  | _ :: _ :: l => by
    rw [row, List.length_cons, length_row, List.length_cons, List.length_cons]
    omega

theorem exists_of_mem_row : ∀ {l : List η}, x ∈ row node l → ∃ a ∈ l, ∃ b ∈ l, x = node a b
  | [], h => absurd h List.not_mem_nil
  | [y], h => ⟨y, List.mem_singleton_self y, y, List.mem_singleton_self y, List.mem_singleton.1 h⟩
  | y :: z :: l, h => by
    rcases List.mem_cons.1 h with rfl | h
    · exact ⟨y, by simp, z, by simp, rfl⟩
    · obtain ⟨a, ha, b, hb, rfl⟩ := exists_of_mem_row h
      exact ⟨a, by simp [ha], b, by simp [hb], rfl⟩

/-- **Twins at the end** of a row of even length do not show above. -/
theorem row_twins : ∀ {l : List η}, Even l.length → row node (l ++ [x]) = row node (l ++ [x, x])
  | [], _ => rfl
  | [_], h => absurd h (by simp)
  | y :: z :: l, h => by
    have hl : Even l.length := by
      simpa [Nat.even_add_one] using h
    simp only [List.cons_append, row, row_twins hl]

/-! ## Roots -/

/-- `r` is the hash left at the top of the rows over `l`. -/
inductive Root (node : η → η → η) : List η → η → Prop
  | single (x : η) : Root node [x] x
  | step {l : List η} {r : η} (h : 2 ≤ l.length) (hr : Root node (row node l) r) : Root node l r

theorem Root.eq (h : Root node l r) (h' : Root node l y) : r = y := by
  induction h with
  | single _ =>
    cases h' with
    | single _ => rfl
    | step h _ => exact absurd h (by simp)
  | step hlen _ ih =>
    cases h' with
    | single _ => exact absurd hlen (by simp)
    | step _ h' => exact ih h'

/-- The root of two or more is the root of the row above. -/
theorem Root.above (h : Root node l r) (hlen : 2 ≤ l.length) : Root node (row node l) r := by
  cases h with
  | single _ => exact absurd hlen (by simp)
  | step _ hr => exact hr

/-- The rows from `l` up, at most `fuel` of them. -/
def rows (node : η → η → η) : ℕ → List η → List (List η)
  | 0, _ => []
  | fuel + 1, l => l :: if l.length ≤ 1 then [] else rows node fuel (row node l)

/-- **The rows end in the root**, where there is fuel for the length. -/
theorem root_of_rows : ∀ (fuel : ℕ) {l : List η}, l ≠ [] → l.length ≤ fuel →
    ∃ r, (rows node fuel l).getLast?.bind List.getLast? = some r ∧ Root node l r
  | 0, l, hne, hlen => absurd (List.length_eq_zero_iff.1 (Nat.le_zero.1 hlen)) hne
  | fuel + 1, l, hne, hlen => by
    rw [rows]
    by_cases hone : l.length ≤ 1
    · obtain ⟨x, rfl⟩ : ∃ x, l = [x] := by
        refine List.length_eq_one_iff.1 (le_antisymm hone ?_)
        exact List.length_pos_iff.2 hne
      exact ⟨x, by simp, .single x⟩
    · have hrow : (row node l).length = (l.length + 1) / 2 := length_row
      have hne' : row node l ≠ [] := by
        intro h
        rw [h, List.length_nil] at hrow
        omega
      obtain ⟨r, hr, hroot⟩ := root_of_rows fuel hne' (by omega)
      refine ⟨r, ?_, .step (by omega) hroot⟩
      rw [if_neg hone]
      rcases hrows : rows node fuel (row node l) with _ | ⟨a, t⟩
      · rw [hrows] at hr
        exact absurd hr (by simp)
      · rw [List.getLast?_cons_cons, ← hrows, hr]

/-- The hashes of all rows. -/
def nodes (node : η → η → η) (fuel : ℕ) (l : List η) : List η := (rows node fuel l).flatten

theorem subset_nodes {fuel : ℕ} : l ⊆ nodes node (fuel + 1) l := by
  intro x hx
  rw [nodes, rows, List.flatten_cons]
  exact List.mem_append_left _ hx

theorem nodes_row_subset {fuel : ℕ} (h : 2 ≤ l.length) :
    nodes node fuel (row node l) ⊆ nodes node (fuel + 1) l := by
  intro x hx
  rw [nodes, rows, if_neg (by omega), List.flatten_cons]
  exact List.mem_append_right _ hx

/-! ## Branches -/

/-- A hash of the row above, from the two below it; past the end of an odd
row its last hash stands again. -/
theorem getElem?_row : ∀ {l : List η} {m : ℕ}, 2 * m < l.length →
    (row node l)[m]? = do some (node (← l[2 * m]?) (← l[min (2 * m + 1) (l.length - 1)]?))
  | [], _, h => absurd h (Nat.not_lt_zero _)
  | [x], m, h => by
    obtain rfl : m = 0 := by
      rw [List.length_singleton] at h
      omega
    rfl
  | x :: y :: l, 0, _ => by
    rw [show min (2 * 0 + 1) ((x :: y :: l).length - 1) = 1 by simp]
    rfl
  | x :: y :: l, m + 1, h => by
    have hlt : 2 * m < l.length := by
      simp only [List.length_cons] at h
      omega
    have hmin : min (2 * (m + 1) + 1) ((x :: y :: l).length - 1) =
        min (2 * m + 1) (l.length - 1) + 2 := by
      simp only [List.length_cons]
      omega
    rw [row, List.getElem?_cons_succ, getElem?_row hlt, hmin,
      show 2 * (m + 1) = 2 * m + 2 by omega]
    rfl

/-- The other hash of the pair a position belongs to, in a row of this
length. -/
def other (len i : ℕ) : ℕ := min (i ^^^ 1) (len - 1)

/-- The other hashes of the pairs met on the way up from position `i`. -/
def branch (node : η → η → η) : ℕ → List η → ℕ → List η
  | 0, _, _ => []
  | fuel + 1, l, i =>
    if l.length ≤ 1 then []
    else l[other l.length i]?.toList ++ branch node fuel (row node l) (i / 2)

/-- A pair with `x` at position `i`: on the right at an odd one. -/
def pairAt (i : ℕ) (x other : η) : η × η := if i % 2 = 1 then (other, x) else (x, other)

/-- Hash one's way up along a branch. -/
def climb (node : η → η → η) : η → List η → ℕ → η
  | x, [], _ => x
  | x, y :: branch, i => climb node (node (pairAt i x y).1 (pairAt i x y).2) branch (i / 2)

/-- The pairs hashed on the way. -/
def climbed (node : η → η → η) : η → List η → ℕ → List (η × η)
  | _, [], _ => []
  | x, y :: branch, i =>
    pairAt i x y :: climbed node (node (pairAt i x y).1 (pairAt i x y).2) branch (i / 2)

/-- A pair has its hash in the row above. -/
theorem getElem?_row_pairAt {i : ℕ} (hi : i < l.length) (hlen : 2 ≤ l.length) (hx : l[i]? = some x)
    (hy : l[other l.length i]? = some y) :
    (row node l)[i / 2]? = some (node (pairAt i x y).1 (pairAt i x y).2) := by
  rw [getElem?_row (by omega)]
  unfold other at hy
  unfold pairAt
  rcases Nat.even_or_odd i with heven | hodd
  · obtain ⟨m, rfl⟩ := heven.two_dvd
    rw [Nat.xor_one_of_even heven] at hy
    rw [Nat.mul_div_cancel_left m Nat.two_pos, hx, hy, if_neg (by omega)]
    rfl
  · rw [Nat.xor_one_of_odd hodd] at hy
    obtain ⟨m, rfl⟩ := hodd
    rw [Nat.add_sub_cancel, Nat.min_eq_left (by omega : 2 * m ≤ l.length - 1)] at hy
    rw [show (2 * m + 1) / 2 = m by omega, hy,
      Nat.min_eq_left (by omega : 2 * m + 1 ≤ l.length - 1), hx, if_pos (by omega)]
    rfl

/-- **A branch leads to the root.** -/
theorem climb_branch {i : ℕ} (fuel : ℕ) (hr : Root node l r) (hfuel : l.length ≤ fuel)
    (hi : i < l.length) (hx : l[i]? = some x) : climb node x (branch node fuel l i) i = r := by
  induction hr generalizing fuel i x with
  | single z =>
    obtain ⟨fuel, rfl⟩ : ∃ m, fuel = m + 1 := ⟨fuel - 1, by simp at hfuel; omega⟩
    obtain rfl : i = 0 := by simpa using hi
    rw [branch, if_pos (by simp), climb]
    exact (Option.some.inj hx).symm
  | @step l r hlen hr ih =>
    obtain ⟨fuel, rfl⟩ : ∃ m, fuel = m + 1 := ⟨fuel - 1, by omega⟩
    have hother : other l.length i < l.length := by
      unfold other
      omega
    have hy : l[other l.length i]? = some l[other l.length i] := List.getElem?_eq_getElem hother
    have hrow : (row node l).length = (l.length + 1) / 2 := length_row
    rw [branch, if_neg (by omega), hy, Option.toList_some, List.singleton_append, climb]
    exact ih fuel (by omega) (by omega) (getElem?_row_pairAt hi hlen hx hy)

/-- **Two hashes that lead to one place along a branch are the same**, as
long as no two of the pairs on their ways collide. -/
theorem climb_injOn {i : ℕ} {b : List η}
    (hinj : Set.InjOn (fun p : η × η => node p.1 p.2)
      {p | p ∈ climbed node x b i ∨ p ∈ climbed node y b i})
    (h : climb node x b i = climb node y b i) : x = y := by
  induction b generalizing x y i with
  | nil => exact h
  | cons z b ih =>
    have hpair := ih (hinj.mono fun p hp => hp.imp (List.mem_cons_of_mem _) (List.mem_cons_of_mem _)) h
    have heq := hinj (.inl List.mem_cons_self) (.inr List.mem_cons_self) hpair
    unfold pairAt at heq
    split_ifs at heq
    · exact (Prod.mk.inj heq).2
    · exact (Prod.mk.inj heq).1

/-! ## No confusion -/

section Unique

variable {N leaf : Set η}

/-- Pairs of nodes have hashes of their own, which are no leaves. -/
structure Apart (node : η → η → η) (N leaf : Set η) : Prop where
  inj : ∀ a ∈ N, ∀ b ∈ N, ∀ c ∈ N, ∀ d ∈ N, node a b = node c d → a = c ∧ b = d
  leaf_ne : ∀ x ∈ leaf, ∀ a ∈ N, ∀ b ∈ N, x ≠ node a b

/-- A hash `n` levels above the leaves. -/
inductive Level (node : η → η → η) (N leaf : Set η) : ℕ → η → Prop
  | leaf {x : η} (h : x ∈ leaf) : Level node N leaf 0 x
  | node {n : ℕ} {a b : η} (ha : a ∈ N) (hb : b ∈ N) (h : Level node N leaf n a) :
      Level node N leaf (n + 1) (node a b)

/-- **A hash is on one level.** -/
theorem Level.unique (hN : Apart node N leaf) (h : Level node N leaf n x)
    (h' : Level node N leaf k x) : n = k := by
  induction h generalizing k with
  | @leaf x hx =>
    generalize hy : x = y at h'
    cases h' with
    | leaf _ => rfl
    | node ha hb _ => exact absurd hy (hN.leaf_ne x hx _ ha _ hb)
  | @node n a b ha hb _ ih =>
    generalize hy : node a b = y at h'
    cases h' with
    | leaf hx => exact absurd hy.symm (hN.leaf_ne _ hx _ ha _ hb)
    | node hc hd h' =>
      obtain ⟨rfl, rfl⟩ := hN.inj _ ha _ hb _ hc _ hd hy
      rw [ih h']

/-- The row above is one level up. -/
theorem level_row (hl : ∀ x ∈ l, x ∈ N) (h : ∀ x ∈ l, Level node N leaf n x) :
    ∀ x ∈ row node l, Level node N leaf (n + 1) x := by
  intro x hx
  obtain ⟨a, ha, b, hb, rfl⟩ := exists_of_mem_row hx
  exact .node (hl a ha) (hl b hb) (h a ha)

/-- **No twins below, none above.** -/
theorem nodup_row (hN : Apart node N leaf) : ∀ {l : List η}, (∀ x ∈ l, x ∈ N) → l.Nodup →
    (row node l).Nodup
  | [], _, _ => List.nodup_nil
  | [_], _, _ => List.nodup_singleton _
  | y :: z :: l, hl, hnodup => by
    rw [row, List.nodup_cons]
    rw [List.nodup_cons, List.nodup_cons] at hnodup
    refine ⟨fun hmem => ?_, nodup_row hN (fun x hx => hl x (by simp [hx])) hnodup.2.2⟩
    obtain ⟨a, ha, b, hb, heq⟩ := exists_of_mem_row hmem
    obtain ⟨rfl, -⟩ := hN.inj y (hl y (by simp)) z (hl z (by simp)) a (hl a (by simp [ha])) b
      (hl b (by simp [hb])) heq
    exact hnodup.1 (List.mem_cons_of_mem _ ha)

/-- **A row comes from one list** without twins. -/
theorem row_inj (hN : Apart node N leaf) : ∀ {l l' : List η}, (∀ x ∈ l, x ∈ N) →
    (∀ x ∈ l', x ∈ N) → l.Nodup → l'.Nodup → row node l = row node l' → l = l'
  | [], [], _, _, _, _, _ => rfl
  | [], [_], _, _, _, _, h => absurd h (by simp [row])
  | [], _ :: _ :: _, _, _, _, _, h => absurd h (by simp [row])
  | [_], [], _, _, _, _, h => absurd h (by simp [row])
  | _ :: _ :: _, [], _, _, _, _, h => absurd h (by simp [row])
  | [x], [y], hl, hl', _, _, h => by
    have hx := hl x (by simp)
    have hy := hl' y (by simp)
    rw [(hN.inj x hx x hx y hy y hy (List.cons.inj h).1).1]
  | [x], y :: z :: l', hl, hl', _, hnodup', h => by
    have hx := hl x (by simp)
    obtain ⟨rfl, rfl⟩ := hN.inj x hx x hx y (hl' y (by simp)) z (hl' z (by simp)) (List.cons.inj h).1
    exact absurd (List.mem_cons_self) (List.nodup_cons.1 hnodup').1
  | y :: z :: l, [x], hl, hl', hnodup, _, h => by
    have hx := hl' x (by simp)
    obtain ⟨rfl, rfl⟩ := hN.inj y (hl y (by simp)) z (hl z (by simp)) x hx x hx (List.cons.inj h).1
    exact absurd (List.mem_cons_self) (List.nodup_cons.1 hnodup).1
  | y :: z :: l, y' :: z' :: l', hl, hl', hnodup, hnodup', h => by
    obtain ⟨hhead, htail⟩ := List.cons.inj h
    obtain ⟨rfl, rfl⟩ := hN.inj y (hl y (by simp)) z (hl z (by simp)) y' (hl' y' (by simp)) z'
      (hl' z' (by simp)) hhead
    rw [row_inj hN (fun x hx => hl x (by simp [hx])) (fun x hx => hl' x (by simp [hx]))
      (List.nodup_cons.1 (List.nodup_cons.1 hnodup).2).2
      (List.nodup_cons.1 (List.nodup_cons.1 hnodup').2).2 htail]

/-- A root is as many levels up as there are rows. -/
theorem Root.exists_level (h : Root node l r) (fuel : ℕ) (hfuel : l.length ≤ fuel)
    (hl : ∀ x ∈ nodes node fuel l, x ∈ N) (hlevel : ∀ x ∈ l, Level node N leaf n x) :
    ∃ k, Level node N leaf (n + k) r ∧ (2 ≤ l.length → 0 < k) := by
  induction h generalizing n fuel with
  | single x => exact ⟨0, hlevel x (by simp), fun h => absurd h (by simp)⟩
  | @step l r hlen hr ih =>
    obtain ⟨fuel, rfl⟩ : ∃ m, fuel = m + 1 := ⟨fuel - 1, by omega⟩
    have hrow : (row node l).length = (l.length + 1) / 2 := length_row
    obtain ⟨k, hk, -⟩ := ih (n := n + 1) fuel (by omega)
      (fun x hx => hl x (nodes_row_subset hlen hx))
      (level_row (fun x hx => hl x (subset_nodes hx)) hlevel)
    exact ⟨k + 1, by rwa [Nat.add_right_comm, Nat.add_assoc] at hk, fun _ => Nat.succ_pos k⟩

/-- **A root belongs to one list of leaves without twins.** -/
theorem Root.unique (hN : Apart node N leaf) (fuel fuel' : ℕ) (h : Root node l r)
    (h' : Root node l' r) (hfuel : l.length ≤ fuel) (hfuel' : l'.length ≤ fuel')
    (hl : ∀ x ∈ nodes node fuel l, x ∈ N) (hl' : ∀ x ∈ nodes node fuel' l', x ∈ N)
    (hlevel : ∀ x ∈ l, Level node N leaf n x) (hlevel' : ∀ x ∈ l', Level node N leaf n x)
    (hnodup : l.Nodup) (hnodup' : l'.Nodup) : l = l' := by
  induction h generalizing l' n fuel fuel' with
  | single x =>
    cases h' with
    | single _ => rfl
    | step hlen hr =>
      -- the same hash as a leaf and as a root above leaves
      obtain ⟨k, hk, hpos⟩ := (Root.step hlen hr).exists_level fuel' hfuel' hl' hlevel'
      have := Level.unique hN hk (hlevel x (by simp))
      have := hpos hlen
      omega
  | @step l r hlen hr ih =>
    cases h' with
    | single _ =>
      obtain ⟨k, hk, hpos⟩ := (Root.step hlen hr).exists_level fuel hfuel hl hlevel
      have := Level.unique hN hk (hlevel' r (by simp))
      have := hpos hlen
      omega
    | step hlen' hr' =>
      obtain ⟨fuel, rfl⟩ : ∃ m, fuel = m + 1 := ⟨fuel - 1, by omega⟩
      obtain ⟨fuel', rfl⟩ : ∃ m, fuel' = m + 1 := ⟨fuel' - 1, by omega⟩
      have hrow : (row node l).length = (l.length + 1) / 2 := length_row
      have hrow' : (row node l').length = (l'.length + 1) / 2 := length_row
      have hmem : ∀ x ∈ l, x ∈ N := fun x hx => hl x (subset_nodes hx)
      have hmem' : ∀ x ∈ l', x ∈ N := fun x hx => hl' x (subset_nodes hx)
      refine row_inj hN hmem hmem' hnodup hnodup' ?_
      exact ih fuel fuel' hr' (by omega) (by omega) (fun x hx => hl x (nodes_row_subset hlen hx))
        (fun x hx => hl' x (nodes_row_subset hlen' hx)) (level_row hmem hlevel)
        (level_row hmem' hlevel') (nodup_row hN hmem hnodup) (nodup_row hN hmem' hnodup')

end Unique

end MerkleTree

end CryptoBullion
