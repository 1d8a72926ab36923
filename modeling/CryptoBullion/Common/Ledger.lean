import Mathlib
/-!
# A ledger and its index

A ledger is a list of transactions, newest first, each with a name, a
place, the outputs it spends and the outputs it makes. An index keeps for
every name the place of the transaction and one slot per output, which
holds the place of the spender once there is one. `indexOf` is the index a
ledger has; it is what adding the transactions one after another leads to,
and taking the newest away again leads back (`undo_enter`).

A ledger is sound when every transaction has a new name and spends only
what is there and unspent. Of a sound ledger the index says what one
expects of it: an entry for each transaction (`isSome_indexOf`), as many
slots as outputs, a slot filled exactly where some transaction spends the
output (`slot_iff`), and no output spent twice (`nodup_ins`).
-/

namespace CryptoBullion

namespace Ledger

variable {ι π β : Type}

/-- A transaction as an index sees it. -/
structure Tx (ι π β : Type) where
  id : ι
  pos : π
  ins : List (ι × ℕ)
  outs : List β

/-- A transaction's place, and what spent each of its outputs. -/
abbrev Entry (π : Type) := π × List (Option π)

abbrev Index (ι π : Type) := ι → Option (Entry π)

variable [DecidableEq ι]
variable {idx idx' : Index ι π} {t u : Tx ι π β} {txs : List (Tx ι π β)}
variable {v : Option π} {p : π} {o : ι × ℕ} {os : List (ι × ℕ)} {h : ι} {n : ℕ} {e : Entry π}

/-! ## Filling and emptying slots -/

/-- Put `v` into the slots of some outputs. -/
def mark (v : Option π) (os : List (ι × ℕ)) (idx : Index ι π) : Index ι π := fun h =>
  (idx h).map fun e => (e.1, e.2.mapIdx fun n s => if (h, n) ∈ os then v else s)

/-- The output is there and nothing has spent it. -/
def Free (idx : Index ι π) (o : ι × ℕ) : Prop := ∃ e, idx o.1 = some e ∧ e.2[o.2]? = some none

/-- Where none of its outputs is marked, an entry stays as it is. -/
theorem mark_of_not_mem (hh : ∀ n, (h, n) ∉ os) : mark v os idx h = idx h := by
  have hself : ∀ l : List (Option π), l.mapIdx (fun n s => if (h, n) ∈ os then v else s) = l := by
    intro l
    refine List.ext_getElem? fun n => ?_
    rw [List.getElem?_mapIdx]
    simp [hh]
  rcases he : idx h with _ | e <;> simp [mark, he, hself]

@[simp] theorem mark_nil : mark v [] idx = idx :=
  funext fun _ => mark_of_not_mem fun _ => List.not_mem_nil

@[simp] theorem mark_eq_none_iff : mark v os idx h = none ↔ idx h = none := by
  simp [mark]

/-- **Outputs can be marked one after another.** -/
theorem mark_mark : mark v os (mark v [o] idx) = mark v (o :: os) idx := by
  funext h
  rcases hh : idx h with _ | e
  · simp [mark, hh]
  · simp only [mark, hh, Option.map_some, List.mapIdx_mapIdx, List.mem_cons]
    congr 3
    funext n s
    by_cases h₁ : (h, n) ∈ os <;> by_cases h₂ : (h, n) = o <;> simp [h₁, h₂]

/-- A single slot set is a single output marked. -/
theorem mark_singleton (ho : idx o.1 = some e) :
    mark v [o] idx = Function.update idx o.1 (some (e.1, e.2.set o.2 v)) := by
  funext h
  rw [Function.update_apply]
  split
  · rename_i heq
    subst heq
    simp only [mark, ho, Option.map_some]
    congr 2
    refine List.ext_getElem? fun n => ?_
    rw [List.getElem?_mapIdx, List.getElem?_set]
    by_cases hn : o.2 = n
    · subst hn
      by_cases hlen : o.2 < e.2.length <;> simp [hlen]
    · have hne : (o.1, n) ≠ o := fun heq => hn (congrArg Prod.snd heq).symm
      rw [if_neg hn]
      simp [hne]
  · rename_i hne
    exact mark_of_not_mem fun n hmem => hne (congrArg Prod.fst (List.mem_singleton.1 hmem))

/-- The outputs of a list were there, each once, and now have `p` in their
slots. -/
structure Spends (p : π) (idx : Index ι π) (os : List (ι × ℕ)) (idx' : Index ι π) : Prop where
  nodup : os.Nodup
  free : ∀ o ∈ os, Free idx o
  eq : idx' = mark (some p) os idx

theorem Spends.nil : Spends p idx [] idx := ⟨List.nodup_nil, by simp, by simp⟩

/-- **Spending one output, then others**: the first is not among them,
since it is not free any more. -/
theorem Spends.cons (ho : Free idx o) (hs : Spends p (mark (some p) [o] idx) os idx') :
    Spends p idx (o :: os) idx' := by
  have hback : ∀ o' ∈ os, o' ≠ o ∧ Free idx o' := by
    intro o' ho'
    obtain ⟨e', he', hslot⟩ := hs.free o' ho'
    simp only [mark, Option.map_eq_some_iff] at he'
    obtain ⟨e, he, rfl⟩ := he'
    simp only [List.mem_singleton, List.getElem?_mapIdx, Option.map_eq_some_iff] at hslot
    obtain ⟨s, hs, hslot⟩ := hslot
    split_ifs at hslot with heq
    exact ⟨heq, e, he, hslot ▸ hs⟩
  refine ⟨List.nodup_cons.2 ⟨fun hmem => (hback o hmem).1 rfl, hs.nodup⟩, ?_, ?_⟩
  · intro o' ho'
    rcases List.mem_cons.1 ho' with rfl | ho'
    · exact ho
    · exact (hback o' ho').2
  · rw [hs.eq, mark_mark]

/-! ## Entering and undoing a transaction -/

/-- Spend the inputs, then add an entry with nothing spent. -/
def enter (t : Tx ι π β) (idx : Index ι π) : Index ι π :=
  Function.update (mark (some t.pos) t.ins idx) t.id (some (t.pos, List.replicate t.outs.length none))

/-- Free the inputs, then drop the entry. -/
def undo (t : Tx ι π β) (idx : Index ι π) : Index ι π :=
  Function.update (mark none t.ins idx) t.id none

/-- The transaction can be entered. -/
structure Enterable (t : Tx ι π β) (idx : Index ι π) : Prop where
  fresh : idx t.id = none
  nodup : t.ins.Nodup
  free : ∀ o ∈ t.ins, Free idx o

omit [DecidableEq ι] in
/-- A transaction to be entered spends nothing of its own. -/
theorem Enterable.not_self (ht : Enterable t idx) : ∀ n, (t.id, n) ∉ t.ins := by
  intro n hn
  obtain ⟨e, he, -⟩ := ht.free _ hn
  rw [ht.fresh] at he
  exact absurd he (by simp)

theorem enter_self : enter t idx t.id = some (t.pos, List.replicate t.outs.length none) :=
  Function.update_self ..

theorem enter_of_ne (hne : h ≠ t.id) : enter t idx h = mark (some t.pos) t.ins idx h :=
  Function.update_of_ne hne ..

/-- **Undoing what was just entered leads back**, slot by slot. -/
theorem undo_enter (ht : Enterable t idx) : undo t (enter t idx) = idx := by
  funext h
  rw [undo, Function.update_apply]
  split
  · rename_i heq
    rw [heq, ht.fresh]
  · rename_i hne
    simp only [mark, enter_of_ne hne]
    rcases hh : idx h with _ | e
    · rfl
    · simp only [Option.map_some, List.mapIdx_mapIdx]
      congr 1
      refine Prod.ext rfl (List.ext_getElem? fun n => ?_)
      simp only [List.getElem?_mapIdx]
      rcases hn : e.2[n]? with _ | s
      · rfl
      · by_cases hmem : (h, n) ∈ t.ins
        · obtain ⟨e', he', hfree⟩ := ht.free _ hmem
          rw [hh] at he'
          obtain rfl := Option.some.inj he'
          rw [hn] at hfree
          simp [hmem, Option.some.inj hfree]
        · simp [hmem]

/-! ## Ledgers -/

/-- The index of a ledger. -/
def indexOf : List (Tx ι π β) → Index ι π
  | [] => fun _ => none
  | t :: txs => enter t (indexOf txs)

/-- Every transaction could be entered when its turn came. -/
inductive Sound : List (Tx ι π β) → Prop
  | nil : Sound []
  | cons {t : Tx ι π β} {txs : List (Tx ι π β)} (ht : Enterable t (indexOf txs)) (hs : Sound txs) :
      Sound (t :: txs)

/-- A tail of a sound ledger is one. -/
theorem Sound.of_append : ∀ {new : List (Tx ι π β)}, Sound (new ++ txs) → Sound txs
  | [], hs => hs
  | _ :: _, .cons _ hs => hs.of_append

/-- **An entry for each transaction and no other.** -/
theorem isSome_indexOf : ∀ {txs : List (Tx ι π β)}, (indexOf txs h).isSome ↔ ∃ t ∈ txs, t.id = h
  | [] => by simp [indexOf]
  | t :: txs => by
    rw [List.exists_mem_cons_iff, ← isSome_indexOf, indexOf]
    by_cases heq : h = t.id
    · subst heq
      simp [enter_self]
    · rw [enter_of_ne heq, mark, Option.isSome_map]
      simp [Ne.symm heq]

theorem indexOf_eq_none_iff : indexOf txs h = none ↔ ∀ t ∈ txs, t.id ≠ h := by
  rw [← Option.not_isSome_iff_eq_none, isSome_indexOf]
  simp

/-- **Names do not repeat.** -/
theorem Sound.nodup_id (hs : Sound txs) : (txs.map Tx.id).Nodup := by
  induction hs with
  | nil => exact List.nodup_nil
  | cons ht _ ih =>
    rw [List.map_cons, List.nodup_cons]
    refine ⟨fun hmem => ?_, ih⟩
    obtain ⟨u, hu, heq⟩ := List.mem_map.1 hmem
    exact indexOf_eq_none_iff.1 ht.fresh u hu heq

/-- **The entry of a transaction** has its place and a slot per output. -/
theorem Sound.entry (hs : Sound txs) (ht : t ∈ txs) :
    ∃ slots, indexOf txs t.id = some (t.pos, slots) ∧ slots.length = t.outs.length := by
  induction hs with
  | nil => exact absurd ht List.not_mem_nil
  | @cons u txs hu _ ih =>
    rw [indexOf]
    rcases List.mem_cons.1 ht with rfl | ht
    · exact ⟨_, enter_self, List.length_replicate⟩
    · obtain ⟨slots, hslots, hlen⟩ := ih ht
      rw [enter_of_ne (indexOf_eq_none_iff.1 hu.fresh t ht), mark, hslots]
      exact ⟨_, rfl, by rw [List.length_mapIdx, hlen]⟩

/-- What is spent was made by a transaction of the ledger. -/
theorem Sound.made (hs : Sound txs) (hu : u ∈ txs) (ho : o ∈ u.ins) :
    ∃ t ∈ txs, t.id = o.1 ∧ o.2 < t.outs.length := by
  induction hs with
  | nil => exact absurd hu List.not_mem_nil
  | @cons t txs ht hs ih =>
    rcases List.mem_cons.1 hu with rfl | hu
    · obtain ⟨e, he, hslot⟩ := ht.free o ho
      obtain ⟨w, hw, hid⟩ := isSome_indexOf.1 (Option.isSome_of_mem he)
      obtain ⟨slots, hslots, hlen⟩ := hs.entry hw
      rw [hid, he] at hslots
      obtain rfl := Option.some.inj hslots
      obtain ⟨hlt, -⟩ := List.getElem?_eq_some_iff.1 hslot
      exact ⟨w, List.mem_cons_of_mem _ hw, hid, hlen ▸ hlt⟩
    · obtain ⟨w, hw, hid⟩ := ih hu
      exact ⟨w, List.mem_cons_of_mem _ hw, hid⟩

/-- **A slot is filled exactly where some transaction spends the output.** -/
theorem Sound.slot_iff (hs : Sound txs) (he : indexOf txs h = some e) {s : Option π}
    (hn : e.2[n]? = some s) : s.isSome ↔ ∃ u ∈ txs, (h, n) ∈ u.ins := by
  induction hs generalizing e s with
  | nil => exact absurd he (by simp [indexOf])
  | @cons t txs ht hs ih =>
    rw [List.exists_mem_cons_iff]
    rw [indexOf] at he
    by_cases heq : h = t.id
    · -- the newest transaction, which nothing has spent from
      subst heq
      rw [enter_self] at he
      obtain rfl := Option.some.inj he
      obtain ⟨-, rfl⟩ := List.getElem?_eq_some_iff.1 hn
      rw [List.getElem_replicate]
      constructor
      · simp
      · rintro (hmem | ⟨u, hu, hmem⟩)
        · exact absurd hmem (ht.not_self n)
        · obtain ⟨w, hw, hid, -⟩ := hs.made hu hmem
          exact absurd hid (indexOf_eq_none_iff.1 ht.fresh w hw)
    · rw [enter_of_ne heq] at he
      simp only [mark, Option.map_eq_some_iff] at he
      obtain ⟨e', he', rfl⟩ := he
      simp only [List.getElem?_mapIdx, Option.map_eq_some_iff] at hn
      obtain ⟨s', hs', rfl⟩ := hn
      by_cases hmem : (h, n) ∈ t.ins
      · simp [hmem]
      · simp only [hmem, if_false, false_or]
        exact ih he' hs'

/-- An output is free exactly where a transaction made it and none spent
it. -/
theorem Sound.free_iff (hs : Sound txs) :
    Free (indexOf txs) o ↔
      (∃ t ∈ txs, t.id = o.1 ∧ o.2 < t.outs.length) ∧ ∀ u ∈ txs, o ∉ u.ins := by
  constructor
  · rintro ⟨e, he, hslot⟩
    refine ⟨?_, fun u hu hmem => ?_⟩
    · obtain ⟨t, ht, hid⟩ := isSome_indexOf.1 (Option.isSome_of_mem he)
      obtain ⟨slots, hslots, hlen⟩ := hs.entry ht
      rw [hid, he] at hslots
      obtain rfl := Option.some.inj hslots
      obtain ⟨hlt, -⟩ := List.getElem?_eq_some_iff.1 hslot
      exact ⟨t, ht, hid, hlen ▸ hlt⟩
    · have := (hs.slot_iff he hslot).2 ⟨u, hu, hmem⟩
      exact absurd this (by simp)
  · rintro ⟨⟨t, ht, hid, hlt⟩, hnone⟩
    obtain ⟨slots, hslots, hlen⟩ := hs.entry ht
    rw [hid] at hslots
    have hlt' : o.2 < slots.length := by omega
    refine ⟨_, hslots, ?_⟩
    rcases hslot : slots[o.2] with _ | p
    · exact List.getElem?_eq_some_iff.2 ⟨hlt', hslot⟩
    · obtain ⟨u, hu, hmem⟩ := (hs.slot_iff hslots (List.getElem?_eq_some_iff.2 ⟨hlt', hslot⟩)).1 rfl
      exact absurd hmem (hnone u hu)

/-- **No output is spent twice.** -/
theorem Sound.nodup_ins (hs : Sound txs) : (txs.flatMap Tx.ins).Nodup := by
  induction hs with
  | nil => exact List.nodup_nil
  | @cons t txs ht hs ih =>
    rw [List.flatMap_cons, List.nodup_append']
    refine ⟨ht.nodup, ih, fun o ho hmem => ?_⟩
    obtain ⟨u, hu, hou⟩ := List.mem_flatMap.1 hmem
    exact (hs.free_iff.1 (ht.free o ho)).2 u hu hou

end Ledger

end CryptoBullion
