import CryptoBullion.Common.Ledger
/-!
# Ledgers in which names come again

A name may come again once nothing is left of what it named before. Then the
index has the newest transaction of the name, and an older one is out of
reach. `Tracks` is what remains true of an index: entering a transaction
keeps it, if what it spends was free, and so does taking the newest one away.
It asks for no entry to be there, since taking a transaction away does not
bring an older one of its name back. `Complete` asks for the entries that
matter, those with an output left; it is kept as well where no name comes
again as long as one is left (`Unshadowed`). Then what is free is exactly what
is unspent (`free_iff`).
-/

namespace CryptoBullion

namespace Ledger

variable {ι π β : Type}

variable [DecidableEq ι]
variable {idx idx' : Index ι π} {t t' u : Tx ι π β} {txs later later' : List (Tx ι π β)} {h : ι}
variable {o : ι × ℕ} {e : Entry π}

/-! ## The newest of a name -/

/-- **The newest transaction of a name**, with those behind it. -/
structure Newest (txs : List (Tx ι π β)) (h : ι) (t : Tx ι π β) (later : List (Tx ι π β)) : Prop where
  split : ∃ earlier, txs = later ++ t :: earlier
  id : t.id = h
  last : ∀ u ∈ later, u.id ≠ h

omit [DecidableEq ι] in
/-- A name has one newest transaction. -/
theorem Newest.unique (hn : Newest txs h t later)
    (hn' : Newest txs h t' later') : t = t' ∧ later = later' := by
  obtain ⟨⟨earlier, heq⟩, hid, hlast⟩ := hn
  obtain ⟨⟨earlier', heq'⟩, hid', hlast'⟩ := hn'
  rw [heq] at heq'
  clear heq
  induction later generalizing later' with
  | nil =>
    cases later' with
    | nil => exact ⟨(List.cons.inj heq').1, rfl⟩
    | cons u later' =>
      obtain ⟨rfl, -⟩ := List.cons.inj heq'
      exact absurd hid (hlast' _ List.mem_cons_self)
  | cons u later ih =>
    cases later' with
    | nil =>
      obtain ⟨rfl, -⟩ := List.cons.inj heq'
      exact absurd hid' (hlast _ List.mem_cons_self)
    | cons u' later' =>
      obtain ⟨rfl, hrest⟩ := List.cons.inj heq'
      obtain ⟨rfl, rfl⟩ := ih (fun w hw => hlast w (List.mem_cons_of_mem _ hw))
        (fun w hw => hlast' w (List.mem_cons_of_mem _ hw)) hrest
      exact ⟨rfl, rfl⟩

omit [DecidableEq ι] in
/-- A transaction of another name comes on top. -/
theorem newest_cons_of_ne (hne : u.id ≠ h) :
    Newest (u :: txs) h t (u :: later) ↔ Newest txs h t later := by
  constructor
  · rintro ⟨⟨earlier, heq⟩, hid, hlast⟩
    exact ⟨⟨earlier, (List.cons.inj heq).2⟩, hid, fun w hw => hlast w (List.mem_cons_of_mem _ hw)⟩
  · rintro ⟨⟨earlier, heq⟩, hid, hlast⟩
    exact ⟨⟨earlier, by rw [heq, List.cons_append]⟩, hid, List.forall_mem_cons.2 ⟨hne, hlast⟩⟩

omit [DecidableEq ι] in
theorem newest_cons_self : Newest (t :: txs) t.id t [] :=
  ⟨⟨txs, rfl⟩, rfl, fun _ hu => absurd hu List.not_mem_nil⟩

omit [DecidableEq ι] in
/-- Below a transaction of another name the newest one is the same. -/
theorem Newest.of_cons (hn : Newest (u :: txs) h t later) (hne : u.id ≠ h) :
    ∃ later', later = u :: later' ∧ Newest txs h t later' := by
  obtain ⟨later, rfl⟩ : ∃ later', later = u :: later' := by
    obtain ⟨⟨earlier, hsplit⟩, hid, -⟩ := hn
    cases later with
    | nil =>
      obtain ⟨rfl, -⟩ := List.cons.inj hsplit
      exact absurd hid hne
    | cons w later =>
      obtain ⟨rfl, -⟩ := List.cons.inj hsplit
      exact ⟨later, rfl⟩
  exact ⟨later, rfl, (newest_cons_of_ne hne).1 hn⟩

/-! ## What is unspent -/

/-- **An output is unspent**: the newest transaction of its name makes it, and
nothing has spent it since. -/
def Unspent (txs : List (Tx ι π β)) (o : ι × ℕ) : Prop :=
  ∃ u later, Newest txs o.1 u later ∧ o.2 < u.outs.length ∧ ∀ w ∈ later, o ∉ w.ins

omit [DecidableEq ι] in
theorem not_unspent_nil : ¬ Unspent ([] : List (Tx ι π β)) o := by
  rintro ⟨u, later, ⟨⟨earlier, hsplit⟩, -, -⟩, -⟩
  exact absurd hsplit (by simp)

omit [DecidableEq ι] in
/-- It was unspent before a transaction of another name, which does not
spend it. -/
theorem Unspent.of_cons (hu : Unspent (t :: txs) o) (hne : t.id ≠ o.1) : Unspent txs o ∧ o ∉ t.ins := by
  obtain ⟨u, later, hnew, hlt, hfree⟩ := hu
  obtain ⟨later', rfl, hnew'⟩ := hnew.of_cons hne
  exact ⟨⟨u, later', hnew', hlt, fun w hw => hfree w (List.mem_cons_of_mem _ hw)⟩,
    hfree t List.mem_cons_self⟩

omit [DecidableEq ι] in
/-- And stays unspent behind it. -/
theorem Unspent.cons (hu : Unspent txs o) (hne : t.id ≠ o.1) (ho : o ∉ t.ins) :
    Unspent (t :: txs) o := by
  obtain ⟨u, later, hnew, hlt, hfree⟩ := hu
  exact ⟨u, t :: later, (newest_cons_of_ne hne).2 hnew, hlt, List.forall_mem_cons.2 ⟨ho, hfree⟩⟩

omit [DecidableEq ι] in
theorem Unspent.of_append (hu : Unspent (later ++ txs) o) (hne : ∀ w ∈ later, w.id ≠ o.1) :
    Unspent txs o := by
  induction later with
  | nil => exact hu
  | cons w later ih =>
    rw [List.forall_mem_cons] at hne
    exact ih (hu.of_cons hne.1).1 hne.2

/-- No transaction has the name of one below it that has an output left. -/
def Unshadowed : List (Tx ι π β) → Prop
  | [] => True
  | t :: txs => (∀ o, Unspent txs o → o.1 ≠ t.id) ∧ Unshadowed txs

omit [DecidableEq ι] in
/-- **Transactions with names of their own** shadow nothing, if none of them
has the name of an unspent output. -/
theorem Unshadowed.append (hs : Unshadowed txs) (hnodup : (later.map Tx.id).Nodup)
    (hnew : ∀ t ∈ later, ∀ o, Unspent txs o → o.1 ≠ t.id) : Unshadowed (later ++ txs) := by
  induction later with
  | nil => exact hs
  | cons t later ih =>
    rw [List.map_cons, List.nodup_cons] at hnodup
    rw [List.forall_mem_cons] at hnew
    refine ⟨fun o ho heq => hnew.1 o (ho.of_append fun w hw hid => hnodup.1 ?_) heq, ih hnodup.2 hnew.2⟩
    rw [← heq, ← hid]
    exact List.mem_map_of_mem hw

omit [DecidableEq ι] in
theorem Unshadowed.of_append (hs : Unshadowed (later ++ txs)) : Unshadowed txs := by
  induction later with
  | nil => exact hs
  | cons t later ih => exact ih hs.2

/-! ## Keeping track -/

/-- **The index keeps track of a ledger** in which names may come again: an
entry, where there is one, is that of the newest transaction of its name, and
a slot is filled exactly where a transaction since then spends the output. -/
def Tracks (idx : Index ι π) (txs : List (Tx ι π β)) : Prop :=
  ∀ h e, idx h = some e → ∃ t later, Newest txs h t later ∧ e.1 = t.pos ∧
    e.2.length = t.outs.length ∧
      ∀ n s, e.2[n]? = some s → (s.isSome ↔ ∃ u ∈ later, (h, n) ∈ u.ins)

/-- What the transaction spends was made by the newest of its name, and
nothing has spent it since; and it spends nothing twice. -/
structure Grounded (t : Tx ι π β) (txs : List (Tx ι π β)) : Prop where
  nodup : t.ins.Nodup
  made : ∀ o ∈ t.ins, Unspent txs o

omit [DecidableEq ι] in
theorem tracks_nil : Tracks (fun _ => none) ([] : List (Tx ι π β)) :=
  fun _ _ he => absurd he (by simp)

omit [DecidableEq ι] in
/-- What is free is unspent. -/
theorem Tracks.unspent (ht : Tracks idx txs) (hf : Free idx o) : Unspent txs o := by
  obtain ⟨e, he, hslot⟩ := hf
  obtain ⟨u, later, hnew, -, hlen, hiff⟩ := ht _ _ he
  obtain ⟨hlt, -⟩ := List.getElem?_eq_some_iff.1 hslot
  refine ⟨u, later, hnew, hlen ▸ hlt, fun w hw hmem => ?_⟩
  have hfilled := (hiff _ _ hslot).2 ⟨w, hw, hmem⟩
  exact absurd hfilled (by simp)

/-- **What was free was made and not spent.** -/
theorem Tracks.grounded (ht : Tracks idx txs) (hs : Spends t.pos idx t.ins idx') : Grounded t txs :=
  ⟨hs.nodup, fun o ho => ht.unspent (hs.free o ho)⟩

/-- **A transaction entered is kept track of**, whether or not its name is
new. -/
theorem Tracks.enter (ht : Tracks idx txs) (hs : Spends t.pos idx t.ins idx') :
    Tracks (Function.update idx' t.id (some (t.pos, List.replicate t.outs.length none))) (t :: txs) := by
  intro h e he
  rw [Function.update_apply] at he
  split_ifs at he with heq
  · subst heq
    obtain rfl := Option.some.inj he
    refine ⟨t, [], newest_cons_self, rfl, List.length_replicate, fun n s hn => ?_⟩
    obtain ⟨-, rfl⟩ := List.getElem?_eq_some_iff.1 hn
    simp
  · rw [hs.eq, mark, Option.map_eq_some_iff] at he
    obtain ⟨e₀, he₀, rfl⟩ := he
    obtain ⟨u, later, hnew, hpos, hlen, hiff⟩ := ht h e₀ he₀
    refine ⟨u, t :: later, (newest_cons_of_ne (Ne.symm heq)).2 hnew, hpos, ?_, fun n s hn => ?_⟩
    · rw [List.length_mapIdx, hlen]
    · rw [List.getElem?_mapIdx, Option.map_eq_some_iff] at hn
      obtain ⟨s₀, hs₀, rfl⟩ := hn
      rw [List.exists_mem_cons_iff, ← hiff n s₀ hs₀]
      split_ifs with hmem <;> simp [hmem]

/-- **A transaction undone is forgotten**, and so is what it has spent. -/
theorem Tracks.undo (ht : Tracks idx (t :: txs)) (hg : Grounded t txs) :
    Tracks (undo t idx) txs := by
  intro h e he
  rw [Ledger.undo, Function.update_apply] at he
  split_ifs at he with heq
  rw [mark, Option.map_eq_some_iff] at he
  obtain ⟨e₀, he₀, rfl⟩ := he
  obtain ⟨u, later, hnew, hpos, hlen, hiff⟩ := ht h e₀ he₀
  -- the entry is not that of the transaction itself
  obtain ⟨later, rfl, hbelow⟩ := hnew.of_cons (Ne.symm heq)
  replace hnew := hbelow
  refine ⟨u, later, hnew, hpos, ?_, fun n s hn => ?_⟩
  · rw [List.length_mapIdx, hlen]
  · rw [List.getElem?_mapIdx, Option.map_eq_some_iff] at hn
    obtain ⟨s₀, hs₀, rfl⟩ := hn
    split_ifs with hmem
    · -- nothing but the transaction has spent it
      obtain ⟨u', later', hnew', -, hnone⟩ := hg.made _ hmem
      obtain ⟨-, rfl⟩ := hnew.unique hnew'
      simpa using hnone
    · rw [hiff n s₀ hs₀, List.exists_mem_cons_iff]
      simp [hmem]

/-! ## Being complete -/

/-- Every unspent output's transaction has an entry. -/
def Complete (idx : Index ι π) (txs : List (Tx ι π β)) : Prop := ∀ o, Unspent txs o → idx o.1 ≠ none

/-- **Entering a transaction** leaves the index complete. -/
theorem Complete.enter (hc : Complete idx txs) (hs : Spends t.pos idx t.ins idx') :
    Complete (Function.update idx' t.id (some e)) (t :: txs) := by
  intro o ho
  rw [Function.update_apply]
  split_ifs with heq
  · simp
  · rw [hs.eq, Ne, mark_eq_none_iff]
    exact hc o (ho.of_cons (Ne.symm heq)).1

/-- **And so does undoing one**, if it shadows nothing and what it spends is
there. -/
theorem Complete.undo (hc : Complete idx (t :: txs)) (hnew : ∀ o, Unspent txs o → o.1 ≠ t.id)
    (hins : ∀ o ∈ t.ins, idx o.1 ≠ none) : Complete (undo t idx) txs := by
  intro o ho
  have hne := hnew o ho
  rw [Ledger.undo, Function.update_of_ne hne, Ne, mark_eq_none_iff]
  by_cases hmem : o ∈ t.ins
  · exact hins o hmem
  · exact hc o (ho.cons (Ne.symm hne) hmem)

omit [DecidableEq ι] in
/-- **What is free is exactly what is unspent.** -/
theorem free_iff (ht : Tracks idx txs) (hc : Complete idx txs) : Free idx o ↔ Unspent txs o := by
  refine ⟨ht.unspent, fun ho => ?_⟩
  obtain ⟨e, he⟩ := Option.ne_none_iff_exists'.1 (hc o ho)
  obtain ⟨u, later, hnew, hlt, hfree⟩ := ho
  obtain ⟨u', later', hnew', -, hlen, hiff⟩ := ht _ _ he
  obtain ⟨rfl, rfl⟩ := hnew.unique hnew'
  have hlt' : o.2 < e.2.length := by omega
  refine ⟨e, he, ?_⟩
  rcases hslot : e.2[o.2] with _ | p
  · exact List.getElem?_eq_some_iff.2 ⟨hlt', hslot⟩
  · obtain ⟨w, hw, hmem⟩ := (hiff _ _ (List.getElem?_eq_some_iff.2 ⟨hlt', hslot⟩)).1 rfl
    exact absurd hmem (hfree w hw)

end Ledger

end CryptoBullion
