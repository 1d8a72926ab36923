import CryptoBullion.Common.Classes
import CryptoBullion.Model.AddressGroupings
/-!
# Groupings are a partition

The sets that `GetAddressGroupings` merges are at every moment the classes
of what was merged so far, and no pointer it follows is to a set that was
deleted. So it is a matter of what it collects: the inputs of a transaction
of which the first is ours are all looked up in the wallet. Where one is
not there, or no address comes out, what is returned is no partition, or
nothing is.
-/

namespace CryptoBullion

namespace Accounting

open Classes

/-! ## Sets -/

section Sets

variable {α : Type} [Ord α] [Std.TransOrd α] [Std.LawfulEqOrd α] {s : StdSet α} {a b : α}

theorem mem_insert_iff : a ∈ s.insert b ↔ a = b ∨ a ∈ s := by
  rw [Std.ExtTreeSet.mem_insert, Std.compare_eq_iff_eq, eq_comm]

theorem mem_erase_iff : a ∈ s.erase b ↔ a ≠ b ∧ a ∈ s := by
  rw [Std.ExtTreeSet.mem_erase, ne_eq, Std.compare_eq_iff_eq, eq_comm]

theorem nodup_toList : s.toList.Nodup := by
  refine Std.ExtTreeSet.distinct_toList.imp fun h heq => h ?_
  rw [heq, Std.compare_eq_iff_eq]

end Sets

/-- The addresses of a set. -/
def elems (s : AddressSet) : Set CTxDestination := {a | a ∈ s}

theorem elems_injective : Function.Injective elems := fun s t h =>
  Std.ExtTreeSet.ext_mem fun a => Set.ext_iff.1 h a

/-! ## Merging -/

namespace Merging

variable {m : Merging} {grouping : AddressSet} {a : CTxDestination} {p : ℕ} {l : List ℕ}
variable {G : Set (Set CTxDestination)}

/-- The sets that are kept. -/
def family (m : Merging) : Set (Set CTxDestination) :=
  {C | ∃ (p : ℕ) (s : AddressSet), m.heap[p]? = some s ∧ C = elems s}

/-- The pointers are to what is there: the unique groupings are what is
allocated, and an address is mapped to the set that has it. -/
structure Sound (m : Merging) : Prop where
  unique_iff : ∀ p : ℕ, p ∈ m.uniqueGroupings ↔ p ∈ m.heap
  fresh : ∀ p ∈ m.heap, p < m.nNext
  setmap_iff : ∀ (a : CTxDestination) (p : ℕ),
    m.setmap[a]? = some p ↔ ∃ s : AddressSet, m.heap[p]? = some s ∧ a ∈ s

theorem sound_empty : empty.Sound where
  unique_iff p := iff_of_false Std.ExtTreeSet.not_mem_empty Std.ExtTreeMap.not_mem_empty
  fresh p hp := absurd hp Std.ExtTreeMap.not_mem_empty
  setmap_iff a p := by
    rw [show empty.setmap[a]? = none from Std.ExtTreeMap.getElem?_empty]
    refine iff_of_false (by simp) ?_
    rintro ⟨s, hs, -⟩
    rw [show empty.heap[p]? = none from Std.ExtTreeMap.getElem?_empty] at hs
    exact absurd hs (by simp)

theorem family_empty : empty.family = ∅ := by
  refine Set.eq_empty_of_forall_notMem ?_
  rintro C ⟨p, s, hs, -⟩
  rw [show empty.heap[p]? = none from Std.ExtTreeMap.getElem?_empty] at hs
  exact absurd hs (by simp)

/-- **The sets that are hit** are those an address is mapped to. -/
theorem mem_hits : p ∈ m.hits grouping ↔ ∃ a ∈ grouping, m.setmap[a]? = some p := by
  have hfold : ∀ (l : List CTxDestination) (hits : StdSet ℕ),
      p ∈ l.foldl m.addHit hits ↔ p ∈ hits ∨ ∃ a ∈ l, m.setmap[a]? = some p := by
    intro l
    induction l with
    | nil => simp
    | cons a l ih =>
      intro hits
      rw [List.foldl_cons, ih, List.exists_mem_cons_iff]
      unfold addHit
      rcases m.setmap[a]? with _ | q
      · simp
      · simp only [mem_insert_iff, Option.some.injEq]
        rw [eq_comm (a := q), or_assoc, or_left_comm]
  unfold hits
  rw [hfold]
  simp only [Std.ExtTreeSet.mem_toList, Std.ExtTreeSet.not_mem_empty, false_or]

/-- **Merging what is hit**, where all of it is there: the sets come in,
and are gone. -/
theorem foldlM_mergeHit (grouping : AddressSet) (hlive : ∀ p ∈ l, p ∈ m.heap) (hnodup : l.Nodup) :
    ∃ group m', l.foldlM mergeHit (grouping, m) = .ok (group, m') ∧
      (∀ a, a ∈ group ↔ a ∈ grouping ∨ ∃ p ∈ l, ∃ s : AddressSet, m.heap[p]? = some s ∧ a ∈ s) ∧
      (∀ p : ℕ, m'.heap[p]? = if p ∈ l then none else m.heap[p]?) ∧
      (∀ p : ℕ, p ∈ m'.uniqueGroupings ↔ p ∈ m.uniqueGroupings ∧ p ∉ l) ∧
      m'.setmap = m.setmap ∧ m'.nNext = m.nNext := by
  induction l generalizing grouping m with
  | nil => exact ⟨grouping, m, rfl, by simp, by simp, by simp, rfl, rfl⟩
  | cons hit l ih =>
    obtain ⟨s, hs⟩ := Std.ExtTreeMap.mem_iff_isSome_getElem?.1 (hlive hit List.mem_cons_self)
      |> Option.isSome_iff_exists.1
    obtain ⟨hnot, hnodup⟩ := List.nodup_cons.1 hnodup
    have hstep : mergeHit (grouping, m) hit = .ok (grouping ∪ s, { m with
        heap := m.heap.erase hit
        uniqueGroupings := m.uniqueGroupings.erase hit }) := by
      unfold mergeHit
      dsimp only
      rw [hs]
    have hlook : ∀ p : ℕ, (m.heap.erase hit)[p]? = if p = hit then none else m.heap[p]? := by
      intro p
      simp only [Std.ExtTreeMap.getElem?_erase, Std.compare_eq_iff_eq, eq_comm (a := hit)]
    obtain ⟨group, m', hrun, hgroup, hheap, hunique, hsetmap, hnext⟩ := ih
      (grouping ∪ s) (m := { m with heap := m.heap.erase hit, uniqueGroupings := m.uniqueGroupings.erase hit })
      (fun p hp => by
        rw [Std.ExtTreeMap.mem_iff_isSome_getElem?, hlook,
          if_neg (ne_of_mem_of_not_mem hp hnot), ← Std.ExtTreeMap.mem_iff_isSome_getElem?]
        exact hlive p (List.mem_cons_of_mem _ hp)) hnodup
    refine ⟨group, m', ?_, fun a => ?_, fun p => ?_, fun p => ?_, hsetmap, hnext⟩
    · rw [List.foldlM_cons, hstep]
      exact hrun
    · rw [hgroup, Std.ExtTreeSet.mem_union_iff, List.exists_mem_cons_iff, hs, or_assoc]
      have hrest : (∃ p ∈ l, ∃ t, (m.heap.erase hit)[p]? = some t ∧ a ∈ t) ↔
          ∃ p ∈ l, ∃ t, m.heap[p]? = some t ∧ a ∈ t := by
        refine exists_congr fun p => and_congr_right fun hp => ?_
        rw [hlook, if_neg (ne_of_mem_of_not_mem hp hnot)]
      rw [hrest]
      simp
    · rw [hheap]
      dsimp only
      rw [hlook]
      by_cases hp : p = hit
      · simp [hp]
      · simp [hp]
    · rw [hunique]
      dsimp only
      rw [mem_erase_iff, List.mem_cons, not_or]
      tauto

/-- All addresses of the new set are mapped to it. -/
theorem getElem?_foldl_insert {l : List CTxDestination} {setmap : Map CTxDestination ℕ} :
    (l.foldl (fun setmap element => setmap.insert element p) setmap)[a]? =
      if a ∈ l then some p else setmap[a]? := by
  induction l generalizing setmap with
  | nil => simp
  | cons b l ih =>
    rw [List.foldl_cons, ih]
    simp only [Std.ExtTreeMap.getElem?_insert, Std.compare_eq_iff_eq]
    by_cases hl : a ∈ l
    · simp [hl]
    · simp [hl, eq_comm]

/-- **One more group**: the sets kept absorb it, and the pointers are
sound. -/
theorem mergeGrouping_spec (grouping : AddressSet) (h : m.Sound) :
    ∃ m', m.mergeGrouping grouping = .ok m' ∧ m'.Sound ∧
      m'.family = absorb (elems grouping) m.family := by
  obtain ⟨group, m₁, hrun, hgroup, hheap, hunique, hsetmap, hnext⟩ :=
    foldlM_mergeHit (m := m) (l := (m.hits grouping).toList) grouping
      (fun p hp => by
        rw [Std.ExtTreeSet.mem_toList, mem_hits] at hp
        obtain ⟨a, -, hmap⟩ := hp
        obtain ⟨s, hs, -⟩ := (h.setmap_iff a p).1 hmap
        exact Std.ExtTreeMap.mem_iff_isSome_getElem?.2 (by rw [hs]; rfl)) nodup_toList
  -- a set is hit where it meets the new group
  have hhit : ∀ (p : ℕ) (s : AddressSet), m.heap[p]? = some s →
      (p ∈ (m.hits grouping).toList ↔ (elems s ∩ elems grouping).Nonempty) := by
    intro p s hs
    rw [Std.ExtTreeSet.mem_toList, mem_hits]
    constructor
    · rintro ⟨a, ha, hmap⟩
      obtain ⟨t, ht, hat⟩ := (h.setmap_iff a p).1 hmap
      obtain rfl := Option.some.inj (hs.symm.trans ht)
      exact ⟨a, hat, ha⟩
    · rintro ⟨a, has, hag⟩
      exact ⟨a, hag, (h.setmap_iff a p).2 ⟨s, hs, has⟩⟩
  have hfresh : m.heap[m.nNext]? = none := by
    rw [← Option.not_isSome_iff_eq_none, ← Std.ExtTreeMap.mem_iff_isSome_getElem?]
    exact fun hmem => lt_irrefl _ (h.fresh _ hmem)
  have hlook : ∀ p : ℕ, (m₁.heap.insert m.nNext group)[p]? =
      if p = m.nNext then some group
      else if p ∈ (m.hits grouping).toList then none else m.heap[p]? := by
    intro p
    simp only [Std.ExtTreeMap.getElem?_insert, Std.compare_eq_iff_eq, hheap,
      eq_comm (a := m.nNext)]
  have helems : elems group =
      elems grouping ∪ ⋃₀ {C ∈ m.family | (C ∩ elems grouping).Nonempty} := by
    ext a
    change a ∈ group ↔ a ∈ grouping ∨ _
    rw [hgroup]
    refine or_congr Iff.rfl ⟨?_, ?_⟩
    · rintro ⟨p, hp, s, hs, ha⟩
      exact ⟨elems s, ⟨⟨p, s, hs, rfl⟩, (hhit p s hs).1 hp⟩, ha⟩
    · rintro ⟨C, ⟨⟨p, s, hs, rfl⟩, hmeet⟩, ha⟩
      exact ⟨p, (hhit p s hs).2 hmeet, s, hs, ha⟩
  refine ⟨_, by unfold mergeGrouping; rw [hrun]; rfl, ⟨fun p => ?_, fun p hp => ?_, fun a p => ?_⟩, ?_⟩
  · dsimp only
    rw [mem_insert_iff, hunique, h.unique_iff, Std.ExtTreeMap.mem_iff_isSome_getElem?,
      Std.ExtTreeMap.mem_iff_isSome_getElem?, hlook]
    by_cases hp : p = m.nNext
    · simp [hp]
    · by_cases hin : p ∈ (m.hits grouping).toList <;> simp [hp, hin]
  · dsimp only at hp ⊢
    rw [Std.ExtTreeMap.mem_iff_isSome_getElem?, hlook] at hp
    split_ifs at hp with hnew hin
    · omega
    · simp at hp
    · exact (h.fresh p (Std.ExtTreeMap.mem_iff_isSome_getElem?.2 hp)).trans (Nat.lt_succ_self _)
  · dsimp only
    rw [getElem?_foldl_insert, hsetmap]
    simp only [hlook]
    by_cases ha : a ∈ group
    · -- a set that has the address is the new one
      rw [if_pos (Std.ExtTreeSet.mem_toList.2 ha)]
      constructor
      · intro heq
        obtain rfl := Option.some.inj heq
        exact ⟨group, if_pos rfl, ha⟩
      · rintro ⟨s, hs, has⟩
        by_contra hne
        rw [if_neg fun heq => hne (congrArg some heq.symm)] at hs
        split_ifs at hs with hin
        refine hin ?_
        rcases (hgroup a).1 ha with hag | ⟨q, hq, t, ht, hat⟩
        · exact (hhit p s hs).2 ⟨a, has, hag⟩
        · have hp := (h.setmap_iff a p).2 ⟨s, hs, has⟩
          rw [(h.setmap_iff a q).2 ⟨t, ht, hat⟩] at hp
          rwa [← Option.some.inj hp]
    · rw [if_neg (Std.ExtTreeSet.mem_toList.not.2 ha), h.setmap_iff]
      refine exists_congr fun s => and_congr_left fun has => ?_
      by_cases hnew : p = m.nNext
      · subst hnew
        rw [hfresh, if_pos rfl]
        refine iff_of_false (by simp) fun heq => ha ?_
        rwa [Option.some.inj heq]
      · rw [if_neg hnew]
        by_cases hin : p ∈ (m.hits grouping).toList
        · rw [if_pos hin]
          exact iff_of_false (fun hs => ha ((hgroup a).2 (.inr ⟨p, hin, s, hs, has⟩))) (by simp)
        · rw [if_neg hin]
  · ext C
    unfold absorb
    rw [← helems, Set.mem_insert_iff, Set.mem_setOf_eq]
    constructor
    · rintro ⟨p, s, hs, rfl⟩
      dsimp only at hs
      rw [hlook] at hs
      split_ifs at hs with hnew hin
      · exact .inl (by rw [Option.some.inj hs])
      · exact .inr ⟨⟨p, s, hs, rfl⟩, fun hmeet => hin ((hhit p s hs).2 hmeet)⟩
    · rintro (rfl | ⟨⟨p, s, hs, rfl⟩, hmeet⟩)
      · exact ⟨m.nNext, group, by dsimp only; rw [hlook, if_pos rfl], rfl⟩
      · refine ⟨p, s, ?_, rfl⟩
        dsimp only
        rw [hlook, if_neg, if_neg, hs]
        · exact fun hin => hmeet ((hhit p s hs).1 hin)
        · rintro rfl
          rw [hfresh] at hs
          exact absurd hs (by simp)

/-- **All groups**, one after the other. -/
theorem foldlM_mergeGrouping (h : m.Sound) (hkeeps : Keeps m.family G) (l : List AddressSet) :
    ∃ m', l.foldlM mergeGrouping m = .ok m' ∧ m'.Sound ∧
      Keeps m'.family (G ∪ {C | ∃ s ∈ l, C = elems s}) := by
  induction l generalizing m G with
  | nil => exact ⟨m, rfl, h, by simpa using hkeeps⟩
  | cons s l ih =>
    obtain ⟨m₁, hrun₁, hsound₁, hfamily⟩ := mergeGrouping_spec s h
    have hkeeps₁ : Keeps m₁.family (insert (elems s) G) := by
      rw [hfamily]
      exact hkeeps.absorb
    obtain ⟨m', hrun, hsound, hall⟩ := ih hsound₁ hkeeps₁
    refine ⟨m', by rw [List.foldlM_cons, hrun₁]; exact hrun, hsound, ?_⟩
    have hset : insert (elems s) G ∪ {C | ∃ t ∈ l, C = elems t} =
        G ∪ {C | ∃ t ∈ s :: l, C = elems t} := by
      ext C
      simp only [Set.mem_union, Set.mem_insert_iff, Set.mem_setOf_eq, List.exists_mem_cons_iff]
      tauto
    rwa [← hset]

/-- **What is returned** are the sets, each of which is there when its turn
comes. -/
theorem foldlM_release (ret : Groupings) (hlive : ∀ p ∈ l, p ∈ m.heap) (hnodup : l.Nodup) :
    ∃ s, l.foldlM release (ret, m) = .ok s ∧
      ∀ g : AddressSet, g ∈ s.1 ↔ g ∈ ret ∨ ∃ p ∈ l, m.heap[p]? = some g := by
  induction l generalizing ret m with
  | nil => exact ⟨(ret, m), rfl, by simp⟩
  | cons p l ih =>
    obtain ⟨s, hs⟩ := Std.ExtTreeMap.mem_iff_isSome_getElem?.1 (hlive p List.mem_cons_self)
      |> Option.isSome_iff_exists.1
    obtain ⟨hnot, hnodup⟩ := List.nodup_cons.1 hnodup
    have hlook : ∀ q ∈ l, (m.heap.erase p)[q]? = m.heap[q]? := by
      intro q hq
      rw [Std.ExtTreeMap.getElem?_erase, if_neg]
      rw [Std.compare_eq_iff_eq]
      rintro rfl
      exact hnot hq
    obtain ⟨r, hrun, hmem⟩ := ih (ret.insert s) (m := { m with heap := m.heap.erase p })
      (fun q hq => by
        rw [Std.ExtTreeMap.mem_iff_isSome_getElem?, hlook q hq,
          ← Std.ExtTreeMap.mem_iff_isSome_getElem?]
        exact hlive q (List.mem_cons_of_mem _ hq)) hnodup
    refine ⟨r, ?_, fun g => ?_⟩
    · rw [List.foldlM_cons]
      unfold release
      dsimp only
      rw [hs]
      exact hrun
    · rw [hmem, mem_insert_iff, List.exists_mem_cons_iff, hs]
      have hrest : (∃ q ∈ l, (m.heap.erase p)[q]? = some g) ↔ ∃ q ∈ l, m.heap[q]? = some g :=
        exists_congr fun q => and_congr_right fun hq => by rw [hlook q hq]
      rw [hrest, Option.some.injEq, eq_comm (a := g), or_comm (a := s = g), or_assoc]

end Merging

/-! ## What goes together -/

namespace CWallet

variable [P : Platform]

variable {w : CWallet} {wtx : CWalletTx} {tx : CTransaction} {a b : CTxDestination} {nTime : ℕ}
variable {grouping : AddressSet} {groupings : Groupings} {hash : Uint256}

/-- The output an outpoint names, where the wallet has it. -/
def outputAt (w : CWallet) (prevout : COutPoint) : Option CTxOut :=
  (w.mapWallet[prevout.hash]?).bind fun prev => prev.tx.vout[prevout.n]?

/-- The first input is ours. -/
def FirstIsMine (w : CWallet) (tx : CTransaction) : Prop :=
  ∃ txin, tx.vin.head? = some txin ∧ w.isMineIn txin = true

/-- All inputs are outputs of wallet transactions. -/
def InputsKnown (w : CWallet) (tx : CTransaction) : Prop :=
  ∀ txin ∈ tx.vin, (w.outputAt txin.prevout).isSome

/-- The address of an input that spends a wallet transaction, or of change. -/
def Joins (w : CWallet) (tx : CTransaction) (a : CTxDestination) : Prop :=
  (∃ txin ∈ tx.vin, ∃ txout, w.outputAt txin.prevout = some txout ∧
    extractDestination txout.scriptPubKey = some a) ∨
  ∃ txout ∈ tx.vout, w.isChange txout = true ∧ extractDestination txout.scriptPubKey = some a

/-- **What is put together**: the addresses that one transaction joins of
which the first input is ours. -/
def Together (w : CWallet) (a b : CTxDestination) : Prop :=
  ∃ wtx ∈ w.txs, w.FirstIsMine wtx.tx ∧ w.Joins wtx.tx a ∧ w.Joins wtx.tx b

/-- An address of ours that received a payment. -/
def Received (w : CWallet) (a : CTxDestination) : Prop :=
  ∃ wtx ∈ w.txs, ∃ txout ∈ wtx.tx.vout, w.isMine txout = true ∧
    extractDestination txout.scriptPubKey = some a

/-- The addresses the groupings are of. -/
def Grouped (w : CWallet) (a : CTxDestination) : Prop :=
  w.Received a ∨ ∃ wtx ∈ w.txs, w.FirstIsMine wtx.tx ∧ w.Joins wtx.tx a

/-- **The partition**: the sets are the classes, and each address that
received a payment is in exactly one. -/
structure IsPartition (w : CWallet) (ret : Groupings) : Prop where
  classes : ∀ C, (∃ g ∈ ret, elems g = C) ↔
    ∃ a, w.Grouped a ∧ C = {b | Relation.EqvGen w.Together a b}
  received : ∀ a, w.Received a → ∃! g, g ∈ ret ∧ a ∈ g

/-- Each transaction of which the first input is ours spends only outputs
of wallet transactions, and an address comes out of it. -/
def Groupable (w : CWallet) : Prop :=
  ∀ wtx ∈ w.txs, w.FirstIsMine wtx.tx → w.InputsKnown wtx.tx ∧ ∃ a, w.Joins wtx.tx a

/-! ## Collecting -/

theorem mem_insertAddress {txout : CTxOut} : a ∈ insertAddress grouping txout ↔
    a ∈ grouping ∨ extractDestination txout.scriptPubKey = some a := by
  unfold insertAddress
  rcases extractDestination txout.scriptPubKey with _ | address
  · simp
  · rw [mem_insert_iff, Option.some.injEq, eq_comm, or_comm]

theorem subscript_of_some (h : w.mapWallet[hash]? = some wtx) :
    subscript nTime hash w = (.ok wtx, w) := by
  unfold subscript
  rw [Step.get_bind, h]
  rfl

/-- **Inputs that are all known** are looked up, and nothing else happens. -/
theorem groupInputs_of_known (nTime : ℕ) : ∀ {vin : List CTxIn} (grouping : AddressSet),
    (∀ txin ∈ vin, (w.outputAt txin.prevout).isSome) →
    ∃ g, groupInputs nTime grouping vin w = (.ok g, w) ∧ ∀ a, a ∈ g ↔ a ∈ grouping ∨
      ∃ txin ∈ vin, ∃ txout, w.outputAt txin.prevout = some txout ∧
        extractDestination txout.scriptPubKey = some a
  | [], grouping, _ => ⟨grouping, rfl, by simp⟩
  | txin :: rest, grouping, h => by
    obtain ⟨txout, hout⟩ := Option.isSome_iff_exists.1 (h txin List.mem_cons_self)
    obtain ⟨prev, hprev, hn⟩ := Option.bind_eq_some_iff.1 hout
    obtain ⟨g, hrun, hg⟩ := groupInputs_of_known nTime (insertAddress grouping txout)
      fun txin htxin => h txin (List.mem_cons_of_mem _ htxin)
    refine ⟨g, ?_, fun a => ?_⟩
    · unfold groupInputs
      rw [Step.bind_of_ok (subscript_of_some hprev), hn]
      exact hrun
    · rw [hg, mem_insertAddress, List.exists_mem_cons_iff, hout, or_assoc]
      simp

/-- **An input that is not known** is the end of it. -/
theorem groupInputs_of_unknown (nTime : ℕ) : ∀ {vin : List CTxIn} (grouping : AddressSet),
    (¬ ∀ txin ∈ vin, (w.outputAt txin.prevout).isSome) →
    ∃ f, (groupInputs nTime grouping vin w).1 = .error f
  | [], _, h => absurd (fun _ hin => absurd hin List.not_mem_nil) h
  | txin :: rest, grouping, h => by
    unfold groupInputs
    rcases hprev : w.mapWallet[txin.prevout.hash]? with _ | prev
    · -- the entry that is made has no outputs
      refine ⟨.crash "vout out of range", ?_⟩
      unfold subscript
      rw [Step.bind_of_ok (by rw [Step.get_bind, hprev]; rfl)]
      rfl
    · rw [Step.bind_of_ok (subscript_of_some hprev)]
      rcases hn : prev.tx.vout[txin.prevout.n]? with _ | txout
      · exact ⟨_, rfl⟩
      · refine groupInputs_of_unknown nTime _ fun hall => h fun txin' hin => ?_
        rcases List.mem_cons.1 hin with rfl | hin
        · unfold outputAt
          rw [hprev, Option.bind_some, hn]
          rfl
        · exact hall txin' hin

theorem groupChange_eq (nTime : ℕ) (h : w.mapWallet[hash]? = some wtx) :
    ∀ (vout : List CTxOut) (grouping : AddressSet),
    ∃ g, groupChange nTime hash grouping vout w = (.ok g, w) ∧ ∀ a, a ∈ g ↔ a ∈ grouping ∨
      ∃ txout ∈ vout, w.isChange txout = true ∧ extractDestination txout.scriptPubKey = some a
  | [], grouping => ⟨grouping, rfl, by simp⟩
  | txout :: rest, grouping => by
    unfold groupChange
    rw [Step.get_bind]
    by_cases hchange : w.isChange txout = true
    · obtain ⟨g, hrun, hg⟩ := groupChange_eq nTime h rest
        (insertAddress grouping txout)
      refine ⟨g, ?_, fun a => ?_⟩
      · rw [if_pos hchange, Step.bind_of_ok (subscript_of_some h)]
        exact hrun
      · rw [hg, mem_insertAddress, List.exists_mem_cons_iff, or_assoc]
        simp only [hchange, true_and]
    · obtain ⟨g, hrun, hg⟩ := groupChange_eq nTime h rest grouping
      refine ⟨g, ?_, fun a => ?_⟩
      · rw [if_neg hchange]
        exact hrun
      · rw [hg, List.exists_mem_cons_iff]
        simp only [hchange, Bool.false_eq_true, false_and, false_or]

/-- An input of ours spends an output of the wallet. -/
theorem outputAt_of_isMineIn {txin : CTxIn} (h : w.isMineIn txin = true) :
    ∃ prev, w.mapWallet[txin.prevout.hash]? = some prev := by
  unfold isMineIn at h
  rcases hprev : w.mapWallet[txin.prevout.hash]? with _ | prev
  · simp [hprev] at h
  · exact ⟨prev, rfl⟩

/-- **A transaction of which the first input is ours**, and all are known,
gives its group. -/
theorem groupInputsAndChange_of_known (nTime : ℕ) (groupings : Groupings)
    (h : w.FirstIsMine wtx.tx) (hknown : w.InputsKnown wtx.tx) :
    ∃ g, groupInputsAndChange nTime wtx groupings w = (.ok (groupings.insert g), w) ∧
      elems g = {a | w.Joins wtx.tx a} := by
  obtain ⟨txin, hhead, hmine⟩ := h
  obtain ⟨prev, hprev⟩ := outputAt_of_isMineIn hmine
  obtain ⟨rest, hvin⟩ := List.head?_eq_some_iff.1 hhead
  obtain ⟨g, hrun, hg⟩ := groupInputs_of_known nTime ∅ hknown
  obtain ⟨g', hrun', hg'⟩ := groupChange_eq nTime hprev wtx.tx.vout g
  refine ⟨g', ?_, Set.ext fun a => ?_⟩
  · rw [hvin] at hrun
    unfold groupInputsAndChange
    rw [Step.get_bind, hvin]
    dsimp only
    rw [if_pos hmine, Step.bind_of_ok hrun, Step.bind_of_ok hrun']
    rfl
  · change a ∈ g' ↔ w.Joins wtx.tx a
    rw [hg', hg]
    unfold Joins
    simp only [Std.ExtTreeSet.not_mem_empty, false_or]

theorem groupInputsAndChange_of_unknown (nTime : ℕ) (groupings : Groupings)
    (h : w.FirstIsMine wtx.tx)
    (hunknown : ¬ w.InputsKnown wtx.tx) :
    ∃ f, (groupInputsAndChange nTime wtx groupings w).1 = .error f := by
  obtain ⟨txin, hhead, hmine⟩ := h
  obtain ⟨rest, hvin⟩ := List.head?_eq_some_iff.1 hhead
  obtain ⟨f, hf⟩ := groupInputs_of_unknown nTime ∅ hunknown
  refine ⟨f, ?_⟩
  rw [hvin] at hf
  unfold groupInputsAndChange
  rw [Step.get_bind, hvin]
  dsimp only
  rw [if_pos hmine, Step.bind_of_error (Step.eq_of_fst_eq hf)]

theorem groupInputsAndChange_of_not_mine (h : ¬ w.FirstIsMine wtx.tx) :
    groupInputsAndChange nTime wtx groupings w = (.ok groupings, w) := by
  unfold groupInputsAndChange
  rw [Step.get_bind]
  rcases hvin : wtx.tx.vin with _ | ⟨txin, rest⟩
  · rfl
  · dsimp only
    rw [if_neg fun hmine => h ⟨txin, by rw [hvin]; rfl, hmine⟩]
    rfl

/-- **Lone addresses** are groups by themselves. -/
theorem mem_foldl_groupLone {vout : List CTxOut} {C : Set CTxDestination} :
    (∃ g ∈ vout.foldl w.groupLone groupings, elems g = C) ↔ (∃ g ∈ groupings, elems g = C) ∨
      ∃ txout ∈ vout, w.isMine txout = true ∧
        ∃ a, extractDestination txout.scriptPubKey = some a ∧ C = {a} := by
  induction vout generalizing groupings with
  | nil => simp
  | cons txout rest ih =>
    rw [List.foldl_cons, ih, List.exists_mem_cons_iff, ← or_assoc]
    refine or_congr ?_ Iff.rfl
    unfold groupLone
    by_cases hmine : w.isMine txout = true
    · rw [if_pos hmine]
      rcases extractDestination txout.scriptPubKey with _ | address
      · simp
      · have hlone : elems ((∅ : AddressSet).insert address) = {address} := by
          ext a
          change a ∈ (∅ : AddressSet).insert address ↔ a = address
          rw [mem_insert_iff, or_iff_left Std.ExtTreeSet.not_mem_empty]
        simp only [mem_insert_iff, or_and_right, exists_or, exists_eq_left, hlone, hmine, true_and,
          Option.some.injEq, exists_eq_left', eq_comm (a := C)]
        exact or_comm
    · rw [if_neg hmine]
      simp [hmine]

/-- The groups that some transactions give. -/
def GroupOf (w : CWallet) (l : List CWalletTx) (C : Set CTxDestination) : Prop :=
  (∃ wtx ∈ l, w.FirstIsMine wtx.tx ∧ C = {a | w.Joins wtx.tx a}) ∨
  ∃ wtx ∈ l, ∃ txout ∈ wtx.tx.vout, w.isMine txout = true ∧
    ∃ a, extractDestination txout.scriptPubKey = some a ∧ C = {a}

theorem groupOf_cons {l : List CWalletTx} {C : Set CTxDestination} : w.GroupOf (wtx :: l) C ↔
    (w.FirstIsMine wtx.tx ∧ C = {a | w.Joins wtx.tx a}) ∨
      (∃ txout ∈ wtx.tx.vout, w.isMine txout = true ∧
        ∃ a, extractDestination txout.scriptPubKey = some a ∧ C = {a}) ∨ w.GroupOf l C := by
  unfold GroupOf
  rw [List.exists_mem_cons_iff, List.exists_mem_cons_iff]
  exact or_or_or_comm.trans or_assoc

/-- **All transactions**, where no input is unknown. -/
theorem groupTxs_of_known (nTime : ℕ) : ∀ {l : List CWalletTx} (groupings : Groupings),
    (∀ wtx ∈ l, w.FirstIsMine wtx.tx → w.InputsKnown wtx.tx) →
    ∃ gs, groupTxs nTime groupings l w = (.ok gs, w) ∧
      ∀ C, (∃ g ∈ gs, elems g = C) ↔ (∃ g ∈ groupings, elems g = C) ∨ w.GroupOf l C
  | [], groupings, _ => ⟨groupings, rfl, by simp [GroupOf]⟩
  | wtx :: rest, groupings, h => by
    have hstep : ∃ gs, groupInputsAndChange nTime wtx groupings w = (.ok gs, w) ∧
        ∀ C, (∃ g ∈ gs, elems g = C) ↔ (∃ g ∈ groupings, elems g = C) ∨
          (w.FirstIsMine wtx.tx ∧ C = {a | w.Joins wtx.tx a}) := by
      by_cases hmine : w.FirstIsMine wtx.tx
      · obtain ⟨g, hrun, hg⟩ := groupInputsAndChange_of_known nTime groupings hmine
          (h wtx List.mem_cons_self hmine)
        refine ⟨_, hrun, fun C => ?_⟩
        simp only [mem_insert_iff, or_and_right, exists_or, exists_eq_left, hg, hmine, true_and,
          eq_comm (a := C)]
        exact or_comm
      · exact ⟨groupings, groupInputsAndChange_of_not_mine hmine, fun C => by simp [hmine]⟩
    obtain ⟨gs₁, hrun₁, hgs₁⟩ := hstep
    obtain ⟨gs, hrun, hgs⟩ := groupTxs_of_known nTime
      (wtx.tx.vout.foldl w.groupLone gs₁)
      fun wtx hwtx => h wtx (List.mem_cons_of_mem _ hwtx)
    refine ⟨gs, ?_, fun C => ?_⟩
    · unfold groupTxs
      rw [Step.bind_of_ok hrun₁, Step.get_bind]
      exact hrun
    · rw [hgs, mem_foldl_groupLone, hgs₁, groupOf_cons, or_assoc, or_assoc]

theorem groupTxs_of_unknown (nTime : ℕ) : ∀ {l : List CWalletTx} (groupings : Groupings),
    (¬ ∀ wtx ∈ l, w.FirstIsMine wtx.tx → w.InputsKnown wtx.tx) →
    ∃ f, (groupTxs nTime groupings l w).1 = .error f
  | [], _, h => absurd (fun _ hin => absurd hin List.not_mem_nil) h
  | wtx :: rest, groupings, h => by
    unfold groupTxs
    by_cases hmine : w.FirstIsMine wtx.tx
    · by_cases hknown : w.InputsKnown wtx.tx
      · obtain ⟨g, hrun, -⟩ := groupInputsAndChange_of_known nTime groupings hmine
          hknown
        rw [Step.bind_of_ok hrun, Step.get_bind]
        refine groupTxs_of_unknown nTime _ fun hall => h fun wtx' hin hmine' => ?_
        rcases List.mem_cons.1 hin with rfl | hin
        · exact hknown
        · exact hall wtx' hin hmine'
      · obtain ⟨f, hf⟩ := groupInputsAndChange_of_unknown nTime groupings hmine
          hknown
        rw [Step.bind_of_error (Step.eq_of_fst_eq hf)]
        exact ⟨f, rfl⟩
    · rw [Step.bind_of_ok (groupInputsAndChange_of_not_mine hmine), Step.get_bind]
      refine groupTxs_of_unknown nTime _ fun hall => h fun wtx' hin hmine' => ?_
      rcases List.mem_cons.1 hin with rfl | hin
      · exact absurd hmine' hmine
      · exact hall wtx' hin hmine'

/-! ## The partition -/

/-- **What is returned** where no input is unknown: the sets that keep the
classes of the groups. -/
theorem getAddressGroupings_of_known (nTime : ℕ)
    (h : ∀ wtx ∈ w.txs, w.FirstIsMine wtx.tx → w.InputsKnown wtx.tx) :
    ∃ ret, getAddressGroupings nTime w = (.ok ret, w) ∧
      Keeps {C | ∃ g ∈ ret, elems g = C} {C | w.GroupOf w.txs C} := by
  obtain ⟨gs, hrun, hgs⟩ := groupTxs_of_known nTime ∅ h
  obtain ⟨m, hmerge, hsound, hkeeps⟩ := Merging.foldlM_mergeGrouping (G := ∅) Merging.sound_empty
    (by rw [Merging.family_empty]; exact Keeps.nil) gs.toList
  obtain ⟨s, hrelease, hs⟩ := Merging.foldlM_release (m := m)
    (l := m.uniqueGroupings.toList) ∅
    (fun p hp => (hsound.unique_iff p).1 (Std.ExtTreeSet.mem_toList.1 hp)) nodup_toList
  refine ⟨s.1, ?_, ?_⟩
  · unfold getAddressGroupings
    rw [Step.get_bind, Step.bind_of_ok hrun, hmerge, Step.lift_ok_bind, hrelease,
      Step.lift_ok_bind]
    rfl
  · have hfamily : m.family = {C | ∃ g ∈ s.1, elems g = C} := by
      ext C
      constructor
      · rintro ⟨p, g, hp, rfl⟩
        refine ⟨g, (hs g).2 (.inr ⟨p, ?_, hp⟩), rfl⟩
        rw [Std.ExtTreeSet.mem_toList, hsound.unique_iff,
          Std.ExtTreeMap.mem_iff_isSome_getElem?, hp]
        rfl
      · rintro ⟨g, hg, rfl⟩
        rcases (hs g).1 hg with hempty | ⟨p, -, hp⟩
        · exact absurd hempty Std.ExtTreeSet.not_mem_empty
        · exact ⟨p, g, hp, rfl⟩
    have hgroups : (∅ : Set (Set CTxDestination)) ∪ {C | ∃ s ∈ gs.toList, C = elems s} =
        {C | w.GroupOf w.txs C} := by
      ext C
      have := hgs C
      simp only [Std.ExtTreeSet.not_mem_empty, false_and, exists_false, false_or] at this
      rw [Set.mem_setOf_eq, ← this]
      simp only [Set.empty_union, Set.mem_setOf_eq, Std.ExtTreeSet.mem_toList, eq_comm]
    rwa [← hfamily, ← hgroups]

/-- The groups link what is put together: a lone address links nothing. -/
theorem eqvGen_linked_iff : Relation.EqvGen (Linked {C | w.GroupOf w.txs C}) a b ↔
    Relation.EqvGen w.Together a b := by
  have hjoined : Linked {C | ∃ wtx ∈ w.txs, w.FirstIsMine wtx.tx ∧ C = {a | w.Joins wtx.tx a}} =
      w.Together := by
    funext a b
    refine propext ⟨?_, ?_⟩
    · rintro ⟨C, ⟨wtx, hwtx, hmine, rfl⟩, ha, hb⟩
      exact ⟨wtx, hwtx, hmine, ha, hb⟩
    · rintro ⟨wtx, hwtx, hmine, ha, hb⟩
      exact ⟨_, ⟨wtx, hwtx, hmine, rfl⟩, ha, hb⟩
  rw [← hjoined]
  refine eqvGen_iff_of_subsingleton (fun C hC => .inl hC) ?_
  rintro C (hC | ⟨wtx, -, txout, -, -, a, -, rfl⟩) hnot
  · exact absurd hC hnot
  · exact Set.subsingleton_singleton

theorem grouped_iff : w.Grouped a ↔ ∃ C ∈ {C | w.GroupOf w.txs C}, a ∈ C := by
  constructor
  · rintro (⟨wtx, hwtx, txout, hout, hmine, hdest⟩ | ⟨wtx, hwtx, hmine, hjoins⟩)
    · exact ⟨{a}, .inr ⟨wtx, hwtx, txout, hout, hmine, a, hdest, rfl⟩, rfl⟩
    · exact ⟨_, .inl ⟨wtx, hwtx, hmine, rfl⟩, hjoins⟩
  · rintro ⟨C, ⟨wtx, hwtx, hmine, rfl⟩ | ⟨wtx, hwtx, txout, hout, hmine, b, hdest, rfl⟩, ha⟩
    · exact .inr ⟨wtx, hwtx, hmine, ha⟩
    · obtain rfl : a = b := ha
      exact .inl ⟨wtx, hwtx, txout, hout, hmine, hdest⟩

/-- **`GetAddressGroupings` returns the partition, and changes nothing**,
exactly where the wallet is groupable. -/
theorem getAddressGroupings_iff (w : CWallet) (nTime : ℕ) :
    (∃ ret, getAddressGroupings nTime w = (.ok ret, w) ∧ w.IsPartition ret) ↔ w.Groupable := by
  by_cases hknown : ∀ wtx ∈ w.txs, w.FirstIsMine wtx.tx → w.InputsKnown wtx.tx
  · obtain ⟨ret, hrun, hkeeps⟩ := getAddressGroupings_of_known nTime hknown
    have hclass : ∀ a, {b | Relation.EqvGen (Linked {C | w.GroupOf w.txs C}) a b} =
        {b | Relation.EqvGen w.Together a b} := fun a => Set.ext fun b => eqvGen_linked_iff
    constructor
    · -- an empty group is no class
      rintro ⟨ret', hrun', hpart⟩ wtx hwtx hmine
      obtain rfl := Except.ok.inj (congrArg Prod.fst (hrun.symm.trans hrun'))
      refine ⟨hknown wtx hwtx hmine, ?_⟩
      by_contra hnone
      have hempty : (∅ : Set CTxDestination) ∈ {C | w.GroupOf w.txs C} :=
        .inl ⟨wtx, hwtx, hmine, (Set.eq_empty_of_forall_notMem fun a ha => hnone ⟨a, ha⟩).symm⟩
      obtain ⟨a, -, hclassEmpty⟩ := (hpart.classes ∅).1 (hkeeps.empty_iff.2 hempty)
      exact Set.notMem_empty a (hclassEmpty.symm ▸ Relation.EqvGen.refl a)
    · intro hgroupable
      have hempty : (∅ : Set CTxDestination) ∉ {C | w.GroupOf w.txs C} := by
        rintro (⟨wtx, hwtx, hmine, hC⟩ | ⟨wtx, -, txout, -, -, a, -, hC⟩)
        · obtain ⟨-, a, ha⟩ := hgroupable wtx hwtx hmine
          exact Set.notMem_empty a (hC.symm ▸ ha)
        · exact Set.notMem_empty a (hC.symm ▸ rfl)
      refine ⟨ret, hrun, fun C => ?_, fun a hreceived => ?_⟩
      · have hmem := hkeeps.mem_iff (C := C) hempty
        simp only [hclass, ← grouped_iff] at hmem
        exact hmem
      · obtain ⟨C, hC, ha⟩ := grouped_iff.1 (.inl hreceived)
        obtain ⟨D, ⟨⟨g, hg, rfl⟩, hag⟩, honly⟩ := hkeeps.existsUnique hC ha
        exact ⟨g, ⟨hg, hag⟩, fun g' hg' =>
          elems_injective (honly (elems g') ⟨⟨g', hg'.1, rfl⟩, hg'.2⟩)⟩
  · obtain ⟨f, hf⟩ : ∃ f, (getAddressGroupings nTime w).1 = .error f := by
      obtain ⟨f, hf⟩ := groupTxs_of_unknown nTime ∅ hknown
      refine ⟨f, ?_⟩
      unfold getAddressGroupings
      rw [Step.get_bind, Step.bind_of_error (Step.eq_of_fst_eq hf)]
    refine iff_of_false ?_ fun hgroupable => hknown fun wtx hwtx hmine =>
      (hgroupable wtx hwtx hmine).1
    rintro ⟨ret, hrun, -⟩
    rw [hrun] at hf
    exact absurd hf (by simp)

/-! ## Two wallets -/

namespace Shared

/-- A coin of ours. -/
def received : CTransaction := ⟨1, 3, [⟨⟨99, 0⟩, [], uintMax⟩], [⟨10, [1]⟩], 0⟩

/-- It is spent together with a coin of somebody else, of a transaction
that the wallet does not have. -/
def joint : CTransaction :=
  ⟨1, 4, [⟨⟨3, 0⟩, [], uintMax⟩, ⟨⟨7, 0⟩, [], uintMax⟩], [⟨9, [2]⟩], 0⟩

def entry (tx : CTransaction) : CWalletTx :=
  { CryptoBullion.CWalletTx.ofTx tx with vtxPrev := [], strFromAccount := "" }

def wallet : CWallet where
  mapWallet := (Std.ExtTreeMap.empty.insert 3 (entry received)).insert 4 (entry joint)
  keystore := ⟨[], [[1]]⟩
  mapAddressBook := []
  laccentries := []

end Shared

omit P in
/-- **A vector is read out of range** where an input is of a transaction
that the wallet does not have. -/
theorem getAddressGroupings_crashes :
    letI := Platform.toy
    ¬ ∀ (w : CWallet) (nTime : ℕ), ∃ ret, getAddressGroupings nTime w = (.ok ret, w) ∧
      w.IsPartition ret := by
  let := Platform.toy
  intro hall
  obtain ⟨ret, hrun, -⟩ := hall Shared.wallet 5
  have hcrash : (getAddressGroupings 5 Shared.wallet).1 = .error (.crash "vout out of range") := by
    decide +kernel
  rw [hrun] at hcrash
  exact absurd hcrash (by simp)

end CWallet

end Accounting

end CryptoBullion
