import CryptoBullion.Model.Accept
/-!
# The pool's two maps

`mapTx` holds the pool's transactions, `mapNextTx` who spends which
outpoint, as a pointer into `mapTx` and the number of the input. They are
kept by different functions, and `remove` goes by the inputs of the object
its caller has. The two agree as long as a hash names one transaction: a
pointer into `mapTx` is the hash of the entry it points at, and is good
when that entry is there.
-/

namespace CryptoBullion

/-! ## Spends -/

section Spends

variable {h : Uint256} {o : COutPoint} {m : Map COutPoint (Uint256 × ℕ)}

theorem getElem?_noteSpends_of_not_mem : ∀ {l : List CTxIn} {i : ℕ}
    {m : Map COutPoint (Uint256 × ℕ)}, o ∉ l.map (·.prevout) →
      (CTxMemPool.noteSpends h i l m)[o]? = m[o]?
  | [], i, m, _ => rfl
  | t :: l, i, m, ho => by
    rw [List.map_cons, List.mem_cons, not_or] at ho
    rw [CTxMemPool.noteSpends, getElem?_noteSpends_of_not_mem ho.2,
      Std.ExtTreeMap.getElem?_insert, if_neg]
    rw [Std.compare_eq_iff_eq]
    exact fun heq => ho.1 heq.symm

/-- Each input of a list without repetitions is entered under its own
number. -/
theorem getElem?_noteSpends : ∀ {l : List CTxIn} {i j : ℕ} {t : CTxIn}
    {m : Map COutPoint (Uint256 × ℕ)}, (l.map (·.prevout)).Nodup → l[j]? = some t →
      (CTxMemPool.noteSpends h i l m)[t.prevout]? = some (h, i + j)
  | [], i, j, t, m, _, ht => absurd ht (by simp)
  | u :: l, i, 0, t, m, hnodup, ht => by
    obtain rfl := Option.some.inj ht
    rw [List.map_cons, List.nodup_cons] at hnodup
    rw [CTxMemPool.noteSpends, getElem?_noteSpends_of_not_mem hnodup.1,
      Std.ExtTreeMap.getElem?_insert_self, Nat.add_zero]
  | u :: l, i, j + 1, t, m, hnodup, ht => by
    rw [List.map_cons, List.nodup_cons] at hnodup
    rw [CTxMemPool.noteSpends, getElem?_noteSpends hnodup.2 ht, Nat.add_right_comm, Nat.add_assoc]

theorem getElem?_eraseSpends : ∀ {l : List CTxIn} {m : Map COutPoint (Uint256 × ℕ)},
    (l.foldl (fun m txin => m.erase txin.prevout) m)[o]? =
      if o ∈ l.map (·.prevout) then none else m[o]?
  | [], m => by simp
  | t :: l, m => by
    rw [List.foldl_cons, getElem?_eraseSpends, Std.ExtTreeMap.getElem?_erase, List.map_cons]
    simp only [Std.compare_eq_iff_eq]
    by_cases hl : o ∈ l.map (·.prevout)
    · rw [if_pos hl, if_pos (List.mem_cons_of_mem _ hl)]
    · rw [if_neg hl]
      simp only [List.mem_cons, hl, or_false, eq_comm]

end Spends

/-! ## The invariant -/

variable [P : Platform]

/-- **The two maps agree**: a transaction is under its hash, each of its
inputs has its entry, and there are no others. -/
structure CTxMemPool.Represents (pool : CTxMemPool) : Prop where
  keyed : ∀ (h : Uint256) (tx : CTransaction), pool.mapTx[h]? = some tx → tx.getHash = h
  entered : ∀ (h : Uint256) (tx : CTransaction) (i : ℕ) (txin : CTxIn),
    pool.mapTx[h]? = some tx → tx.vin[i]? = some txin →
      pool.mapNextTx[txin.prevout]? = some (h, i)
  pointed : ∀ (o : COutPoint) (h : Uint256) (i : ℕ), pool.mapNextTx[o]? = some (h, i) →
    ∃ tx txin, pool.mapTx[h]? = some tx ∧ tx.vin[i]? = some txin ∧ txin.prevout = o

/-- An empty pool. -/
def CTxMemPool.empty : CTxMemPool := { mapTx := ∅, mapNextTx := ∅ }

namespace CTxMemPool.Represents

variable {pool : CTxMemPool} {tx tx' : CTransaction} {h h' : Uint256} {i i' : ℕ}

theorem empty : CTxMemPool.empty.Represents where
  keyed h tx ht := absurd ht (by simp [CTxMemPool.empty])
  entered h tx i txin ht := absurd ht (by simp [CTxMemPool.empty])
  pointed o h i ho := absurd ho (by simp [CTxMemPool.empty])

/-- **No outpoint is spent twice**, by two transactions or by one. -/
theorem spent_once (hp : pool.Represents) {txin txin' : CTxIn} (ht : pool.mapTx[h]? = some tx)
    (ht' : pool.mapTx[h']? = some tx') (hi : tx.vin[i]? = some txin)
    (hi' : tx'.vin[i']? = some txin') (heq : txin.prevout = txin'.prevout) :
    h = h' ∧ i = i' := by
  have h₁ := hp.entered h tx i txin ht hi
  have h₂ := hp.entered h' tx' i' txin' ht' hi'
  rw [heq, h₂] at h₁
  obtain ⟨rfl, rfl⟩ := Prod.mk.inj (Option.some.inj h₁)
  exact ⟨rfl, rfl⟩

/-- An entry is found for every outpoint a pool transaction spends. -/
theorem not_mem_of_free (hp : pool.Represents) {o : COutPoint}
    (ho : pool.mapNextTx.contains o = false) (ht : pool.mapTx[h]? = some tx) :
    o ∉ tx.vin.map (·.prevout) := by
  intro hmem
  obtain ⟨txin, hin, rfl⟩ := List.mem_map.1 hmem
  obtain ⟨i, hi⟩ := List.mem_iff_getElem?.1 hin
  have := hp.entered h tx i txin ht hi
  rw [Std.ExtTreeMap.contains_eq_isSome_getElem?, this] at ho
  exact absurd ho (by simp)

/-- **Adding** a transaction that is new, has no input twice and none
that is spent. -/
theorem addUnchecked (hp : pool.Represents) (hnew : pool.mapTx.contains tx.getHash = false)
    (hnodup : (tx.vin.map (·.prevout)).Nodup)
    (hfree : ∀ txin ∈ tx.vin, pool.mapNextTx.contains txin.prevout = false) :
    (pool.addUnchecked tx.getHash tx).Represents := by
  have hget : ∀ h, (pool.addUnchecked tx.getHash tx).mapTx[h]? =
      if tx.getHash = h then some tx else pool.mapTx[h]? := by
    intro h
    rw [CTxMemPool.addUnchecked, Std.ExtTreeMap.getElem?_insert]
    simp only [Std.compare_eq_iff_eq]
  -- an older transaction spends none of the new one's inputs
  have hold : ∀ (h : Uint256) (tx' : CTransaction) (o : COutPoint), pool.mapTx[h]? = some tx' → o ∈ tx'.vin.map (·.prevout) →
      o ∉ tx.vin.map (·.prevout) := by
    intro h tx' o ht' ho ho'
    obtain ⟨txin, hin, rfl⟩ := List.mem_map.1 ho'
    exact hp.not_mem_of_free (hfree txin hin) ht' ho
  refine ⟨?_, ?_, ?_⟩
  · intro h tx' ht'
    rw [hget] at ht'
    split_ifs at ht' with hh
    · obtain rfl := Option.some.inj ht'
      exact hh
    · exact hp.keyed h tx' ht'
  · intro h tx' i txin ht' hi
    rw [hget] at ht'
    split_ifs at ht' with hh
    · obtain rfl := Option.some.inj ht'
      subst hh
      show (CTxMemPool.noteSpends _ 0 _ _)[_]? = _
      rw [getElem?_noteSpends hnodup hi, Nat.zero_add]
    · have hmem : txin.prevout ∈ tx'.vin.map (·.prevout) :=
        List.mem_map_of_mem (List.mem_of_getElem? hi)
      show (CTxMemPool.noteSpends _ 0 _ _)[_]? = _
      rw [getElem?_noteSpends_of_not_mem (hold h tx' _ ht' hmem)]
      exact hp.entered h tx' i txin ht' hi
  · intro o h i ho
    by_cases hmem : o ∈ tx.vin.map (·.prevout)
    · obtain ⟨txin, hin, rfl⟩ := List.mem_map.1 hmem
      obtain ⟨j, hj⟩ := List.mem_iff_getElem?.1 hin
      rw [CTxMemPool.addUnchecked, getElem?_noteSpends hnodup hj, Nat.zero_add] at ho
      obtain ⟨rfl, rfl⟩ := Prod.mk.inj (Option.some.inj ho)
      exact ⟨tx, txin, by rw [hget, if_pos rfl], hj, rfl⟩
    · rw [CTxMemPool.addUnchecked, getElem?_noteSpends_of_not_mem hmem] at ho
      obtain ⟨tx', txin, ht', hi, heq⟩ := hp.pointed o h i ho
      have hne : tx.getHash ≠ h := by
        rintro rfl
        rw [Std.ExtTreeMap.contains_eq_isSome_getElem?, ht'] at hnew
        exact absurd hnew (by simp)
      exact ⟨tx', txin, by rw [hget, if_neg hne, ht'], hi, heq⟩

/-- **Removing** by an object with the stored one's inputs. -/
theorem remove (hp : pool.Represents)
    (hsame : ∀ tx', pool.mapTx[tx.getHash]? = some tx' → tx'.vin = tx.vin) :
    (pool.remove tx).Represents := by
  rw [CTxMemPool.remove]
  by_cases hc : pool.mapTx.contains tx.getHash = true
  · rw [if_pos hc]
    rw [Std.ExtTreeMap.contains_eq_isSome_getElem?, Option.isSome_iff_exists] at hc
    obtain ⟨stored, hstored⟩ := hc
    have hvin := hsame stored hstored
    have hget : ∀ h, (pool.mapTx.erase tx.getHash)[h]? =
        if tx.getHash = h then none else pool.mapTx[h]? := by
      intro h
      rw [Std.ExtTreeMap.getElem?_erase]
      simp only [Std.compare_eq_iff_eq]
    refine ⟨?_, ?_, ?_⟩
    · intro h tx' ht'
      rw [hget] at ht'
      split_ifs at ht'
      exact hp.keyed h tx' ht'
    · intro h tx' i txin ht' hi
      rw [hget] at ht'
      split_ifs at ht' with hne
      rw [getElem?_eraseSpends, if_neg]
      · exact hp.entered h tx' i txin ht' hi
      · rw [← hvin]
        intro hmem
        obtain ⟨txin', hin, heq⟩ := List.mem_map.1 hmem
        obtain ⟨j, hj⟩ := List.mem_iff_getElem?.1 hin
        exact hne (hp.spent_once hstored ht' hj hi heq).1
    · intro o h i ho
      rw [getElem?_eraseSpends] at ho
      split_ifs at ho with hmem
      obtain ⟨tx', txin, ht', hi, heq⟩ := hp.pointed o h i ho
      have hne : tx.getHash ≠ h := by
        rintro rfl
        rw [hstored, Option.some.injEq] at ht'
        subst ht'
        rw [hvin] at hi
        exact hmem (heq ▸ List.mem_map_of_mem (List.mem_of_getElem? hi))
      exact ⟨tx', txin, by rw [hget, if_neg hne, ht'], hi, heq⟩
  · rw [if_neg hc]
    exact hp

end CTxMemPool.Represents

/-! ## Runs -/

/-- A call on the pool: `accept` with the node in whatever state it is in
besides, `remove` of any transaction value, `clear`. -/
inductive PoolCall
  | accept (s : NodeState) (ans : Answer) (env : AcceptEnv) (tx : CTransaction)
      (fCheckInputs : Bool)
  | remove (tx : CTransaction)
  | clear

/-- The transaction a call is about. -/
def PoolCall.tx : PoolCall → Option CTransaction
  | .accept _ _ _ tx _ | .remove tx => some tx
  | .clear => none

/-- The pool after a call. A transaction that is not accepted changes
nothing. -/
def PoolCall.perform (pool : CTxMemPool) : PoolCall → CTxMemPool
  | .accept s ans env tx fCheckInputs =>
    match NodeState.accept { s with mempool := pool } ans env tx fCheckInputs with
    | .ok pool' => pool'
    | .error _ => pool
  | .remove tx => pool.remove tx
  | .clear => CTxMemPool.empty

/-- The pool after a run of calls, from an empty one. -/
def poolAfter (calls : List PoolCall) : CTxMemPool :=
  calls.foldl PoolCall.perform CTxMemPool.empty

/-- Two transactions of a run with one hash are one transaction: what a
hash function promises. -/
def HashesApart (calls : List PoolCall) : Prop :=
  ∀ c ∈ calls, ∀ c' ∈ calls, ∀ tx tx', c.tx = some tx → c'.tx = some tx' →
    tx.getHash = tx'.getHash → tx = tx'

variable {pool : CTxMemPool} {c : PoolCall} {calls : List PoolCall}

/-- What is in the pool after a call was there before, or was the call's. -/
theorem mem_perform {h : Uint256} {tx : CTransaction}
    (ht : (c.perform pool).mapTx[h]? = some tx) : pool.mapTx[h]? = some tx ∨ c.tx = some tx := by
  cases c with
  | accept s ans env t fCheckInputs =>
    rw [PoolCall.perform] at ht
    cases ha : NodeState.accept { s with mempool := pool } ans env t fCheckInputs with
    | error f =>
      rw [ha] at ht
      exact .inl ht
    | ok pool' =>
      rw [ha, (of_accept ha).1] at ht
      dsimp only at ht
      rw [CTxMemPool.addUnchecked, Std.ExtTreeMap.getElem?_insert] at ht
      split_ifs at ht
      · exact .inr ht
      · exact .inl ht
  | remove t =>
    rw [PoolCall.perform, CTxMemPool.remove] at ht
    split_ifs at ht
    · rw [Std.ExtTreeMap.getElem?_erase] at ht
      split_ifs at ht
      exact .inl ht
    · exact .inl ht
  | clear => exact absurd ht (by simp [PoolCall.perform, CTxMemPool.empty])

/-- So whatever is in the pool is one of the run's transactions. -/
theorem mem_poolAfter {h : Uint256} {tx : CTransaction}
    (ht : (poolAfter calls).mapTx[h]? = some tx) : ∃ c ∈ calls, c.tx = some tx := by
  induction calls using List.reverseRecOn with
  | nil => exact absurd ht (by simp [poolAfter, CTxMemPool.empty])
  | append_singleton calls c ih =>
    rw [poolAfter, List.foldl_append, List.foldl_cons, List.foldl_nil, ← poolAfter] at ht
    rcases mem_perform ht with h | h
    · obtain ⟨c', hc', htx⟩ := ih h
      exact ⟨c', List.mem_append_left _ hc', htx⟩
    · exact ⟨c, List.mem_append_right _ (List.mem_singleton.2 rfl), h⟩

/-- **One call keeps the maps in agreement**, a removal where the object
has the inputs of what is stored. -/
theorem represents_perform (hp : pool.Represents)
    (hsame : ∀ tx tx', c.tx = some tx → pool.mapTx[tx.getHash]? = some tx' → tx' = tx) :
    (c.perform pool).Represents := by
  cases c with
  | accept s ans env tx fCheckInputs =>
    rw [PoolCall.perform]
    cases ha : NodeState.accept { s with mempool := pool } ans env tx fCheckInputs with
    | error f => exact hp
    | ok pool' =>
      obtain ⟨hpool, hcheck, hnew, hfree, -⟩ := of_accept ha
      rw [hpool]
      exact hp.addUnchecked hnew (CTransaction.of_checkTransaction hcheck).2.2.2 hfree
  | remove tx =>
    refine hp.remove fun tx' ht' => ?_
    rw [hsame tx tx' rfl ht']
  | clear => exact CTxMemPool.Represents.empty

/-- **The maps agree after any run of calls**, and no outpoint is spent
twice in the pool. -/
theorem represents_poolAfter (hhash : HashesApart calls) :
    (poolAfter calls).Represents ∧
      ∀ (h h' : Uint256) (tx tx' : CTransaction) (i i' : ℕ) (txin txin' : CTxIn),
        (poolAfter calls).mapTx[h]? = some tx → (poolAfter calls).mapTx[h']? = some tx' →
          tx.vin[i]? = some txin → tx'.vin[i']? = some txin' → txin.prevout = txin'.prevout →
            h = h' ∧ i = i' := by
  have hrep : (poolAfter calls).Represents := by
    induction calls using List.reverseRecOn with
    | nil => exact CTxMemPool.Represents.empty
    | append_singleton calls c ih =>
      have hbefore : (poolAfter calls).Represents := ih fun c₁ h₁ c₂ h₂ =>
        hhash c₁ (List.mem_append_left _ h₁) c₂ (List.mem_append_left _ h₂)
      rw [poolAfter, List.foldl_append, List.foldl_cons, List.foldl_nil, ← poolAfter]
      refine represents_perform hbefore fun tx tx' hc ht' => ?_
      obtain ⟨c', hc', htx'⟩ := mem_poolAfter ht'
      exact hhash c' (List.mem_append_left _ hc') c
        (List.mem_append_right _ (List.mem_singleton.2 rfl)) tx' tx htx' hc
        (hbefore.keyed _ _ ht')
  refine ⟨hrep, ?_⟩
  intro h h' tx tx' i i' txin txin' ht ht' hi hi' heq
  exact hrep.spent_once ht ht' hi hi' heq

/-- A payment of one coin out of `prevout`, at a time. -/
def payment (nTime : ℕ) (prevout : COutPoint) : CTransaction where
  nVersion := 1
  nTime := nTime
  vin := [{ prevout := prevout, scriptSig := [], nSequence := uintMax }]
  vout := [{ nValue := coin, scriptPubKey := [1] }]
  nLockTime := 0

/-- Two payments taken without input checks, the second out of the first,
which is then removed. -/
def childLeft : List PoolCall :=
  let s := NodeState.blank fun _ => ⟨0, true, fun _ _ => true⟩
  let ans : Answer := ⟨0, true, fun _ _ => true⟩
  [.accept s ans ⟨fun _ _ _ => none, false⟩ (payment 1 ⟨7, 0⟩) false,
    .accept s ans ⟨fun _ _ _ => none, false⟩ (payment 2 ⟨1, 0⟩) false,
    .remove (payment 1 ⟨7, 0⟩)]

omit [P : Platform] in
/-- The child stays, with its own entry. -/
theorem represents_childLeft :
    (poolAfter (P := Platform.toy) childLeft).mapTx.toList = [(2, payment 2 ⟨1, 0⟩)] ∧
      (poolAfter (P := Platform.toy) childLeft).Represents (P := Platform.toy) := by
  have htx : ∀ c ∈ childLeft, ∀ tx, c.tx = some tx →
      tx = payment 1 ⟨7, 0⟩ ∨ tx = payment 2 ⟨1, 0⟩ := by
    intro c hc tx ht
    simp only [childLeft, List.mem_cons, List.not_mem_nil, or_false] at hc
    rcases hc with rfl | rfl | rfl
    · exact .inl (Option.some.inj ht).symm
    · exact .inr (Option.some.inj ht).symm
    · exact .inl (Option.some.inj ht).symm
  have hhash : HashesApart (P := Platform.toy) childLeft := by
    intro c hc c' hc' tx tx' ht ht' heq
    rcases htx c hc tx ht with rfl | rfl <;> rcases htx c' hc' tx' ht' with rfl | rfl
    · rfl
    · exact absurd heq (by decide +kernel)
    · exact absurd heq (by decide +kernel)
    · rfl
  exact ⟨by decide +kernel, (represents_poolAfter (P := Platform.toy) hhash).1⟩

end CryptoBullion
