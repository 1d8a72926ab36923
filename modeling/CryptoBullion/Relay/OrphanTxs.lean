import CryptoBullion.Relay.Intact
/-!
# The store of orphan transactions

Two maps are kept: the orphans by hash, and by each transaction that is
missing the orphans that spend it. Storing, erasing and evicting keep one
in step with the other. Looking up who waits for a transaction that was
just taken does not: `operator[]` makes a key where nobody waits, and
nothing ever takes that key away, unless an orphan comes that spends the
same transaction and goes again.
-/

namespace CryptoBullion

namespace OrphanTxs

/-- The transactions the buffer behind `pvMsg` spends outputs of, one for
each input. -/
def prevs (o : OrphanTxs) (pvMsg : ℕ) : List Uint256 :=
  match o.stream pvMsg >>= CTransaction.unserialize with
  | .ok (tx, _) => tx.vin.map (·.prevout.hash)
  | .error _ => []

/-- It spends an output of `prev`. -/
def Spends (o : OrphanTxs) (pvMsg : ℕ) (prev : Uint256) : Prop := prev ∈ o.prevs pvMsg

/-- Some stored orphan spends an output of `prev`. -/
def Awaits (o : OrphanTxs) (prev : Uint256) : Prop :=
  ∃ (hash : Uint256) (pvMsg : ℕ), o.mapOrphanTransactions[hash]? = some pvMsg ∧ o.Spends pvMsg prev

/-- **What the store should be**: no larger than it may be; a key in the
second map for each transaction that is waited for and for no other; under
it the orphans that wait and their buffers, none of them freed. -/
structure Consistent (o : OrphanTxs) : Prop where
  size_le : o.mapOrphanTransactions.size ≤ maxOrphanTransactions
  mem_iff : ∀ prev : Uint256, prev ∈ o.mapOrphanTransactionsByPrev ↔ o.Awaits prev
  inner : ∀ (prev hash : Uint256) (pvMsg : ℕ),
    (o.mapOrphanTransactionsByPrev.inner prev)[hash]? = some pvMsg ↔
      o.mapOrphanTransactions[hash]? = some pvMsg ∧ o.Spends pvMsg prev
  live : ∀ (prev hash : Uint256) (pvMsg : ℕ),
    (o.mapOrphanTransactionsByPrev.inner prev)[hash]? = some pvMsg → pvMsg ∈ o.buffers
  byPrev_size_le : o.mapOrphanTransactionsByPrev.size ≤
    (o.mapOrphanTransactions.toList.map fun e => (o.prevs e.2).length).sum

variable [P : Platform]

/-- The second map has under each key what it should have; which keys it
has is left open. -/
structure Filed (o : OrphanTxs) : Prop where
  intact : o.Intact
  index : o.mapOrphanTransactionsByPrev.Of o.mapOrphanTransactions o.Spends

variable {o o' : OrphanTxs} {hash prev k : Uint256} {pvMsg : ℕ} {vMsg rest : List UInt8}
variable {tx : CTransaction} {rand : ℕ → Uint256} {n : ℕ}

omit P in
theorem prevs_of_stream (hbuf : o.buffers[pvMsg]? = some vMsg)
    (hread : CTransaction.unserialize vMsg = .ok (tx, rest)) :
    o.prevs pvMsg = tx.vin.map (·.prevout.hash) := by
  simp only [prevs, stream, hbuf, except_ok_bind, hread]

omit P in
/-- What a buffer spends is in the buffer. -/
theorem prevs_congr (h : o.buffers[pvMsg]? = o'.buffers[pvMsg]?) : o.prevs pvMsg = o'.prevs pvMsg := by
  simp only [prevs, stream, h]

theorem Filed.empty : OrphanTxs.empty.Filed where
  intact := ⟨by simp [OrphanTxs.empty], by simp [OrphanTxs.empty], by simp [OrphanTxs.empty]⟩
  index := ReverseIndex.of_empty

/-- **A store that is filed, not too large and without hollow keys is
consistent.** -/
theorem Filed.consistent (ho : o.Filed) (hsize : o.mapOrphanTransactions.size ≤ maxOrphanTransactions)
    (hhollow : ∀ r, ¬ o.mapOrphanTransactionsByPrev.Hollow r) : o.Consistent where
  size_le := hsize
  mem_iff _ := ho.index.mem_iff hhollow
  inner := ho.index
  live prev hash pvMsg h := by
    obtain ⟨vMsg, hbuf, -⟩ := ho.intact.reads hash pvMsg ((ho.index prev hash pvMsg).1 h).1
    exact Std.ExtTreeMap.isSome_getElem?_iff_mem.1 (by rw [hbuf]; rfl)
  byPrev_size_le := by
    rw [← List.length_flatMap]
    refine ReverseIndex.size_le fun prev hprev => ?_
    obtain ⟨hash, pvMsg, hm, hspends⟩ := (ho.index.mem_iff hhollow).1 hprev
    exact List.mem_flatMap.2 ⟨(hash, pvMsg), Std.ExtTreeMap.mem_toList_iff_getElem?_eq_some.2 hm, hspends⟩

/-! ## Storing -/

/-- What `AddOrphanTx` did, where it did not throw: nothing to the maps, or
it stored the buffer under an address of its own. -/
theorem addOrphanTx_cases {fStored : Bool} (h : o.addOrphanTx vMsg = .ok (fStored, o')) :
    (o'.buffers = o.buffers ∧ o'.mapOrphanTransactions = o.mapOrphanTransactions ∧
      o'.mapOrphanTransactionsByPrev = o.mapOrphanTransactionsByPrev) ∨
    ∃ tx rest, CTransaction.unserialize vMsg = .ok (tx, rest) ∧
      o.mapOrphanTransactions[tx.getHash]? = none ∧
      o'.buffers = o.buffers.insert o.nAllocated vMsg ∧
      o'.mapOrphanTransactions = o.mapOrphanTransactions.insert tx.getHash o.nAllocated ∧
      o'.mapOrphanTransactionsByPrev = (tx.vin.map (·.prevout.hash)).foldl
        (ReverseIndex.link tx.getHash o.nAllocated) o.mapOrphanTransactionsByPrev := by
  obtain ⟨⟨tx, r⟩, hread, h⟩ := except_bind_eq_ok.1 h
  dsimp only at h
  split_ifs at h with hhas
  · obtain ⟨-, rfl⟩ := Prod.ext_iff.1 (Except.ok.inj h)
    exact .inl ⟨rfl, rfl, rfl⟩
  · obtain ⟨-, rfl⟩ := Prod.ext_iff.1 (Except.ok.inj h)
    exact .inl ⟨rfl, rfl, rfl⟩
  · obtain ⟨-, rfl⟩ := Prod.ext_iff.1 (Except.ok.inj h)
    refine .inr ⟨tx, r, hread, ?_, rfl, rfl, rfl⟩
    exact Std.ExtTreeMap.getElem?_eq_none fun hmem => hhas (Std.ExtTreeMap.mem_iff_contains.1 hmem)

/-- **Storing a buffer** files it, and makes no hollow key. -/
theorem Filed.addOrphanTx (ho : o.Filed) {fStored : Bool}
    (h : o.addOrphanTx vMsg = .ok (fStored, o')) :
    o'.Filed ∧ o'.mapOrphanTransactions.size ≤ o.mapOrphanTransactions.size + 1 ∧
      ∀ r, o'.mapOrphanTransactionsByPrev.Hollow r → o.mapOrphanTransactionsByPrev.Hollow r := by
  have hintact := ho.intact.of_addOrphanTx h
  rcases addOrphanTx_cases h with ⟨hbuf, hmap, hindex⟩ | ⟨tx, r, hread, hnew, hbuf, hmap, hindex⟩
  · refine ⟨⟨hintact, ?_⟩, by rw [hmap]; omega, fun r hr => by rwa [hindex] at hr⟩
    have hspends : o'.Spends = o.Spends := by
      funext p r
      have hsame : o'.prevs p = o.prevs p := prevs_congr (by rw [hbuf])
      rw [Spends, Spends, hsame]
    rw [hindex, hmap, hspends]
    exact ho.index
  · refine ⟨⟨hintact, ?_⟩, ?_, fun r hr => ?_⟩
    · rw [hindex, hmap]
      refine ho.index.link hnew (fun hash p hp r => ?_) fun r => ?_
      · have hne := (ho.intact.ne_nAllocated hp).symm
        have hsame : o'.prevs p = o.prevs p := prevs_congr (by
          rw [hbuf, Std.ExtTreeMap.getElem?_insert, if_neg (by simpa using hne)])
        rw [Spends, Spends, hsame]
      · have hstored : o'.buffers[o.nAllocated]? = some vMsg := by
          rw [hbuf, Std.ExtTreeMap.getElem?_insert_self]
        rw [Spends, prevs_of_stream hstored hread]
    · rw [hmap]
      exact Std.ExtTreeMap.size_insert_le
    · rw [hindex] at hr
      exact (ReverseIndex.hollow_foldl_link.1 hr).2

/-! ## Erasing and evicting -/

/-- **Erasing an orphan** takes it from under all it spends, and leaves no
hollow key. -/
theorem Filed.eraseOrphanTx (ho : o.Filed) (h : o.eraseOrphanTx hash = .ok o') :
    o'.Filed ∧ o'.mapOrphanTransactions = o.mapOrphanTransactions.erase hash ∧
      ∀ r, o'.mapOrphanTransactionsByPrev.Hollow r → o.mapOrphanTransactionsByPrev.Hollow r := by
  obtain ⟨o₁, h₁, hintact⟩ := ho.intact.eraseOrphanTx hash
  rw [h] at h₁
  obtain rfl := Except.ok.inj h₁
  unfold OrphanTxs.eraseOrphanTx at h
  rcases hm : o.mapOrphanTransactions[hash]? with _ | pvMsg
  · rw [hm] at h
    obtain rfl := Except.ok.inj h
    refine ⟨ho, ?_, fun _ hr => hr⟩
    refine Std.ExtTreeMap.ext_getElem? fun k => ?_
    rw [Std.ExtTreeMap.getElem?_erase]
    split_ifs with hk
    · rw [← Std.compare_eq_iff_eq.1 hk, hm]
    · rfl
  · obtain ⟨vMsg, hbuf, tx, r, hread, -⟩ := ho.intact.reads hash pvMsg hm
    simp only [hm, stream, hbuf, hread, except_ok_bind] at h
    obtain rfl := Except.ok.inj h
    refine ⟨⟨hintact, ?_⟩, rfl, fun r hr => (ReverseIndex.hollow_foldl_unlink.1 hr).2⟩
    refine ho.index.unlink hm (fun hash' p hne hp r => ?_) fun r hr => ?_
    · have hp' : pvMsg ≠ p := by
        rintro rfl
        exact hne (ho.intact.own hash' hash pvMsg hp hm)
      have hsame : (o.drop hash pvMsg tx).prevs p = o.prevs p := prevs_congr (by
        simp only [OrphanTxs.drop, Std.ExtTreeMap.getElem?_erase, Std.compare_eq_iff_eq, if_neg hp'])
      rw [Spends, Spends, hsame]
    · rwa [Spends, prevs_of_stream hbuf hread] at hr

/-- **A hollow key nobody waits under stays**, whatever is erased. -/
theorem Filed.hollow_eraseOrphanTx (ho : o.Filed) (h : o.eraseOrphanTx hash = .ok o')
    (hhollow : o.mapOrphanTransactionsByPrev.Hollow prev) (hnot : ¬ o.Awaits prev) :
    o'.mapOrphanTransactionsByPrev.Hollow prev ∧ ¬ o'.Awaits prev := by
  unfold OrphanTxs.eraseOrphanTx at h
  rcases hm : o.mapOrphanTransactions[hash]? with _ | pvMsg
  · rw [hm] at h
    obtain rfl := Except.ok.inj h
    exact ⟨hhollow, hnot⟩
  · obtain ⟨vMsg, hbuf, tx, r, hread, -⟩ := ho.intact.reads hash pvMsg hm
    simp only [hm, stream, hbuf, hread, except_ok_bind] at h
    obtain rfl := Except.ok.inj h
    refine ⟨ReverseIndex.hollow_foldl_unlink.2 ⟨fun hmem => hnot ⟨hash, pvMsg, hm, ?_⟩, hhollow⟩, ?_⟩
    · rwa [Spends, prevs_of_stream hbuf hread]
    · rintro ⟨hash', p, hp, hspends⟩
      simp only [OrphanTxs.drop, Std.ExtTreeMap.getElem?_erase] at hp
      split_ifs at hp
      refine hnot ⟨hash', p, hp, ?_⟩
      -- what is behind `p` is what was, or nothing
      by_cases hpp : pvMsg = p
      · subst hpp
        have hnone : (o.drop hash pvMsg tx).stream pvMsg = .error (.crash "CDataStream*") := by
          simp [stream, OrphanTxs.drop]
        rw [Spends, prevs, hnone] at hspends
        exact absurd hspends List.not_mem_nil
      · have hsame : (o.drop hash pvMsg tx).prevs p = o.prevs p := prevs_congr (by
          simp only [OrphanTxs.drop, Std.ExtTreeMap.getElem?_erase, Std.compare_eq_iff_eq,
            if_neg hpp])
        rwa [Spends, hsame] at hspends

omit P in
/-- Who is evicted is stored. -/
theorem mem_of_victim (h : o.victim k = some hash) : hash ∈ o.mapOrphanTransactions := by
  unfold OrphanTxs.victim at h
  rcases Option.or_eq_some_iff.1 h with h | ⟨-, h⟩
  · exact Std.ExtTreeMap.mem_keys.1 (List.mem_of_find?_eq_some h)
  · exact Std.ExtTreeMap.mem_keys.1 (List.mem_of_head? h)

omit P in
/-- Nobody is, only where nobody is stored. -/
theorem size_of_victim_eq_none (h : o.victim k = none) : o.mapOrphanTransactions.size = 0 := by
  unfold OrphanTxs.victim at h
  rw [← Std.ExtTreeMap.length_keys, List.length_eq_zero_iff]
  exact List.head?_eq_none_iff.1 (Option.or_eq_none_iff.1 h).2

/-- **Evicting `n`** leaves `n` fewer. -/
theorem Filed.evict (rand : ℕ → Uint256) : ∀ {o : OrphanTxs}, o.Filed → ∀ n,
    ∃ o', OrphanTxs.evict rand n o = .ok o' ∧ o'.Filed ∧
      o'.mapOrphanTransactions.size = o.mapOrphanTransactions.size - n ∧
      ∀ r, o'.mapOrphanTransactionsByPrev.Hollow r → o.mapOrphanTransactionsByPrev.Hollow r
  | o, ho, 0 => ⟨o, rfl, ho, rfl, fun _ hr => hr⟩
  | o, ho, n + 1 => by
    unfold OrphanTxs.evict
    rcases hv : o.victim (rand n) with _ | hash
    · have hempty := size_of_victim_eq_none hv
      exact ⟨o, rfl, ho, by omega, fun _ hr => hr⟩
    · obtain ⟨o₁, herase, -⟩ := ho.intact.eraseOrphanTx hash
      obtain ⟨ho₁, hmap, hhollow⟩ := ho.eraseOrphanTx herase
      obtain ⟨o', hevict, ho', hsize, hhollow'⟩ := Filed.evict rand ho₁ n
      simp only [herase, except_ok_bind]
      refine ⟨o', hevict, ho', ?_, fun r hr => hhollow r (hhollow' r hr)⟩
      rw [hsize, hmap, Std.ExtTreeMap.size_erase,
        if_pos (Std.ExtTreeMap.mem_iff_contains.1 (mem_of_victim hv))]
      omega

/-- **`LimitOrphanTxSize`** leaves no more than it is told to. -/
theorem Filed.limitOrphanTxSize (ho : o.Filed) (h : o.limitOrphanTxSize n rand = .ok o') :
    o'.Filed ∧ o'.mapOrphanTransactions.size ≤ o.mapOrphanTransactions.size ∧
      o'.mapOrphanTransactions.size ≤ n ∧
      ∀ r, o'.mapOrphanTransactionsByPrev.Hollow r → o.mapOrphanTransactionsByPrev.Hollow r := by
  obtain ⟨o₁, hevict, ho', hsize, hhollow⟩ := Filed.evict rand ho (o.mapOrphanTransactions.size - n)
  unfold OrphanTxs.limitOrphanTxSize at h
  rw [hevict] at h
  obtain rfl := Except.ok.inj h
  exact ⟨ho', by omega, by omega, hhollow⟩

end OrphanTxs

/-! ## One message -/

variable [P : Platform]

/-- What handling a message has made of the store `o₀`: a hollow key is an
old one, or that of a transaction just taken which nobody was waiting
for. -/
structure TxBranch.Kept (o₀ : OrphanTxs) (b : TxBranch) : Prop where
  filed : b.orphans.Filed
  size_le : b.orphans.mapOrphanTransactions.size ≤ maxOrphanTransactions
  hollow : ∀ r, b.orphans.mapOrphanTransactionsByPrev.Hollow r →
    o₀.mapOrphanTransactionsByPrev.Hollow r ∨ r ∈ b.vWorkQueue ∧ ¬ o₀.Awaits r

/-- And while the orphans are gone through: they are the same. -/
structure TxBranch.Looking (o₀ : OrphanTxs) (b : TxBranch) : Prop where
  kept : b.Kept o₀
  buffers : b.orphans.buffers = o₀.buffers
  orphans : b.orphans.mapOrphanTransactions = o₀.mapOrphanTransactions

variable {o₀ o : OrphanTxs} {b b' : TxBranch} {env : AcceptEnv} {rand : ℕ → Uint256}
variable {tx : CTransaction} {vMsg vRecv rest : List UInt8} {hash prev : Uint256} {n : ℕ}

namespace TxBranch

/-- The queue may grow. -/
theorem Kept.mono (hb : b.Kept o₀) (ho : b'.orphans = b.orphans)
    (hqueue : b.vWorkQueue ⊆ b'.vWorkQueue) : b'.Kept o₀ where
  filed := ho ▸ hb.filed
  size_le := ho ▸ hb.size_le
  hollow r hr := (hb.hollow r (ho ▸ hr)).imp id fun h => ⟨hqueue h.1, h.2⟩

theorem Looking.mono (hb : b.Looking o₀) (ho : b'.orphans = b.orphans)
    (hqueue : b.vWorkQueue ⊆ b'.vWorkQueue) : b'.Looking o₀ where
  kept := hb.kept.mono ho hqueue
  buffers := by rw [ho, hb.buffers]
  orphans := by rw [ho, hb.orphans]

/-- Who waits has not changed. -/
theorem Looking.spends (hb : b.Looking o₀) : b.orphans.Spends = o₀.Spends := by
  funext p r
  have hsame : b.orphans.prevs p = o₀.prevs p := OrphanTxs.prevs_congr (by rw [hb.buffers])
  rw [OrphanTxs.Spends, OrphanTxs.Spends, hsame]

/-- **Looking a transaction of the queue up** leaves a hollow key only
where nobody waits for it. -/
theorem Looking.touch (hb : b.Looking o₀) (hprev : prev ∈ b.vWorkQueue) :
    TxBranch.Looking o₀ { b with orphans := { b.orphans with
      mapOrphanTransactionsByPrev := b.orphans.mapOrphanTransactionsByPrev.touch prev } } where
  kept.filed.intact := ⟨hb.kept.filed.intact.reads, hb.kept.filed.intact.own,
    hb.kept.filed.intact.fresh⟩
  kept.filed.index := hb.kept.filed.index.touch
  kept.size_le := hb.kept.size_le
  kept.hollow r hr := by
    rcases ReverseIndex.hollow_touch.1 hr with hr | ⟨rfl, hnot⟩
    · exact hb.kept.hollow r hr
    · refine .inr ⟨hprev, fun ⟨hash, pvMsg, hm, hspends⟩ => hnot ?_⟩
      refine ReverseIndex.mem_iff.2 (.inr ⟨hash, pvMsg, (hb.kept.filed.index _ _ _).2 ⟨?_, ?_⟩⟩)
      · rwa [hb.orphans]
      · rwa [hb.spends]
  buffers := hb.buffers
  orphans := hb.orphans

end TxBranch

open TxBranch

theorem orphans_acceptLoose : (acceptLoose env tx b).2.orphans = b.orphans ∧
    (acceptLoose env tx b).2.vWorkQueue = b.vWorkQueue := by
  unfold acceptLoose
  dsimp only
  split <;> exact ⟨rfl, rfl⟩

theorem looking_acceptLoose :
    Step.Keeps (TxBranch.Looking o₀) (acceptLoose env tx) (fun _ => True) := fun _ hb =>
  ⟨hb.mono orphans_acceptLoose.1 (by rw [orphans_acceptLoose.2]; exact List.Subset.refl _), fun _ _ => trivial⟩

theorem looking_taken : Step.Keeps (TxBranch.Looking o₀) (taken tx vMsg) (fun _ => True) := by
  refine .bind (Q := fun _ => True) (fun b hb => ⟨hb.mono rfl (List.Subset.refl _),
    fun _ _ => trivial⟩) fun _ _ => .modify fun b hb => hb.mono rfl ?_
  exact List.subset_append_left _ _

/-- An orphan that is tried again stays where it is. -/
theorem looking_retryOrphan {pvMsg : ℕ} :
    Step.Keeps (TxBranch.Looking o₀) (retryOrphan env pvMsg) (fun _ => True) := by
  refine .bind .get fun b hb => .bind (Q := fun _ => True) (.lift fun _ _ => trivial) fun vMsg _ => ?_
  refine .bind (Q := fun _ => True) (.lift fun _ _ => trivial) fun ⟨tx, r⟩ _ => ?_
  refine .bind looking_acceptLoose ?_
  rintro ⟨fTaken, fMissing⟩ -
  dsimp only
  split_ifs
  · exact looking_taken
  · exact .modify fun b hb => hb.mono rfl (List.Subset.refl _)
  · exact .pure trivial

/-- **Going through the queue.** -/
theorem looking_orphanLoop : ∀ {fuel i : ℕ},
    Step.Keeps (TxBranch.Looking o₀) (orphanLoop env fuel i) (fun _ => True)
  | 0, _ => .pure trivial
  | fuel + 1, i => by
    intro b hb
    rw [orphanLoop, Step.get_bind]
    rcases hi : b.vWorkQueue[i]? with _ | hashPrev
    · exact ⟨hb, fun _ _ => trivial⟩
    · have hloop : Step.Keeps (TxBranch.Looking o₀) (do
          Step.forEach (retryOrphan env)
            ((b.orphans.mapOrphanTransactionsByPrev.inner hashPrev).toList.map (·.2))
          orphanLoop env fuel (i + 1)) (fun _ => True) :=
        .bind (.forEach fun _ _ => looking_retryOrphan) fun _ _ => looking_orphanLoop
      exact hloop _ (hb.touch (List.mem_of_getElem? hi))

/-- **Erasing what the queue says.** -/
theorem kept_eraseQueued : Step.Keeps (TxBranch.Kept o₀) (eraseQueued hash) (fun _ => True) := by
  intro b hb
  obtain ⟨o', herase, -⟩ := hb.filed.intact.eraseOrphanTx hash
  obtain ⟨ho', hmap, hhollow⟩ := hb.filed.eraseOrphanTx herase
  rw [eraseQueued, Step.get_bind, herase]
  refine ⟨⟨ho', ?_, fun r hr => hb.hollow r (hhollow r hr)⟩, fun _ _ => trivial⟩
  refine le_trans ?_ hb.size_le
  show o'.mapOrphanTransactions.size ≤ _
  rw [hmap]
  exact Std.ExtTreeMap.size_erase_le

/-- **Keeping a buffer** may be one too many for a moment. -/
theorem kept_keepOrphan (hmax : n ≤ maxOrphanTransactions) :
    Step.Keeps (TxBranch.Kept o₀) (keepOrphan rand vMsg n) (fun _ => True) := by
  intro b hb
  rw [keepOrphan, Step.get_bind]
  rcases hadd : b.orphans.addOrphanTx vMsg with e | ⟨fStored, o'⟩
  · exact ⟨hb, fun _ h => absurd h (by simp)⟩
  · obtain ⟨ho', -, hhollow'⟩ := hb.filed.addOrphanTx hadd
    obtain ⟨o'', hlimit, -⟩ := ho'.intact.limitOrphanTxSize n rand
    obtain ⟨ho'', -, hsize, hhollow⟩ := ho'.limitOrphanTxSize hlimit
    rw [Step.lift_ok_bind]
    dsimp only
    rw [Step.modify_bind, hlimit]
    exact ⟨⟨ho'', hsize.trans hmax, fun r hr => hb.hollow r (hhollow' r (hhollow r hr))⟩, fun _ _ => trivial⟩

/-- **A message**, whatever comes of it. -/
theorem kept_processTx {fuel : ℕ} (ho : b.orphans.Filed)
    (hsize : b.orphans.mapOrphanTransactions.size ≤ maxOrphanTransactions) :
    (processTx env rand fuel vRecv b).2.Kept b.orphans := by
  rw [processTx, Step.modify_bind]
  have hstart : TxBranch.Looking b.orphans { b with vWorkQueue := [], vEraseQueue := [] } :=
    ⟨⟨ho, hsize, fun r hr => .inl hr⟩, rfl, rfl⟩
  rcases hread : CTransaction.unserialize vRecv with e | ⟨tx, r⟩
  · exact hstart.kept
  rw [Step.lift_ok_bind]
  refine looking_acceptLoose.bind_of_le (fun _ hb => hb.kept) ?_ hstart
  rintro ⟨fTaken, fMissing⟩ - b₁ hb₁
  dsimp only
  split_ifs
  · refine looking_taken.bind_of_le (fun _ hb => hb.kept) (fun _ _ b₂ hb₂ => ?_) hb₁
    refine looking_orphanLoop.bind_of_le (fun _ hb => hb.kept) (fun _ _ b₃ hb₃ => ?_) hb₂
    rw [Step.get_bind]
    exact (Step.Keeps.forEach (fun hash _ => kept_eraseQueued) b₃ hb₃.kept).1
  · exact (kept_keepOrphan le_rfl b₁ hb₁.kept).1
  · exact hb₁.kept

/-! ## A key nobody takes away -/

/-- The queue only grows, and so do the keys, while it is gone through. -/
structure TxBranch.Grown (b b' : TxBranch) : Prop where
  queue : b.vWorkQueue <+: b'.vWorkQueue
  keys : ∀ r : Uint256, r ∈ b.orphans.mapOrphanTransactionsByPrev →
    r ∈ b'.orphans.mapOrphanTransactionsByPrev

instance : Std.Refl TxBranch.Grown := ⟨fun _ => ⟨List.prefix_refl _, fun _ hr => hr⟩⟩

instance : IsTrans TxBranch TxBranch.Grown :=
  ⟨fun _ _ _ h h' => ⟨h.queue.trans h'.queue, fun r hr => h'.keys r (h.keys r hr)⟩⟩

theorem grown_acceptLoose : Step.Preserves TxBranch.Grown (acceptLoose env tx) := fun b =>
  ⟨by rw [orphans_acceptLoose.2], fun r hr => by rwa [orphans_acceptLoose.1]⟩

theorem grown_taken : Step.Preserves TxBranch.Grown (taken tx vMsg) :=
  .bind (fun _ => ⟨List.prefix_refl _, fun _ hr => hr⟩) fun _ =>
    .modify fun _ => ⟨List.prefix_append _ _, fun _ hr => hr⟩

theorem grown_retryOrphan {pvMsg : ℕ} : Step.Preserves TxBranch.Grown (retryOrphan env pvMsg) := by
  refine .bind .get fun b => .bind .lift fun vMsg => .bind .lift fun ⟨tx, r⟩ => ?_
  refine .bind grown_acceptLoose ?_
  rintro ⟨fTaken, fMissing⟩
  dsimp only
  split_ifs
  · exact grown_taken
  · exact .modify fun b => ⟨List.prefix_refl _, fun _ hr => hr⟩
  · exact .pure

omit P in
theorem grown_touch : TxBranch.Grown b { b with orphans := { b.orphans with
    mapOrphanTransactionsByPrev := b.orphans.mapOrphanTransactionsByPrev.touch prev } } :=
  ⟨List.prefix_refl _, fun _ hr => Std.ExtTreeMap.mem_insertIfNew.2 (.inr hr)⟩

theorem grown_orphanLoop : ∀ {fuel i : ℕ}, Step.Preserves TxBranch.Grown (orphanLoop env fuel i)
  | 0, _ => .pure
  | fuel + 1, i => by
    refine .bind .get fun b => ?_
    split
    · exact .pure
    · exact .bind (.modify fun _ => grown_touch) fun _ =>
        .bind (.forEach (fun _ => grown_retryOrphan) _) fun _ => grown_orphanLoop

/-- **A loop that ends by itself** has made a key for all it went
through. -/
theorem mem_of_orphanLoop : ∀ {fuel i j : ℕ} {b : TxBranch} {b' : TxBranch},
    orphanLoop env fuel i b = (.ok (), b') → b'.vWorkQueue.length ≤ i + fuel → i ≤ j →
      b'.vWorkQueue[j]? = some prev → prev ∈ b'.orphans.mapOrphanTransactionsByPrev
  | 0, i, j, b, b', h, hfuel, hij, hj => by
    have hlt := (List.getElem?_eq_some_iff.1 hj).1
    omega
  | fuel + 1, i, j, b, b', h, hfuel, hij, hj => by
    rw [orphanLoop, Step.get_bind] at h
    rcases hi : b.vWorkQueue[i]? with _ | hashPrev <;> rw [hi] at h
    · obtain ⟨-, rfl⟩ := Prod.mk.inj h
      have hlt := (List.getElem?_eq_some_iff.1 hj).1
      have hle := List.getElem?_eq_none_iff.1 hi
      omega
    · dsimp only at h
      rw [Step.modify_bind] at h
      obtain ⟨_, b₁, heach, hloop⟩ := Step.bind_eq_ok.1 h
      have hgrown := (Step.Preserves.forEach (fun _ => grown_retryOrphan) _).of_eq heach
      have hgrown' := grown_orphanLoop.of_eq hloop
      rcases Nat.eq_or_lt_of_le hij with rfl | hlt
      · -- this turn's key, there ever since
        obtain ⟨t, ht⟩ := hgrown.queue.trans hgrown'.queue
        have heq : prev = hashPrev := by
          have hlt := (List.getElem?_eq_some_iff.1 hi).1
          rw [← ht, List.getElem?_append_left hlt] at hj
          exact Option.some.inj (hj.symm.trans hi)
        subst heq
        refine hgrown'.keys _ (hgrown.keys _ ?_)
        exact Std.ExtTreeMap.mem_insertIfNew_self
      · exact mem_of_orphanLoop hloop (by omega) hlt hj

omit P in
/-- Erasing leaves the queue alone, -/
theorem queue_eraseQueued {queue : List Uint256} :
    Step.Keeps (·.vWorkQueue = queue) (eraseQueued hash) (fun _ => True) :=
  .bind .get fun _ _ => .bind (Q := fun _ => True) (.lift fun _ _ => trivial) fun _ _ =>
    .modify fun _ hb => hb

/-- and so does storing. -/
theorem queue_keepOrphan {queue : List Uint256} :
    Step.Keeps (·.vWorkQueue = queue) (keepOrphan rand vMsg n) (fun _ => True) :=
  .bind .get fun _ _ => .bind (Q := fun _ => True) (.lift fun _ _ => trivial) fun _ _ =>
    .bind (.modify fun _ hb => hb) fun _ _ =>
      .bind (Q := fun _ => True) (.lift fun _ _ => trivial) fun _ _ => .modify fun _ hb => hb

theorem hollow_eraseQueued : Step.Keeps
    (fun b => b.orphans.Filed ∧ b.orphans.mapOrphanTransactionsByPrev.Hollow prev ∧
      ¬ b.orphans.Awaits prev) (eraseQueued hash) (fun _ => True) := by
  rintro b ⟨ho, hhollow, hnot⟩
  obtain ⟨o', herase, -⟩ := ho.intact.eraseOrphanTx hash
  obtain ⟨hhollow', hnot'⟩ := ho.hollow_eraseOrphanTx herase hhollow hnot
  rw [eraseQueued, Step.get_bind, herase]
  exact ⟨⟨(ho.eraseOrphanTx herase).1, hhollow', hnot'⟩, fun _ _ => trivial⟩

/-- **A transaction taken that nobody waited for** leaves its key behind. -/
theorem hollow_processTx {fuel : ℕ} (ho : b.orphans.Filed)
    (hsize : b.orphans.mapOrphanTransactions.size ≤ maxOrphanTransactions)
    (h : processTx env rand fuel vRecv b = (.ok (), b')) (hfuel : b'.vWorkQueue.length ≤ fuel)
    (hprev : prev ∈ b'.vWorkQueue) (hnot : ¬ b.orphans.Awaits prev) :
    b'.orphans.mapOrphanTransactionsByPrev.Hollow prev := by
  rw [processTx, Step.modify_bind] at h
  have hstart : TxBranch.Looking b.orphans { b with vWorkQueue := [], vEraseQueue := [] } :=
    ⟨⟨ho, hsize, fun r hr => .inl hr⟩, rfl, rfl⟩
  obtain ⟨⟨tx, r⟩, b₁, hread, h⟩ := Step.bind_eq_ok.1 h
  obtain ⟨-, rfl⟩ := Step.lift_eq_ok.1 hread
  obtain ⟨⟨fTaken, fMissing⟩, b₂, haccept, h⟩ := Step.bind_eq_ok.1 h
  have hb₂ : (acceptLoose env tx { b with vWorkQueue := [], vEraseQueue := [] }).2.Looking
      b.orphans := (looking_acceptLoose _ hstart).1
  have hqueue : b₂.vWorkQueue = [] := by
    have hkeep : (acceptLoose env tx { b with vWorkQueue := [], vEraseQueue := [] }).2.vWorkQueue =
        [] := orphans_acceptLoose.2
    rwa [haccept] at hkeep
  rw [haccept] at hb₂
  dsimp only at h
  split_ifs at h
  · obtain ⟨_, b₃, htaken, h⟩ := Step.bind_eq_ok.1 h
    obtain ⟨_, b₄, hloop, h⟩ := Step.bind_eq_ok.1 h
    rw [Step.get_bind] at h
    have hb₃ : (taken tx (truncateMsg vRecv tx) b₂).2.Looking b.orphans :=
      (looking_taken b₂ hb₂).1
    rw [htaken] at hb₃
    have hb₄ : (orphanLoop env fuel 0 b₃).2.Looking b.orphans := (looking_orphanLoop b₃ hb₃).1
    rw [hloop] at hb₄
    have hnot₄ : ¬ b₄.orphans.Awaits prev := by
      rintro ⟨hash, pvMsg, hm, hspends⟩
      rw [hb₄.orphans] at hm
      rw [hb₄.spends] at hspends
      exact hnot ⟨hash, pvMsg, hm, hspends⟩
    have hqueue₄ : b'.vWorkQueue = b₄.vWorkQueue := by
      have hsame := (Step.Keeps.forEach (g := eraseQueued) (fun hash (_ : hash ∈ b₄.vEraseQueue) =>
        queue_eraseQueued) b₄ rfl).1
      rwa [h] at hsame
    rw [hqueue₄] at hprev hfuel
    obtain ⟨j, hj⟩ := List.mem_iff_getElem?.1 hprev
    have hmem := mem_of_orphanLoop hloop (by omega) (Nat.zero_le j) hj
    have hhollow₄ : b₄.orphans.mapOrphanTransactionsByPrev.Hollow prev := by
      rcases ReverseIndex.mem_iff.1 hmem with hhollow | ⟨hash, pvMsg, hin⟩
      · exact hhollow
      · exact absurd ⟨hash, pvMsg, (hb₄.kept.filed.index _ _ _).1 hin⟩ hnot₄
    have herased := (Step.Keeps.forEach (g := eraseQueued) (fun hash (_ : hash ∈ b₄.vEraseQueue) =>
      hollow_eraseQueued) b₄ ⟨hb₄.kept.filed, hhollow₄, hnot₄⟩).1
    rw [h] at herased
    exact herased.2.1
  · have hkeep : Step.Keeps (·.vWorkQueue = [])
        (keepOrphan rand (truncateMsg vRecv tx) maxOrphanTransactions) (fun _ => True) :=
      queue_keepOrphan
    have hsame := (hkeep b₂ hqueue).1
    rw [h] at hsame
    rw [hsame] at hprev
    exact absurd hprev List.not_mem_nil
  · obtain ⟨-, rfl⟩ := Prod.mk.inj h
    rw [hqueue] at hprev
    exact absurd hprev List.not_mem_nil

/-! ## Runs -/

/-- The store in a run: it starts empty, messages are handled, whatever
comes of them, and it is cut down; in between the node does what it will.
A message meets `ok` in the state it comes in. -/
inductive TxRun (ok : TxBranch → AcceptEnv → (ℕ → Uint256) → ℕ → List UInt8 → Prop) :
    TxBranch → Prop
  | start (b : TxBranch) (h : b.orphans = .empty) : TxRun ok b
  | node {b : TxBranch} (hb : TxRun ok b) (b' : TxBranch) (h : b'.orphans = b.orphans) : TxRun ok b'
  | tx {b : TxBranch} (hb : TxRun ok b) (env : AcceptEnv) (rand : ℕ → Uint256) (fuel : ℕ)
      (vRecv : List UInt8) (h : ok b env rand fuel vRecv) : TxRun ok (processTx env rand fuel vRecv b).2
  | limit {b : TxBranch} (hb : TxRun ok b) (nMaxOrphans : ℕ) (rand : ℕ → Uint256) (o : OrphanTxs)
      (h : b.orphans.limitOrphanTxSize nMaxOrphans rand = .ok o) : TxRun ok { b with orphans := o }

/-- Every transaction the message brings into the pool, its own and the
stored orphans it completes, is one that a stored orphan spends. -/
def Awaited (b : TxBranch) (env : AcceptEnv) (rand : ℕ → Uint256) (fuel : ℕ) (vRecv : List UInt8) :
    Prop :=
  ∀ h ∈ (processTx env rand fuel vRecv b).2.vWorkQueue, b.orphans.Awaits h

variable {ok : TxBranch → AcceptEnv → (ℕ → Uint256) → ℕ → List UInt8 → Prop}

/-- **In every run the store is filed**, and is not too large. -/
theorem TxRun.filed (h : TxRun ok b) :
    b.orphans.Filed ∧ b.orphans.mapOrphanTransactions.size ≤ maxOrphanTransactions := by
  induction h with
  | start b h =>
    rw [h]
    exact ⟨.empty, by simp [OrphanTxs.empty]⟩
  | node hb b' h ih => rwa [h]
  | @tx b hb env rand fuel vRecv h ih =>
    have hkept : (processTx env rand fuel vRecv b).2.Kept b.orphans := kept_processTx ih.1 ih.2
    exact ⟨hkept.filed, hkept.size_le⟩
  | limit hb nMaxOrphans rand o h ih =>
    obtain ⟨ho, hle, -⟩ := ih.1.limitOrphanTxSize h
    exact ⟨ho, hle.trans ih.2⟩

/-- **And without hollow keys**, where every message is awaited. -/
theorem TxRun.not_hollow (h : TxRun Awaited b) :
    ∀ r, ¬ b.orphans.mapOrphanTransactionsByPrev.Hollow r := by
  induction h with
  | start b h =>
    rw [h]
    exact fun r => ReverseIndex.not_hollow_empty
  | node hb b' h ih => rwa [h]
  | @tx b hb env rand fuel vRecv h ih =>
    intro r hr
    have hkept : (processTx env rand fuel vRecv b).2.Kept b.orphans :=
      kept_processTx hb.filed.1 hb.filed.2
    rcases hkept.hollow r hr with hold | ⟨hqueue, hnot⟩
    · exact ih r hold
    · exact hnot (h r hqueue)
  | limit hb nMaxOrphans rand o h ih =>
    obtain ⟨-, -, -, hhollow⟩ := hb.filed.1.limitOrphanTxSize h
    exact fun r hr => ih r (hhollow r hr)

omit P in
theorem OrphanTxs.Consistent.not_hollow (ho : o.Consistent) :
    ∀ r, ¬ o.mapOrphanTransactionsByPrev.Hollow r := by
  intro r hr
  obtain ⟨hash, pvMsg, hm, hspends⟩ := (ho.mem_iff r).1 (ReverseIndex.mem_iff.2 (.inl hr))
  have hin := (ho.inner r hash pvMsg).2 ⟨hm, hspends⟩
  rw [ReverseIndex.inner, hr] at hin
  exact absurd hin (by simp)

namespace ParentAndChild

/-- What the pool has -/
def funding : CTransaction where
  nVersion := 1
  nTime := 3
  vin := [{ prevout := ⟨2, 0⟩, scriptSig := [], nSequence := uintMax }]
  vout := [⟨10 * coin, [1]⟩]
  nLockTime := 0

def parent : CTransaction where
  nVersion := 1
  nTime := 5
  vin := [{ prevout := ⟨3, 0⟩, scriptSig := [], nSequence := uintMax }]
  vout := [⟨9 * coin, [1]⟩]
  nLockTime := 0

/-- It spends an output the parent does not have. -/
def child : CTransaction where
  nVersion := 1
  nTime := 6
  vin := [{ prevout := ⟨5, 1⟩, scriptSig := [], nSequence := uintMax }]
  vout := [⟨8 * coin, [1]⟩]
  nLockTime := 0

def start : TxBranch where
  node := { NodeState.blank fun _ => ⟨1000, true, fun _ _ => true⟩ with
    mapBlockIndex := ({} : Map Uint256 CBlockIndex).insert 1
      { CBlockIndex.null with nHeight := 10, nTime := 900 }
    pindexBest := some 1
    nBestHeight := 10
    mempool := ⟨({} : Map Uint256 CTransaction).insert 3 funding, ∅⟩ }
  orphans := .empty
  relayed := []
  vWorkQueue := []
  vEraseQueue := []

def settings : AcceptEnv := ⟨fun _ _ _ => none, false⟩

def handle (tx : CTransaction) (b : TxBranch) : Except Failure Unit × TxBranch :=
  processTx (P := Platform.toy) settings (fun _ => 0) 5 tx.serialize b

omit [P : Platform] in
theorem run_handle {b : TxBranch} {tx : CTransaction}
    {ok : TxBranch → AcceptEnv → (ℕ → Uint256) → ℕ → List UInt8 → Prop}
    (hb : TxRun (P := Platform.toy) ok b) (h : ok b settings (fun _ => 0) 5 tx.serialize) :
    TxRun (P := Platform.toy) ok (handle tx b).2 :=
  TxRun.tx (P := Platform.toy) hb settings (fun _ => 0) 5 tx.serialize h

omit [P : Platform] in
theorem awaited_handle {b : TxBranch} {tx : CTransaction}
    (h : ∀ h ∈ (handle tx b).2.vWorkQueue, b.orphans.Awaits h) :
    Awaited (P := Platform.toy) b settings (fun _ => 0) 5 tx.serialize := h

end ParentAndChild

end CryptoBullion
