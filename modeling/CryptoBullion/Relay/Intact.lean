import CryptoBullion.Model.Answers
import CryptoBullion.Model.Relay
/-!
# What is relayed and kept of a transaction

A `tx` message is passed on in the bytes it came in, cut to the size of
the transaction in its shortest form. Where it came in that form, the
bytes are the transaction. Where a count was written longer than it had
to be, they are the transaction without its end, and nobody can read them.
What is kept as an orphan has always been read once more before.
-/

namespace CryptoBullion

variable [P : Platform]

/-- The bytes deserialise, to a transaction of this hash. -/
def Intact (hash : Uint256) (vMsg : List UInt8) : Prop :=
  ∃ tx r, CTransaction.unserialize vMsg = .ok (tx, r) ∧ tx.getHash = hash

/-- Every orphan has a buffer of its own, which can be read and is the one
it is kept as. -/
structure OrphanTxs.Intact (o : OrphanTxs) : Prop where
  reads : ∀ (hash : Uint256) (pvMsg : ℕ), o.mapOrphanTransactions[hash]? = some pvMsg →
    ∃ vMsg, o.buffers[pvMsg]? = some vMsg ∧ CryptoBullion.Intact hash vMsg
  own : ∀ (hash hash' : Uint256) (pvMsg : ℕ), o.mapOrphanTransactions[hash]? = some pvMsg →
    o.mapOrphanTransactions[hash']? = some pvMsg → hash = hash'
  fresh : ∀ pvMsg ∈ o.buffers, pvMsg < o.nAllocated

/-- And so is what was relayed. -/
structure TxBranch.Intact (b : TxBranch) : Prop where
  stored : b.orphans.Intact
  relayed : ∀ p ∈ b.relayed, CryptoBullion.Intact p.1 p.2

/-- The payload begins with what `Serialize` writes of a transaction. -/
def Canonical (vRecv : List UInt8) : Prop :=
  ∃ tx : CTransaction, tx.WellTyped ∧ tx.serialize <+: vRecv

/-- **Relayed and stored intact**: what is handed to `RelayMessage` and to
`AddOrphanTx` for a payload, and what handling it leaves relayed and kept,
can be read as the transactions it is filed under. -/
structure PassedOnIntact (vRecv : List UInt8) : Prop where
  relays : ∀ tx rest, CTransaction.unserialize vRecv = .ok (tx, rest) →
    Intact tx.getHash (truncateMsg vRecv tx)
  stores : ∀ tx rest, CTransaction.unserialize vRecv = .ok (tx, rest) →
    ∀ o : OrphanTxs, o.Intact →
      ∃ fStored o', o.addOrphanTx (truncateMsg vRecv tx) = .ok (fStored, o') ∧ o'.Intact
  handles : ∀ (env : AcceptEnv) (rand : ℕ → Uint256) (fuel : ℕ) (b : TxBranch), b.Intact →
    (processTx env rand fuel vRecv b).2.Intact

variable {o o' : OrphanTxs} {hash : Uint256} {vMsg vRecv rest : List UInt8} {tx : CTransaction}
variable {b : TxBranch} {env : AcceptEnv} {rand : ℕ → Uint256}

/-! ## The orphans -/

namespace OrphanTxs

/-- An address that was never given is nobody's. -/
theorem Intact.ne_nAllocated (ho : o.Intact) {pvMsg : ℕ}
    (h : o.mapOrphanTransactions[hash]? = some pvMsg) : pvMsg ≠ o.nAllocated := by
  obtain ⟨vMsg, hbuf, -⟩ := ho.reads hash pvMsg h
  have hlt := ho.fresh pvMsg (Std.ExtTreeMap.isSome_getElem?_iff_mem.1 (by rw [hbuf]; rfl))
  omega

/-- **Storing a buffer that can be read** does not throw, and what is kept
is still intact. -/
theorem Intact.addOrphanTx (ho : o.Intact) {r : List UInt8}
    (hread : CTransaction.unserialize vMsg = .ok (tx, r)) :
    ∃ fStored o', o.addOrphanTx vMsg = .ok (fStored, o') ∧ o'.Intact := by
  unfold OrphanTxs.addOrphanTx
  rw [hread]
  simp only [except_ok_bind]
  split_ifs with hhas
  · exact ⟨false, o, rfl, ho⟩
  · refine ⟨false, _, rfl, ho.reads, ho.own, fun p hp => ?_⟩
    have hlt := ho.fresh p hp
    show p < o.nAllocated + 1
    omega
  · refine ⟨true, _, rfl, ?_, ?_, ?_⟩
    · intro hash' p hkept
      simp only [Std.ExtTreeMap.getElem?_insert, Std.compare_eq_iff_eq] at hkept ⊢
      split at hkept
      · rename_i heq
        obtain rfl := Option.some.inj hkept
        exact ⟨vMsg, if_pos rfl, tx, r, hread, heq⟩
      · rw [if_neg (ho.ne_nAllocated hkept).symm]
        exact ho.reads hash' p hkept
    · intro hash' hash'' p h' h''
      simp only [Std.ExtTreeMap.getElem?_insert, Std.compare_eq_iff_eq] at h' h''
      split at h' <;> split at h''
      · rename_i h₁ h₂
        exact h₁.symm.trans h₂
      · exact absurd (Option.some.inj h').symm (ho.ne_nAllocated h'')
      · exact absurd (Option.some.inj h'').symm (ho.ne_nAllocated h')
      · exact ho.own hash' hash'' p h' h''
    · intro p hp
      show p < o.nAllocated + 1
      rcases Std.ExtTreeMap.mem_insert.1 hp with heq | hp
      · exact Nat.lt_succ_of_le (Std.compare_eq_iff_eq.1 heq).ge
      · have hlt := ho.fresh p hp
        omega

/-- **Every buffer that is kept was read first.** -/
theorem Intact.of_addOrphanTx (ho : o.Intact) {fStored : Bool}
    (h : o.addOrphanTx vMsg = .ok (fStored, o')) : o'.Intact := by
  obtain ⟨⟨tx, r⟩, hread, -⟩ := except_bind_eq_ok.1 h
  obtain ⟨fStored', o'', h', ho''⟩ := ho.addOrphanTx hread
  rw [h] at h'
  obtain ⟨-, rfl⟩ := Prod.ext_iff.1 (Except.ok.inj h')
  exact ho''

/-- What is left when an orphan is dropped. -/
theorem Intact.drop (ho : o.Intact) {pvMsg : ℕ} (h : o.mapOrphanTransactions[hash]? = some pvMsg) :
    (o.drop hash pvMsg tx).Intact := by
  refine ⟨fun hash' p hkept => ?_, fun hash' hash'' p h' h'' => ?_, fun p hp => ?_⟩
  · simp only [OrphanTxs.drop, Std.ExtTreeMap.getElem?_erase, Std.compare_eq_iff_eq] at hkept ⊢
    split at hkept
    · simp at hkept
    · rename_i hne
      have hp : pvMsg ≠ p := by
        rintro rfl
        exact hne (ho.own hash hash' pvMsg h hkept)
      rw [if_neg hp]
      exact ho.reads hash' p hkept
  · simp only [OrphanTxs.drop, Std.ExtTreeMap.getElem?_erase, Std.compare_eq_iff_eq] at h' h''
    split at h'
    · simp at h'
    · split at h''
      · simp at h''
      · exact ho.own hash' hash'' p h' h''
  · exact ho.fresh p (Std.ExtTreeMap.mem_of_mem_erase hp)

/-- **Erasing an orphan** reads its buffer, which does not throw. -/
theorem Intact.eraseOrphanTx (ho : o.Intact) (hash : Uint256) :
    ∃ o', o.eraseOrphanTx hash = .ok o' ∧ o'.Intact := by
  unfold OrphanTxs.eraseOrphanTx
  rcases hm : o.mapOrphanTransactions[hash]? with _ | pvMsg
  · exact ⟨o, rfl, ho⟩
  · obtain ⟨vMsg, hbuf, tx, r, hread, -⟩ := ho.reads hash pvMsg hm
    simp only [stream, hbuf, hread, except_ok_bind]
    exact ⟨_, rfl, ho.drop hm⟩

theorem Intact.evict : ∀ {n : ℕ} {o : OrphanTxs}, o.Intact →
    ∃ o', OrphanTxs.evict rand n o = .ok o' ∧ o'.Intact
  | 0, o, ho => ⟨o, rfl, ho⟩
  | n + 1, o, ho => by
    unfold OrphanTxs.evict
    rcases o.victim (rand n) with _ | hash
    · exact ⟨o, rfl, ho⟩
    · obtain ⟨o₁, herase, ho₁⟩ := ho.eraseOrphanTx hash
      simp only [herase, except_ok_bind]
      exact Intact.evict ho₁

theorem Intact.limitOrphanTxSize (nMaxOrphans : ℕ) (rand : ℕ → Uint256) (ho : o.Intact) :
    ∃ o', o.limitOrphanTxSize nMaxOrphans rand = .ok o' ∧ o'.Intact :=
  ho.evict

end OrphanTxs

/-! ## One payload -/

omit [P : Platform] in
/-- Cutting a message never cuts into the shortest form. -/
theorem truncateMsg_eq (h : CTransaction.unserialize vRecv = .ok (tx, rest)) :
    truncateMsg vRecv tx = vRecv.take tx.serialize.length := by
  have hle := codec_transaction.length_le h
  unfold truncateMsg CTransaction.getSerializeSize
  split_ifs with hlt
  · rfl
  · rw [List.take_of_length_le (by omega)]

omit [P : Platform] in
/-- A payload that begins with the shortest form of a transaction begins
with that of the one it deserialises to. -/
theorem canonical_iff (h : CTransaction.unserialize vRecv = .ok (tx, rest)) :
    Canonical vRecv ↔ tx.serialize <+: vRecv := by
  constructor
  · rintro ⟨t, ht, r, rfl⟩
    rw [codec_transaction.writes ht] at h
    obtain ⟨rfl, rfl⟩ := Prod.ext_iff.1 (Except.ok.inj h)
    exact ⟨_, rfl⟩
  · obtain ⟨-, -, hok, -⟩ := codec_transaction.reads h
    exact fun hpre => ⟨tx, hok, hpre⟩

omit [P : Platform] in
/-- **What is cut off a message** is only ever behind the transaction, or
nothing can be read of it any more. -/
theorem unserialize_truncateMsg_iff (h : CTransaction.unserialize vRecv = .ok (tx, rest)) :
    (∃ x, CTransaction.unserialize (truncateMsg vRecv tx) = .ok x) ↔ tx.serialize <+: vRecv := by
  rw [truncateMsg_eq h]
  exact codec_transaction.take_iff h

omit [P : Platform] in
/-- And what can be read is the transaction. -/
theorem unserialize_truncateMsg (h : CTransaction.unserialize vRecv = .ok (tx, rest))
    (hpre : tx.serialize <+: vRecv) :
    CTransaction.unserialize (truncateMsg vRecv tx) = .ok (tx, []) := by
  obtain ⟨-, -, hok, -⟩ := codec_transaction.reads h
  obtain ⟨r, rfl⟩ := hpre
  rw [truncateMsg_eq h, List.take_left' rfl]
  simpa using codec_transaction.writes (r := []) hok

/-! ## The branch -/

/-- Asking the pool moves neither the orphans nor what was relayed. -/
theorem keeps_acceptLoose :
    Step.Keeps TxBranch.Intact (acceptLoose env tx) (fun _ => True) := by
  intro b hb
  refine ⟨?_, fun _ _ => trivial⟩
  unfold acceptLoose
  dsimp only
  split
  · exact ⟨hb.stored, hb.relayed⟩
  · exact ⟨hb.stored, hb.relayed⟩

theorem keeps_taken (hvMsg : Intact tx.getHash vMsg) :
    Step.Keeps TxBranch.Intact (taken tx vMsg) (fun _ => True) := by
  refine Step.Keeps.bind (Q := fun _ => True) (fun b hb => ⟨⟨hb.stored, hb.relayed⟩, fun _ _ => trivial⟩)
    fun _ _ => .modify fun b hb => ⟨hb.stored, ?_⟩
  rintro p (_ | ⟨_, hp⟩)
  · exact hvMsg
  · exact hb.relayed p hp

/-- **Retrying an orphan** relays the buffer that was kept. -/
theorem keeps_retryOrphan {pvMsg : ℕ} :
    Step.Keeps TxBranch.Intact (retryOrphan env pvMsg) (fun _ => True) := by
  refine .bind .get fun b hb => .bind (Q := fun _ => True) (.lift fun _ _ => trivial) ?_
  · rintro vMsg -
    refine .bind (Q := fun x => Intact x.1.getHash vMsg) (.lift ?_) ?_
    · rintro ⟨tx', r'⟩ hread'
      exact ⟨tx', r', hread', rfl⟩
    · rintro ⟨tx, r⟩ hvMsg
      refine .bind keeps_acceptLoose ?_
      rintro ⟨fTaken, fMissing⟩ -
      dsimp only
      split_ifs
      · exact keeps_taken hvMsg
      · exact .modify fun b hb => ⟨hb.stored, hb.relayed⟩
      · exact .pure trivial

theorem keeps_orphanLoop : ∀ {fuel i : ℕ},
    Step.Keeps TxBranch.Intact (orphanLoop env fuel i) (fun _ => True)
  | 0, _ => .pure trivial
  | fuel + 1, i => by
    refine .bind .get fun b _ => ?_
    split
    · exact .pure trivial
    · refine .bind (.modify fun b hb => ⟨⟨hb.stored.reads, hb.stored.own, hb.stored.fresh⟩,
        hb.relayed⟩) fun _ _ => ?_
      exact .bind (.forEach fun mi _ => keeps_retryOrphan) fun _ _ => keeps_orphanLoop

theorem keeps_setOrphans (ho : o.Intact) : Step.Keeps (ε := Failure) TxBranch.Intact
    (Step.modify fun b => { b with orphans := o }) (fun _ => True) :=
  .modify fun _ hb => ⟨ho, hb.relayed⟩

theorem keeps_eraseQueued : Step.Keeps TxBranch.Intact (eraseQueued hash) (fun _ => True) := by
  refine .bind .get fun b hb => ?_
  obtain ⟨o', herase, ho'⟩ := hb.stored.eraseOrphanTx hash
  rw [herase]
  exact .bind (Q := OrphanTxs.Intact) (.lift fun _ h => Except.ok.inj h ▸ ho') fun _ ho =>
    keeps_setOrphans ho

/-- **Keeping a buffer**, and evicting what is too many. -/
theorem keeps_keepOrphan {nMaxOrphans : ℕ} :
    Step.Keeps TxBranch.Intact (keepOrphan rand vMsg nMaxOrphans) (fun _ => True) := by
  refine .bind .get fun b hb => ?_
  refine .bind (Q := fun x => x.2.Intact) (.lift fun x hadd => hb.stored.of_addOrphanTx hadd) ?_
  rintro ⟨fStored, o'⟩ ho'
  refine .bind (keeps_setOrphans ho') fun _ _ => ?_
  obtain ⟨o'', hlimit, ho''⟩ := ho'.limitOrphanTxSize nMaxOrphans rand
  rw [hlimit]
  exact .bind (Q := OrphanTxs.Intact) (.lift fun _ h => Except.ok.inj h ▸ ho'') fun _ ho =>
    keeps_setOrphans ho

/-- **Handling a payload** leaves everything intact, if what it would relay
is. -/
theorem keeps_processTx {fuel : ℕ}
    (hrelay : ∀ tx rest, CTransaction.unserialize vRecv = .ok (tx, rest) →
      Intact tx.getHash (truncateMsg vRecv tx)) :
    Step.Keeps TxBranch.Intact (processTx env rand fuel vRecv) (fun _ => True) := by
  refine .bind (.modify fun b hb => ⟨hb.stored, hb.relayed⟩) fun _ _ => ?_
  refine .bind (Q := fun x => Intact x.1.getHash (truncateMsg vRecv x.1)) (.lift ?_) ?_
  · rintro ⟨tx, rest⟩ h
    exact hrelay tx rest h
  rintro ⟨tx, rest⟩ hvMsg
  refine .bind keeps_acceptLoose ?_
  rintro ⟨fTaken, fMissing⟩ -
  dsimp only
  split_ifs
  · refine .bind (keeps_taken hvMsg) fun _ _ => .bind keeps_orphanLoop fun _ _ => ?_
    exact .bind .get fun b _ => .forEach fun hash _ => keeps_eraseQueued
  · exact keeps_keepOrphan
  · exact .pure trivial

/-- **A transaction is passed on intact exactly where it came in its
shortest form**: `Serialize` writes every count in the fewest bytes, and a
payload in which one took more is cut short of its end. -/
theorem passedOnIntact_iff (h : CTransaction.unserialize vRecv = .ok (tx, rest)) :
    PassedOnIntact vRecv ↔ Canonical vRecv := by
  rw [canonical_iff h, ← unserialize_truncateMsg_iff h]
  constructor
  · intro hp
    obtain ⟨tx', r, hread, -⟩ := hp.relays tx rest h
    exact ⟨_, hread⟩
  · intro hx
    have hread := unserialize_truncateMsg h ((unserialize_truncateMsg_iff h).1 hx)
    -- the payload deserialises to nothing else
    have honly : ∀ tx' rest', CTransaction.unserialize vRecv = .ok (tx', rest') → tx' = tx := by
      intro tx' rest' h'
      rw [h] at h'
      exact (Prod.ext_iff.1 (Except.ok.inj h')).1.symm
    have hrelay : ∀ tx' rest', CTransaction.unserialize vRecv = .ok (tx', rest') →
        Intact tx'.getHash (truncateMsg vRecv tx') := by
      intro tx' rest' h'
      rw [honly tx' rest' h']
      exact ⟨tx, [], hread, rfl⟩
    refine ⟨hrelay, fun tx' rest' h' o ho => ?_, fun env rand fuel b hb => ?_⟩
    · rw [honly tx' rest' h']
      exact ho.addOrphanTx hread
    · exact (keeps_processTx hrelay b hb).1

/-! ## Two payloads

A transaction of one input and one output, once as it is serialised and
once with its input count in three bytes. -/

/-- The transaction -/
def plainTx : CTransaction :=
  ⟨1, 5, [⟨⟨7, 0⟩, [81], uintMax⟩], [⟨1000, [82]⟩], 0⟩

/-- Its bytes, the count `1` written as `FD 01 00` -/
def longCountPayload : List UInt8 :=
  leInt 4 1 ++ leBytes 4 5 ++ [253, 1, 0] ++ (plainTx.serialize.drop 9)

omit [P : Platform] in
/-- The shortest form, and what is said of it. -/
theorem passedOnIntact_plainTx :
    letI := Platform.toy
    PassedOnIntact plainTx.serialize ↔ Canonical plainTx.serialize := by
  let := Platform.toy
  have hread : CTransaction.unserialize plainTx.serialize = .ok (plainTx, []) := by decide +kernel
  exact passedOnIntact_iff hread

omit [P : Platform] in
/-- **A count that takes a byte more than it must** costs the transaction
its end: it is taken, and what is relayed under its hash cannot be read. -/
theorem not_passedOnIntact :
    letI := Platform.toy
    (∃ rest, CTransaction.unserialize longCountPayload = .ok (plainTx, rest)) ∧
      CTransaction.unserialize (truncateMsg longCountPayload plainTx) =
        .error (.exception "CDataStream::read() : end of data") ∧
      ¬ PassedOnIntact longCountPayload := by
  let := Platform.toy
  have hread : CTransaction.unserialize longCountPayload = .ok (plainTx, []) := by decide +kernel
  have hcut : CTransaction.unserialize (truncateMsg longCountPayload plainTx) =
      .error (.exception "CDataStream::read() : end of data") := by decide +kernel
  refine ⟨⟨[], hread⟩, hcut, fun h => ?_⟩
  obtain ⟨tx, r, hr, -⟩ := h.relays plainTx [] hread
  rw [hcut] at hr
  exact absurd hr (by simp)

end CryptoBullion
