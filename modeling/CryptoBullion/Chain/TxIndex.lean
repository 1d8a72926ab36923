import CryptoBullion.Common.Ledger
import CryptoBullion.Chain.Sound
/-!
# The transaction index as a ledger's

What the database says of transactions, with null positions read as empty
slots, is an index in the sense of `Ledger`. A transaction that
`ConnectBlock`'s loop lets through is entered into the index the queued
changes show, a block that connects enters its transactions one after
another, and a block that disconnects undoes them, last one first. So once
the index is that of a sound ledger it stays that of a sound ledger, block
by block.
-/

namespace CryptoBullion

open Ledger (Index Tx indexOf)

/-! ## Reading the database as an index -/

/-- An entry with its null positions read as empty slots. -/
def CTxIndex.toEntry (i : CTxIndex) : Ledger.Entry CDiskTxPos :=
  (i.pos, i.vSpent.map fun p => if p.isNull then none else some p)

/-- What the database says of transactions. -/
def CTxDB.index (txdb : CTxDB) : Index Uint256 CDiskTxPos := fun h =>
  (txdb.readTxIndex h).map CTxIndex.toEntry

/-- The same through a map of queued changes. -/
def lookup (mapQueuedChanges : Map Uint256 CTxIndex) (txdb : CTxDB) (h : Uint256) :
    Option CTxIndex :=
  (mapQueuedChanges[h]?).or (txdb.readTxIndex h)

def queued (mapQueuedChanges : Map Uint256 CTxIndex) (txdb : CTxDB) : Index Uint256 CDiskTxPos :=
  fun h => (lookup mapQueuedChanges txdb h).map CTxIndex.toEntry

/-- An output as a ledger names it. -/
def COutPoint.key (o : COutPoint) : Uint256 × ℕ := (o.hash, o.n)

/-- The outputs a transaction spends: a coinbase spends none. -/
def CTransaction.spends (tx : CTransaction) : List COutPoint :=
  if tx.isCoinBase then [] else tx.vin.map (·.prevout)

variable {txdb txdb' : CTxDB} {h hash : Uint256} {i : CTxIndex} {pos : CDiskTxPos} {n nOutputs : ℕ}
variable {q q' : Map Uint256 CTxIndex} {w : Write DbKey DbValue}

theorem CTxIndex.toEntry_fresh :
    (CTxIndex.fresh pos nOutputs).toEntry = (pos, List.replicate nOutputs none) := by
  simp [CTxIndex.toEntry, CTxIndex.fresh, CDiskTxPos.null, CDiskTxPos.isNull]

/-- Setting a slot sets it in the entry. -/
theorem CTxIndex.toEntry_set {p : CDiskTxPos} :
    ({ i with vSpent := i.vSpent.set n p } : CTxIndex).toEntry =
      (i.toEntry.1, i.toEntry.2.set n (if p.isNull then none else some p)) := by
  simp [CTxIndex.toEntry, List.map_set]

theorem readTxIndex_updateTxIndex :
    (txdb.updateTxIndex hash i).readTxIndex h = if hash = h then some i else txdb.readTxIndex h := by
  rw [CTxDB.readTxIndex, CTxDB.updateTxIndex, Store.read_write]
  by_cases heq : hash = h
  · simp [heq]
  · have hne : DbKey.tx hash ≠ .tx h := fun hk => heq (DbKey.tx.inj hk)
    simp only [if_neg heq, if_neg hne]
    rfl

theorem index_updateTxIndex :
    (txdb.updateTxIndex hash i).index = Function.update txdb.index hash (some i.toEntry) := by
  funext h
  rw [CTxDB.index, readTxIndex_updateTxIndex, Function.update_apply]
  by_cases heq : hash = h
  · simp [heq]
  · simp [heq, Ne.symm heq, CTxDB.index]

theorem index_eraseTxIndex :
    (txdb.eraseTxIndex hash).index = Function.update txdb.index hash none := by
  funext h
  rw [CTxDB.index, CTxDB.readTxIndex, CTxDB.eraseTxIndex, Store.read_write, Function.update_apply]
  by_cases heq : hash = h
  · simp [heq]
  · have hne : DbKey.tx hash ≠ .tx h := fun hk => heq (DbKey.tx.inj hk)
    simp only [if_neg (Ne.symm heq), if_neg hne]
    rfl

/-- A write of another kind does not touch the index. -/
theorem index_write (hw : ∀ h, w.1 ≠ .tx h) : CTxDB.index (txdb.write w) = txdb.index := by
  funext h
  rw [CTxDB.index, CTxDB.readTxIndex, Store.read_write_of_ne (hw h)]
  rfl

/-- A commit does not change what is read. -/
theorem index_commit : CTxDB.index txdb.commit = txdb.index := by
  funext h
  rw [CTxDB.index, CTxDB.readTxIndex, Store.read_eq_committed rfl, Store.committed_commit]
  rfl

/-! ## Queued changes -/

theorem queued_empty : queued ∅ txdb = txdb.index := by
  funext h
  simp [queued, lookup, CTxDB.index]

theorem lookup_insert : lookup (q.insert hash i) txdb h = if hash = h then some i else lookup q txdb h := by
  rw [lookup, Std.ExtTreeMap.getElem?_insert]
  simp only [Std.compare_eq_iff_eq]
  split <;> simp [lookup]

theorem queued_insert :
    queued (q.insert hash i) txdb = Function.update (queued q txdb) hash (some i.toEntry) := by
  funext h
  rw [queued, lookup_insert, Function.update_apply]
  by_cases heq : hash = h
  · simp [heq]
  · simp [heq, Ne.symm heq, queued]

/-- Writing changes with distinct names: each is found, and nothing else is
new. -/
theorem readTxIndex_writeQueued (h : Uint256) (txdb : CTxDB) {l : List (Uint256 × CTxIndex)}
    (hl : l.Pairwise fun a b => a.1 ≠ b.1) :
    (∀ i, (h, i) ∈ l → (writeQueued l txdb).readTxIndex h = some i) ∧
      ((∀ i, (h, i) ∉ l) → (writeQueued l txdb).readTxIndex h = txdb.readTxIndex h) := by
  induction l generalizing txdb with
  | nil => exact ⟨fun i hi => absurd hi List.not_mem_nil, fun _ => rfl⟩
  | cons c l ih =>
    rw [List.pairwise_cons] at hl
    obtain ⟨hin, hout⟩ := ih (txdb.updateTxIndex c.1 c.2) hl.2
    rw [writeQueued, List.foldl_cons, ← writeQueued]
    refine ⟨fun i hi => ?_, fun hno => ?_⟩
    · rcases List.mem_cons.1 hi with rfl | hi
      · rw [hout fun i hi => hl.1 _ hi rfl, readTxIndex_updateTxIndex, if_pos rfl]
      · exact hin i hi
    · have hne : c.1 ≠ h := fun heq => hno c.2 (heq ▸ List.mem_cons_self)
      rw [hout fun i hi => hno i (List.mem_cons_of_mem _ hi), readTxIndex_updateTxIndex, if_neg hne]

/-- **Writing the queued changes out** makes the database say what the
changes showed. -/
theorem index_writeQueued : (writeQueued q.toList txdb).index = queued q txdb := by
  funext h
  have hpair : q.toList.Pairwise fun a b => a.1 ≠ b.1 :=
    Std.ExtTreeMap.distinct_keys_toList.imp fun hne heq => hne (Std.compare_eq_iff_eq.2 heq)
  obtain ⟨hin, hout⟩ := readTxIndex_writeQueued h txdb hpair
  rw [CTxDB.index, queued, lookup]
  rcases hq : q[h]? with _ | i
  · rw [hout fun i hi => ?_]
    · rfl
    · rw [Std.ExtTreeMap.mem_toList_iff_getElem?_eq_some, hq] at hi
      exact absurd hi (by simp)
  · rw [hin i (Std.ExtTreeMap.mem_toList_iff_getElem?_eq_some.2 hq)]
    rfl

/-! ## Spending inputs -/

section Spending

variable [P : Platform]
variable {s s' : NodeState} {ans : Answer} {tx : CTransaction} {vin : List CTxIn}
variable {inputs inputs' : MapPrevTx} {pindex : Uint256}

/-- A transaction at its place, as a ledger sees it. -/
def CTransaction.toLedger (tx : CTransaction) (pos : CDiskTxPos) :
    Tx Uint256 CDiskTxPos CTxOut where
  id := tx.getHash
  pos := pos
  ins := tx.spends.map COutPoint.key
  outs := tx.vout

omit [P : Platform] in
/-- **What `FetchInputs` fetches for a block** is what the queued changes
show, with an output wherever one is asked for. -/
theorem of_fetchLoop_eq_ok (h : fetchLoop s ans q true false vin inputs = .ok inputs')
    (hin : ∀ h p, inputs[h]? = some p → lookup q s.txdb h = some p.1) :
    ∀ h p, inputs'[h]? = some p → lookup q s.txdb h = some p.1 := by
  induction vin generalizing inputs with
  | nil =>
    obtain rfl := Except.ok.inj h
    exact hin
  | cons txin vin ih =>
    rw [fetchLoop] at h
    split_ifs at h with hc
    · exact ih h hin
    · obtain ⟨prev, hprev, h⟩ := except_bind_eq_ok.1 h
      refine ih h fun h' p hp => ?_
      rw [Std.ExtTreeMap.getElem?_insert] at hp
      simp only [Std.compare_eq_iff_eq] at hp
      split_ifs at hp with heq
      · subst heq
        obtain rfl := Option.some.inj hp
        -- the entry is looked for where the queued changes have it, else on disk
        have hfound : (if (true || false) && q.contains txin.prevout.hash then q[txin.prevout.hash]?
            else s.txdb.readTxIndex txin.prevout.hash) = lookup q s.txdb txin.prevout.hash := by
          rw [lookup, Std.ExtTreeMap.contains_eq_isSome_getElem?]
          rcases q[txin.prevout.hash]? with _ | i <;> simp
        rw [fetchPrev, hfound] at hprev
        rcases hl : lookup q s.txdb txin.prevout.hash with _ | txindex
        · simp [hl] at hprev
        · simp only [hl] at hprev
          split_ifs at hprev
          · obtain ⟨txPrev, -, hprev⟩ := except_bind_eq_ok.1 hprev
            rw [← Except.ok.inj hprev]
          · obtain ⟨txPrev, -, hprev⟩ := except_bind_eq_ok.1 hprev
            rw [← Except.ok.inj hprev]
      · exact hin h' p hp

omit [P : Platform] in
theorem of_fetchRange_eq_ok (h : fetchRange inputs vin = .ok ()) :
    ∀ txin ∈ vin, ∀ p, inputs[txin.prevout.hash]? = some p → txin.prevout.n < p.1.vSpent.length := by
  induction vin with
  | nil => exact fun txin hi => absurd hi List.not_mem_nil
  | cons txin vin ih =>
    rw [fetchRange] at h
    intro txin' hi p hp
    rcases hh : inputs[txin.prevout.hash]? with _ | ⟨txindex, txPrev⟩
    · simp [hh] at h
    · simp only [hh] at h
      obtain ⟨hr, h⟩ := except_unit_bind_eq_ok.1 h
      rcases List.mem_cons.1 hi with rfl | hi
      · rw [hh] at hp
        obtain rfl := Option.some.inj hp
        exact not_le.1 fun hle => (reject_eq_ok.1 hr) (.inr hle)
      · exact ih h txin' hi p hp

/-- **`ConnectInputs` spends**: each input's output was free and is marked,
one after another. -/
theorem spends_connectSpends {fStrict : Bool} {k : ℕ} (hpos : pos.isNull = false)
    (h : connectSpends s tx pos true false fStrict k vin inputs q = .ok q')
    (hlook : ∀ h p, inputs[h]? = some p → lookup q s.txdb h = some p.1)
    (hrange : ∀ txin ∈ vin, ∀ p, inputs[txin.prevout.hash]? = some p →
      txin.prevout.n < p.1.vSpent.length) :
    Ledger.Spends pos (queued q s.txdb) (vin.map (·.prevout.key)) (queued q' s.txdb) := by
  induction vin generalizing k inputs q with
  | nil =>
    obtain rfl := Except.ok.inj h
    exact .nil
  | cons txin vin ih =>
    rw [connectSpends] at h
    rcases hh : inputs[txin.prevout.hash]? with _ | ⟨txindex, txPrev⟩
    · simp [hh] at h
    simp only [hh] at h
    obtain ⟨hnull, h⟩ := except_unit_bind_eq_ok.1 h
    obtain ⟨-, h⟩ := except_unit_bind_eq_ok.1 h
    have hlt := hrange txin List.mem_cons_self _ hh
    have hentry : queued q s.txdb txin.prevout.hash = some txindex.toEntry := by
      rw [queued, hlook _ _ hh]
      rfl
    have hfree : Ledger.Free (queued q s.txdb) txin.prevout.key := by
      refine ⟨_, hentry, ?_⟩
      rw [reject_eq_ok, List.getElem?_eq_getElem hlt, Option.getD_some, Bool.not_eq_false] at hnull
      show (txindex.vSpent.map _)[txin.prevout.n]? = _
      rw [List.getElem?_map, List.getElem?_eq_getElem hlt, Option.map_some, if_pos hnull]
    refine .cons hfree ?_
    rw [Ledger.mark_singleton (o := txin.prevout.key) hentry]
    have hnew : Function.update (queued q s.txdb) txin.prevout.key.1
          (some (txindex.toEntry.1, txindex.toEntry.2.set txin.prevout.key.2 (some pos))) =
        queued (q.insert txin.prevout.hash
          { txindex with vSpent := txindex.vSpent.set txin.prevout.n pos }) s.txdb := by
      rw [queued_insert, CTxIndex.toEntry_set, hpos]
      rfl
    rw [hnew]
    refine ih h (fun h' p hp => ?_) fun txin' hi p hp => ?_
    · rw [Std.ExtTreeMap.getElem?_insert] at hp
      rw [lookup_insert]
      simp only [Std.compare_eq_iff_eq] at hp
      split_ifs at hp ⊢ with heq
      · rw [← Option.some.inj hp]
      · exact hlook h' p hp
    · rw [Std.ExtTreeMap.getElem?_insert] at hp
      simp only [Std.compare_eq_iff_eq] at hp
      split_ifs at hp with heq
      · rw [← Option.some.inj hp, List.length_set]
        exact hrange txin' (List.mem_cons_of_mem _ hi) _ (heq ▸ hh)
      · exact hrange txin' (List.mem_cons_of_mem _ hi) p hp

/-- What a turn of `ConnectBlock`'s loop counts before the inputs. -/
def Tally.counted (t : Tally) (tx : CTransaction) : Tally :=
  { t with
    nSigOps := t.nSigOps + tx.getLegacySigOpCount
    nTxPos := t.nTxPos + tx.getSerializeSize }

/-- A turn of the loop that succeeds, taken apart. -/
theorem of_tallyTx_eq_ok {t t' : Tally} (h : tallyTx s ans pindex t tx = .ok t') :
    let pos : CDiskTxPos := ⟨(s.entry pindex).nFile, (s.entry pindex).nBlockPos, t.nTxPos⟩
    overwrites s.txdb tx.getHash = false ∧ ∃ t₁,
      (if tx.isCoinBase then tallyCoinBase (t.counted tx) tx
        else tallySpend s ans pindex pos (t.counted tx) tx) = .ok t₁ ∧
      t' = { t₁ with mapQueuedChanges :=
        t₁.mapQueuedChanges.insert tx.getHash (CTxIndex.fresh pos tx.vout.length) } := by
  unfold tallyTx at h
  obtain ⟨hover, h⟩ := except_unit_bind_eq_ok.1 h
  obtain ⟨-, h⟩ := except_unit_bind_eq_ok.1 h
  refine ⟨by simpa using hover, ?_⟩
  split at h
  · obtain ⟨t₁, h₁, h⟩ := except_bind_eq_ok.1 h
    exact ⟨t₁, by rwa [if_pos ‹_›], (Except.ok.inj h).symm⟩
  · obtain ⟨t₁, h₁, h⟩ := except_bind_eq_ok.1 h
    exact ⟨t₁, by rwa [if_neg ‹_›], (Except.ok.inj h).symm⟩

/-- A spend that succeeds has fetched its inputs, connected them, and
counted them. -/
theorem of_tallySpend_eq_ok {t t' : Tally} (h : tallySpend s ans pindex pos t tx = .ok t') :
    ∃ inputs q' nP2SH nTxValueIn nTxValueOut,
      tx.fetchInputs s ans t.mapQueuedChanges true false = .ok inputs ∧
      tx.getP2SHSigOpCount inputs = .ok nP2SH ∧ tx.getValueIn inputs = .ok nTxValueIn ∧
      tx.getValueOut = .ok nTxValueOut ∧
      tx.connectInputs s inputs t.mapQueuedChanges pos pindex true false true = .ok q' ∧
      t' = { t with
        mapQueuedChanges := q'
        nSigOps := t.nSigOps + nP2SH
        nValueIn := t.nValueIn + nTxValueIn
        nValueOut := t.nValueOut + nTxValueOut
        nFees := if tx.isCoinStake then t.nFees else t.nFees + (nTxValueIn - nTxValueOut)
        nStakeReward := if tx.isCoinStake then nTxValueOut - nTxValueIn else t.nStakeReward } := by
  simp only [tallySpend, except_bind_eq_ok, onFalse_eq_ok, reject_eq_ok, exists_const] at h
  obtain ⟨inputs, hfetch, nP2SH, hsig, -, nTxValueIn, hin, nTxValueOut, hout, q', hconn, h⟩ := h
  exact ⟨inputs, q', nP2SH, nTxValueIn, nTxValueOut, hfetch, hsig, hin, hout, hconn,
    (Except.ok.inj h).symm⟩

omit [P : Platform] in
/-- Inputs fetched for a block: what the queued changes show, in range. -/
theorem of_fetchInputs_eq_ok (hcb : tx.isCoinBase = false)
    (h : tx.fetchInputs s ans q true false = .ok inputs) :
    (∀ h p, inputs[h]? = some p → lookup q s.txdb h = some p.1) ∧
      ∀ txin ∈ tx.vin, ∀ p, inputs[txin.prevout.hash]? = some p →
        txin.prevout.n < p.1.vSpent.length := by
  rw [CTransaction.fetchInputs, hcb, if_neg Bool.false_ne_true] at h
  obtain ⟨inputs', hloop, h⟩ := except_bind_eq_ok.1 h
  obtain ⟨hrange, h⟩ := except_unit_bind_eq_ok.1 h
  obtain rfl := Except.ok.inj h
  exact ⟨of_fetchLoop_eq_ok hloop (by simp), of_fetchRange_eq_ok hrange⟩

/-- `ConnectInputs` in its three parts. -/
theorem of_connectInputs_eq_ok (hcb : tx.isCoinBase = false)
    (h : tx.connectInputs s inputs q pos pindex true false true = .ok q') :
    ∃ nValueIn, connectChecks s tx inputs pindex 0 tx.vin = .ok nValueIn ∧
      connectSpends s tx pos true false true 0 tx.vin inputs q = .ok q' ∧
      connectFees tx nValueIn true = .ok () := by
  rw [CTransaction.connectInputs, hcb, if_neg Bool.false_ne_true] at h
  obtain ⟨nValueIn, hchecks, h⟩ := except_bind_eq_ok.1 h
  obtain ⟨q₁, hspend, h⟩ := except_bind_eq_ok.1 h
  obtain ⟨hfees, h⟩ := except_unit_bind_eq_ok.1 h
  obtain rfl := Except.ok.inj h
  exact ⟨nValueIn, hchecks, hspend, hfees⟩

/-- **One turn of `ConnectBlock`'s loop** enters the transaction into the
index the queued changes show. -/
theorem enter_tallyTx {t t' : Tally} (hfile : (s.entry pindex).nFile ≠ uintMax)
    (h : tallyTx s ans pindex t tx = .ok t')
    (hfresh : queued t.mapQueuedChanges s.txdb tx.getHash = none) :
    let new := tx.toLedger ⟨(s.entry pindex).nFile, (s.entry pindex).nBlockPos, t.nTxPos⟩
    Ledger.Enterable new (queued t.mapQueuedChanges s.txdb) ∧
      queued t'.mapQueuedChanges s.txdb = Ledger.enter new (queued t.mapQueuedChanges s.txdb) ∧
      t'.nTxPos = t.nTxPos + tx.getSerializeSize := by
  set pos : CDiskTxPos := ⟨(s.entry pindex).nFile, (s.entry pindex).nBlockPos, t.nTxPos⟩ with hposdef
  have hpos : pos.isNull = false := by simp [CDiskTxPos.isNull, hposdef, hfile]
  obtain ⟨-, t₁, h₁, rfl⟩ := of_tallyTx_eq_ok h
  -- what the transaction spends, and where the next one starts
  have hspends : Ledger.Spends pos (queued t.mapQueuedChanges s.txdb)
      (tx.spends.map COutPoint.key) (queued t₁.mapQueuedChanges s.txdb) ∧
      t₁.nTxPos = t.nTxPos + tx.getSerializeSize := by
    rw [CTransaction.spends]
    split_ifs at h₁ ⊢ with hcb
    · obtain ⟨_, -, h₁⟩ := except_bind_eq_ok.1 h₁
      obtain rfl := Except.ok.inj h₁
      exact ⟨.nil, rfl⟩
    · rw [Bool.not_eq_true] at hcb
      obtain ⟨inputs, q', _, _, _, hfetch, -, -, -, hconn, rfl⟩ := of_tallySpend_eq_ok h₁
      obtain ⟨hlook, hrange⟩ := of_fetchInputs_eq_ok hcb hfetch
      obtain ⟨_, -, hspend, -⟩ := of_connectInputs_eq_ok hcb hconn
      rw [List.map_map]
      exact ⟨spends_connectSpends hpos hspend hlook hrange, rfl⟩
  refine ⟨⟨hfresh, hspends.1.nodup, hspends.1.free⟩, ?_, hspends.2⟩
  rw [queued_insert, hspends.1.eq, CTxIndex.toEntry_fresh]
  rfl

end Spending

/-! ## Blocks -/

section Blocks

variable [P : Platform]
variable {s s' : NodeState} {ans : Answer} {block : CBlock} {pindex : Uint256} {b : StoredBlock}
variable {L : List (Tx Uint256 CDiskTxPos CTxOut)} {c : List StoredBlock}

/-- A transaction of a stored block, at its place. -/
def StoredBlock.toLedger (b : StoredBlock) (p : ℕ × CTransaction) : Tx Uint256 CDiskTxPos CTxOut :=
  p.2.toLedger ⟨b.nFile, b.nBlockPos, p.1⟩

/-- The transactions of a stored block, last one first. -/
def StoredBlock.ledger (b : StoredBlock) : List (Tx Uint256 CDiskTxPos CTxOut) :=
  (b.txs.map b.toLedger).reverse

/-- The transactions of a chain of blocks, newest first. -/
def ledgerOf (c : List StoredBlock) : List (Tx Uint256 CDiskTxPos CTxOut) :=
  c.flatMap StoredBlock.ledger

omit [P : Platform] in
theorem map_snd_withOffsets {off : ℕ} {txs : List CTransaction} :
    (withOffsets off txs).map Prod.snd = txs := by
  induction txs generalizing off with
  | nil => rfl
  | cons tx txs ih => rw [withOffsets, List.map_cons, ih]

omit [P : Platform] in
theorem StoredBlock.map_snd_txs : b.txs.map Prod.snd = b.block.vtx := map_snd_withOffsets

theorem mem_ledgerOf {t : Tx Uint256 CDiskTxPos CTxOut} :
    t ∈ ledgerOf c ↔ ∃ b ∈ c, ∃ p ∈ b.txs, b.toLedger p = t := by
  simp [ledgerOf, StoredBlock.ledger]

/-- **`ConnectBlock`'s loop enters its transactions one after another**,
where they all have new names. -/
theorem sound_tallyTxs {t t' : Tally} {txs : List CTransaction}
    (hfile : (s.entry pindex).nFile ≠ uintMax) (h : tallyTxs s ans pindex t txs = .ok t')
    (hs : Ledger.Sound L) (hq : queued t.mapQueuedChanges s.txdb = indexOf L)
    (hnodup : (txs.map CTransaction.getHash).Nodup)
    (hfresh : ∀ tx ∈ txs, ∀ u ∈ L, u.id ≠ tx.getHash) :
    let new := (withOffsets t.nTxPos txs).map fun p =>
      p.2.toLedger ⟨(s.entry pindex).nFile, (s.entry pindex).nBlockPos, p.1⟩
    Ledger.Sound (new.reverse ++ L) ∧
      queued t'.mapQueuedChanges s.txdb = indexOf (new.reverse ++ L) := by
  induction txs generalizing t L with
  | nil =>
    obtain rfl := Except.ok.inj h
    exact ⟨hs, hq⟩
  | cons tx txs ih =>
    obtain ⟨t₁, h₁, h⟩ := except_bind_eq_ok.1 h
    rw [List.map_cons, List.nodup_cons] at hnodup
    have hnone : queued t.mapQueuedChanges s.txdb tx.getHash = none := by
      rw [hq, Ledger.indexOf_eq_none_iff]
      exact hfresh tx List.mem_cons_self
    obtain ⟨hent, hq₁, hpos⟩ := enter_tallyTx hfile h₁ hnone
    rw [hq] at hent hq₁
    obtain ⟨hs', hq'⟩ := ih h (.cons hent hs) hq₁ hnodup.2 fun tx' htx' u hu => by
      rcases List.mem_cons.1 hu with rfl | hu
      · exact fun heq => hnodup.1 (List.mem_map.2 ⟨tx', htx', heq.symm⟩)
      · exact hfresh tx' (List.mem_cons_of_mem _ htx') u hu
    rw [hpos] at hs' hq'
    simp only [withOffsets, List.map_cons, List.reverse_cons, List.append_assoc,
      List.singleton_append]
    exact ⟨hs', hq'⟩

/-- The parent's record with its successor, where there is a parent. -/
def recordParent (s : NodeState) (pindex hashNext : Uint256) (txdb : CTxDB) : CTxDB :=
  match s.pprev pindex with
  | none => txdb
  | some prev =>
    txdb.writeBlockIndex { CDiskBlockIndex.ofIndex (s.entry prev) with hashNext := hashNext }

omit [P : Platform] in
/-- Telling the wallets changes the wallets. -/
theorem forEach_onWallets (x : CTransaction → Step (List CWallet) Failure Unit)
    (txs : List CTransaction) (s : NodeState) : (Step.forEach (fun tx => onWallets (x tx)) txs s).2 =
      { s with wallets := (Step.forEach (fun tx => onWallets (x tx)) txs s).2.wallets } := by
  induction txs generalizing s with
  | nil => rfl
  | cons tx txs ih =>
    rw [Step.forEach_cons]
    rcases h : onWallets (x tx) s with ⟨e | u, s₁⟩
    · rw [Step.bind_of_error h]
      rw [onWallets, Step.zoom_apply] at h
      rw [← (Prod.mk.inj h).2]
    · rw [Step.bind_of_ok h, ih]
      rw [onWallets, Step.zoom_apply] at h
      rw [← (Prod.mk.inj h).2]

/-- **What `ConnectBlock` has done when it succeeds.** -/
theorem of_connectBlock_eq_ok (h : connectBlock block pindex s = (.ok (), s')) :
    ∃ t s₁, tallyBlock s.ask.2 s.ask.1 block pindex = .ok t ∧
      s₁ = s.ask.2.setEntry pindex (recordSupply s.ask.2 pindex t) ∧
      s' = { s₁ with
        txdb := recordParent s₁ pindex pindex (writeQueued t.mapQueuedChanges.toList
          (s.txdb.writeBlockIndex (CDiskBlockIndex.ofIndex (s₁.entry pindex))))
        wallets := s'.wallets } := by
  rw [connectBlock, askOutside_bind, Step.get_bind] at h
  obtain ⟨t, ht, h⟩ := Step.lift_bind_eq_ok.1 h
  refine ⟨t, _, ht, rfl, ?_⟩
  rw [Step.modify_bind, Step.get_bind, onTxDb_modify_bind, onTxDb_modify_bind] at h
  have hlast : ∀ {s₂ : NodeState}, Step.forEach
      (fun tx => onWallets (syncWithWallets tx block true)) block.vtx s₂ = (.ok (), s') →
      s' = { s₂ with wallets := s'.wallets } := by
    intro s₂ h₂
    have := forEach_onWallets (fun tx => syncWithWallets tx block true) block.vtx s₂
    rwa [h₂] at this
  rcases hp : (s.ask.2.setEntry pindex (recordSupply s.ask.2 pindex t)).pprev pindex with
    _ | prev <;> simp only [hp] at h
  · rw [hlast h, recordParent, hp]
    rfl
  · rw [onTxDb_modify_bind] at h
    rw [hlast h, recordParent, hp]
    rfl

theorem index_recordParent {hashNext : Uint256} {txdb : CTxDB} :
    (recordParent s pindex hashNext txdb).index = txdb.index := by
  unfold recordParent
  split
  · rfl
  · exact index_write (by simp)

/-- What the index is after a block has connected. -/
theorem index_connectBlock {t : Tally} {s₁ : NodeState} {ws : List CWallet} :
    ({ s₁ with
      txdb := recordParent s₁ pindex pindex (writeQueued t.mapQueuedChanges.toList
        (s.txdb.writeBlockIndex (CDiskBlockIndex.ofIndex (s₁.entry pindex))))
      wallets := ws } : NodeState).txdb.index = queued t.mapQueuedChanges s.txdb := by
  show (recordParent s₁ pindex pindex _).index = _
  rw [index_recordParent, index_writeQueued]
  have hidx : ∀ h, (s.txdb.writeBlockIndex (CDiskBlockIndex.ofIndex (s₁.entry pindex))).readTxIndex h =
      s.txdb.readTxIndex h := by
    intro h
    rw [CTxDB.readTxIndex, CTxDB.writeBlockIndex, Store.read_write_of_ne (by simp)]
    rfl
  funext h
  simp only [queued, lookup, hidx]

/-- A block that `CheckBlock` has passed holds no transaction twice. -/
theorem nodup_of_checkBlock {nAdjustedTime : ℤ} {nBestHeight : Option ℤ} {fPOW fRoot fSig : Bool}
    (h : block.checkBlock nAdjustedTime nBestHeight fPOW fRoot fSig = .ok ()) :
    (block.vtx.map CTransaction.getHash).Nodup := by
  simp only [CBlock.checkBlock, checkContents, except_bind_eq_ok, reject_eq_ok, exists_const,
    not_not] at h
  obtain ⟨_, -, _, -, _, -, hnodup, -⟩ := h
  exact hnodup

/-- `ConnectBlock` has run `CheckBlock` and its loop. -/
theorem of_tallyBlock_eq_ok {t : Tally} (h : tallyBlock s ans block pindex = .ok t) :
    block.checkBlock ans.nAdjustedTime s.bestHeight true true true = .ok () ∧
      tallyTxs s ans pindex (Tally.start ((s.entry pindex).nBlockPos + block.firstTxOffset))
        block.vtx = .ok t ∧ checkStakeReward s ans pindex block t = .ok () := by
  obtain ⟨hcheck, h⟩ := except_unit_bind_eq_ok.1 h
  obtain ⟨t', htally, h⟩ := except_bind_eq_ok.1 h
  obtain ⟨hreward, h⟩ := except_unit_bind_eq_ok.1 h
  obtain rfl := Except.ok.inj h
  exact ⟨onFalse_eq_ok.1 hcheck, htally, hreward⟩

/-- The block at an entry's place. -/
structure NodeState.StoredAt (s : NodeState) (pindex : Uint256) (b : StoredBlock) : Prop where
  stores : s.Stores pindex b.block
  nFile : b.nFile = (s.entry pindex).nFile
  nBlockPos : b.nBlockPos = (s.entry pindex).nBlockPos

/-- **A block that connects is entered**, where its transactions have new
names. -/
theorem sound_connectBlock (hfile : (s.entry pindex).nFile ≠ uintMax) (hb : s.StoredAt pindex b)
    (h : connectBlock b.block pindex s = (.ok (), s')) (hs : Ledger.Sound (ledgerOf c))
    (hidx : s.txdb.index = indexOf (ledgerOf c))
    (hfresh : ∀ tx ∈ b.block.vtx, ∀ b' ∈ c, ∀ tx' ∈ b'.block.vtx, tx'.getHash ≠ tx.getHash) :
    Ledger.Sound (ledgerOf (b :: c)) ∧ s'.txdb.index = indexOf (ledgerOf (b :: c)) := by
  obtain ⟨t, s₁, ht, -, hs'⟩ := of_connectBlock_eq_ok h
  obtain ⟨hcheck, htally, -⟩ := of_tallyBlock_eq_ok ht
  have hq : queued (Tally.start ((s.ask.2.entry pindex).nBlockPos + b.block.firstTxOffset)).mapQueuedChanges
      s.ask.2.txdb = indexOf (ledgerOf c) := queued_empty.trans hidx
  have hledger : ledgerOf (b :: c) = ((withOffsets ((s.ask.2.entry pindex).nBlockPos +
      b.block.firstTxOffset) b.block.vtx).map fun p => p.2.toLedger
        ⟨(s.ask.2.entry pindex).nFile, (s.ask.2.entry pindex).nBlockPos, p.1⟩).reverse ++ ledgerOf c := by
    rw [ledgerOf, List.flatMap_cons, ← ledgerOf, StoredBlock.ledger, StoredBlock.txs, hb.nBlockPos]
    unfold StoredBlock.toLedger
    rw [hb.nFile, hb.nBlockPos]
    rfl
  rw [hledger]
  have hmain := sound_tallyTxs (s := s.ask.2) hfile htally hs hq (nodup_of_checkBlock hcheck) fun tx htx u hu => by
    obtain ⟨b', hb', p, hp, rfl⟩ := mem_ledgerOf.1 hu
    refine hfresh tx htx b' hb' p.2 ?_
    rw [← b'.map_snd_txs]
    exact List.mem_map_of_mem hp
  refine ⟨hmain.1, ?_⟩
  rw [hs', index_connectBlock]
  exact hmain.2

end Blocks

/-! ## Disconnecting -/

section Disconnecting

variable [P : Platform]
variable {s s' : NodeState} {txdb txdb' : CTxDB} {tx : CTransaction} {vin : List CTxIn}
variable {pindex : Uint256} {b : StoredBlock} {c : List StoredBlock}
variable {L : List (Tx Uint256 CDiskTxPos CTxOut)}

omit [P : Platform] in
/-- One input taken back is one slot emptied. -/
theorem index_disconnectInput {txin : CTxIn} (h : disconnectInput txin txdb = (.ok (), txdb')) :
    txdb'.index = Ledger.mark none [txin.prevout.key] txdb.index := by
  rw [disconnectInput, Step.get_bind] at h
  rcases hr : txdb.readTxIndex txin.prevout.hash with _ | txindex <;> simp only [hr] at h
  · exact absurd h (by simp)
  split_ifs at h with hlen
  · exact absurd h (by simp)
  obtain ⟨-, rfl⟩ := Prod.mk.inj h
  have hentry : txdb.index txin.prevout.key.1 = some txindex.toEntry := by
    show (txdb.readTxIndex txin.prevout.hash).map _ = _
    rw [hr]
    rfl
  rw [index_updateTxIndex, CTxIndex.toEntry_set, Ledger.mark_singleton hentry]
  rfl

omit [P : Platform] in
theorem index_disconnectEach (h : Step.forEach disconnectInput vin txdb = (.ok (), txdb')) :
    txdb'.index = Ledger.mark none (vin.map (·.prevout.key)) txdb.index := by
  induction vin generalizing txdb with
  | nil =>
    obtain ⟨-, rfl⟩ := Prod.mk.inj h
    rw [List.map_nil, Ledger.mark_nil]
  | cons txin vin ih =>
    obtain ⟨_, txdb₁, h₁, h⟩ := Step.bind_eq_ok.1 h
    rw [ih h, index_disconnectInput h₁, Ledger.mark_mark]
    rfl

/-- **`DisconnectInputs` undoes a transaction.** -/
theorem index_disconnectInputs (pos : CDiskTxPos) (h : tx.disconnectInputs txdb = (.ok (), txdb')) :
    txdb'.index = Ledger.undo (tx.toLedger pos) txdb.index := by
  obtain ⟨_, txdb₁, h₁, h⟩ := Step.bind_eq_ok.1 h
  obtain ⟨-, rfl⟩ := Prod.mk.inj h
  have hmark := index_disconnectEach h₁
  rw [index_eraseTxIndex, hmark, Ledger.undo]
  show Function.update (Ledger.mark none _ _) _ _ =
    Function.update (Ledger.mark none (tx.spends.map COutPoint.key) _) _ _
  rw [CTransaction.spends]
  split <;> simp [CTransaction.toLedger, List.map_map, Function.comp_def]

omit [P : Platform] in
/-- A step on the database changes the database. -/
theorem onTxDb_snd {α : Type} {x : Step CTxDB Failure α} :
    (onTxDb x s).2 = { s with txdb := (onTxDb x s).2.txdb } := rfl

/-- **Transactions taken back, newest first**, lead down the ledger. -/
theorem index_disconnectTxs {l : List (ℕ × CTransaction)}
    (h : Step.forEach (fun tx => onTxDb tx.disconnectInputs) (l.map Prod.snd) s = (.ok (), s'))
    (hs : Ledger.Sound (l.map b.toLedger ++ L))
    (hidx : s.txdb.index = indexOf (l.map b.toLedger ++ L)) :
    s'.txdb.index = indexOf L ∧ s' = { s with txdb := s'.txdb } := by
  induction l generalizing s with
  | nil =>
    obtain ⟨-, rfl⟩ := Prod.mk.inj h
    exact ⟨hidx, rfl⟩
  | cons p l ih =>
    obtain ⟨_, s₁, h₁, h⟩ := Step.bind_eq_ok.1 h
    rw [List.map_cons, List.cons_append] at hs hidx
    obtain ⟨hok, rfl⟩ := Prod.mk.inj h₁
    cases hs with
    | cons hent hs =>
      have hundo := index_disconnectInputs ⟨b.nFile, b.nBlockPos, p.1⟩
        (Prod.ext hok rfl : p.2.disconnectInputs s.txdb = (.ok (), _))
      rw [hidx] at hundo
      obtain ⟨h₂, hrest⟩ := ih h hs (hundo.trans (Ledger.undo_enter hent))
      exact ⟨h₂, by rw [hrest]⟩

/-- **What `DisconnectBlock` has done when it succeeds.** -/
theorem of_disconnectBlock_eq_ok {block : CBlock}
    (h : disconnectBlock block pindex s = (.ok (), s')) :
    ∃ s₁, Step.forEach (fun tx => onTxDb tx.disconnectInputs) block.vtx.reverse s = (.ok (), s₁) ∧
      s' = { s₁ with txdb := recordParent s₁ pindex 0 s₁.txdb, wallets := s'.wallets } := by
  rw [disconnectBlock] at h
  obtain ⟨_, s₁, h₁, h⟩ := Step.bind_eq_ok.1 h
  refine ⟨s₁, h₁, ?_⟩
  rw [Step.get_bind] at h
  have hlast : ∀ {s₂ : NodeState}, Step.forEach
      (fun tx => onWallets (syncWithWallets tx block false)) block.vtx s₂ = (.ok (), s') →
      s' = { s₂ with wallets := s'.wallets } := by
    intro s₂ h₂
    have := forEach_onWallets (fun tx => syncWithWallets tx block false) block.vtx s₂
    rwa [h₂] at this
  rcases hp : s₁.pprev pindex with _ | prev <;> simp only [hp] at h
  · rw [hlast h, recordParent, hp]
  · rw [onTxDb_modify_bind] at h
    rw [hlast h, recordParent, hp]

/-- **A block that disconnects is undone.** -/
theorem index_disconnectBlock (h : disconnectBlock b.block pindex s = (.ok (), s'))
    (hs : Ledger.Sound (ledgerOf (b :: c))) (hidx : s.txdb.index = indexOf (ledgerOf (b :: c))) :
    s'.txdb.index = indexOf (ledgerOf c) := by
  obtain ⟨s₁, h₁, hs'⟩ := of_disconnectBlock_eq_ok h
  have hledger : ledgerOf (b :: c) = b.txs.reverse.map b.toLedger ++ ledgerOf c := by
    rw [ledgerOf, List.flatMap_cons, StoredBlock.ledger, List.map_reverse, ledgerOf]
  rw [← b.map_snd_txs, ← List.map_reverse] at h₁
  rw [hledger] at hs hidx
  rw [hs']
  exact index_recordParent.trans (index_disconnectTxs h₁ hs hidx).1

end Disconnecting

end CryptoBullion
