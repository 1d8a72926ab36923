import CryptoBullion.Common.History
import CryptoBullion.Chain.Additions
import CryptoBullion.Chain.Places
/-!
# What the main chain spends

The transactions of a chain, newest first, each with the height of its block
and its place. A chain is seasoned when every transaction on it spends, each
once, outputs that were made before it and that nothing has spent since, when
it is not older than what it spends, when what it spends of a coinbase or a
coinstake lies deep enough, and when it spends at least what it makes and its
fee. `ConnectBlock` lets nothing else through, even where a transaction's
hash comes again, so every main chain is seasoned.
-/

namespace CryptoBullion

open Ledger (Index Tx Newest Unspent Unshadowed Tracks Grounded Complete)

open NodeState

variable [P : Platform]

/-! ## The transactions of a chain -/

/-- A transaction of a chain, how high its block is and where it is stored. -/
structure ChainTx where
  nHeight : ℕ
  pos : CDiskTxPos
  tx : CTransaction

def ChainTx.toLedger (p : ChainTx) : Tx Uint256 CDiskTxPos CTxOut := p.tx.toLedger p.pos

/-- The transactions of a block at some height, last one first. -/
def StoredBlock.placed (b : StoredBlock) (nHeight : ℕ) : List ChainTx :=
  (b.txs.map fun p => ⟨nHeight, b.posOf p, p.2⟩).reverse

/-- The transactions of a chain above the genesis block, newest first. -/
def placed : List StoredBlock → List ChainTx
  | [] => []
  | b :: c => b.placed (c.length + 1) ++ placed c

variable {s s' : NodeState} {b : StoredBlock} {c : List StoredBlock} {p q u : ChainTx}
variable {ps later rest : List ChainTx} {pindex pindexBlock tip : Uint256} {o : COutPoint} {out : CTxOut}
variable {tx : CTransaction} {vin : List CTxIn} {inputs inputs' : MapPrevTx} {ans : Answer}
variable {m : Map Uint256 CTxIndex}

omit [P : Platform] in
theorem StoredBlock.mem_placed {nHeight : ℕ} :
    q ∈ b.placed nHeight ↔ ∃ p ∈ b.txs, (⟨nHeight, b.posOf p, p.2⟩ : ChainTx) = q := by
  rw [StoredBlock.placed, List.mem_reverse, List.mem_map]

omit [P : Platform] in
theorem nHeight_le_of_mem_placed (hq : q ∈ placed c) : q.nHeight ≤ c.length := by
  induction c with
  | nil => exact absurd hq List.not_mem_nil
  | cons b c ih =>
    rw [List.length_cons]
    rcases List.mem_append.1 hq with hq | hq
    · obtain ⟨p, -, rfl⟩ := StoredBlock.mem_placed.1 hq
      exact le_rfl
    · exact (ih hq).trans (Nat.le_succ _)

omit [P : Platform] in
/-- **The transactions of a branch are in the block files**, at their
places. -/
theorem NodeState.Branch.stored (hc : s.Branch tip c) (hq : q ∈ placed c) :
    ∃ b ∈ s.blockFiles, ∃ p ∈ b.txs, q.pos = b.posOf p ∧ q.tx = p.2 := by
  induction hc with
  | genesis _ => exact absurd hq List.not_mem_nil
  | @block _ _ b _ _ hb _ ih =>
    rcases List.mem_append.1 hq with hq | hq
    · obtain ⟨p, hp, rfl⟩ := StoredBlock.mem_placed.1 hq
      exact ⟨b, hb.mem, p, hp, rfl, rfl⟩
    · exact ih hq

/-! ## Spending -/

/-- `q` made the output, and none of the transactions on top of it has its
name or spends the output. -/
structure ChainTx.Makes (q : ChainTx) (later : List ChainTx) (o : COutPoint) (out : CTxOut) : Prop where
  hash : q.tx.getHash = o.hash
  vout : q.tx.vout[o.n]? = some out
  newest : ∀ u ∈ later, u.tx.getHash ≠ o.hash
  unspent : ∀ u ∈ later, o ∉ u.tx.spends

/-- The one may spend from the other: it is not older, and what has been
minted has matured. -/
structure ChainTx.MaySpend (p q : ChainTx) : Prop where
  nTime : q.tx.nTime ≤ p.tx.nTime
  mature : (q.tx.isCoinBase || q.tx.isCoinStake) = true → (q.nHeight : ℤ) + nCoinbaseMaturity ≤ p.nHeight

/-- **An output can be spent** on top of some transactions. -/
structure Spendable (p : ChainTx) (ps : List ChainTx) (o : COutPoint) (out : CTxOut) : Prop where
  made : ∃ later q rest, ps = later ++ q :: rest ∧ q.Makes later o out ∧ p.MaySpend q
  range : moneyRange out.nValue = true

/-- **A transaction is funded** by those below it. -/
structure Funded (p : ChainTx) (ps : List ChainTx) : Prop where
  nodup : p.tx.spends.Nodup
  paid : ∃ outs : List CTxOut, List.Forall₂ (Spendable p ps) p.tx.spends outs ∧
    moneyRange (outs.map (·.nValue)).sum = true ∧
      (p.tx.isCoinBase = false → p.tx.isCoinStake = false →
        p.tx.valueOut + p.tx.minFee ≤ (outs.map (·.nValue)).sum)

/-- Every transaction is funded by those below it. -/
def Seasoned : List ChainTx → Prop
  | [] => True
  | p :: ps => Funded p ps ∧ Seasoned ps

theorem Seasoned.of_append (h : Seasoned (later ++ ps)) : Seasoned ps := by
  induction later with
  | nil => exact h
  | cons p later ih => exact ih h.2

/-! ## Names -/

omit [P : Platform] in
theorem exists_of_mem_forall₂ {α β : Type} {R : α → β → Prop} {xs : List α} {ys : List β} {x : α}
    (h : List.Forall₂ R xs ys) (hx : x ∈ xs) : ∃ y, R x y := by
  obtain ⟨i, hi, rfl⟩ := List.getElem_of_mem hx
  exact ⟨_, h.get hi (h.length_eq ▸ hi)⟩

omit [P : Platform] in
theorem COutPoint.key_mem_map_iff {l : List COutPoint} : o.key ∈ l.map COutPoint.key ↔ o ∈ l :=
  List.mem_map_of_injective COutPoint.key_injective

/-- The newest of a name among the transactions of a chain. -/
theorem exists_of_newest {t : Tx Uint256 CDiskTxPos CTxOut}
    {above : List (Tx Uint256 CDiskTxPos CTxOut)} {h : Uint256}
    (hn : Newest (ps.map ChainTx.toLedger) h t above) :
    ∃ later q rest, ps = later ++ q :: rest ∧ t = q.toLedger ∧ above = later.map ChainTx.toLedger ∧
      q.tx.getHash = h ∧ ∀ u ∈ later, u.tx.getHash ≠ h := by
  obtain ⟨⟨earlier, hsplit⟩, hid, hlast⟩ := hn
  obtain ⟨later, below, rfl, rfl, hbelow⟩ := List.map_eq_append_iff.1 hsplit
  obtain ⟨q, rest, rfl, rfl, -⟩ := List.map_eq_cons_iff.1 hbelow
  exact ⟨later, q, rest, rfl, rfl, rfl, hid, fun u hu => hlast _ (List.mem_map_of_mem hu)⟩

theorem newest_of_makes (hq : q.Makes later o out) :
    Newest ((later ++ q :: rest).map ChainTx.toLedger) o.hash q.toLedger
      (later.map ChainTx.toLedger) where
  split := ⟨rest.map ChainTx.toLedger, by rw [List.map_append, List.map_cons]⟩
  id := hq.hash
  last := by
    rintro _ ht
    obtain ⟨u, hu, rfl⟩ := List.mem_map.1 ht
    exact hq.newest u hu

/-- What a transaction of the chain makes is unspent in the ledger. -/
theorem unspent_of_makes (hq : q.Makes later o out) :
    Unspent ((later ++ q :: rest).map ChainTx.toLedger) o.key := by
  unfold Unspent
  refine ⟨q.toLedger, _, newest_of_makes hq, (List.getElem?_eq_some_iff.1 hq.vout).1, ?_⟩
  intro _ hw
  obtain ⟨u, hu, rfl⟩ := List.mem_map.1 hw
  exact fun hmem => hq.unspent u hu (COutPoint.key_mem_map_iff.1 hmem)

/-- **What is funded is grounded** in the ledger. -/
theorem Funded.grounded (h : Funded p ps) : Grounded p.toLedger (ps.map ChainTx.toLedger) := by
  refine ⟨h.nodup.map COutPoint.key_injective, ?_⟩
  intro _ hkey
  obtain ⟨o, ho, rfl⟩ := List.mem_map.1 hkey
  obtain ⟨outs, hall, -⟩ := h.paid
  obtain ⟨out, hout⟩ := exists_of_mem_forall₂ hall ho
  obtain ⟨later, q, rest, rfl, hq, -⟩ := hout.made
  exact unspent_of_makes hq

/-! ## What `ConnectInputs` has checked -/

/-- The inexpensive checks of one input, with the output it spends. -/
structure InputChecked (s : NodeState) (tx : CTransaction) (inputs : MapPrevTx) (pindexBlock : Uint256)
    (txin : CTxIn) (out : CTxOut) : Prop where
  found : ∃ i txPrev, inputs[txin.prevout.hash]? = some (i, txPrev) ∧
    txPrev.vout[txin.prevout.n]? = some out ∧ txPrev.nTime ≤ tx.nTime ∧
      ((txPrev.isCoinBase || txPrev.isCoinStake) = true →
        immature s pindexBlock i.pos (s.walkFuel pindexBlock) (some pindexBlock) = false)
  range : moneyRange out.nValue = true

omit [P : Platform] in
/-- **The first loop of `ConnectInputs`** checks every input and adds up what
they spend. -/
theorem of_connectChecks_eq_ok {nValueIn n : ℤ} (hin : moneyRange nValueIn = true)
    (h : connectChecks s tx inputs pindexBlock nValueIn vin = .ok n) :
    ∃ outs, List.Forall₂ (InputChecked s tx inputs pindexBlock) vin outs ∧
      n = nValueIn + (outs.map (·.nValue)).sum ∧ moneyRange n = true := by
  induction vin generalizing nValueIn with
  | nil =>
    obtain rfl := Except.ok.inj h
    exact ⟨[], .nil, by simp, hin⟩
  | cons txin vin ih =>
    rw [connectChecks] at h
    rcases hfound : inputs[txin.prevout.hash]? with _ | ⟨i, txPrev⟩
    · simp [hfound] at h
    simp only [hfound] at h
    rcases hout : txPrev.vout[txin.prevout.n]? with _ | out
    · simp [hout] at h
    simp only [hout] at h
    obtain ⟨-, h₁⟩ := except_unit_bind_eq_ok.1 h
    obtain ⟨hmature, h₂⟩ := except_unit_bind_eq_ok.1 h₁
    obtain ⟨htime, h₃⟩ := except_unit_bind_eq_ok.1 h₂
    obtain ⟨hrange, hrest⟩ := except_unit_bind_eq_ok.1 h₃
    rw [reject_eq_ok] at hmature htime hrange
    rw [not_or, Bool.not_eq_false, Bool.not_eq_false] at hrange
    obtain ⟨outs, hall, hsum, hn⟩ := ih hrange.2 hrest
    refine ⟨out :: outs, .cons ⟨⟨i, txPrev, hfound, hout, not_lt.1 htime, fun hgen => ?_⟩, hrange.1⟩ hall,
      ?_, hn⟩
    · rw [hgen, Bool.true_and, Bool.not_eq_true] at hmature
      exact hmature
    · rw [hsum, List.map_cons, List.sum_cons]
      ring

omit [P : Platform] in
/-- Its last part: what is spent covers what is made, and the fee. -/
theorem of_connectFees_eq_ok {n : ℤ} (h : connectFees tx n true = .ok ())
    (hstake : tx.isCoinStake = false) :
    tx.valueOut + tx.minFee ≤ n := by
  rw [connectFees, hstake, if_neg Bool.false_ne_true] at h
  obtain ⟨nValueOut, hout, h₁⟩ := except_bind_eq_ok.1 h
  obtain ⟨-, h₂⟩ := except_unit_bind_eq_ok.1 h₁
  obtain ⟨-, h₃⟩ := except_unit_bind_eq_ok.1 h₂
  obtain ⟨hfee, -⟩ := except_unit_bind_eq_ok.1 h₃
  obtain rfl := CTransaction.eq_valueOut_of_getValueOut hout
  rw [reject_eq_ok] at hfee
  omega

/-! ## What `FetchInputs` has read -/

/-- What has been fetched for transactions on disk is what is read there. -/
def ReadBack (s : NodeState) (ans : Answer) (inputs : MapPrevTx) : Prop :=
  ∀ (h : Uint256) i txPrev, inputs[h]? = some (i, txPrev) → i.pos ≠ CDiskTxPos.inMemPool →
    readTx s.blockFiles ans i.pos = .ok txPrev

omit [P : Platform] in
theorem readTx_of_fetchPrev {hash : Uint256} {i : CTxIndex} {txPrev : CTransaction}
    (h : fetchPrev s ans m true false hash = .ok (i, txPrev)) (hpos : i.pos ≠ CDiskTxPos.inMemPool) :
    readTx s.blockFiles ans i.pos = .ok txPrev := by
  unfold fetchPrev at h
  dsimp only at h
  split at h
  · exact absurd h (by simp)
  · rename_i txindex _
    split_ifs at h with hpool
    · obtain ⟨_, -, heq⟩ := except_bind_eq_ok.1 h
      obtain ⟨rfl, -⟩ := Prod.mk.inj (Except.ok.inj heq)
      exact absurd hpool hpos
    · obtain ⟨_, hread, heq⟩ := except_bind_eq_ok.1 h
      obtain ⟨rfl, rfl⟩ := Prod.mk.inj (Except.ok.inj heq)
      exact onFalse_eq_ok.1 hread

omit [P : Platform] in
theorem ReadBack.of_fetchLoop (hin : ReadBack s ans inputs)
    (h : fetchLoop s ans m true false vin inputs = .ok inputs') : ReadBack s ans inputs' := by
  induction vin generalizing inputs with
  | nil =>
    obtain rfl := Except.ok.inj h
    exact hin
  | cons txin vin ih =>
    rw [fetchLoop] at h
    split_ifs at h
    · exact ih hin h
    · obtain ⟨prev, hprev, hrest⟩ := except_bind_eq_ok.1 h
      refine ih (fun h' i txPrev hget hpos => ?_) hrest
      rw [Std.ExtTreeMap.getElem?_insert] at hget
      split_ifs at hget
      · obtain rfl := Option.some.inj hget
        exact readTx_of_fetchPrev hprev hpos
      · exact hin h' i txPrev hget hpos

omit [P : Platform] in
theorem readBack_of_fetchInputs (hcb : tx.isCoinBase = false)
    (h : tx.fetchInputs s ans m true false = .ok inputs) : ReadBack s ans inputs := by
  rw [CTransaction.fetchInputs, hcb, if_neg Bool.false_ne_true] at h
  obtain ⟨inputs', hloop, hrest⟩ := except_bind_eq_ok.1 h
  obtain ⟨-, heq⟩ := except_unit_bind_eq_ok.1 hrest
  obtain rfl := Except.ok.inj heq
  exact ReadBack.of_fetchLoop (fun _ _ _ hget => absurd hget (by simp)) hloop

/-! ## The depth of a coin -/

/-- **The walk of `ConnectInputs` finds what is too young**: every
transaction of a branch whose block is fewer blocks down than a coin needs. -/
theorem immature_of_branch (hp : s.Planted) (hc : s.Branch tip c) (hq : q ∈ placed c)
    (hyoung : s.nHeight pindexBlock - q.nHeight < nCoinbaseMaturity) {fuel : ℕ}
    (hfuel : (s.nHeight tip).toNat < fuel) : immature s pindexBlock q.pos fuel (some tip) = true := by
  induction hc generalizing fuel with
  | genesis _ => exact absurd hq List.not_mem_nil
  | @block tip prev b c hprev hb hc ih =>
    have htop := hp.nHeight_eq (.block hprev hb hc)
    have hbelow := hp.nHeight_eq hc
    have hlow := nHeight_le_of_mem_placed hq
    obtain ⟨fuel, rfl⟩ : ∃ k, fuel = k + 1 := ⟨fuel - 1, by omega⟩
    rw [immature, if_pos (by omega)]
    split_ifs with hhere
    · rfl
    rcases List.mem_append.1 hq with hin | hdown
    · -- it is in this block
      obtain ⟨p, -, rfl⟩ := StoredBlock.mem_placed.1 hin
      exact absurd ⟨hb.nBlockPos.symm, hb.nFile.symm⟩ hhere
    · rw [hprev]
      rw [List.length_cons] at htop
      exact ih hdown (by omega)

/-! ## A transaction -/

/-- **An input that passes the checks spends an output** on the branch. -/
theorem spendable_of_inputChecked (hp : s.Planted) (hc : s.Branch pindex (b :: c))
    (hps : ∀ q ∈ ps, q ∈ placed (b :: c)) (ht : Tracks (queued m s.txdb) (ps.map ChainTx.toLedger))
    {pos : CDiskTxPos} (hground : Grounded (tx.toLedger pos) (ps.map ChainTx.toLedger))
    (hlook : ∀ h p, inputs[h]? = some p → lookup m s.txdb h = some p.1)
    (hread : ReadBack s ans inputs) {txin : CTxIn} (htxin : txin.prevout ∈ tx.spends)
    (hcheck : InputChecked s tx inputs pindex txin out) :
    Spendable ⟨c.length + 1, pos, tx⟩ ps txin.prevout out := by
  obtain ⟨⟨i, txPrev, hfound, hout, htime, hmature⟩, hrange⟩ := hcheck
  have hentry : queued m s.txdb txin.prevout.hash = some i.toEntry := by
    rw [queued, hlook _ _ hfound]
    rfl
  obtain ⟨t, above, hnew, hpos, -⟩ := ht _ _ hentry
  obtain ⟨t', above', hnew', -, hfree⟩ := hground.made _ (List.mem_map_of_mem htxin)
  obtain ⟨rfl, rfl⟩ := hnew.unique hnew'
  obtain ⟨later, q, rest, rfl, rfl, rfl, hhash, hlast⟩ := exists_of_newest hnew
  -- the transaction fetched is the one on the branch
  have hq : q ∈ placed (b :: c) := hps q (by simp)
  obtain ⟨d, hd, p, hpd, hplace, htx⟩ := hc.stored hq
  replace hpos : i.pos = q.pos := hpos
  have hdisk : readTx s.blockFiles ans (d.posOf p) = .ok txPrev := by
    rw [← hplace, ← hpos]
    refine hread _ _ _ hfound ?_
    rw [hpos, hplace]
    exact hp.filed.posOf_ne hd
  obtain rfl : txPrev = q.tx := by rw [hp.filed.eq_of_readTx hd hpd hdisk, htx]
  refine ⟨⟨later, q, rest, rfl, ⟨hhash, hout, hlast, fun u hu hmem => ?_⟩, htime, fun hgen => ?_⟩, hrange⟩
  · exact hfree _ (List.mem_map_of_mem hu) (List.mem_map_of_mem hmem)
  · by_contra hyoung
    have hheight := hp.nHeight_eq hc
    rw [List.length_cons] at hheight
    push_cast at hheight hyoung
    have hyoung' : s.nHeight pindex - q.nHeight < nCoinbaseMaturity := by
      rw [hheight]
      omega
    have hfound := immature_of_branch hp hc hq hyoung' (Nat.lt_succ_self _)
    have hnot := hmature hgen
    rw [hpos] at hnot
    exact absurd (hnot.symm.trans hfound) (by simp)

/-- The place of the transaction whose turn it is. -/
def Tally.placedTx (t : Tally) (s : NodeState) (pindex : Uint256) (nHeight : ℕ) (tx : CTransaction) :
    ChainTx :=
  ⟨nHeight, ⟨(s.entry pindex).nFile, (s.entry pindex).nBlockPos, t.nTxPos⟩, tx⟩

/-- **A turn of `ConnectBlock`'s loop** lets a transaction through only where
it is funded, and enters it in the queued changes. -/
theorem funded_tallyTx (hp : s.Planted) (hc : s.Branch pindex (b :: c))
    (hps : ∀ q ∈ ps, q ∈ placed (b :: c)) {t t' : Tally}
    (ht : Tracks (queued t.mapQueuedChanges s.txdb) (ps.map ChainTx.toLedger))
    (h : tallyTx s ans pindex t tx = .ok t') :
    let p := t.placedTx s pindex (c.length + 1) tx
    Funded p ps ∧ (∃ idx', Ledger.Spends p.pos (queued t.mapQueuedChanges s.txdb) p.toLedger.ins idx' ∧
      queued t'.mapQueuedChanges s.txdb =
        Function.update idx' tx.getHash (some (p.pos, List.replicate tx.vout.length none))) ∧
      t'.nTxPos = t.nTxPos + tx.getSerializeSize := by
  intro p
  have hnull : p.pos.isNull = false := by
    cases hc with
    | block _ hb _ => exact decide_eq_false (hp.filed.nFile_ne hb)
  obtain ⟨-, t₁, h₁, rfl⟩ := of_tallyTx_eq_ok h
  -- it is enough to know what the transaction spends
  suffices hspends : ∃ m₁, Ledger.Spends p.pos (queued t.mapQueuedChanges s.txdb)
      (tx.spends.map COutPoint.key) (queued m₁ s.txdb) ∧ t₁.mapQueuedChanges = m₁ ∧ Funded p ps ∧
        t₁.nTxPos = t.nTxPos + tx.getSerializeSize by
    obtain ⟨m₁, hs, rfl, hf, hpos⟩ := hspends
    refine ⟨hf, ⟨_, hs, ?_⟩, hpos⟩
    rw [queued_insert, CTxIndex.toEntry_fresh]
    rfl
  by_cases hcb : tx.isCoinBase = true
  · rw [if_pos hcb] at h₁
    obtain ⟨_, -, heq⟩ := except_bind_eq_ok.1 h₁
    obtain rfl := Except.ok.inj heq
    have hnone : tx.spends = [] := by rw [CTransaction.spends, if_pos hcb]
    refine ⟨_, by rw [hnone]; exact .nil, rfl, ⟨?_, [], ?_, by decide, fun hno => ?_⟩, rfl⟩
    · show tx.spends.Nodup
      rw [hnone]
      exact .nil
    · show List.Forall₂ _ tx.spends []
      rw [hnone]
      exact .nil
    · exact absurd (hcb.symm.trans hno) (by simp)
  · rw [if_neg hcb] at h₁
    rw [Bool.not_eq_true] at hcb
    have hvin : tx.spends = tx.vin.map (·.prevout) := by
      rw [CTransaction.spends, if_neg (by simp [hcb])]
    obtain ⟨inputs, m₁, _, _, _, hfetch, -, -, -, hconn, rfl⟩ := of_tallySpend_eq_ok h₁
    obtain ⟨hlook, hrange⟩ := of_fetchInputs_eq_ok hcb hfetch
    obtain ⟨nValueIn, hchecks, hspend, hfees⟩ := of_connectInputs_eq_ok hcb hconn
    have hs : Ledger.Spends p.pos (queued t.mapQueuedChanges s.txdb) (tx.spends.map COutPoint.key)
        (queued m₁ s.txdb) := by
      rw [hvin, List.map_map]
      exact spends_connectSpends hnull hspend hlook hrange
    have hground := Tracks.grounded (t := p.toLedger) ht hs
    obtain ⟨outs, hall, hsum, hmoney⟩ := of_connectChecks_eq_ok (by decide) hchecks
    rw [zero_add] at hsum
    subst hsum
    refine ⟨m₁, hs, rfl, ⟨?_, outs, ?_, hmoney, fun _ => of_connectFees_eq_ok hfees⟩, rfl⟩
    · exact List.Nodup.of_map _ hs.nodup
    · show List.Forall₂ _ tx.spends outs
      rw [hvin, List.forall₂_map_left_iff]
      refine ((List.forall₂_and_left tx.vin outs).2 ⟨fun txin hmem => hmem, hall⟩).imp ?_
      rintro txin out ⟨hmem, hcheck⟩
      exact spendable_of_inputChecked hp hc hps ht hground hlook (readBack_of_fetchInputs hcb hfetch)
        (hvin ▸ List.mem_map_of_mem hmem) hcheck

/-! ## A block -/

/-- Transactions at their places. -/
def placedFrom (s : NodeState) (pindex : Uint256) (nHeight off : ℕ) (txs : List CTransaction) :
    List ChainTx :=
  (withOffsets off txs).map fun p =>
    ⟨nHeight, ⟨(s.entry pindex).nFile, (s.entry pindex).nBlockPos, p.1⟩, p.2⟩

theorem map_id_placedFrom {nHeight off : ℕ} {txs : List CTransaction} :
    ((placedFrom s pindex nHeight off txs).map ChainTx.toLedger).map Tx.id =
      txs.map CTransaction.getHash := by
  have htxs : (withOffsets off txs).map Prod.snd = txs := map_snd_withOffsets
  rw [placedFrom, List.map_map, List.map_map]
  conv_rhs => rw [← htxs, List.map_map]
  rfl

omit [P : Platform] in
theorem mem_of_mem_placedFrom {nHeight off : ℕ} {txs : List CTransaction}
    (hq : q ∈ placedFrom s pindex nHeight off txs) : q.tx ∈ txs := by
  obtain ⟨p, hp, rfl⟩ := List.mem_map.1 hq
  have htxs : (withOffsets off txs).map Prod.snd = txs := map_snd_withOffsets
  rw [← htxs]
  exact List.mem_map_of_mem hp

/-- **`ConnectBlock`'s loop** keeps what is on top of the chain seasoned. -/
theorem seasoned_tallyTxs (hp : s.Planted) (hc : s.Branch pindex (b :: c))
    (hps : ∀ q ∈ ps, q ∈ placed (b :: c)) {t t' : Tally} {txs : List CTransaction}
    (hnew : ∀ q ∈ placedFrom s pindex (c.length + 1) t.nTxPos txs, q ∈ placed (b :: c))
    (ht : Tracks (queued t.mapQueuedChanges s.txdb) (ps.map ChainTx.toLedger))
    (hc' : Complete (queued t.mapQueuedChanges s.txdb) (ps.map ChainTx.toLedger)) (hs : Seasoned ps)
    (h : tallyTxs s ans pindex t txs = .ok t') :
    let ps' := (placedFrom s pindex (c.length + 1) t.nTxPos txs).reverse ++ ps
    Seasoned ps' ∧ Tracks (queued t'.mapQueuedChanges s.txdb) (ps'.map ChainTx.toLedger) ∧
      Complete (queued t'.mapQueuedChanges s.txdb) (ps'.map ChainTx.toLedger) := by
  induction txs generalizing t ps with
  | nil =>
    obtain rfl := Except.ok.inj h
    exact ⟨hs, ht, hc'⟩
  | cons tx txs ih =>
    obtain ⟨t₁, h₁, hrest⟩ := except_bind_eq_ok.1 h
    obtain ⟨hf, ⟨idx', hspends, hindex⟩, hpos⟩ := funded_tallyTx hp hc hps ht h₁
    set p := t.placedTx s pindex (c.length + 1) tx with hp'
    have ht₁ : Tracks (queued t₁.mapQueuedChanges s.txdb) ((p :: ps).map ChainTx.toLedger) := by
      rw [hindex]
      exact Tracks.enter (t := p.toLedger) ht hspends
    have hc₁ : Complete (queued t₁.mapQueuedChanges s.txdb) ((p :: ps).map ChainTx.toLedger) := by
      rw [hindex]
      exact Complete.enter (t := p.toLedger) hc' hspends
    rw [placedFrom, withOffsets, List.map_cons, List.forall_mem_cons] at hnew
    have hstep := ih (List.forall_mem_cons.2 ⟨hnew.1, hps⟩) (by rw [hpos]; exact hnew.2) ht₁ hc₁ ⟨hf, hs⟩
      hrest
    rw [hpos] at hstep
    dsimp only
    rw [placedFrom, withOffsets, List.map_cons, List.reverse_cons, List.append_assoc,
      List.singleton_append]
    exact hstep

omit [P : Platform] in
/-- An empty slot is a null position. -/
theorem CTxIndex.exists_of_slot_eq_none {i : CTxIndex} {n : ℕ} (h : i.toEntry.2[n]? = some none) :
    ∃ p, i.vSpent[n]? = some p ∧ p.isNull = true := by
  change (i.vSpent.map _)[n]? = _ at h
  rw [List.getElem?_map, Option.map_eq_some_iff] at h
  obtain ⟨p, hp, hnone⟩ := h
  refine ⟨p, hp, ?_⟩
  by_contra hnull
  rw [if_neg hnull] at hnone
  exact absurd hnone (by simp)

omit [P : Platform] in
/-- What has an output left in the index is not overwritten. -/
theorem not_overwritten {L : List (Tx Uint256 CDiskTxPos CTxOut)} {txdb : CTxDB} {hashTx : Uint256}
    {o : Uint256 × ℕ} (ht : Tracks txdb.index L) (hc : Complete txdb.index L)
    (h : overwrites txdb hashTx = false) (ho : Unspent L o) : o.1 ≠ hashTx := by
  rintro rfl
  obtain ⟨e, he, hslot⟩ := (Ledger.free_iff ht hc).2 ho
  obtain ⟨i, hi, rfl⟩ := Option.map_eq_some_iff.1 he
  unfold overwrites at h
  rw [hi] at h
  obtain ⟨p, hp, hnull⟩ := CTxIndex.exists_of_slot_eq_none hslot
  exact absurd hnull (List.any_eq_false.1 h p (List.mem_of_getElem? hp))

/-- Every transaction of the block has passed that check. -/
theorem overwrites_of_tallyTxs {t t' : Tally} {txs : List CTransaction}
    (h : tallyTxs s ans pindex t txs = .ok t') : ∀ tx ∈ txs, overwrites s.txdb tx.getHash = false := by
  induction txs generalizing t with
  | nil => exact fun _ hm => absurd hm List.not_mem_nil
  | cons tx txs ih =>
    obtain ⟨t₁, h₁, hrest⟩ := except_bind_eq_ok.1 h
    exact List.forall_mem_cons.2 ⟨(of_tallyTx_eq_ok h₁).1, ih hrest⟩

/-- The index keeps track of the chain and is complete, no transaction of the
chain shadows one with an output left, and every one is funded. -/
structure Accounted (idx : Index Uint256 CDiskTxPos) (c : List StoredBlock) : Prop where
  tracks : Tracks idx ((placed c).map ChainTx.toLedger)
  complete : Complete idx ((placed c).map ChainTx.toLedger)
  unshadowed : Unshadowed ((placed c).map ChainTx.toLedger)
  seasoned : Seasoned (placed c)

/-- **A block that connects** keeps the chain accounted for. -/
theorem accounted_connectBlock (hp : s.Planted) (hc : s.Branch pindex (b :: c))
    (hi : Accounted s.txdb.index c) (h : connectBlock b.block pindex s = (.ok (), s')) :
    Accounted s'.txdb.index (b :: c) := by
  obtain ⟨t, s₁, ht, -, hs'⟩ := of_connectBlock_eq_ok h
  obtain ⟨hcheck, htally, -⟩ := of_tallyBlock_eq_ok ht
  have hsame : SameTree s s.ask.2 := ⟨fun _ => rfl, rfl, List.suffix_rfl⟩
  set start := Tally.start ((s.ask.2.entry pindex).nBlockPos + b.block.firstTxOffset) with hstart
  have hplaced : placed (b :: c) =
      (placedFrom s.ask.2 pindex (c.length + 1) start.nTxPos b.block.vtx).reverse ++ placed c := by
    cases hc with
    | block _ hb _ =>
      rw [placed, StoredBlock.placed, StoredBlock.txs, hb.nBlockPos, placedFrom]
      unfold StoredBlock.posOf
      rw [hb.nFile, hb.nBlockPos]
      rfl
  have hindex : queued start.mapQueuedChanges s.ask.2.txdb = s.txdb.index := queued_empty
  have hmain := seasoned_tallyTxs (hp.of_sameTree hsame rfl) (hc.of_sameTree hsame)
    (fun q hq => List.mem_append_right _ hq)
    (fun q hq => by rw [hplaced]; exact List.mem_append_left _ (List.mem_reverse.2 hq))
    (by rw [hindex]; exact hi.tracks) (by rw [hindex]; exact hi.complete) hi.seasoned htally
  dsimp only at hmain
  rw [← hplaced] at hmain
  obtain ⟨hseasoned, htracks, hcomplete⟩ := hmain
  refine ⟨?_, ?_, ?_, hseasoned⟩
  · rw [hs', index_connectBlock]
    exact htracks
  · rw [hs', index_connectBlock]
    exact hcomplete
  · rw [hplaced, List.map_append]
    refine hi.unshadowed.append ?_ ?_
    · rw [List.map_reverse, List.map_reverse, List.nodup_reverse, map_id_placedFrom]
      exact nodup_of_checkBlock hcheck
    · intro u hu o ho
      obtain ⟨q, hq, rfl⟩ := List.mem_map.1 hu
      exact not_overwritten hi.tracks hi.complete
        (overwrites_of_tallyTxs htally _ (mem_of_mem_placedFrom (List.mem_reverse.1 hq))) ho

omit [P : Platform] in
/-- Taking back what a transaction spends asks for its entry. -/
theorem of_disconnectEach {txdb txdb' : CTxDB}
    (h : Step.forEach disconnectInput vin txdb = (.ok (), txdb')) :
    ∀ txin ∈ vin, txdb.index txin.prevout.hash ≠ none := by
  induction vin generalizing txdb with
  | nil => exact fun _ hm => absurd hm List.not_mem_nil
  | cons txin vin ih =>
    obtain ⟨_, txdb₁, h₁, hrest⟩ := Step.bind_eq_ok.1 h
    refine List.forall_mem_cons.2 ⟨fun hnone => ?_, fun txin' hm hnone => ?_⟩
    · rw [disconnectInput, Step.get_bind] at h₁
      have hread : txdb.readTxIndex txin.prevout.hash = none := Option.map_eq_none_iff.1 hnone
      simp [hread] at h₁
    · refine ih hrest txin' hm ?_
      rw [index_disconnectInput h₁, Ledger.mark_eq_none_iff]
      exact hnone

/-- Transactions taken back, newest first. -/
theorem tracks_disconnectTxs {l : List ChainTx}
    (h : Step.forEach (fun tx => onTxDb tx.disconnectInputs) (l.map ChainTx.tx) s = (.ok (), s'))
    (hs : Seasoned (l ++ ps)) (hu : Unshadowed ((l ++ ps).map ChainTx.toLedger))
    (ht : Tracks s.txdb.index ((l ++ ps).map ChainTx.toLedger))
    (hc : Complete s.txdb.index ((l ++ ps).map ChainTx.toLedger)) :
    Tracks s'.txdb.index (ps.map ChainTx.toLedger) ∧
      Complete s'.txdb.index (ps.map ChainTx.toLedger) := by
  induction l generalizing s with
  | nil =>
    obtain ⟨-, rfl⟩ := Prod.mk.inj h
    exact ⟨ht, hc⟩
  | cons p l ih =>
    obtain ⟨_, s₁, h₁, hrest⟩ := Step.bind_eq_ok.1 h
    obtain ⟨hok, rfl⟩ := Prod.mk.inj h₁
    have hrun : p.tx.disconnectInputs s.txdb = (.ok (), (p.tx.disconnectInputs s.txdb).2) :=
      Prod.ext hok rfl
    have hundo := index_disconnectInputs p.pos hrun
    obtain ⟨_, txdb₁, heach, -⟩ := Step.bind_eq_ok.1 hrun
    have hins : ∀ o ∈ p.toLedger.ins, s.txdb.index o.1 ≠ none := by
      intro key hkey
      obtain ⟨o, ho, rfl⟩ := List.mem_map.1 hkey
      rw [CTransaction.spends] at ho
      split at ho
      · exact absurd ho List.not_mem_nil
      · rename_i hcb
        rw [if_neg hcb] at heach
        obtain ⟨txin, htxin, rfl⟩ := List.mem_map.1 ho
        exact of_disconnectEach heach txin htxin
    refine ih hrest hs.2 hu.2 ?_ ?_
    · show Tracks (CTxDB.index _) _
      rw [hundo]
      exact Tracks.undo ht hs.1.grounded
    · show Complete (CTxDB.index _) _
      rw [hundo]
      exact Complete.undo hc hu.1 hins

/-- **And so does a block that disconnects.** -/
theorem accounted_disconnectBlock (hi : Accounted s.txdb.index (b :: c))
    (h : disconnectBlock b.block pindex s = (.ok (), s')) : Accounted s'.txdb.index c := by
  obtain ⟨s₁, h₁, hs'⟩ := of_disconnectBlock_eq_ok h
  have hmap : (b.placed (c.length + 1)).map ChainTx.tx = b.block.vtx.reverse := by
    rw [StoredBlock.placed, List.map_reverse, List.map_map, ← b.map_snd_txs]
    rfl
  rw [← hmap] at h₁
  have hindex : s'.txdb.index = s₁.txdb.index := by
    rw [hs']
    exact index_recordParent
  obtain ⟨htracks, hcomplete⟩ := tracks_disconnectTxs h₁ hi.seasoned hi.unshadowed hi.tracks hi.complete
  rw [← hindex] at htracks hcomplete
  refine ⟨htracks, hcomplete, ?_, hi.seasoned.of_append⟩
  have hu := hi.unshadowed
  rw [placed, List.map_append] at hu
  exact hu.of_append

/-- **Being accounted for is carried** along the branches. -/
theorem carried_accounted : Carried Accounted where
  start := ⟨Ledger.tracks_nil, fun _ ho => absurd ho Ledger.not_unspent_nil, trivial, trivial⟩
  connect hp hc hi h := accounted_connectBlock hp hc hi h
  disconnect _ _ hi h := accounted_disconnectBlock hi h

/-! ## The main chain -/

theorem Seasoned.funded (h : Seasoned ps) (hsplit : ps = later ++ p :: rest) : Funded p rest := by
  subst hsplit
  exact h.of_append.1

/-- **The main chain is funded and matured.** In every state of a run in
which no postponed block has failed, whatever blocks were stored, indexed,
connected, reorganised or refused: every transaction of the main chain spends,
each once, outputs of transactions below it which nothing in between spends
or shadows, none of them younger than itself or of a coinbase or coinstake
within the last five blocks; and it spends what it makes and its fee, unless
it mints. -/
theorem mainChain_funded (h : Reachable s) (hn : ∀ h, .postponedFailed h ∉ s.trace) :
    ∃ best c, s.pindexBest = some best ∧ s.Branch best c ∧ s.nHeight best = c.length ∧
      ∀ later p rest, placed c = later ++ p :: rest → Funded p rest := by
  obtain ⟨best, c, hbest, hc, hi⟩ := carried_accounted.on_of_reachable h hn
  exact ⟨best, c, hbest, hc, (planted_of_reachable h hn).nHeight_eq hc,
    fun later p rest hsplit => hi.seasoned.funded hsplit⟩

omit [P : Platform] in
/-- A run of seven blocks: the sixth spends the coinbase of the first, and the
seventh has that coinbase again. -/
theorem reachable_trunk :
    letI := Platform.toy
    Reachable (Twice.grown Twice.s₀ Twice.trunk) ∧
      ∀ h, .postponedFailed h ∉ (Twice.grown Twice.s₀ Twice.trunk).trace := by
  let := Platform.toy
  obtain ⟨⟨hgrows, htrace⟩, -⟩ := Twice.evaluated
  refine ⟨reachable_of_addRun (Twice.addRun_grown Twice.addRun_start hgrows), fun h hm => ?_⟩
  rw [htrace] at hm
  simp at hm

omit [P : Platform] in
theorem mainChain_funded_trunk :
    letI := Platform.toy
    ∃ best c, (Twice.grown Twice.s₀ Twice.trunk).pindexBest = some best ∧
      (Twice.grown Twice.s₀ Twice.trunk).Branch best c ∧
      (Twice.grown Twice.s₀ Twice.trunk).nHeight best = c.length ∧
      ∀ later p rest, placed c = later ++ p :: rest → Funded p rest := by
  let := Platform.toy
  exact mainChain_funded reachable_trunk.1 reachable_trunk.2

end CryptoBullion
