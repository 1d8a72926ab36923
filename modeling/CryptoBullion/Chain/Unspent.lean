import CryptoBullion.Chain.Maturity
/-!
# What is unspent on the main chain

The transaction index is there to say which outputs can still be spent. In
every run it says so exactly: a slot is there and empty where the newest
transaction of the hash makes the output and nothing on the chain has spent
it since. Hashes may come again, since `ConnectBlock` lets a transaction
overwrite one that has nothing left; and when its block is disconnected the
older entry does not come back, but that one had nothing left.

So the unspent outputs are a set of coins, and their worth can be followed
along the chain: it grows by what a transaction makes and shrinks by what it
spends. Only coinbases and coinstakes add to it.
-/

namespace CryptoBullion

open Ledger (Free Unspent Unshadowed)

open NodeState

variable [P : Platform]

variable {s : NodeState} {p q : ChainTx} {ps later rest : List ChainTx}
variable {o : COutPoint} {out : CTxOut} {txdb : CTxDB}

/-! ## In the index -/

/-- There is a slot for the output, and it is empty. -/
def CTxDB.HasUnspent (txdb : CTxDB) (o : COutPoint) : Prop :=
  ∃ txindex pos, txdb.readTxIndex o.hash = some txindex ∧ txindex.vSpent[o.n]? = some pos ∧
    pos.isNull = true

omit [P : Platform] in
theorem free_key_iff : Free txdb.index o.key ↔ txdb.HasUnspent o := by
  constructor
  · rintro ⟨e, he, hslot⟩
    obtain ⟨txindex, hread, rfl⟩ := Option.map_eq_some_iff.1 he
    obtain ⟨pos, hpos, hnull⟩ := CTxIndex.exists_of_slot_eq_none hslot
    exact ⟨txindex, pos, hread, hpos, hnull⟩
  · rintro ⟨txindex, pos, hread, hpos, hnull⟩
    refine ⟨txindex.toEntry, ?_, ?_⟩
    · show (txdb.readTxIndex o.hash).map CTxIndex.toEntry = _
      rw [hread]
      rfl
    · show (txindex.vSpent.map _)[o.n]? = _
      rw [List.getElem?_map, hpos, Option.map_some, if_pos hnull]

/-! ## In the chain -/

theorem unspent_key_iff : Unspent (ps.map ChainTx.toLedger) o.key ↔
    ∃ later q rest out, ps = later ++ q :: rest ∧ q.Makes later o out := by
  constructor
  · rintro ⟨u, above, hnew, hlt, hfree⟩
    obtain ⟨later, q, rest, rfl, rfl, rfl, hhash, hlast⟩ := exists_of_newest hnew
    refine ⟨later, q, rest, _, rfl, hhash, List.getElem?_eq_getElem hlt, hlast, fun u hu hmem => ?_⟩
    exact hfree _ (List.mem_map_of_mem hu) (List.mem_map_of_mem hmem)
  · rintro ⟨later, q, rest, out, rfl, hq⟩
    exact unspent_of_makes hq

theorem Accounted.hasUnspent_iff {c : List StoredBlock} (hi : Accounted txdb.index c) :
    txdb.HasUnspent o ↔ ∃ later q rest out, placed c = later ++ q :: rest ∧ q.Makes later o out := by
  rw [← free_key_iff, Ledger.free_iff hi.tracks hi.complete, unspent_key_iff]

/-- **The index knows what is unspent.** In every state of a run in which no
postponed block has failed, it has an empty slot exactly for the outputs that
the newest transaction of their hash on the main chain makes and that nothing
on top of it spends. -/
theorem mainChain_unspent (h : Reachable s) (hn : ∀ h, .postponedFailed h ∉ s.trace) :
    ∃ best c, s.pindexBest = some best ∧ s.Branch best c ∧
      ∀ o, s.txdb.HasUnspent o ↔
        ∃ later q rest out, placed c = later ++ q :: rest ∧ q.Makes later o out := by
  obtain ⟨best, c, hbest, hc, hi⟩ := carried_accounted.on_of_reachable h hn
  exact ⟨best, c, hbest, hc, fun o => hi.hasUnspent_iff⟩

omit [P : Platform] in
theorem mainChain_unspent_trunk :
    letI := Platform.toy
    ∃ best c, (Twice.grown Twice.s₀ Twice.trunk).pindexBest = some best ∧
      (Twice.grown Twice.s₀ Twice.trunk).Branch best c ∧
      ∀ o, (Twice.grown Twice.s₀ Twice.trunk).txdb.HasUnspent o ↔
        ∃ later q rest out, placed c = later ++ q :: rest ∧ q.Makes later o out := by
  let := Platform.toy
  exact mainChain_unspent reachable_trunk.1 reachable_trunk.2

/-! ## The coins there are -/

/-- The outputs of a transaction, with their names. -/
def ChainTx.outputs (p : ChainTx) : List (COutPoint × CTxOut) :=
  p.tx.vout.zipIdx.map fun x => (⟨p.tx.getHash, x.2⟩, x.1)

/-- **The coins there are** after some transactions, newest first: what each
one makes, less what those on top of it spend. -/
def unspentOutputs : List ChainTx → List (COutPoint × CTxOut)
  | [] => []
  | p :: ps => p.outputs ++ (unspentOutputs ps).filter fun x => x.1 ∉ p.tx.spends

theorem ChainTx.mem_outputs :
    (o, out) ∈ p.outputs ↔ p.tx.getHash = o.hash ∧ p.tx.vout[o.n]? = some out := by
  unfold ChainTx.outputs
  rw [List.mem_map]
  constructor
  · rintro ⟨⟨out', n⟩, hmem, heq⟩
    obtain ⟨rfl, rfl⟩ := Prod.mk.inj heq
    exact ⟨rfl, List.mem_zipIdx_iff_getElem?.1 hmem⟩
  · rintro ⟨hhash, hout⟩
    refine ⟨(out, o.n), List.mem_zipIdx_iff_getElem?.2 hout, ?_⟩
    rw [hhash]

theorem ChainTx.nodup_outputs : (p.outputs.map Prod.fst).Nodup := by
  have hmap : p.outputs.map Prod.fst =
      (p.tx.vout.zipIdx.map Prod.snd).map (COutPoint.mk p.tx.getHash) := by
    unfold ChainTx.outputs
    rw [List.map_map, List.map_map]
    rfl
  rw [hmap, List.zipIdx_map_snd]
  exact (List.nodup_range' 1).map fun a b h => (COutPoint.mk.inj h).2

/-- **They are what is unspent**, where nothing is shadowed. -/
theorem mem_unspentOutputs (hu : Unshadowed (ps.map ChainTx.toLedger)) :
    (o, out) ∈ unspentOutputs ps ↔
      ∃ later q rest, ps = later ++ q :: rest ∧ q.Makes later o out := by
  induction ps with
  | nil => simp [unspentOutputs]
  | cons p ps ih =>
    rw [unspentOutputs, List.mem_append, ChainTx.mem_outputs, List.mem_filter, ih hu.2,
      decide_eq_true_iff]
    constructor
    · rintro (⟨hhash, hout⟩ | ⟨⟨later, q, rest, rfl, hq⟩, hspends⟩)
      · exact ⟨[], p, ps, rfl, hhash, hout, by simp, by simp⟩
      · have hne : p.tx.getHash ≠ o.hash := fun heq => hu.1 o.key (unspent_of_makes hq) heq.symm
        exact ⟨p :: later, q, rest, rfl, hq.hash, hq.vout, List.forall_mem_cons.2 ⟨hne, hq.newest⟩,
          List.forall_mem_cons.2 ⟨hspends, hq.unspent⟩⟩
    · rintro ⟨later, q, rest, heq, hq⟩
      cases later with
      | nil =>
        obtain ⟨rfl, rfl⟩ := List.cons.inj heq
        exact .inl ⟨hq.hash, hq.vout⟩
      | cons u later =>
        obtain ⟨rfl, rfl⟩ := List.cons.inj heq
        exact .inr ⟨⟨later, q, rest, rfl, hq.hash, hq.vout,
          fun w hw => hq.newest w (List.mem_cons_of_mem _ hw),
          fun w hw => hq.unspent w (List.mem_cons_of_mem _ hw)⟩, hq.unspent p List.mem_cons_self⟩

/-- Each of them once. -/
theorem nodup_unspentOutputs (hu : Unshadowed (ps.map ChainTx.toLedger)) :
    ((unspentOutputs ps).map Prod.fst).Nodup := by
  induction ps with
  | nil => exact List.nodup_nil
  | cons p ps ih =>
    rw [unspentOutputs, List.map_append, List.nodup_append']
    refine ⟨p.nodup_outputs, (ih hu.2).sublist (List.filter_sublist.map _), ?_⟩
    intro o hnew hold
    obtain ⟨⟨o₁, out₁⟩, h₁, heq₁⟩ := List.mem_map.1 hnew
    obtain ⟨⟨o₂, out₂⟩, h₂, heq₂⟩ := List.mem_map.1 hold
    obtain rfl : o₁ = o := heq₁
    obtain rfl : o₂ = o₁ := heq₂
    obtain ⟨later, q, rest, rfl, hq⟩ := (mem_unspentOutputs hu.2).1 (List.mem_filter.1 h₂).1
    exact hu.1 o₂.key (unspent_of_makes hq) (ChainTx.mem_outputs.1 h₁).1.symm

/-! ## What they are worth -/

/-- What some coins are worth. -/
def coinsWorth (l : List (COutPoint × CTxOut)) : ℤ := (l.map fun x => x.2.nValue).sum

/-- What a transaction spends of the coins there are. -/
def ChainTx.valueIn (p : ChainTx) (ps : List ChainTx) : ℤ :=
  coinsWorth ((unspentOutputs ps).filter fun x => x.1 ∈ p.tx.spends)

/-- **What has been minted**: the outputs of coinbases and coinstakes, less
what they spend. -/
def minted : List ChainTx → ℤ
  | [] => 0
  | p :: ps =>
    (if p.tx.isCoinBase || p.tx.isCoinStake then p.tx.valueOut - p.valueIn ps else 0) + minted ps

/-- The least fees of the other transactions. -/
def leastFees : List ChainTx → ℤ
  | [] => 0
  | p :: ps => (if p.tx.isCoinBase || p.tx.isCoinStake then 0 else p.tx.minFee) + leastFees ps

omit [P : Platform] in
theorem coinsWorth_append {l l' : List (COutPoint × CTxOut)} :
    coinsWorth (l ++ l') = coinsWorth l + coinsWorth l' := by
  unfold coinsWorth
  rw [List.map_append, List.sum_append]

omit [P : Platform] in
theorem coinsWorth_of_perm {l l' : List (COutPoint × CTxOut)} (h : l.Perm l') :
    coinsWorth l = coinsWorth l' :=
  (h.map _).sum_eq

omit [P : Platform] in
/-- What is spent and what is left. -/
theorem coinsWorth_filter_add {l : List (COutPoint × CTxOut)} {spends : List COutPoint} :
    coinsWorth (l.filter fun x => x.1 ∈ spends) + coinsWorth (l.filter fun x => x.1 ∉ spends) =
      coinsWorth l := by
  rw [← coinsWorth_append]
  refine coinsWorth_of_perm ?_
  have hperm := List.filter_append_perm (fun x : COutPoint × CTxOut => decide (x.1 ∈ spends)) l
  simpa only [decide_not] using hperm

theorem coinsWorth_outputs : coinsWorth p.outputs = p.tx.valueOut := by
  unfold coinsWorth ChainTx.outputs CTransaction.valueOut
  rw [List.map_map]
  conv_rhs => rw [← List.zipIdx_map_fst 0 p.tx.vout, List.map_map]
  rfl

/-- **A transaction** adds what it makes and takes away what it spends. -/
theorem coinsWorth_unspentOutputs_cons :
    coinsWorth (unspentOutputs (p :: ps)) =
      coinsWorth (unspentOutputs ps) + p.tx.valueOut - p.valueIn ps := by
  have hsplit : p.valueIn ps + coinsWorth ((unspentOutputs ps).filter fun x => x.1 ∉ p.tx.spends) =
      coinsWorth (unspentOutputs ps) := coinsWorth_filter_add
  rw [unspentOutputs, coinsWorth_append, coinsWorth_outputs]
  omega

omit [P : Platform] in
/-- Coins picked out one by one are worth what they are worth together. -/
theorem coinsWorth_filter_mem {l : List (COutPoint × CTxOut)} {spends : List COutPoint}
    {outs : List CTxOut} (hl : (l.map Prod.fst).Nodup) (hs : spends.Nodup)
    (h : List.Forall₂ (fun o out => (o, out) ∈ l) spends outs) :
    coinsWorth (l.filter fun x => x.1 ∈ spends) = (outs.map (·.nValue)).sum := by
  have hfst : (spends.zip outs).map Prod.fst = spends := List.map_fst_zip h.length_eq.le
  have hsnd : (spends.zip outs).map Prod.snd = outs := List.map_snd_zip h.length_eq.ge
  have hmem : ∀ x ∈ spends.zip outs, x ∈ l := fun x hx => (List.forall₂_iff_zip.1 h).2 hx
  have hnodup : (spends.zip outs).Nodup := List.Nodup.of_map Prod.fst (by rwa [hfst])
  have hperm : (l.filter fun x => x.1 ∈ spends).Perm (spends.zip outs) := by
    rw [List.perm_ext_iff_of_nodup ((List.Nodup.of_map _ hl).filter _) hnodup]
    intro x
    rw [List.mem_filter, decide_eq_true_iff]
    constructor
    · rintro ⟨hx, hspent⟩
      rw [← hfst] at hspent
      obtain ⟨y, hy, heq⟩ := List.mem_map.1 hspent
      rwa [← List.inj_on_of_nodup_map hl (hmem y hy) hx heq]
    · intro hx
      exact ⟨hmem x hx, (List.of_mem_zip hx).1⟩
  rw [coinsWorth_of_perm hperm, coinsWorth]
  conv_rhs => rw [← hsnd, List.map_map]
  rfl

/-- What a funded transaction spends covers what it makes and its fee. -/
theorem Funded.valueOut_add_minFee_le (hf : Funded p ps) (hu : Unshadowed (ps.map ChainTx.toLedger))
    (hcb : p.tx.isCoinBase = false) (hcs : p.tx.isCoinStake = false) :
    p.tx.valueOut + p.tx.minFee ≤ p.valueIn ps := by
  obtain ⟨outs, hall, -, hpays⟩ := hf.paid
  have hmem : List.Forall₂ (fun o out => (o, out) ∈ unspentOutputs ps) p.tx.spends outs := by
    refine hall.imp fun o out hspend => (mem_unspentOutputs hu).2 ?_
    obtain ⟨later, q, rest, hsplit, hq, -⟩ := hspend.made
    exact ⟨later, q, rest, hsplit, hq⟩
  rw [ChainTx.valueIn, coinsWorth_filter_mem (nodup_unspentOutputs hu) hf.nodup hmem]
  exact hpays hcb hcs

/-- **Nothing but coinbases and coinstakes** adds to what there is. -/
theorem coinsWorth_unspentOutputs_le (hs : Seasoned ps) (hu : Unshadowed (ps.map ChainTx.toLedger)) :
    coinsWorth (unspentOutputs ps) + leastFees ps ≤ minted ps := by
  induction ps with
  | nil => exact le_rfl
  | cons p ps ih =>
    have hbelow := ih hs.2 hu.2
    rw [coinsWorth_unspentOutputs_cons, leastFees, minted]
    by_cases hgen : (p.tx.isCoinBase || p.tx.isCoinStake) = true
    · rw [if_pos hgen, if_pos hgen]
      omega
    · rw [if_neg hgen, if_neg hgen]
      rw [Bool.or_eq_true, not_or, Bool.not_eq_true, Bool.not_eq_true] at hgen
      have hpays := hs.1.valueOut_add_minFee_le hu.2 hgen.1 hgen.2
      omega

/-- **No inflation.** In every state of a run in which no postponed block has
failed, the outputs the index has as unspent are, each once, the coins left by
the main chain, and these are worth at most what its coinbases and coinstakes
have minted, less the fees the other transactions owe. -/
theorem mainChain_worth_le (h : Reachable s) (hn : ∀ h, .postponedFailed h ∉ s.trace) :
    ∃ best c, s.pindexBest = some best ∧ s.Branch best c ∧
      ((unspentOutputs (placed c)).map Prod.fst).Nodup ∧
      (∀ o, s.txdb.HasUnspent o ↔ o ∈ (unspentOutputs (placed c)).map Prod.fst) ∧
      coinsWorth (unspentOutputs (placed c)) + leastFees (placed c) ≤ minted (placed c) := by
  obtain ⟨best, c, hbest, hc, hi⟩ := carried_accounted.on_of_reachable h hn
  refine ⟨best, c, hbest, hc, nodup_unspentOutputs hi.unshadowed, fun o => ?_,
    coinsWorth_unspentOutputs_le hi.seasoned hi.unshadowed⟩
  rw [hi.hasUnspent_iff, List.mem_map]
  constructor
  · rintro ⟨later, q, rest, out, hsplit, hq⟩
    exact ⟨(o, out), (mem_unspentOutputs hi.unshadowed).2 ⟨later, q, rest, hsplit, hq⟩, rfl⟩
  · rintro ⟨⟨o', out⟩, hmem, rfl⟩
    obtain ⟨later, q, rest, hsplit, hq⟩ := (mem_unspentOutputs hi.unshadowed).1 hmem
    exact ⟨later, q, rest, out, hsplit, hq⟩

omit [P : Platform] in
theorem mainChain_worth_le_trunk :
    letI := Platform.toy
    ∃ best c, (Twice.grown Twice.s₀ Twice.trunk).pindexBest = some best ∧
      (Twice.grown Twice.s₀ Twice.trunk).Branch best c ∧
      ((unspentOutputs (placed c)).map Prod.fst).Nodup ∧
      (∀ o, (Twice.grown Twice.s₀ Twice.trunk).txdb.HasUnspent o ↔
        o ∈ (unspentOutputs (placed c)).map Prod.fst) ∧
      coinsWorth (unspentOutputs (placed c)) + leastFees (placed c) ≤ minted (placed c) := by
  let := Platform.toy
  exact mainChain_worth_le reachable_trunk.1 reachable_trunk.2

end CryptoBullion
