import CryptoBullion.Chain.Mirror
import CryptoBullion.Wallet.Caches
/-!
# Repairing spent flags

`FixSpentCoins` goes by the transaction index alone. In every run the index
mirrors the main chain, so what is flagged afterwards of a transaction that
is in the chain is what the chain spends, and a second call has nothing to
do. A transaction that waits for confirmation is not in the index: what it
spends of the chain is flagged unspent.
-/

namespace CryptoBullion

variable [P : Platform]

open Ledger (indexOf)
open Cached Cached.CWallet

variable {W : Accounting.CWallet} {w : Cached.CWallet} {wtx : Cached.CWalletTx}
variable {txindex : CTxIndex} {fCheckOnly : Bool} {o : CTxOut × ℕ} {l : List (CTxOut × ℕ)} {n : ℕ}
variable {m : Mismatches} {s : NodeState} {c c₀ : List StoredBlock} {hash : Uint256}
variable {readTxIndex : Uint256 → Option CTxIndex}

namespace Cached

/-! ## One coin -/

namespace CWalletTx

/-- Of the own outputs listed, the flags are what the index has. -/
def Agrees (W : Accounting.CWallet) (txindex : CTxIndex) (l : List (CTxOut × ℕ)) (wtx : CWalletTx) :
    Prop :=
  ∀ o ∈ l, W.isMine o.1 = true → wtx.isSpent o.2 = hasSpent txindex o.2

omit P in
/-- Assigning a flag changes no other. -/
theorem isSpent_setFlag {nOut : ℕ} {fSpent : Bool} (hn : n < wtx.tx.vout.length) :
    (wtx.setFlag nOut fSpent).isSpent n = if nOut = n then fSpent else wtx.isSpent n :=
  isSpent_setSpent hn

end CWalletTx

/-- What becomes of a coin at one output: a flag of that output is assigned,
or nothing. -/
theorem fixOutput_cases : (fixOutput W txindex fCheckOnly (wtx, m) o).1 = wtx ∨
    ∃ fSpent, (fixOutput W txindex fCheckOnly (wtx, m) o).1 = wtx.setFlag o.2 fSpent := by
  unfold fixOutput
  split_ifs
  · exact .inl rfl
  · exact .inr ⟨false, rfl⟩
  · exact .inl rfl
  · exact .inr ⟨true, rfl⟩
  · exact .inl rfl

/-- **One output**: an own one is flagged as the index has it, and the other
flags stay. -/
theorem isSpent_fixOutput (hn : n < wtx.tx.vout.length) :
    (fixOutput W txindex false (wtx, m) o).1.isSpent n =
      if W.isMine o.1 = true ∧ o.2 = n then hasSpent txindex n else wtx.isSpent n := by
  by_cases heq : o.2 = n
  · subst heq
    have hset : ∀ fSpent, (wtx.setFlag o.2 fSpent).isSpent o.2 = fSpent := fun fSpent =>
      (CWalletTx.isSpent_setFlag hn).trans (if_pos rfl)
    unfold fixOutput
    cases hmine : W.isMine o.1 <;> cases hflag : wtx.isSpent o.2 <;>
      cases hspent : hasSpent txindex o.2 <;> simp [hflag, hset]
  · rw [if_neg fun h => heq h.2]
    have hcases : (fixOutput W txindex false (wtx, m) o).1 = wtx ∨ _ := fixOutput_cases
    rcases hcases with h | ⟨fSpent, h⟩
    · rw [h]
    · rw [h]
      exact (CWalletTx.isSpent_setFlag hn).trans (if_neg heq)

theorem tx_fixOutput : (fixOutput W txindex fCheckOnly (wtx, m) o).1.tx = wtx.tx := by
  unfold fixOutput
  split_ifs <;> rfl

/-- **Several outputs.** -/
theorem isSpent_foldl_fixOutput (hn : n < wtx.tx.vout.length) :
    (l.foldl (fixOutput W txindex false) (wtx, m)).1.isSpent n =
      if ∃ o ∈ l, W.isMine o.1 = true ∧ o.2 = n then hasSpent txindex n else wtx.isSpent n := by
  induction l generalizing wtx m with
  | nil => simp
  | cons o l ih =>
    have hstep : (fixOutput W txindex false (wtx, m) o).1.isSpent n = _ := isSpent_fixOutput hn
    have htx : (fixOutput W txindex false (wtx, m) o).1.tx = wtx.tx := tx_fixOutput
    rw [List.foldl_cons]
    generalize fixOutput W txindex false (wtx, m) o = r at hstep htx ⊢
    obtain ⟨wtx', m'⟩ := r
    change wtx'.tx = wtx.tx at htx
    rw [ih (by rwa [htx]), hstep]
    simp only [List.exists_mem_cons_iff]
    by_cases hin : ∃ o ∈ l, W.isMine o.1 = true ∧ o.2 = n
    · rw [if_pos hin, if_pos (.inr hin)]
    · simp only [hin, or_false, if_false]

/-- Where all flags agree there is nothing to count and nothing to do. -/
theorem foldl_fixOutput_of_agrees (h : wtx.Agrees W txindex l) :
    l.foldl (fixOutput W txindex fCheckOnly) (wtx, m) = (wtx, m) := by
  induction l with
  | nil => rfl
  | cons o l ih =>
    have hfix : fixOutput W txindex fCheckOnly (wtx, m) o = (wtx, m) := by
      have ho := h o List.mem_cons_self
      unfold fixOutput
      dsimp only
      by_cases hmine : W.isMine o.1 = true
      · rw [ho hmine]
        cases hasSpent txindex o.2 <;> simp
      · simp [hmine]
    rw [List.foldl_cons, hfix]
    exact ih fun o ho => h o (List.mem_cons_of_mem _ ho)

theorem tx_foldl_fixOutput : (l.foldl (fixOutput W txindex fCheckOnly) (wtx, m)).1.tx = wtx.tx := by
  induction l generalizing wtx m with
  | nil => rfl
  | cons o l ih =>
    have htx : (fixOutput W txindex fCheckOnly (wtx, m) o).1.tx = wtx.tx := tx_fixOutput
    rw [List.foldl_cons]
    generalize fixOutput W txindex fCheckOnly (wtx, m) o = r at htx ⊢
    exact ih.trans htx

/-- An output and its place. -/
theorem exists_mem_zipIdx {txout : CTxOut} {vout : List CTxOut} (hn : vout[n]? = some txout) :
    (∃ o ∈ vout.zipIdx, W.isMine o.1 = true ∧ o.2 = n) ↔ W.isMine txout = true := by
  constructor
  · rintro ⟨⟨o, k⟩, ho, hmine, rfl⟩
    rw [List.mem_zipIdx_iff_getElem?, hn] at ho
    obtain rfl : txout = o := Option.some.inj ho
    exact hmine
  · exact fun hmine => ⟨(txout, n), List.mem_zipIdx_iff_getElem?.2 hn, hmine, rfl⟩

/-- **One coin**, repaired: the same transaction, and each output flagged as
the index has it, where it is ours and the index knows the transaction. -/
theorem isSpent_fixCoin {txout : CTxOut} (hn : wtx.tx.vout[n]? = some txout) :
    (fixCoin W readTxIndex false wtx).1.isSpent n =
      match readTxIndex wtx.tx.getHash with
      | none => wtx.isSpent n
      | some txindex => if W.isMine txout = true then hasSpent txindex n else wtx.isSpent n := by
  obtain ⟨hlt, -⟩ := List.getElem?_eq_some_iff.1 hn
  unfold fixCoin
  rcases readTxIndex wtx.tx.getHash with _ | txindex
  · rfl
  · dsimp only
    rw [isSpent_foldl_fixOutput hlt]
    exact if_congr (exists_mem_zipIdx hn) rfl rfl

theorem tx_fixCoin : (fixCoin W readTxIndex fCheckOnly wtx).1.tx = wtx.tx := by
  unfold fixCoin
  rcases readTxIndex wtx.tx.getHash with _ | txindex
  · rfl
  · exact tx_foldl_fixOutput

/-- **A repaired coin has no mismatch left.** -/
theorem fixCoin_fixCoin : fixCoin W readTxIndex fCheckOnly (fixCoin W readTxIndex false wtx).1 =
    ((fixCoin W readTxIndex false wtx).1, ⟨0, 0⟩) := by
  have htx : (fixCoin W readTxIndex false wtx).1.tx = wtx.tx := tx_fixCoin
  have hspent : ∀ n txout, wtx.tx.vout[n]? = some txout →
      (fixCoin W readTxIndex false wtx).1.isSpent n = _ := fun n txout hn => isSpent_fixCoin hn
  generalize (fixCoin W readTxIndex false wtx).1 = fixed at htx hspent ⊢
  unfold fixCoin
  rw [htx]
  rcases hread : readTxIndex wtx.tx.getHash with _ | txindex
  · rfl
  · refine foldl_fixOutput_of_agrees fun o ho hmine => ?_
    have ho' : wtx.tx.vout[o.2]? = some o.1 := List.mem_zipIdx_iff_getElem?.1 ho
    have := hspent o.2 o.1 ho'
    rw [hread] at this
    exact this.trans (if_pos hmine)

/-- Of a wallet only the keys count. -/
theorem fixCoin_congr {W' : Accounting.CWallet} (hkey : W'.keystore = W.keystore) :
    fixCoin W' readTxIndex fCheckOnly wtx = fixCoin W readTxIndex fCheckOnly wtx := by
  have hmine : W'.isMine = W.isMine := by
    funext txout
    unfold Accounting.CWallet.isMine
    rw [hkey]
  have hout : ∀ txindex, fixOutput W' txindex fCheckOnly = fixOutput W txindex fCheckOnly := by
    intro txindex
    funext s o
    unfold fixOutput
    rw [hmine]
  unfold fixCoin
  simp only [hout]

/-! ## The wallet -/

namespace CWallet

theorem getElem?_fixSpentCoins :
    (fixSpentCoins readTxIndex fCheckOnly w).2.mapWallet[hash]? =
      (w.mapWallet[hash]?).map fun wtx => (fixCoin w.plain readTxIndex fCheckOnly wtx).1 := by
  unfold fixSpentCoins
  dsimp only
  rw [Std.ExtTreeMap.getElem?_map, Std.ExtTreeMap.getElem?_map, Option.map_map]
  rfl

/-- Where no coin has a mismatch, none is counted and nothing changes. -/
theorem fixSpentCoins_of_agrees
    (h : ∀ (hash : Uint256) (wtx : CWalletTx), w.mapWallet[hash]? = some wtx →
      fixCoin w.plain readTxIndex fCheckOnly wtx = (wtx, ⟨0, 0⟩)) :
    fixSpentCoins readTxIndex fCheckOnly w = (.ok ⟨0, 0⟩, w) := by
  have hmap : (fixSpentCoins readTxIndex fCheckOnly w).2 = w := by
    have hwallet : (fixSpentCoins readTxIndex fCheckOnly w).2.mapWallet = w.mapWallet := by
      refine Std.ExtTreeMap.ext_getElem? fun hash => ?_
      rw [getElem?_fixSpentCoins]
      rcases hget : w.mapWallet[hash]? with _ | wtx
      · rfl
      · rw [Option.map_some, h hash wtx hget]
    unfold fixSpentCoins at hwallet ⊢
    dsimp only at hwallet ⊢
    rw [hwallet]
  have hzero : ∀ p ∈ (w.mapWallet.map fun _ pcoin =>
      fixCoin w.plain readTxIndex fCheckOnly pcoin).toList, p.2.2 = ⟨0, 0⟩ := by
    rintro ⟨hash, fixed⟩ hp
    rw [Std.ExtTreeMap.mem_toList_iff_getElem?_eq_some, Std.ExtTreeMap.getElem?_map,
      Option.map_eq_some_iff] at hp
    obtain ⟨wtx, hget, rfl⟩ := hp
    rw [h hash wtx hget]
  refine Prod.ext ?_ hmap
  unfold fixSpentCoins
  dsimp only
  rw [List.map_map, List.map_map, List.sum_eq_zero, List.sum_eq_zero]
  · intro n hn
    obtain ⟨p, hp, rfl⟩ := List.mem_map.1 hn
    rw [Function.comp_apply, hzero p hp]
  · intro n hn
    obtain ⟨p, hp, rfl⟩ := List.mem_map.1 hn
    rw [Function.comp_apply, hzero p hp]

/-- **A second call finds nothing**, and changes nothing. -/
theorem fixSpentCoins_again :
    fixSpentCoins readTxIndex fCheckOnly (fixSpentCoins readTxIndex false w).2 =
      (.ok ⟨0, 0⟩, (fixSpentCoins readTxIndex false w).2) := by
  refine fixSpentCoins_of_agrees fun hash wtx' hget => ?_
  rw [getElem?_fixSpentCoins, Option.map_eq_some_iff] at hget
  obtain ⟨wtx, -, rfl⟩ := hget
  rw [fixCoin_congr (W := w.plain) rfl]
  exact fixCoin_fixCoin

end CWallet

end Cached

/-! ## The index and the chain -/

/-- **An output of an indexed transaction is spent in the index** exactly
where a transaction of the chain of the last commit spends it. -/
theorem hasSpent_iff (h : IndexRun s c c₀) (hread : CTxDB.readTxIndex s.txdb.abort hash = some txindex) :
    hasSpent txindex n = true ↔ ∃ u ∈ txsOf c₀, (⟨hash, n⟩ : COutPoint) ∈ u.spends := by
  have hm := mirrored_of_run h
  have hentry : indexOf (ledgerOf c₀) hash = some txindex.toEntry := by
    rw [← hm.committed, CTxDB.index, hread]
    rfl
  have hmem : ∀ u : CTransaction, (hash, n) ∈ u.spends.map COutPoint.key ↔
      (⟨hash, n⟩ : COutPoint) ∈ u.spends :=
    fun u => List.mem_map_of_injective COutPoint.key_injective (a := ⟨hash, n⟩)
  have hledger : (∃ t ∈ ledgerOf c₀, (hash, n) ∈ t.ins) ↔
      ∃ u ∈ txsOf c₀, (⟨hash, n⟩ : COutPoint) ∈ u.spends := by
    have hiff := exists_mem_txsOf (c := c₀)
      (f := fun (_ : Uint256) ins (_ : List CTxOut) => (hash, n) ∈ ins)
    simpa only [hmem] using hiff
  rw [← hledger]
  have hslot : txindex.toEntry.2[n]? =
      (txindex.vSpent[n]?).map fun p => if p.isNull then none else some p := List.getElem?_map
  unfold hasSpent
  rcases hpos : txindex.vSpent[n]? with _ | p
  · -- what is spent has a slot
    rw [hpos] at hslot
    refine iff_of_false (by simp) ?_
    rintro ⟨u, hu, hins⟩
    obtain ⟨t, ht, hid, hlt⟩ := hm.sound.made hu hins
    obtain ⟨slots, hslots, hlen⟩ := hm.sound.entry ht
    rw [show t.id = hash from hid, hentry] at hslots
    obtain rfl := congrArg Prod.snd (Option.some.inj hslots)
    rw [Option.map_none, List.getElem?_eq_none_iff, hlen] at hslot
    exact absurd hlt hslot.not_gt
  · rw [hpos] at hslot
    rw [← hm.sound.slot_iff hentry hslot]
    cases p.isNull <;> simp

/-- A transaction of the wallet that the index does not have spends the
output. -/
def SpentWaiting (readTxIndex : Uint256 → Option CTxIndex) (w : Cached.CWallet)
    (prevout : COutPoint) : Prop :=
  ∃ (hash : Uint256) (wtx : Cached.CWalletTx), w.mapWallet[hash]? = some wtx ∧
    readTxIndex wtx.tx.getHash = none ∧ prevout ∈ wtx.tx.spends

/-- A transaction of the chain spends the output. -/
def SpentInChain (c : List StoredBlock) (prevout : COutPoint) : Prop :=
  ∃ u ∈ txsOf c, prevout ∈ u.spends

/-- **What `FixSpentCoins` repairs, and what it does not.** The call goes by
what is committed. Every transaction stays what it is. An output of ours is
flagged as the chain spends it, where the index has its transaction, and
keeps its flag where it has not: so one the chain spends is never flagged
unspent, and one that only a waiting transaction spends is, exactly where
its own transaction is in the index. The flags of other outputs stay, and a
second call finds nothing. -/
theorem fixSpentCoins_repairs (h : IndexRun s c c₀) (w : Cached.CWallet) :
    (∀ (hash : Uint256) (wtx : Cached.CWalletTx), w.mapWallet[hash]? = some wtx →
      ∃ wtx' : Cached.CWalletTx,
      (fixSpentCoins (CTxDB.readTxIndex s.txdb.abort) false w).2.mapWallet[hash]? = some wtx' ∧
      wtx'.tx = wtx.tx ∧
      ∀ n txout, wtx.tx.vout[n]? = some txout →
        (w.plain.isMine txout = false → wtx'.isSpent n = wtx.isSpent n) ∧
        (CTxDB.readTxIndex s.txdb.abort wtx.tx.getHash = none → wtx'.isSpent n = wtx.isSpent n) ∧
        (w.plain.isMine txout = true → wtx.isSpent n = true →
          (SpentInChain c₀ ⟨wtx.tx.getHash, n⟩ → wtx'.isSpent n = true) ∧
          (SpentWaiting (CTxDB.readTxIndex s.txdb.abort) w ⟨wtx.tx.getHash, n⟩ →
            (wtx'.isSpent n = true ↔ SpentInChain c₀ ⟨wtx.tx.getHash, n⟩ ∨
              CTxDB.readTxIndex s.txdb.abort wtx.tx.getHash = none))) ∧
        (w.plain.isMine txout = true → CTxDB.readTxIndex s.txdb.abort wtx.tx.getHash ≠ none →
          (wtx'.isSpent n = true ↔ SpentInChain c₀ ⟨wtx.tx.getHash, n⟩))) ∧
      ∀ fCheckOnly, fixSpentCoins (CTxDB.readTxIndex s.txdb.abort) fCheckOnly
          (fixSpentCoins (CTxDB.readTxIndex s.txdb.abort) false w).2 =
        (.ok ⟨0, 0⟩, (fixSpentCoins (CTxDB.readTxIndex s.txdb.abort) false w).2) := by
  refine ⟨fun hash wtx hget => ?_, fun fCheckOnly => fixSpentCoins_again⟩
  refine ⟨(fixCoin w.plain (CTxDB.readTxIndex s.txdb.abort) false wtx).1, ?_, tx_fixCoin,
    fun n txout hn => ?_⟩
  · rw [getElem?_fixSpentCoins, hget, Option.map_some]
  have hspent : (fixCoin w.plain (CTxDB.readTxIndex s.txdb.abort) false wtx).1.isSpent n = _ :=
    isSpent_fixCoin hn
  rcases hread : CTxDB.readTxIndex s.txdb.abort wtx.tx.getHash with _ | txindex
  · rw [hread] at hspent
    refine ⟨fun _ => hspent, fun _ => hspent, fun _ hflag => ?_, fun _ hne => absurd rfl hne⟩
    exact ⟨fun _ => hspent.trans hflag, fun _ => iff_of_true (hspent.trans hflag) (.inr rfl)⟩
  · have hchain : hasSpent txindex n = true ↔ SpentInChain c₀ ⟨wtx.tx.getHash, n⟩ :=
      hasSpent_iff h hread
    rw [hread] at hspent
    dsimp only at hspent
    refine ⟨fun hmine => ?_, fun hnone => absurd hnone (by simp), fun hmine _ => ?_,
      fun hmine _ => ?_⟩
    · exact hspent.trans (if_neg (by rw [hmine]; decide))
    · rw [hspent, if_pos hmine, hchain]
      exact ⟨id, fun _ => (or_iff_left (by simp)).symm⟩
    · rw [hspent, if_pos hmine, hchain]

/-! ## A coin and what waits to spend it -/

namespace LostCoin

/-- The coin that the first block made, flagged spent. -/
def coin : Cached.CWalletTx := (@Cached.CWalletTx.ofTx Platform.toy
  (Apart.coinBase 1372352000) (some Apart.a)).setFlag 0 true

/-- A transaction that spends it, and is in no block. -/
def payment : CTransaction := ⟨1, 1372352001, [⟨⟨1372352000, 0⟩, [], uintMax⟩], [⟨5, [7]⟩], 0⟩

def wallet : Cached.CWallet where
  mapWallet := (Std.ExtTreeMap.empty.insert 1372352000 coin).insert 1372352001
    (@Cached.CWalletTx.ofTx Platform.toy payment none)
  keystore := ⟨[], [[]]⟩
  fFileBacked := true

/-- The block is connected, and that is committed. -/
def committed : NodeState := (txnCommit "" OneBlock.connected).2

omit [P : Platform]

theorem indexRun_committed :
    IndexRun (P := Platform.toy) committed [Apart.storedA] [Apart.storedA] := by
  have hrun : IndexRun (P := Platform.toy) OneBlock.connected [Apart.storedA] [] :=
    .connect (P := Platform.toy) OneBlock.indexRun_opened (by decide) OneBlock.branch
      (List.pairwise_singleton _ _) (Step.eq_of_fst_eq (by decide +kernel))
  exact .commit (P := Platform.toy) hrun (Step.eq_of_fst_eq (by decide +kernel))

end LostCoin

omit [P : Platform] in
/-- The coin of the first block, of which nothing is lost. -/
theorem fixSpentCoins_repairs_oneBlock :
    letI := Platform.toy
    ∃ wtx' : Cached.CWalletTx, (fixSpentCoins (CTxDB.readTxIndex LostCoin.committed.txdb.abort) false
      LostCoin.wallet).2.mapWallet[(1372352000 : Uint256)]? = some wtx' ∧
        wtx'.tx = LostCoin.coin.tx := by
  let := Platform.toy
  obtain ⟨wtx', hget, htx, -⟩ := (fixSpentCoins_repairs LostCoin.indexRun_committed
    LostCoin.wallet).1 1372352000 LostCoin.coin (by decide)
  exact ⟨wtx', hget, htx⟩

omit [P : Platform] in
/-- **A coin that a waiting transaction spends is flagged unspent.** -/
theorem fixSpentCoins_not_safe :
    letI := Platform.toy
    ¬ ∀ (s : NodeState) (c c₀ : List StoredBlock) (w : Cached.CWallet), IndexRun s c c₀ →
      ∀ (hash : Uint256) (wtx wtx' : Cached.CWalletTx) (n : ℕ) (txout : CTxOut),
        w.mapWallet[hash]? = some wtx →
        (fixSpentCoins (CTxDB.readTxIndex s.txdb.abort) false w).2.mapWallet[hash]? = some wtx' →
        wtx.tx.vout[n]? = some txout → w.plain.isMine txout = true → wtx.isSpent n = true →
        SpentWaiting (CTxDB.readTxIndex s.txdb.abort) w ⟨wtx.tx.getHash, n⟩ ∨
          SpentInChain c₀ ⟨wtx.tx.getHash, n⟩ →
        wtx'.isSpent n = true := by
  let := Platform.toy
  intro hall
  have hlost := hall LostCoin.committed _ _ LostCoin.wallet LostCoin.indexRun_committed 1372352000
    LostCoin.coin (LostCoin.coin.setFlag 0 false) 0 ⟨9 * CryptoBullion.coin, []⟩ (by decide)
    (by decide +kernel) (by decide +kernel) (by decide +kernel) (by decide +kernel)
    (.inl ⟨1372352001, Cached.CWalletTx.ofTx LostCoin.payment none, by decide +kernel, by decide +kernel,
      by decide⟩)
  exact absurd hlost (by decide)

end CryptoBullion
