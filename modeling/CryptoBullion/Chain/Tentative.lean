import CryptoBullion.Model.Run
/-!
# Tentative steps

Between `TxnBegin` and `TxnCommit` a reorganisation only tries things out:
it disconnects and connects blocks against the open batch, moves the two
supply fields of entries, and tells the wallets. `Tentative` says exactly
that of the states before and after, and is kept by every step of that
stretch, whether it succeeds or fails and after however many blocks. What
it leaves untouched is what a failed attempt must leave untouched: the
committed database, the links and the place and trust of every entry, the
tip and its globals, the pool and the block files.
-/

namespace CryptoBullion

/-! ## The tree -/

/-- An entry without its successor and the two fields `ConnectBlock` sets:
what is settled when the block is indexed. -/
def CBlockIndex.settled (i : CBlockIndex) : CBlockIndex :=
  { i with pnext := none, nMint := 0, nMoneySupply := 0 }

/-- The tree of blocks and the files they lie in are the same, and the
history has only grown. -/
structure SameTree (s s' : NodeState) : Prop where
  entry : ∀ h : Uint256, (s'.mapBlockIndex[h]?).map CBlockIndex.settled =
    (s.mapBlockIndex[h]?).map CBlockIndex.settled
  blockFiles : s'.blockFiles = s.blockFiles
  trace : s.trace <:+ s'.trace

namespace SameTree

variable {s s' s'' : NodeState} {h : Uint256}

instance : Std.Refl SameTree := ⟨fun _ => ⟨fun _ => rfl, rfl, List.suffix_rfl⟩⟩

instance : IsTrans NodeState SameTree :=
  ⟨fun _ _ _ h₁ h₂ => ⟨fun h => (h₂.entry h).trans (h₁.entry h),
    h₂.blockFiles.trans h₁.blockFiles, h₁.trace.trans h₂.trace⟩⟩

theorem settled_entry (ht : SameTree s s') : (s'.entry h).settled = (s.entry h).settled := by
  rw [NodeState.entry, NodeState.entry, ← Option.getD_map CBlockIndex.settled,
    ← Option.getD_map CBlockIndex.settled, ht.entry]

theorem pprev (ht : SameTree s s') : s'.pprev = s.pprev :=
  funext fun _ => (congrArg CBlockIndex.pprev ht.settled_entry :)

theorem nHeight (ht : SameTree s s') : s'.nHeight = s.nHeight :=
  funext fun _ => (congrArg CBlockIndex.nHeight ht.settled_entry :)

theorem bnChainTrust (ht : SameTree s s') : s'.bnChainTrust = s.bnChainTrust :=
  funext fun _ => (congrArg CBlockIndex.bnChainTrust ht.settled_entry :)

theorem nFile (ht : SameTree s s') : (s'.entry h).nFile = (s.entry h).nFile :=
  (congrArg CBlockIndex.nFile ht.settled_entry :)

theorem nBlockPos (ht : SameTree s s') : (s'.entry h).nBlockPos = (s.entry h).nBlockPos :=
  (congrArg CBlockIndex.nBlockPos ht.settled_entry :)

theorem mem_iff (ht : SameTree s s') : h ∈ s'.mapBlockIndex ↔ h ∈ s.mapBlockIndex := by
  rw [Std.ExtTreeMap.mem_iff_isSome_getElem?, Std.ExtTreeMap.mem_iff_isSome_getElem?,
    ← Option.isSome_map (f := CBlockIndex.settled), ht.entry, Option.isSome_map]

end SameTree

/-! ## Tentative changes -/

/-- The history has grown, but by no postponed block that failed. -/
structure Smooth (s s' : NodeState) : Prop where
  trace : s.trace <:+ s'.trace
  noted : ∀ h, .postponedFailed h ∈ s'.trace → .postponedFailed h ∈ s.trace

instance : Std.Refl Smooth := ⟨fun _ => ⟨List.suffix_rfl, fun _ => id⟩⟩

instance : IsTrans NodeState Smooth :=
  ⟨fun _ _ _ h₁ h₂ => ⟨h₁.trace.trans h₂.trace, fun h hm => h₁.noted h (h₂.noted h hm)⟩⟩

theorem Smooth.of_eq {s s' : NodeState} (h : s'.trace = s.trace) : Smooth s s' :=
  ⟨h ▸ List.suffix_rfl, fun _ hm => h ▸ hm⟩

/-- Some answers have been taken. -/
def Asked (s s' : NodeState) : Prop := ∃ k, ∀ n, s'.outside n = s.outside (n + k)

instance : Std.Refl Asked := ⟨fun _ => ⟨0, fun _ => rfl⟩⟩

instance : IsTrans NodeState Asked where
  trans s s' s'' h₁ h₂ := by
    obtain ⟨k₁, h₁⟩ := h₁
    obtain ⟨k₂, h₂⟩ := h₂
    refine ⟨k₂ + k₁, fun n => ?_⟩
    rw [h₂, h₁, Nat.add_assoc]

theorem Smooth.log {s : NodeState} {e : Event} (he : ∀ h, e ≠ .postponedFailed h) :
    Smooth s (s.log e) := by
  refine ⟨List.suffix_cons _ _, fun h hm => ?_⟩
  rcases List.mem_cons.1 hm with heq | hm
  · exact absurd heq.symm (he h)
  · exact hm

/-- An entry without the two fields `ConnectBlock` sets. -/
def CBlockIndex.sansSupply (i : CBlockIndex) : CBlockIndex := { i with nMint := 0, nMoneySupply := 0 }

theorem CBlockIndex.settled_sansSupply (i : CBlockIndex) : i.sansSupply.settled = i.settled := rfl

/-- While a batch is open, it stays open and nothing is committed. -/
def StaysOpen (txdb txdb' : CTxDB) : Prop :=
  txdb.activeBatch.isSome → txdb'.activeBatch.isSome ∧ txdb'.committed = txdb.committed

instance : Std.Refl StaysOpen := ⟨fun _ h => ⟨h, rfl⟩⟩

instance : IsTrans CTxDB StaysOpen :=
  ⟨fun _ _ _ h₁ h₂ h => ⟨(h₂ (h₁ h).1).1, (h₂ (h₁ h).1).2.trans (h₁ h).2⟩⟩

theorem StaysOpen.write {txdb : CTxDB} {w : Write DbKey DbValue} : StaysOpen txdb (txdb.write w) :=
  fun h => ⟨by rwa [Store.write_activeBatch_isSome], Store.write_committed h⟩

/-- What trying a block out may change. -/
structure Tentative (s s' : NodeState) : Prop where
  entry : ∀ h : Uint256, (s'.mapBlockIndex[h]?).map CBlockIndex.sansSupply =
    (s.mapBlockIndex[h]?).map CBlockIndex.sansSupply
  txdb : StaysOpen s.txdb s'.txdb
  rest : s' = { s with
    mapBlockIndex := s'.mapBlockIndex
    txdb := s'.txdb
    wallets := s'.wallets
    outside := s'.outside
    trace := s'.trace }
  smooth : Smooth s s'
  asked : Asked s s'

namespace Tentative

variable {s s' s'' : NodeState} {h : Uint256}

instance : Std.Refl Tentative :=
  ⟨fun s => ⟨fun _ => rfl, Std.Refl.refl s.txdb, rfl, Smooth.of_eq rfl, 0, fun _ => rfl⟩⟩

instance : IsTrans NodeState Tentative where
  trans s s' s'' h₁ h₂ := by
    refine ⟨fun h => (h₂.entry h).trans (h₁.entry h), IsTrans.trans _ _ _ h₁.txdb h₂.txdb, ?_,
      IsTrans.trans _ _ _ h₁.smooth h₂.smooth, IsTrans.trans _ _ _ h₁.asked h₂.asked⟩
    rw [h₂.rest, h₁.rest]

/-! ## What is untouched -/

theorem sansSupply_entry (ht : Tentative s s') :
    (s'.entry h).sansSupply = (s.entry h).sansSupply := by
  rw [NodeState.entry, NodeState.entry, ← Option.getD_map CBlockIndex.sansSupply,
    ← Option.getD_map CBlockIndex.sansSupply, ht.entry]

theorem sameTree (ht : Tentative s s') : SameTree s s' := by
  refine ⟨fun h => ?_, by rw [ht.rest], ht.smooth.trace⟩
  have := congrArg (Option.map CBlockIndex.settled) (ht.entry h)
  simpa only [Option.map_map, Function.comp_def, CBlockIndex.settled_sansSupply] using this

theorem pnext (ht : Tentative s s') : s'.pnext = s.pnext :=
  funext fun _ => (congrArg CBlockIndex.pnext ht.sansSupply_entry :)

theorem pindexBest (ht : Tentative s s') : s'.pindexBest = s.pindexBest := by rw [ht.rest]

end Tentative

/-! ## The steps that keep it -/

section Steps

open Step (Preserves)

variable {α : Type} {pindex : Uint256} {block : CBlock} {tx : CTransaction}

theorem preserves_onTxDb {x : Step CTxDB Failure α} (hx : Preserves StaysOpen x) :
    Preserves Tentative (onTxDb x) :=
  fun s => ⟨fun _ => rfl, hx s.txdb, rfl, Smooth.of_eq rfl, 0, fun _ => rfl⟩

theorem preserves_onWallets {x : Step (List CWallet) Failure α} :
    Preserves Tentative (onWallets x) :=
  fun s => ⟨fun _ => rfl, Std.Refl.refl s.txdb, rfl, Smooth.of_eq rfl, 0, fun _ => rfl⟩

theorem preserves_askOutside : Preserves Tentative askOutside :=
  fun s => ⟨fun _ => rfl, Std.Refl.refl s.txdb, rfl, Smooth.of_eq rfl, 1, fun _ => rfl⟩

theorem preserves_logged {e : Bool → Event} {x : Step NodeState Failure Unit}
    (he : ∀ b h, e b ≠ .postponedFailed h) (hx : Preserves Tentative x) :
    Preserves Tentative (logged e x) :=
  fun s => IsTrans.trans _ _ _ (hx s)
    ⟨fun _ => rfl, Std.Refl.refl (x s).2.txdb, rfl, Smooth.log (he _), 0, fun _ => rfl⟩

theorem preserves_setSupply {f : CBlockIndex → CBlockIndex}
    (hf : ∀ i, (f i).sansSupply = i.sansSupply) :
    Preserves Tentative (Step.modify (·.setEntry pindex f) : Step NodeState Failure Unit) := by
  refine Preserves.modify fun s => ⟨fun h => ?_, Std.Refl.refl s.txdb, rfl, Smooth.of_eq rfl, 0, fun _ => rfl⟩
  rw [NodeState.getElem?_setEntry]
  split
  · rcases s.mapBlockIndex[h]? with _ | i
    · rfl
    · exact congrArg some (hf i)
  · rfl

theorem staysOpen_write {w : Write DbKey DbValue} :
    Preserves StaysOpen (Step.modify (Store.write · w) : Step CTxDB Failure Unit) :=
  Preserves.modify fun _ => StaysOpen.write

theorem staysOpen_writeQueued {changes : List (Uint256 × CTxIndex)} :
    Preserves StaysOpen (Step.modify (writeQueued changes) : Step CTxDB Failure Unit) := by
  refine Preserves.modify fun txdb => ?_
  induction changes generalizing txdb with
  | nil => exact Std.Refl.refl txdb
  | cons c cs ih => exact IsTrans.trans _ _ _ StaysOpen.write (ih _)

theorem staysOpen_disconnectInput {txin : CTxIn} : Preserves StaysOpen (disconnectInput txin) := by
  refine Preserves.bind Preserves.get fun txdb => ?_
  split
  · exact Preserves.fail
  · split
    · exact Preserves.fail
    · exact staysOpen_write

variable [P : Platform]

theorem staysOpen_disconnectInputs : Preserves StaysOpen tx.disconnectInputs :=
  Preserves.bind (Preserves.forEach (fun _ => staysOpen_disconnectInput) _)
    fun _ => staysOpen_write

/-- **Disconnecting a block is tentative.** -/
theorem preserves_disconnectBlock : Preserves Tentative (disconnectBlock block pindex) := by
  refine Preserves.bind (Preserves.forEach (fun tx => preserves_onTxDb staysOpen_disconnectInputs) _)
    fun _ => Preserves.bind Preserves.get fun s => ?_
  split
  · exact Preserves.bind Preserves.pure fun _ => Preserves.forEach (fun _ => preserves_onWallets) _
  · exact Preserves.bind (preserves_onTxDb staysOpen_write)
      fun _ => Preserves.forEach (fun _ => preserves_onWallets) _

/-- **Connecting a block is tentative.** -/
theorem preserves_connectBlock : Preserves Tentative (connectBlock block pindex) := by
  refine Preserves.bind preserves_askOutside fun ans => Preserves.bind Preserves.get fun s =>
    Preserves.bind Preserves.lift fun t => Preserves.bind (preserves_setSupply fun _ => rfl)
    fun _ => Preserves.bind Preserves.get fun s => Preserves.bind (preserves_onTxDb staysOpen_write)
    fun _ => Preserves.bind (preserves_onTxDb staysOpen_writeQueued) fun _ => ?_
  split
  · exact Preserves.bind Preserves.pure fun _ => Preserves.forEach (fun _ => preserves_onWallets) _
  · exact Preserves.bind (preserves_onTxDb staysOpen_write)
      fun _ => Preserves.forEach (fun _ => preserves_onWallets) _

theorem preserves_readFromDisk {msg : String} : Preserves Tentative (readFromDisk pindex msg) :=
  Preserves.bind preserves_askOutside fun _ => Preserves.bind Preserves.get fun _ => Preserves.lift

theorem preserves_disconnectOne : Preserves Tentative (disconnectOne pindex) :=
  Preserves.bind preserves_readFromDisk fun _ =>
    Preserves.bind (preserves_logged (by simp) preserves_disconnectBlock).mapError fun _ => Preserves.pure

theorem preserves_connectOne : Preserves Tentative (connectOne pindex) :=
  Preserves.bind preserves_readFromDisk fun _ =>
    Preserves.bind (preserves_logged (by simp) preserves_connectBlock).mapError fun _ => Preserves.pure

/-- **However many blocks are disconnected**, and however that ends. -/
theorem preserves_disconnectAll {l : List Uint256} :
    Preserves Tentative (Step.collect disconnectOne l) :=
  Preserves.collect (fun _ => preserves_disconnectOne) l

/-- **However many blocks are connected**, and however that ends. -/
theorem preserves_connectAll {l : List Uint256} :
    Preserves Tentative (Step.collect connectOne l) :=
  Preserves.collect (fun _ => preserves_connectOne) l

end Steps

end CryptoBullion
