import CryptoBullion.Model.Accounting
import CryptoBullion.Common.Step
/-!
# Address groupings

`GetAddressGroupings`. It reads the wallet through `mapWallet[hash]`, which
makes what it does not find, so the wallet is the state of the first half.
The second half merges sets through pointers: a pointer is the number of
the allocation, and a set that was deleted is not in the heap.
-/

namespace CryptoBullion

/-- The place of a destination among all: its type counts first. -/
def CTxDestination.rank : CTxDestination → ℕ
  | .noDestination => 0
  | .keyID id => 1 + id.toNat
  | .scriptID id => 1 + 2 ^ 160 + id.toNat

theorem CTxDestination.rank_injective : Function.Injective CTxDestination.rank := by
  intro a b h
  cases a <;> cases b <;> simp only [rank] at h
  case noDestination.noDestination => rfl
  case keyID.keyID a b => rw [BitVec.eq_of_toNat_eq (by omega : a.toNat = b.toNat)]
  case scriptID.scriptID a b => rw [BitVec.eq_of_toNat_eq (by omega : a.toNat = b.toNat)]
  case keyID.scriptID a b => have := a.isLt; omega
  case scriptID.keyID a b => have := b.isLt; omega
  all_goals omega

instance : Ord CTxDestination := ⟨compareOn CTxDestination.rank⟩

instance : Std.TransOrd CTxDestination :=
  inferInstanceAs (Std.TransCmp (compareOn CTxDestination.rank))

instance : Std.LawfulEqOrd CTxDestination where
  eq_of_compare h := CTxDestination.rank_injective (Std.LawfulEqOrd.eq_of_compare h)

namespace Accounting

/-- `set` -/
abbrev StdSet (α : Type) [Ord α] := Std.ExtTreeSet α compare

/-- `set<CTxDestination>` -/
abbrev AddressSet := StdSet CTxDestination

/-- Sets are compared element by element. -/
instance : Ord AddressSet := ⟨compareOn Std.ExtTreeSet.toList⟩

instance : Std.TransOrd AddressSet :=
  inferInstanceAs (Std.TransCmp (compareOn Std.ExtTreeSet.toList))

instance : Std.LawfulEqOrd AddressSet where
  eq_of_compare {s t} h := Std.ExtTreeSet.ext_mem fun a => by
    have heq : s.toList = t.toList := Std.LawfulEqOrd.eq_of_compare h
    rw [← Std.ExtTreeSet.mem_toList, heq, Std.ExtTreeSet.mem_toList]

/-- `set< set<CTxDestination> >` -/
abbrev Groupings := StdSet AddressSet

variable [P : Platform]

/-! ## Collecting -/

/-- `CWalletTx()`; the time is the adjusted time. -/
def CWalletTx.blank (nTime : ℕ) : CWalletTx :=
  { CryptoBullion.CWalletTx.ofTx ⟨1, nTime, [], [], 0⟩ with vtxPrev := [], strFromAccount := "" }

namespace CWallet

/-- `IsMine(txin)` -/
def isMineIn (w : CWallet) (txin : CTxIn) : Bool :=
  match w.mapWallet[txin.prevout.hash]? with
  | none => false
  | some prev =>
    match prev.tx.vout[txin.prevout.n]? with
    | none => false
    | some txout => w.isMine txout

/-- `mapWallet[hash]`: what is not there is made. -/
def subscript (nTime : ℕ) (hash : Uint256) : Step CWallet Failure CWalletTx := do
  let w ← Step.get
  match w.mapWallet[hash]? with
  | some wtx => pure wtx
  | none => do
    Step.modify fun w =>
      { w with mapWallet := w.mapWallet.insert hash (CWalletTx.blank nTime) }
    pure (CWalletTx.blank nTime)

/-- `grouping.insert`, of an address if there is one -/
def insertAddress (grouping : AddressSet) (txout : CTxOut) : AddressSet :=
  match extractDestination txout.scriptPubKey with
  | none => grouping
  | some address => grouping.insert address

/-- "group all input addresses with each other" -/
def groupInputs (nTime : ℕ) : AddressSet → List CTxIn → Step CWallet Failure AddressSet
  | grouping, [] => pure grouping
  | grouping, txin :: rest => do
    let prev ← subscript nTime txin.prevout.hash
    match prev.tx.vout[txin.prevout.n]? with
    | none => Step.fail (.crash "vout out of range")
    | some txout => groupInputs nTime (insertAddress grouping txout) rest

/-- "group change with input addresses"; `hash` is of the first input, and
what is looked up under it is not used. -/
def groupChange (nTime : ℕ) (hash : Uint256) :
    AddressSet → List CTxOut → Step CWallet Failure AddressSet
  | grouping, [] => pure grouping
  | grouping, txout :: rest => do
    let w ← Step.get
    if w.isChange txout then do
      let _ ← subscript nTime hash
      groupChange nTime hash (insertAddress grouping txout) rest
    else groupChange nTime hash grouping rest

/-- "group lone addrs by themselves" -/
def groupLone (w : CWallet) (groupings : Groupings) (txout : CTxOut) : Groupings :=
  if w.isMine txout then
    match extractDestination txout.scriptPubKey with
    | none => groupings
    | some address => groupings.insert ((∅ : AddressSet).insert address)
  else groupings

/-- The group of a transaction whose first input is ours. -/
def groupInputsAndChange (nTime : ℕ) (pcoin : CWalletTx) (groupings : Groupings) :
    Step CWallet Failure Groupings := do
  let w ← Step.get
  match pcoin.tx.vin with
  | [] => pure groupings
  | txin :: rest =>
    if w.isMineIn txin then do
      let grouping ← groupInputs nTime ∅ (txin :: rest)
      let grouping ← groupChange nTime txin.prevout.hash grouping pcoin.tx.vout
      pure (groupings.insert grouping)
    else pure groupings

/-- The loop over the transactions. An entry that it makes while it runs
is of a transaction without outputs, which is read at once. -/
def groupTxs (nTime : ℕ) : Groupings → List CWalletTx → Step CWallet Failure Groupings
  | groupings, [] => pure groupings
  | groupings, pcoin :: rest => do
    let groupings ← groupInputsAndChange nTime pcoin groupings
    let w ← Step.get
    groupTxs nTime (pcoin.tx.vout.foldl w.groupLone groupings) rest

end CWallet

/-! ## Merging -/

/-- The sets there are, and how they are found. -/
structure Merging where
  /-- what is allocated, and not deleted -/
  heap : Map ℕ AddressSet
  /-- the next pointer -/
  nNext : ℕ
  uniqueGroupings : StdSet ℕ
  setmap : Map CTxDestination ℕ

namespace Merging

def empty : Merging := ⟨Std.ExtTreeMap.empty, 0, ∅, Std.ExtTreeMap.empty⟩

/-- "make a set of all the groups hit by this new group", and its loop -/
def addHit (m : Merging) (hits : StdSet ℕ) (address : CTxDestination) : StdSet ℕ :=
  match m.setmap[address]? with
  | none => hits
  | some p => hits.insert p

def hits (m : Merging) (grouping : AddressSet) : StdSet ℕ := grouping.toList.foldl m.addHit ∅

/-- "merge all hit groups into a new single group and delete old groups",
one of them -/
def mergeHit (s : AddressSet × Merging) (hit : ℕ) : Except Failure (AddressSet × Merging) :=
  match s.2.heap[hit]? with
  | none => .error (.crash "a deleted group")
  | some group =>
    .ok (s.1 ∪ group, { s.2 with
      heap := s.2.heap.erase hit
      uniqueGroupings := s.2.uniqueGroupings.erase hit })

/-- The body of the loop over the groupings. Nothing reads the new set
before it is complete. -/
def mergeGrouping (m : Merging) (grouping : AddressSet) : Except Failure Merging := do
  let s ← (m.hits grouping).toList.foldlM mergeHit (grouping, m)
  .ok { s.2 with
    heap := s.2.heap.insert m.nNext s.1
    nNext := m.nNext + 1
    uniqueGroupings := s.2.uniqueGroupings.insert m.nNext
    -- "update setmap"
    setmap := s.1.toList.foldl (fun setmap element => setmap.insert element m.nNext) s.2.setmap }

/-- `ret.insert(*uniqueGrouping)`, and the set is deleted -/
def release (s : Groupings × Merging) (uniqueGrouping : ℕ) : Except Failure (Groupings × Merging) :=
  match s.2.heap[uniqueGrouping]? with
  | none => .error (.crash "a deleted group")
  | some group => .ok (s.1.insert group, { s.2 with heap := s.2.heap.erase uniqueGrouping })

end Merging

/-- `GetAddressGroupings` -/
def CWallet.getAddressGroupings (nTime : ℕ) : Step CWallet Failure Groupings := do
  let w ← Step.get
  let groupings ← groupTxs nTime ∅ w.txs
  let m ← Step.lift (groupings.toList.foldlM Merging.mergeGrouping Merging.empty)
  let s ← Step.lift (m.uniqueGroupings.toList.foldlM Merging.release (∅, m))
  pure s.1

end Accounting

end CryptoBullion
