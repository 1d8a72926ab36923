import CryptoBullion.Model.Primitives
/-!
# Relay memory

`RelayMessage` keeps what it relays in `mapRelay`, as it was serialised,
and puts the item into a queue with the time at which it expires. The
queue is worked off at the next call. What it offers to the other nodes is
left out. All that is asked of the clock during one call is asked at one
time.
-/

namespace CryptoBullion

/-- `CInv` -/
structure CInv where
  type : ℤ
  hash : Uint256
  deriving DecidableEq, Repr

/-- `MSG_TX`, `MSG_BLOCK` -/
def msgTx : ℤ := 1
def msgBlock : ℤ := 2

/-- `operator<`: by type, then by hash -/
instance : Ord CInv := ⟨compareLex (compareOn CInv.type) (compareOn CInv.hash)⟩

instance : Std.TransOrd CInv :=
  inferInstanceAs (Std.TransCmp (compareLex (compareOn CInv.type) (compareOn CInv.hash)))

instance : Std.LawfulEqOrd CInv where
  compare_self := (inferInstance : Std.ReflCmp
    (compareLex (compareOn CInv.type) (compareOn CInv.hash))).compare_self
  eq_of_compare {a b} h := by
    obtain ⟨atype, ahash⟩ := a
    obtain ⟨btype, bhash⟩ := b
    simp only [compare, compareLex, compareOn, Ordering.then_eq_eq] at h
    obtain ⟨h₁, h₂⟩ := h
    rw [CInv.mk.injEq]
    exact ⟨Std.LawfulEqOrd.eq_of_compare h₁, Std.LawfulEqOrd.eq_of_compare h₂⟩

/-- `mapRelay` and `vRelayExpiration` -/
structure RelayMemory where
  mapRelay : Map CInv (List UInt8)
  vRelayExpiration : List (ℤ × CInv)

namespace RelayMemory

def empty : RelayMemory := ⟨∅, []⟩

/-- "Expire old relay messages" -/
def expire (nNow : ℤ) : List (ℤ × CInv) → Map CInv (List UInt8) → RelayMemory
  | [], mapRelay => ⟨mapRelay, []⟩
  | front :: vRelayExpiration, mapRelay =>
    if front.1 < nNow then expire nNow vRelayExpiration (mapRelay.erase front.2)
    else ⟨mapRelay, front :: vRelayExpiration⟩

/-- `RelayMessage`, at time `nNow` -/
def relayMessage (s : RelayMemory) (nNow : ℤ) (inv : CInv) (ss : List UInt8) : RelayMemory :=
  let s := expire nNow s.vRelayExpiration s.mapRelay
  -- save original serialized message so newer versions are preserved
  { mapRelay := s.mapRelay.insertIfNew inv ss
    vRelayExpiration := s.vRelayExpiration ++ [(nNow + 15 * 60, inv)] }

/-- What the branch for `getdata` sends for an item that is no block:
`mapRelay`'s bytes, or else those of a transaction in the memory pool -/
def sendItem (s : RelayMemory) (lookup : Uint256 → Option (List UInt8)) (inv : CInv) :
    Option (List UInt8) :=
  match s.mapRelay[inv]? with
  | some ss => some ss
  | none => if inv.type = msgTx then lookup inv.hash else none

end RelayMemory

/-- A call of `RelayMessage`, and when. -/
structure RelayCall where
  nNow : ℤ
  inv : CInv
  ss : List UInt8
  deriving DecidableEq, Repr

/-- Relay memory after some calls. -/
def RelayMemory.after (calls : List RelayCall) : RelayMemory :=
  calls.foldl (fun s c => s.relayMessage c.nNow c.inv c.ss) empty

end CryptoBullion
