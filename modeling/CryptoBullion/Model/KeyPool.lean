import CryptoBullion.Model.Primitives
/-!
# The key pool

`CWallet`'s pool of keys made in advance and `CReserveKey`, which takes
one out for as long as it may still turn out unused. The pool's indexes
are in memory (`setKeyPool`), its keys in the wallet's database; a key
that is reserved has left the set and stays in the database until it is
kept.

The locks make each call one step. Times of creation are left out, and the
database writes what it is given.
-/

namespace CryptoBullion

variable {K H : Type} [DecidableEq K] [DecidableEq H]

/-- What the pool relies on: a new key is valid and was never seen before. -/
structure KeyPoolEnv (K : Type) where
  /-- what `GenerateNewKey` returns the `n`th time -/
  newKey : ℕ → K
  newKey_injective : Function.Injective newKey
  /-- `CPubKey::IsValid` -/
  isValid : K → Bool
  isValid_newKey : ∀ n, isValid (newKey n) = true
  /-- `GetArg("-keypool", 100)` -/
  nKeypool : ℤ
  /-- `IsLocked()` -/
  fLocked : Bool
  fFileBacked : Bool
  vchDefaultKey : K

/-- The wallet, as far as the pool goes. -/
structure KeyPoolWallet (K : Type) where
  setKeyPool : Finset ℤ
  /-- the `"pool"` records of the database -/
  pool : ℤ → Option K
  /-- the keys `HaveKey` knows -/
  mapKeys : List K
  /-- how often `GenerateNewKey` was called -/
  nGenerated : ℕ

namespace KeyPoolWallet

variable (env : KeyPoolEnv K)

/-- `GenerateNewKey`, `WritePool` and the insertion that follows them. -/
def addKey (nIndex : ℤ) (s : KeyPoolWallet K) : KeyPoolWallet K :=
  let key := env.newKey s.nGenerated
  { setKeyPool := insert nIndex s.setKeyPool
    pool := Function.update s.pool nIndex (some key)
    mapKeys := key :: s.mapKeys
    nGenerated := s.nGenerated + 1 }

/-- `nKeys` of `NewKeyPool` -/
def nKeys : ℕ := env.nKeypool.toNat

/-- `NewKeyPool`: the records of the set go, and new ones are numbered from
one. -/
def newKeyPool (s : KeyPoolWallet K) : Bool × KeyPoolWallet K :=
  let s := { s with
    pool := fun nIndex => if nIndex ∈ s.setKeyPool then none else s.pool nIndex
    setKeyPool := ∅ }
  if env.fLocked then (false, s)
  else (true, (List.range (nKeys env)).foldl (fun s (i : ℕ) => addKey env ((i : ℤ) + 1) s) s)

/-- `nTargetSize + 1`, in an `unsigned int` -/
def nTarget : ℕ := (env.nKeypool.toNat % 2 ^ 32 + 1) % 2 ^ 32

/-- `nEnd` of `TopUpKeyPool`: behind the largest index still in the set -/
def nEnd (s : KeyPoolWallet K) : ℤ :=
  if h : s.setKeyPool.Nonempty then s.setKeyPool.max' h + 1 else 1

/-- The loop of `TopUpKeyPool`, at most `fuel` times. -/
def topUpLoop : (fuel : ℕ) → KeyPoolWallet K → KeyPoolWallet K
  | 0, s => s
  | fuel + 1, s =>
    if s.setKeyPool.card < nTarget env then topUpLoop fuel (addKey env s.nEnd s) else s

/-- `TopUpKeyPool` -/
def topUpKeyPool (s : KeyPoolWallet K) : Bool × KeyPoolWallet K :=
  if env.fLocked then (false, s) else (true, topUpLoop env (nTarget env) s)

/-- `ReserveKeyFromKeyPool`: the index and the key, `-1` and none where the
pool is empty. The index is set, and out of the set, before the record is
looked at. -/
def reserveKeyFromKeyPool (s : KeyPoolWallet K) :
    (ℤ × Except Failure (Option K)) × KeyPoolWallet K :=
  let s := if env.fLocked then s else (topUpKeyPool env s).2
  if h : s.setKeyPool.Nonempty then
    let nIndex := s.setKeyPool.min' h
    let s := { s with setKeyPool := s.setKeyPool.erase nIndex }
    match s.pool nIndex with
    | none => ((nIndex, .error (.exception "ReserveKeyFromKeyPool() : read failed")), s)
    | some key =>
      if key ∉ s.mapKeys then
        ((nIndex, .error (.exception "ReserveKeyFromKeyPool() : unknown key in key pool")), s)
      else if !env.isValid key then
        ((nIndex, .error (.crash "assert(keypool.vchPubKey.IsValid())")), s)
      else ((nIndex, .ok (some key)), s)
  else ((-1, .ok none), s)

/-- `KeepKey(nIndex)` -/
def keepKey (nIndex : ℤ) (s : KeyPoolWallet K) : KeyPoolWallet K :=
  if env.fFileBacked then { s with pool := Function.update s.pool nIndex none } else s

/-- `ReturnKey(nIndex)` -/
def returnKey (nIndex : ℤ) (s : KeyPoolWallet K) : KeyPoolWallet K :=
  { s with setKeyPool := insert nIndex s.setKeyPool }

end KeyPoolWallet

/-! ## Holders -/

/-- `CReserveKey`, with no public key where it is not valid -/
structure CReserveKey (K : Type) where
  nIndex : ℤ
  vchPubKey : Option K
  deriving DecidableEq

/-- `CReserveKey(pwalletIn)` -/
def CReserveKey.new : CReserveKey K := ⟨-1, none⟩

/-- A wallet and everyone who may hold a key of it. -/
structure KeyPoolState (H K : Type) where
  wallet : KeyPoolWallet K
  holders : H → CReserveKey K

/-- What a holder may be asked to do, and what the wallet is asked on its
own. `returnKey` is also what the destructor does. -/
inductive KeyPoolCall (H : Type)
  | getReservedKey (h : H)
  | keepKey (h : H)
  | returnKey (h : H)
  | topUpKeyPool
  | newKeyPool
  deriving DecidableEq

namespace KeyPoolState

variable (env : KeyPoolEnv K)

/-- `CReserveKey::GetReservedKey` -/
def getReservedKey (h : H) (s : KeyPoolState H K) : Except Failure K × KeyPoolState H K :=
  let r := s.holders h
  if r.nIndex = -1 then
    let ((nIndex, keypool), wallet) := s.wallet.reserveKeyFromKeyPool env
    match keypool with
    | .error e => (.error e, ⟨wallet, Function.update s.holders h { r with nIndex }⟩)
    | .ok key =>
      let vchPubKey := if nIndex ≠ -1 then key else some env.vchDefaultKey
      let s' : KeyPoolState H K := ⟨wallet, Function.update s.holders h ⟨nIndex, vchPubKey⟩⟩
      match vchPubKey.filter env.isValid with
      | some key => (.ok key, s')
      | none => (.error (.crash "assert(vchPubKey.IsValid())"), s')
  else
    match r.vchPubKey.filter env.isValid with
    | some key => (.ok key, s)
    | none => (.error (.crash "assert(vchPubKey.IsValid())"), s)

/-- `CReserveKey::KeepKey` -/
def keepKey (h : H) (s : KeyPoolState H K) : KeyPoolState H K where
  wallet :=
    if (s.holders h).nIndex ≠ -1 then s.wallet.keepKey env (s.holders h).nIndex else s.wallet
  holders := Function.update s.holders h .new

/-- `CReserveKey::ReturnKey` -/
def returnKey (h : H) (s : KeyPoolState H K) : KeyPoolState H K where
  wallet :=
    if (s.holders h).nIndex ≠ -1 then s.wallet.returnKey (s.holders h).nIndex else s.wallet
  holders := Function.update s.holders h .new

/-- The state one call leaves. -/
def call (s : KeyPoolState H K) : KeyPoolCall H → KeyPoolState H K
  | .getReservedKey h => (s.getReservedKey env h).2
  | .keepKey h => s.keepKey env h
  | .returnKey h => s.returnKey h
  | .topUpKeyPool => { s with wallet := (s.wallet.topUpKeyPool env).2 }
  | .newKeyPool => { s with wallet := (s.wallet.newKeyPool env).2 }

end KeyPoolState

end CryptoBullion
