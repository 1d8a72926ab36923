import CryptoBullion.Model.Inputs
/-!
# The memory pool

Adding and removing transactions, and `accept` as a reorganisation calls
it: with the inputs unchecked.
-/

namespace CryptoBullion

namespace CTxMemPool

/-- The spenders of a transaction's inputs, entered one after the other. -/
def noteSpends (hash : Uint256) : ℕ → List CTxIn → Map COutPoint (Uint256 × ℕ) →
    Map COutPoint (Uint256 × ℕ)
  | _, [], m => m
  | i, txin :: rest, m => noteSpends hash (i + 1) rest (m.insert txin.prevout (hash, i))

/-- `CTxMemPool::addUnchecked` -/
def addUnchecked (pool : CTxMemPool) (hash : Uint256) (tx : CTransaction) : CTxMemPool where
  mapTx := pool.mapTx.insert hash tx
  mapNextTx := noteSpends hash 0 tx.vin pool.mapNextTx

variable [P : Platform]

/-- `CTxMemPool::remove` -/
def remove (pool : CTxMemPool) (tx : CTransaction) : CTxMemPool :=
  if pool.mapTx.contains tx.getHash then
    { mapTx := pool.mapTx.erase tx.getHash
      mapNextTx := tx.vin.foldl (fun m txin => m.erase txin.prevout) pool.mapNextTx }
  else pool

/-- `CTxMemPool::accept` with `fCheckInputs` false. A transaction that
conflicts with one in the pool is refused: replacement is switched off. -/
def accept (pool : CTxMemPool) (tx : CTransaction) (nBestHeight nAdjustedTime : ℤ) :
    Except Failure CTxMemPool := do
  onFalse tx.checkTransaction (.error "CTxMemPool::accept() : CheckTransaction failed")
  reject tx.isCoinBase (.doS 100 "CTxMemPool::accept() : coinbase as individual tx")
  reject tx.isCoinStake (.doS 100 "CTxMemPool::accept() : coinstake as individual tx")
  reject (2147483647 < tx.nLockTime)
    (.error "CTxMemPool::accept() : not accepting nLockTime beyond 2038 yet")
  reject (!P.fTestNet && !tx.isStandard nBestHeight nAdjustedTime)
    (.error "CTxMemPool::accept() : nonstandard transaction type")
  reject (pool.mapTx.contains tx.getHash) .quiet
  reject (tx.vin.any fun txin => pool.mapNextTx.contains txin.prevout) .quiet
  .ok (pool.addUnchecked tx.getHash tx)

end CTxMemPool

variable [P : Platform]

/-- `AcceptToMemoryPool(txdb, false)`, its result thrown away -/
def acceptToMemoryPool (tx : CTransaction) : Step NodeState Failure Unit :=
  Step.modify fun s =>
    let (ans, s) := s.ask
    match s.mempool.accept tx s.nBestHeight ans.nAdjustedTime with
    | .ok pool => { s with mempool := pool }
    | .error _ => s

end CryptoBullion
