import CryptoBullion.Common.Step
import CryptoBullion.Common.Index
import CryptoBullion.Model.Wallet
import CryptoBullion.Model.Accept
import CryptoBullion.Model.Serialize
/-!
# Loose transactions from peers

The `tx` branch of `ProcessMessage` and the transactions kept until their
inputs are known. A transaction is kept and passed on as the bytes it came
in: the branch cuts a message that is longer than the transaction is when
serialised, and serialises nothing itself.
-/

namespace CryptoBullion

/-- `MAX_ORPHAN_TRANSACTIONS` -/
def maxOrphanTransactions : ℕ := maxBlockSize / 100

/-- The transactions whose inputs are not known, and which of them spend
each missing transaction. Both maps hold `CDataStream*`, numbered as they
were allocated; `buffers` is what is behind those not yet deleted. -/
structure OrphanTxs where
  buffers : Map ℕ (List UInt8)
  nAllocated : ℕ
  mapOrphanTransactions : Map Uint256 ℕ
  mapOrphanTransactionsByPrev : ReverseIndex Uint256 Uint256 ℕ

namespace OrphanTxs

def empty : OrphanTxs := ⟨∅, 0, ∅, ∅⟩

/-- Follow a `CDataStream*`. -/
def stream (o : OrphanTxs) (pvMsg : ℕ) : Except Failure (List UInt8) :=
  match o.buffers[pvMsg]? with
  | none => .error (.crash "CDataStream*")
  | some vMsg => .ok vMsg

variable [P : Platform]

/-- `AddOrphanTx` -/
def addOrphanTx (o : OrphanTxs) (vMsg : List UInt8) : Except Failure (Bool × OrphanTxs) := do
  let (tx, _) ← CTransaction.unserialize vMsg
  let hash := tx.getHash
  if o.mapOrphanTransactions.contains hash then .ok (false, o)
  else
    -- `new CDataStream(vMsg)`; against filling the memory with orphans, a
    -- big one is deleted again
    let pvMsg := o.nAllocated
    if 5000 < vMsg.length then .ok (false, { o with nAllocated := pvMsg + 1 })
    else
      .ok (true, {
        buffers := o.buffers.insert pvMsg vMsg
        nAllocated := pvMsg + 1
        mapOrphanTransactions := o.mapOrphanTransactions.insert hash pvMsg
        mapOrphanTransactionsByPrev := (tx.vin.map (·.prevout.hash)).foldl
          (ReverseIndex.link hash pvMsg) o.mapOrphanTransactionsByPrev })

omit P in
/-- What `EraseOrphanTx` does once it has the transaction. -/
def drop (o : OrphanTxs) (hash : Uint256) (pvMsg : ℕ) (tx : CTransaction) : OrphanTxs where
  buffers := o.buffers.erase pvMsg
  nAllocated := o.nAllocated
  mapOrphanTransactions := o.mapOrphanTransactions.erase hash
  mapOrphanTransactionsByPrev := (tx.vin.map (·.prevout.hash)).foldl
    (ReverseIndex.unlink hash) o.mapOrphanTransactionsByPrev

omit P in
/-- `EraseOrphanTx` -/
def eraseOrphanTx (o : OrphanTxs) (hash : Uint256) : Except Failure OrphanTxs :=
  match o.mapOrphanTransactions[hash]? with
  | none => .ok o
  | some pvMsg => do
    let vMsg ← o.stream pvMsg
    let (tx, _) ← CTransaction.unserialize vMsg
    .ok (o.drop hash pvMsg tx)

omit P in
/-- The orphan to evict: `lower_bound(randomhash)`, or the first. -/
def victim (o : OrphanTxs) (randomhash : Uint256) : Option Uint256 :=
  let hashes := o.mapOrphanTransactions.keys
  (hashes.find? (randomhash ≤ ·)).or hashes.head?

omit P in
/-- The loop of `LimitOrphanTxSize`, of as many turns as there are orphans
too many. `rand` are the answers of `GetRandHash`. -/
def evict (rand : ℕ → Uint256) : ℕ → OrphanTxs → Except Failure OrphanTxs
  | 0, o => .ok o
  | n + 1, o =>
    match o.victim (rand n) with
    | none => .ok o
    | some hash => do
      let o ← o.eraseOrphanTx hash
      evict rand n o

omit P in
/-- `LimitOrphanTxSize` -/
def limitOrphanTxSize (o : OrphanTxs) (nMaxOrphans : ℕ) (rand : ℕ → Uint256) :
    Except Failure OrphanTxs :=
  evict rand (o.mapOrphanTransactions.size - nMaxOrphans) o

end OrphanTxs

variable [P : Platform]

/-- `AddToWalletIfInvolvingMe(tx, NULL, true)` -/
def CWallet.addLooseTx (w : CWallet) (tx : CTransaction) : Except Failure CWallet := do
  let fInvolves ← w.involves tx
  .ok (if fInvolves then w.addToWallet (CWalletTx.ofTx tx) else w.walletUpdateSpent tx)

/-- `fMissingInputs`: `accept` got as far as fetching the inputs, and
failed there without charging the sender. -/
def NodeState.missesInputs (s : NodeState) (ans : Answer) (env : AcceptEnv) (tx : CTransaction) :
    Bool :=
  match s.accept ans env tx false, s.txdb.containsTx tx.getHash,
      tx.fetchInputs s ans ∅ false false with
  | .ok _, false, .error (.error _) => true
  | .ok _, false, .error .quiet => true
  | _, _, _ => false

/-- What handling a `tx` message moves: the node, the orphans, the buffers
handed to `RelayMessage`, newest first, and the two queues. -/
structure TxBranch where
  node : NodeState
  orphans : OrphanTxs
  relayed : List (Uint256 × List UInt8)
  vWorkQueue : List Uint256
  vEraseQueue : List Uint256

/-- `tx.AcceptToMemoryPool(txdb, true, &fMissingInputs)`: whether it was
taken, and the flag. -/
def acceptLoose (env : AcceptEnv) (tx : CTransaction) : Step TxBranch Failure (Bool × Bool) :=
  fun b =>
    let (ans, s) := b.node.ask
    match s.accept ans env tx true with
    | .ok pool => (.ok (true, false), { b with node := { s with mempool := pool } })
    | .error f =>
      (if f.returnsFalse then .ok (false, s.missesInputs ans env tx) else .error f,
        { b with node := s })

/-- What follows a transaction that was taken: the wallets hear of it, it
is relayed under its hash in the bytes `vMsg`, and both queues have it. -/
def taken (tx : CTransaction) (vMsg : List UInt8) : Step TxBranch Failure Unit := do
  Step.zoom (·.node.wallets) (fun ws b => { b with node := { b.node with wallets := ws } })
    (eachWallet (·.addLooseTx tx))
  Step.modify fun b => { b with
    relayed := (tx.getHash, vMsg) :: b.relayed
    vWorkQueue := b.vWorkQueue ++ [tx.getHash]
    vEraseQueue := b.vEraseQueue ++ [tx.getHash] }

/-- An orphan that spent what was just taken. -/
def retryOrphan (env : AcceptEnv) (pvMsg : ℕ) : Step TxBranch Failure Unit := do
  let b ← Step.get
  let vMsg ← Step.lift (b.orphans.stream pvMsg)
  let (tx, _) ← Step.lift (CTransaction.unserialize vMsg)
  let (fTaken, fMissingInputs2) ← acceptLoose env tx
  if fTaken then taken tx vMsg
  else if !fMissingInputs2 then
    -- invalid orphan
    Step.modify fun b => { b with vEraseQueue := b.vEraseQueue ++ [tx.getHash] }
  else pure ()

/-- `for (unsigned int i = 0; i < vWorkQueue.size(); i++)`, for `fuel`
turns. Each turn takes the orphans that spend one transaction. -/
def orphanLoop (env : AcceptEnv) : (fuel i : ℕ) → Step TxBranch Failure Unit
  | 0, _ => pure ()
  | fuel + 1, i => do
    let b ← Step.get
    match b.vWorkQueue[i]? with
    | none => pure ()
    | some hashPrev => do
      -- `mapOrphanTransactionsByPrev[hashPrev]` makes what is not there
      Step.modify fun b => { b with orphans := { b.orphans with
        mapOrphanTransactionsByPrev := b.orphans.mapOrphanTransactionsByPrev.touch hashPrev } }
      let waiting := b.orphans.mapOrphanTransactionsByPrev.inner hashPrev
      Step.forEach (retryOrphan env) (waiting.toList.map (·.2))
      orphanLoop env fuel (i + 1)

omit P in
/-- `BOOST_FOREACH(uint256 hash, vEraseQueue) EraseOrphanTx(hash)` -/
def eraseQueued (hash : Uint256) : Step TxBranch Failure Unit := do
  let b ← Step.get
  let orphans ← Step.lift (b.orphans.eraseOrphanTx hash)
  Step.modify fun b => { b with orphans := orphans }

/-- `AddOrphanTx`, and against unbounded growth `LimitOrphanTxSize`. -/
def keepOrphan (rand : ℕ → Uint256) (vMsg : List UInt8) (nMaxOrphans : ℕ) :
    Step TxBranch Failure Unit := do
  let b ← Step.get
  let (_, orphans) ← Step.lift (b.orphans.addOrphanTx vMsg)
  Step.modify fun b => { b with orphans := orphans }
  let orphans ← Step.lift (orphans.limitOrphanTxSize nMaxOrphans rand)
  Step.modify fun b => { b with orphans := orphans }

omit P in
/-- Truncate messages to the size of the tx in them -/
def truncateMsg (vMsg : List UInt8) (tx : CTransaction) : List UInt8 :=
  if tx.getSerializeSize < vMsg.length then vMsg.take tx.getSerializeSize else vMsg

/-- `ProcessMessage` of a `tx` with this payload, the orphan loop run for
`fuel` turns. -/
def processTx (env : AcceptEnv) (rand : ℕ → Uint256) (fuel : ℕ) (vRecv : List UInt8) :
    Step TxBranch Failure Unit := do
  Step.modify fun b => { b with vWorkQueue := [], vEraseQueue := [] }
  let (tx, _) ← Step.lift (CTransaction.unserialize vRecv)
  let vMsg := truncateMsg vRecv tx
  let (fTaken, fMissingInputs) ← acceptLoose env tx
  if fTaken then do
    taken tx vMsg
    orphanLoop env fuel 0
    let b ← Step.get
    Step.forEach eraseQueued b.vEraseQueue
  else if fMissingInputs then keepOrphan rand vMsg maxOrphanTransactions
  else pure ()

end CryptoBullion
