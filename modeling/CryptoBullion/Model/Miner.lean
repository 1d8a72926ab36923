import CryptoBullion.Model.Target
/-!
# Block templates

`CreateNewBlock`: the pool's transactions are scanned once for what they
draw on, those that wait for others in the pool are set aside as
`COrphan`s, and the rest is taken off a priority queue until the block is
full. The two numbers the queue is ordered by are computed in `double`;
what is compared with them is a parameter, so nothing rests on how they
round.

A `COrphan*` is the address its list node was given. A node that is
removed leaves its address unused, and following it ends the process.
Reading a vector past its end does not: it yields what happens to be
there, and is counted.
-/

namespace CryptoBullion

variable [P : Platform]

/-! ## Options -/

/-- The command line's bounds on a template, and what `-mintxfee` parses
to. -/
structure MinerArgs where
  blockmaxsize : Option ℤ
  blockprioritysize : Option ℤ
  blockminsize : Option ℤ
  nMinTxFee : ℤ

/-- `nBlockMaxSize`: between a thousand bytes and a thousand below the
limit -/
def MinerArgs.nBlockMaxSize (args : MinerArgs) : ℕ :=
  max 1000 (min (maxBlockSize - 1000)
    ((args.blockmaxsize.map toUInt32).getD (maxBlockSizeGen / 2)))

/-- `nBlockPrioritySize` -/
def MinerArgs.nBlockPrioritySize (args : MinerArgs) : ℕ :=
  min args.nBlockMaxSize ((args.blockprioritysize.map toUInt32).getD 27000)

/-- `nBlockMinSize` -/
def MinerArgs.nBlockMinSize (args : MinerArgs) : ℕ :=
  min args.nBlockMaxSize ((args.blockminsize.map toUInt32).getD 0)

/-! ## Candidates -/

/-- `TxPriority`: a transaction, with the sums its priority and its fee per
kilobyte are computed from. -/
structure TxPriority where
  tx : CTransaction
  /-- the inputs' values, each times its confirmations -/
  nWeightedIn : ℤ
  nTotalIn : ℤ

/-- The comparisons made in `double`. -/
structure PriorityOrder where
  /-- the place of the candidate a heap has in front, by fee or not -/
  front : Bool → List TxPriority → ℕ
  /-- `dFeePerKb < nMinTxFee` -/
  feeBelow : TxPriority → ℤ → Bool
  /-- `dPriority < COIN * 144 / 250` -/
  priorityLow : TxPriority → Bool

/-- `COrphan` -/
structure COrphan where
  candidate : TxPriority
  setDependsOn : Finset Uint256

/-- `vOrphan`, by address, the newest last; `mapDependers`; and the queue. -/
structure Scanned where
  nextAddress : ℕ
  vOrphan : Map ℕ COrphan
  mapDependers : Map Uint256 (List ℕ)
  vecPriority : List TxPriority

/-- `CTxIndex::GetDepthInMainChain` -/
def CTxIndex.getDepthInMainChain (i : CTxIndex) (s : NodeState) (ans : Answer) : ℤ :=
  match readBlock s.blockFiles ans i.pos.nFile i.pos.nBlockPos false with
  | .error _ => 0
  | .ok block =>
    if s.mapBlockIndex.contains block.getHash && s.isInMainChain block.getHash then
      1 + s.nBestHeight - s.nHeight block.getHash
    else 0

/-- What a turn of the scan has gathered about one transaction. -/
structure Gathered where
  candidate : TxPriority
  /-- `porphan`, null while nothing in the pool is waited for -/
  porphan : Option ℕ
  setDependsOn : Finset Uint256
  fMissingInputs : Bool

/-- The inner loop of the scan: a missing input ends it. `mapDependers` has
been told of what came before. -/
def gatherInputs (s : NodeState) (ans : Answer) :
    List CTxIn → Scanned → Gathered → Scanned × Gathered
  | [], sc, g => (sc, g)
  | txin :: rest, sc, g =>
    match readPrevTx s.txdb s.blockFiles ans txin.prevout with
    | some (txindex, txPrev) =>
      let nValueIn := ((txPrev.vout[txin.prevout.n]?).map (·.nValue)).getD 0
      gatherInputs s ans rest sc { g with candidate := { g.candidate with
        nWeightedIn := g.candidate.nWeightedIn + nValueIn * txindex.getDepthInMainChain s ans
        nTotalIn := g.candidate.nTotalIn + nValueIn } }
    | none =>
      match s.mempool.mapTx[txin.prevout.hash]? with
      | none => (sc, { g with fMissingInputs := true })
      | some txPrev =>
        let nValueIn := ((txPrev.vout[txin.prevout.n]?).map (·.nValue)).getD 0
        let address := g.porphan.getD sc.nextAddress
        gatherInputs s ans rest
          { sc with
            nextAddress := if g.porphan.isNone then sc.nextAddress + 1 else sc.nextAddress
            mapDependers := sc.mapDependers.insert txin.prevout.hash
              ((sc.mapDependers[txin.prevout.hash]?).getD [] ++ [address]) }
          { g with
            candidate := { g.candidate with nTotalIn := g.candidate.nTotalIn + nValueIn }
            porphan := some address
            setDependsOn := insert txin.prevout.hash g.setDependsOn }

/-- One turn of the scan. The node a missing input takes off the list again
is the one this turn put there. -/
def scanTx (s : NodeState) (ans : Answer) (sc : Scanned) (tx : CTransaction) :
    Except Failure Scanned :=
  if tx.isCoinBase || tx.isCoinStake || !tx.isFinal s.nBestHeight ans.nAdjustedTime 0 0 then .ok sc
  else
    let (sc, g) := gatherInputs s ans tx.vin sc ⟨⟨tx, 0, 0⟩, none, ∅, false⟩
    if g.fMissingInputs then .ok sc
    else do
      let _ ← tx.getValueOut
      match g.porphan with
      | some address => .ok { sc with vOrphan := sc.vOrphan.insert address ⟨g.candidate, g.setDependsOn⟩ }
      | none => .ok { sc with vecPriority := sc.vecPriority ++ [g.candidate] }

/-- The scan, in the order of the pool's map. -/
def scanTxs (s : NodeState) (ans : Answer) : Scanned → List CTransaction → Except Failure Scanned
  | sc, [] => .ok sc
  | sc, tx :: rest => do
    let sc ← scanTx s ans sc tx
    scanTxs s ans sc rest

/-! ## Selection -/

/-- The block as it fills up. -/
structure Selection where
  vtx : List CTransaction
  mapTestPool : Map Uint256 CTxIndex
  nBlockSize : ℕ
  nBlockSigOps : ℕ
  nFees : ℤ
  fSortedByFee : Bool
  vecPriority : List TxPriority
  vOrphan : Map ℕ COrphan
  /-- how often `vtx[1]` was read past the end -/
  nOutOfRange : ℕ

/-- What a template is made for. -/
structure MinerContext where
  s : NodeState
  ans : Answer
  args : MinerArgs
  order : PriorityOrder
  pindexPrev : Uint256
  fProofOfStake : Bool
  mapDependers : Map Uint256 (List ℕ)
  /-- the bytes behind `vtx`, read as the `nTime` of a transaction -/
  strayTime : ℕ

/-- `pblock->vtx[1].nTime` -/
def MinerContext.secondTime (c : MinerContext) (sel : Selection) : ℕ :=
  (sel.vtx[1]?.map (·.nTime)).getD c.strayTime

/-- Whether the time limit reads `vtx[1]` where there is none. -/
def MinerContext.readsPastEnd (c : MinerContext) (sel : Selection) (tx : CTransaction) : Bool :=
  !(c.ans.nAdjustedTime < tx.nTime) && c.fProofOfStake && sel.vtx.length ≤ 1

/-- `tx.nTime > GetAdjustedTime() || (fProofOfStake && tx.nTime > pblock->vtx[1].nTime)` -/
def MinerContext.tooLate (c : MinerContext) (sel : Selection) (tx : CTransaction) : Bool :=
  c.ans.nAdjustedTime < tx.nTime || (c.fProofOfStake && c.secondTime sel < tx.nTime)

/-- What a `false` skips the candidate on, and anything else passes on. -/
def orSkip {α : Type} (r : Except Failure α) : Except Failure (Option α) :=
  match r with
  | .ok a => .ok (some a)
  | .error f => if f.returnsFalse then .ok none else .error f

/-- The transactions that wait for one that was added; those that wait for
nothing else join the queue. -/
def wakeDependers (hash : Uint256) : List ℕ → Selection → Except Failure Selection
  | [], sel => .ok sel
  | address :: rest, sel =>
    match sel.vOrphan[address]? with
    | none => .error (.crash "porphan")
    | some porphan =>
      if porphan.setDependsOn = ∅ then wakeDependers hash rest sel
      else
        let setDependsOn := porphan.setDependsOn.erase hash
        wakeDependers hash rest
          { sel with
            vOrphan := sel.vOrphan.insert address { porphan with setDependsOn := setDependsOn }
            vecPriority :=
              if setDependsOn = ∅ then sel.vecPriority ++ [porphan.candidate]
              else sel.vecPriority }

/-- The fetching and connecting of a candidate against the transactions
already taken: its fee, its signature operations and the changed entries,
where it is not to be skipped. -/
def tryConnect (c : MinerContext) (sel : Selection) (tx : CTransaction) (nMinFee : ℤ) :
    Except Failure (Option (ℤ × ℕ × Map Uint256 CTxIndex)) := do
  match ← orSkip (tx.fetchInputs c.s c.ans sel.mapTestPool false true) with
  | none => .ok none
  | some mapInputs =>
    let nValueIn ← tx.getValueIn mapInputs
    let nValueOut ← tx.getValueOut
    let nTxFees := nValueIn - nValueOut
    if nTxFees < nMinFee then .ok none
    else
      let nP2SH ← tx.getP2SHSigOpCount mapInputs
      let nTxSigOps := tx.getLegacySigOpCount + nP2SH
      if maxBlockSigops ≤ sel.nBlockSigOps + nTxSigOps then .ok none
      else match ← orSkip (tx.connectInputs c.s mapInputs sel.mapTestPool CDiskTxPos.inMemPool
          c.pindexPrev false true true) with
        | none => .ok none
        | some mapTestPool => .ok (some (nTxFees, nTxSigOps,
            mapTestPool.insert tx.getHash (CTxIndex.fresh CDiskTxPos.inMemPool tx.vout.length)))

/-- The queue is sorted by fee from here on, where the block is past the
priority size or has run out of high priorities. -/
def MinerContext.sortsByFee (c : MinerContext) (sel : Selection) (p : TxPriority) : Bool :=
  sel.fSortedByFee || c.args.nBlockPrioritySize ≤ sel.nBlockSize + p.tx.getSerializeSize ||
    c.order.priorityLow p

/-- The checks before a candidate is fetched. -/
def MinerContext.passesOver (c : MinerContext) (sel : Selection) (p : TxPriority) : Bool :=
  c.args.nBlockMaxSize ≤ sel.nBlockSize + p.tx.getSerializeSize ||
    maxBlockSigops ≤ sel.nBlockSigOps + p.tx.getLegacySigOpCount

/-- One candidate off the queue. -/
def selectTx (c : MinerContext) (sel : Selection) (p : TxPriority) : Except Failure Selection :=
  if c.passesOver sel p then .ok sel
  else
    let nOutOfRange := sel.nOutOfRange + if c.readsPastEnd sel p.tx then 1 else 0
    let sel := { sel with nOutOfRange := nOutOfRange }
    if c.tooLate sel p.tx then .ok sel
    else if sel.fSortedByFee && c.order.feeBelow p c.args.nMinTxFee &&
        c.args.nBlockMinSize ≤ sel.nBlockSize + p.tx.getSerializeSize then .ok sel
    else do
      let nMinFee := p.tx.getMinFee sel.nBlockSize false
      let sel := { sel with fSortedByFee := c.sortsByFee sel p }
      match ← tryConnect c sel p.tx nMinFee with
      | none => .ok sel
      | some (nTxFees, nTxSigOps, mapTestPool) =>
        wakeDependers p.tx.getHash ((c.mapDependers[p.tx.getHash]?).getD [])
          { sel with
            vtx := sel.vtx ++ [p.tx]
            mapTestPool := mapTestPool
            nBlockSize := sel.nBlockSize + p.tx.getSerializeSize
            nBlockSigOps := sel.nBlockSigOps + nTxSigOps
            nFees := sel.nFees + nTxFees }

/-- Collect transactions into the block, until the queue is empty. -/
def selectTxs (c : MinerContext) : ℕ → Selection → Except Failure Selection
  | 0, _ => .error (.crash "endless loop")
  | fuel + 1, sel =>
    let i := c.order.front sel.fSortedByFee sel.vecPriority % sel.vecPriority.length
    match sel.vecPriority[i]? with
    | none => .ok sel
    | some p => do
      let sel ← selectTx c { sel with vecPriority := sel.vecPriority.eraseIdx i } p
      selectTxs c fuel sel

/-! ## The template -/

/-- The coinbase a template starts with. -/
def templateCoinBase (ans : Answer) (fProofOfStake : Bool) (reservedKey : CScript) :
    CTransaction where
  nVersion := 1
  nTime := toUInt32 ans.nAdjustedTime
  vin := [{ prevout := COutPoint.null, scriptSig := [], nSequence := uintMax }]
  vout := [if fProofOfStake then CTxOut.empty else ⟨-1, reservedKey⟩]
  nLockTime := 0

/-- A template with what is known of it besides: the fees of its
transactions, what is handed out as the fees, and the reads past the end
of `vtx`. -/
structure BlockTemplate where
  block : CBlock
  nFees : ℤ
  /-- `*pFees`, an `int` -/
  pFees : ℤ
  nOutOfRange : ℕ

/-- Give the coinbase of a proof-of-work block its value. -/
def setReward (fProofOfStake : Bool) (nHeight : ℕ) (vtx : List CTransaction) : List CTransaction :=
  if fProofOfStake then vtx
  else vtx.modifyHead fun tx =>
    { tx with vout := tx.vout.modifyHead fun o => { o with nValue := getProofOfWorkReward nHeight } }

/-- The time of a template: behind the median, no earlier than any of its
transactions nor far before its parent; for proof of work also no earlier
than now. -/
def templateTime (s : NodeState) (pindexPrev : Uint256) (nMaxTransactionTime nAdjustedTime : ℤ)
    (fProofOfStake : Bool) : ℕ :=
  let nTime := toUInt32 (max (getMedianTimePast s pindexPrev + 1) nMaxTransactionTime)
  let nTime := toUInt32 (max nTime ((s.entry pindexPrev).getBlockTime - nMaxClockDrift))
  if fProofOfStake then nTime else toUInt32 (max nTime nAdjustedTime)

/-- `CreateNewBlock` -/
def createNewBlock (s : NodeState) (ans : Answer) (args : MinerArgs) (order : PriorityOrder)
    (fProofOfStake : Bool) (reservedKey : CScript) (strayTime : ℕ) :
    Except Failure BlockTemplate := do
  match s.pindexBest with
  | none => .error (.crash "pindexPrev")
  | some pindexPrev =>
    let sc ← scanTxs s ans ⟨0, ∅, ∅, []⟩ (s.mempool.mapTx.toList.map (·.2))
    let sel ← selectTxs
      ⟨s, ans, args, order, pindexPrev, fProofOfStake, sc.mapDependers, strayTime⟩
      (s.mempool.mapTx.size + 1)
      { vtx := [templateCoinBase ans fProofOfStake reservedKey]
        mapTestPool := ∅
        nBlockSize := 1000
        nBlockSigOps := 100
        nFees := 0
        fSortedByFee := args.nBlockPrioritySize ≤ 0
        vecPriority := sc.vecPriority
        vOrphan := sc.vOrphan
        nOutOfRange := 0 }
    let block : CBlock :=
      { nVersion := 4
        hashPrevBlock := pindexPrev
        hashMerkleRoot := 0
        nTime := 0
        nBits := getNextTargetRequired s pindexPrev fProofOfStake
        nNonce := 0
        vtx := setReward fProofOfStake (toUInt32 (s.nHeight pindexPrev + 1)) sel.vtx
        vchBlockSig := [] }
    .ok
      { block := { block with
          nTime := templateTime s pindexPrev block.getMaxTransactionTime ans.nAdjustedTime
            fProofOfStake }
        nFees := sel.nFees
        pFees := toInt32 sel.nFees
        nOutOfRange := sel.nOutOfRange }

end CryptoBullion
