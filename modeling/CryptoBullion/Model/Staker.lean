import CryptoBullion.Model.Kernel
import CryptoBullion.Model.Miner
/-!
# Signing a proof-of-stake template

`CreateCoinStake` looks among the wallet's coins for one whose kernel
meets the target at some second of the last minute, and builds the
coinstake that spends it; `SignBlock` puts the coinstake into a template,
sets the times that have to agree and signs. Which coins the wallet
selects, and its balance, are parameters: the search is the same for any.
-/

namespace CryptoBullion

variable [P : Platform]

/-! ## Coins and keys -/

/-- `pair<const CWalletTx*, unsigned int>`: an output in the wallet -/
structure Coin where
  wtx : CWalletTx
  n : ℕ

/-- `COutPoint(pcoin.first->GetHash(), pcoin.second)` -/
def Coin.prevout (c : Coin) : COutPoint := ⟨c.wtx.tx.getHash, c.n⟩

/-- `pcoin.first->vout[pcoin.second]` -/
def Coin.txout (c : Coin) : CTxOut := (c.wtx.tx.vout[c.n]?).getD CTxOut.empty

/-- What a search is made with. -/
structure StakeEnv where
  /-- `GetBalance()` -/
  nBalance : ℤ
  /-- `-reservebalance`, and what it parses to -/
  reservebalance : Option (Option ℤ)
  fHardStake : Bool
  /-- the coins for a value and a time, as `SelectCoins` (`fHardStake`) or
  `SelectCoinsForPoSP` selects them -/
  selectCoins : Bool → ℤ → ℕ → Option (List Coin)
  /-- `fShutdown`, as the turn of a coin finds it -/
  fShutdown : COutPoint → ℕ → Bool
  fStakeUsePooledKeys : Bool
  /-- `GetReservedKey`, a turn of the fee loop at a time -/
  reservedKey : ℕ → List UInt8

/-- `COMBINE_THRESHOLD` -/
def combineThreshold : ℤ := coin * 500

/-- `CScript::operator<<` of a byte vector -/
def pushData (b : List UInt8) : CScript :=
  if b.length < 76 then UInt8.ofNat b.length :: b
  else if b.length ≤ 255 then 76 :: UInt8.ofNat b.length :: b
  else if b.length ≤ 65535 then 77 :: (leBytes 2 b.length ++ b)
  else 78 :: (leBytes 4 b.length ++ b)

/-- `scriptPubKey << vchPubKey << OP_CHECKSIG` -/
def payToPubKey (vchPubKey : List UInt8) : CScript := pushData vchPubKey ++ [172]

/-- `uint160(vch)` -/
def toUint160 (vch : List UInt8) : BitVec 160 :=
  if vch.length = 20 then BitVec.ofNat 160 (ofLeBytes vch) else 0

/-- `GetKey`: the key of an address, told by its public key -/
def CKeyStore.getKey (keystore : CKeyStore) (address : BitVec 160) : Option (List UInt8) :=
  keystore.vchPubKeys.find? fun vchPubKey => P.hash160 vchPubKey = address

/-- What the coinstake pays to and the key that signs the block, where the
kernel's script is one the search supports. -/
def kernelKey (keystore : CKeyStore) (scriptPubKeyKernel : CScript) :
    Option (CScript × List UInt8) :=
  match P.solver scriptPubKeyKernel with
  | some (.pubKeyHash, vSolutions) =>
    match keystore.getKey (toUint160 (vSolutions.headD [])) with
    | none => none
    | some key => some (payToPubKey key, key)
  | some (.pubKey, vSolutions) =>
    match keystore.getKey (P.hash160 (vSolutions.headD [])) with
    | none => none
    | some key => if key ≠ vSolutions.headD [] then none else some (scriptPubKeyKernel, key)
  | _ => none

/-! ## The search -/

/-- `nMaxStakeSearchInterval` -/
def nMaxStakeSearchInterval : ℤ := 60

/-- A coin the search looks at: its index entry and the header of its
block, where both are found and the coin is old enough. -/
def stakeCandidate (s : NodeState) (ans : Answer) (nTime : ℕ) (pcoin : Coin) :
    Option (CTxIndex × CBlock) :=
  match s.txdb.readTxIndex pcoin.wtx.tx.getHash with
  | none => none
  | some txindex =>
    match readBlock s.blockFiles ans txindex.pos.nFile txindex.pos.nBlockPos false with
    | .error _ => none
    | .ok block =>
      if (toUInt32 (nTime - nMaxStakeSearchInterval) : ℤ) <
          block.getBlockTime + getStakeMinAge block.nTime then none
      else some (txindex, block)

/-- `CheckStakeKernelHash`, for a coin `n` seconds back from `nTime`. -/
def checkKernelBack (s : NodeState) (nBits nTime : ℕ) (pcoin : Coin) (txindex : CTxIndex)
    (block : CBlock) (n : ℕ) : Except Failure Uint256 :=
  checkStakeKernelHash s nBits block (txindex.pos.nTxPos - txindex.pos.nBlockPos) pcoin.wtx.tx
    pcoin.prevout (toUInt32 (nTime - n))

/-- The inner loop: back a second at a time, `turns` more, to the first
that meets the target. -/
def searchBack (check : ℕ → Except Failure Uint256) (fShutdown : ℕ → Bool) :
    (turns n : ℕ) → Except Failure (Option ℕ)
  | 0, _ => .ok none
  | turns + 1, n =>
    if fShutdown n then .ok none
    else do
      match ← orSkip (check n) with
      | some _ => .ok (some n)
      | none => searchBack check fShutdown turns (n + 1)

/-- What the search finds. -/
structure StakeKernel where
  pcoin : Coin
  nTime : ℕ
  scriptPubKeyOut : CScript
  key : List UInt8

/-- The loop over the coins: the first with a kernel the wallet has the key
of. A script that is not supported ends a coin's turn. -/
def findKernel (s : NodeState) (ans : Answer) (env : StakeEnv) (keystore : CKeyStore)
    (nBits : ℕ) (nSearchInterval : ℤ) (nTime : ℕ) : List Coin → Except Failure (Option StakeKernel)
  | [] => .ok none
  | pcoin :: rest =>
    match stakeCandidate s ans nTime pcoin with
    | none => findKernel s ans env keystore nBits nSearchInterval nTime rest
    | some (txindex, block) => do
      let found ← searchBack (checkKernelBack s nBits nTime pcoin txindex block)
        (env.fShutdown pcoin.prevout) (min nSearchInterval nMaxStakeSearchInterval).toNat 0
      match found, kernelKey keystore pcoin.txout.scriptPubKey with
      | some n, some (scriptPubKeyOut, key) =>
        .ok (some ⟨pcoin, toUInt32 (nTime - n), scriptPubKeyOut, key⟩)
      | _, _ =>
        if env.fShutdown pcoin.prevout nMaxStakeSearchInterval.toNat then .ok none
        else findKernel s ans env keystore nBits nSearchInterval nTime rest

/-! ## The coinstake -/

/-- A coinstake being put together: the transaction, what it spends, and
the wallet transactions it spends from, in the order of its inputs. -/
structure StakeDraft where
  txNew : CTransaction
  nCredit : ℤ
  vwtxPrev : List CWalletTx

/-- The loop that adds inputs with the kernel's script. Its limit on their
number is `(vin.size() >= fHardStake) ? 100 : 50` to C++, which is never
zero. -/
def addInputs (fHardStake : Bool) (nLimit : ℤ) (scriptPubKeyKernel : CScript) :
    List Coin → StakeDraft → StakeDraft
  | [], d => d
  | pcoin :: rest, d =>
    let scriptPubKey := pcoin.txout.scriptPubKey
    if d.txNew.vout.length = 2 ∧
        (scriptPubKey = scriptPubKeyKernel ∨
          some scriptPubKey = (d.txNew.vout[1]?).map (·.scriptPubKey)) ∧
        some pcoin.wtx.tx.getHash ≠ (d.txNew.vin[0]?).map (·.prevout.hash) then
      if (if (if fHardStake then 1 else 0) ≤ d.txNew.vin.length then 100 else 50) ≠ 0 then d
      else if combineThreshold < d.nCredit then d
      else if nLimit < d.nCredit + pcoin.txout.nValue then d
      else if combineThreshold < pcoin.txout.nValue then
        addInputs fHardStake nLimit scriptPubKeyKernel rest d
      else if (d.txNew.nTime : ℤ) - pcoin.wtx.tx.nTime - getStakeMinAge pcoin.wtx.tx.nTime <
          getStakeMinAge pcoin.wtx.tx.nTime then
        addInputs fHardStake nLimit scriptPubKeyKernel rest d
      else
        addInputs fHardStake nLimit scriptPubKeyKernel rest
          { txNew := { d.txNew with
              vin := d.txNew.vin ++ [{ prevout := pcoin.prevout, scriptSig := [], nSequence := uintMax }] }
            nCredit := d.nCredit + pcoin.txout.nValue
            vwtxPrev := d.vwtxPrev ++ [pcoin.wtx] }
    else addInputs fHardStake nLimit scriptPubKeyKernel rest d

/-- The output amounts for a fee, at the turn `round` of the fee loop. -/
def setStakeAmounts (env : StakeEnv) (nBestHeight nCredit nMinFee : ℤ) (round : ℕ)
    (txNew : CTransaction) : CTransaction :=
  if txNew.vout.length = 3 then
    let vout :=
      if env.fStakeUsePooledKeys then txNew.vout.set 2 ⟨-1, payToPubKey (env.reservedKey round)⟩
      else txNew.vout
    let nHalf := (nCredit - nMinFee).tdiv 2
    let nValue := if 14200 < nBestHeight then nHalf else nHalf.tdiv cent * cent
    { txNew with
      vout := (vout.modify 1 fun o => { o with nValue := nValue }).modify 2
        fun o => { o with nValue := nCredit - nMinFee - nValue } }
  else
    { txNew with vout := txNew.vout.modify 1 fun o => { o with nValue := nCredit - nMinFee } }

/-- The loop over `vwtxPrev` with `SignSignature`. -/
def signInputs (keystore : CKeyStore) :
    (nIn : ℕ) → List CWalletTx → CTransaction → Except Failure CTransaction
  | _, [], txNew => .ok txNew
  | nIn, pcoin :: rest, txNew =>
    match P.signSignature keystore pcoin.tx txNew nIn with
    | none => .error (.error "CreateCoinStake : failed to sign coinstake")
    | some scriptSig =>
      signInputs keystore (nIn + 1) rest
        { txNew with vin := txNew.vin.modify nIn fun txin => { txin with scriptSig := scriptSig } }

/-- The fee loop: sign, and sign again for a higher fee where the size asks
for one. The fee grows with every turn and the size is bounded. -/
def payFee (env : StakeEnv) (keystore : CKeyStore) (nBestHeight : ℤ) (d : StakeDraft) :
    (fuel round : ℕ) → (nMinFee : ℤ) → CTransaction → Except Failure CTransaction
  | 0, _, _, _ => .error (.crash "endless loop")
  | fuel + 1, round, nMinFee, txNew => do
    let txNew ← signInputs keystore 0 d.vwtxPrev
      (setStakeAmounts env nBestHeight d.nCredit nMinFee round txNew)
    reject (maxBlockSizeGen / 5 ≤ txNew.getSerializeSize)
      (.error "CreateCoinStake : exceeded coinstake size limit")
    if nMinFee < txNew.minFee - minTxFee then
      payFee env keystore nBestHeight d fuel (round + 1) (txNew.minFee - minTxFee) txNew
    else .ok txNew

/-- The coins a coinstake at `nTime` may be made of, and the value it may
spend. -/
def coinsToStake (env : StakeEnv) (nTime : ℕ) : Except Failure (ℤ × List Coin) := do
  let nReserveBalance ← match env.reservebalance with
    | none => .ok 0
    | some none => .error (.error "CreateCoinStake : invalid reserve balance amount")
    | some (some n) => .ok n
  reject (env.nBalance ≤ nReserveBalance) .quiet
  match env.selectCoins env.fHardStake (env.nBalance - nReserveBalance) nTime with
  | none => .error .quiet
  | some setCoins => do
    reject (setCoins = []) .quiet
    .ok (env.nBalance - nReserveBalance, setCoins)

/-- The transaction as the kernel leaves it. -/
def draftCoinStake (kernel : StakeKernel) : StakeDraft where
  txNew :=
    { nVersion := 1
      nTime := kernel.nTime
      vin := [{ prevout := kernel.pcoin.prevout, scriptSig := [], nSequence := uintMax }]
      vout := [CTxOut.empty, ⟨0, kernel.scriptPubKeyOut⟩]
      nLockTime := 0 }
  nCredit := kernel.pcoin.txout.nValue
  vwtxPrev := [kernel.pcoin.wtx]

/-- `CreateCoinStake`, from the time `nTime` its transaction was made at:
the coinstake and the key for the block. -/
def createCoinStake (s : NodeState) (ans : Answer) (env : StakeEnv) (keystore : CKeyStore)
    (nBits : ℕ) (nSearchInterval : ℤ) (nTime : ℕ) (nFees : ℤ) :
    Except Failure (CTransaction × List UInt8) := do
  let (nLimit, setCoins) ← coinsToStake env nTime
  match ← findKernel s ans env keystore nBits nSearchInterval nTime setCoins with
  | none => .error .quiet
  | some kernel => do
    let d := draftCoinStake kernel
    reject (d.nCredit = 0 ∨ nLimit < d.nCredit) .quiet
    let d := addInputs env.fHardStake nLimit kernel.pcoin.txout.scriptPubKey setCoins d
    match s.pindexBest with
    | none => .error (.crash "pindexBest")
    | some pindexBest => do
      let nReward := getProofOfStakeReward 0 nBits d.txNew.nTime (toUInt32 (s.nHeight pindexBest))
        (s.entry pindexBest).nMoneySupply nFees
      reject (nReward = 0) .quiet
      let d := { d with nCredit := d.nCredit + nReward }
      let txNew :=
        if combineThreshold * 2 ≤ d.nCredit then
          { d.txNew with vout := d.txNew.vout ++ [⟨0, kernel.scriptPubKeyOut⟩] }
        else d.txNew
      let txNew ← payFee env keystore (s.nHeight pindexBest) d maxBlockSizeGen 0 0 txNew
      .ok (txNew, kernel.key)

/-! ## The block -/

/-- What `SignBlock` makes of a template and a coinstake, up to the
signature: the times, the transactions that are not too late for them, and
the coinstake in second place. -/
def putCoinStake (s : NodeState) (pindexBest : Uint256) (block : CBlock)
    (txCoinStake : CTransaction) : CBlock :=
  let block := { block with
    nTime := txCoinStake.nTime
    vtx := block.vtx.modifyHead fun tx => { tx with nTime := txCoinStake.nTime } }
  let block := { block with
    nTime := toUInt32 (max (getMedianTimePast s pindexBest + 1) block.getMaxTransactionTime) }
  let block := { block with
    nTime := toUInt32 (max block.getBlockTime ((s.entry pindexBest).getBlockTime - nMaxClockDrift)) }
  let block := { block with
    vtx := (block.vtx.filter fun (tx : CTransaction) => !(block.nTime < tx.nTime)).insertIdx 1 txCoinStake }
  { block with hashMerkleRoot := block.buildMerkleTree }

/-- `SignBlock`: the block where it is signed, and what becomes of
`nLastCoinStakeSearchTime` -/
def signBlock (s : NodeState) (ans : Answer) (env : StakeEnv) (wallet : CWallet)
    (nLastCoinStakeSearchTime : ℤ) (block : CBlock) (nFees : ℤ) :
    Except Failure (Option CBlock × ℤ) :=
  if !((block.vtx.head?.bind (·.vout.head?)).getD CTxOut.empty).isEmpty then
    .ok (none, nLastCoinStakeSearchTime)
  else if block.isProofOfStake then .ok (some block, nLastCoinStakeSearchTime)
  else
    let nSearchTime := toUInt32 ans.nAdjustedTime
    if nLastCoinStakeSearchTime < nSearchTime then do
      match ← orSkip (createCoinStake s ans env wallet.keystore block.nBits
          (nSearchTime - nLastCoinStakeSearchTime) nSearchTime nFees), s.pindexBest with
      | none, _ => .ok (none, nSearchTime)
      | some _, none => .error (.crash "pindexBest")
      | some (txCoinStake, key), some pindexBest =>
        if max (getMedianTimePast s pindexBest + 1)
            ((s.entry pindexBest).getBlockTime - nMaxClockDrift) ≤ txCoinStake.nTime then
          let block := putCoinStake s pindexBest block txCoinStake
          match P.sign key block.getHash with
          | none => .ok (none, nLastCoinStakeSearchTime)
          | some vchBlockSig =>
            .ok (some { block with vchBlockSig := vchBlockSig }, nLastCoinStakeSearchTime)
        else .ok (none, nSearchTime)
    else .ok (none, nLastCoinStakeSearchTime)

end CryptoBullion
