import CryptoBullion.Common.Step
import CryptoBullion.Model.NetAddr
/-!
# The address manager

`CAddrMan` keeps the addresses it has heard of in five tables at once: by
number, by address, in a random order, in buckets of addresses that were
tried and in buckets of those that are new. Its functions are steps, with
the numbers they draw as arguments: `rand n` is what the source of
randomness gives the `n`-th time. Numbers that are `-1` until they are set
are optional.
-/

namespace CryptoBullion

namespace Peers

/-- `CAddress` -/
structure CAddress extends CService where
  nServices : UInt64
  nTime : UInt32
  nLastTry : Int64
  deriving DecidableEq

/-- `CAddress()` -/
def CAddress.init : CAddress := ⟨⟨0, 0⟩, 1, 100000000, 0⟩

/-- `CAddrInfo` -/
structure CAddrInfo extends CAddress where
  source : CNetAddr
  nLastSuccess : Int64
  nAttempts : Int32
  nRefCount : ℤ
  fInTried : Bool
  nRandomPos : Option ℕ
  deriving DecidableEq

/-- `ADDRMAN_TRIED_BUCKET_COUNT`, `ADDRMAN_TRIED_BUCKET_SIZE` -/
def triedBucketCount : ℕ := 64
def triedBucketSize : ℕ := 64
/-- `ADDRMAN_NEW_BUCKET_COUNT`, `ADDRMAN_NEW_BUCKET_SIZE` -/
def newBucketCount : ℕ := 256
def newBucketSize : ℕ := 64
/-- `ADDRMAN_TRIED_BUCKETS_PER_GROUP`, `ADDRMAN_NEW_BUCKETS_PER_SOURCE_GROUP` -/
def triedBucketsPerGroup : ℕ := 4
def newBucketsPerSourceGroup : ℕ := 32
/-- `ADDRMAN_NEW_BUCKETS_PER_ADDRESS` -/
def newBucketsPerAddress : ℕ := 4
/-- `ADDRMAN_TRIED_ENTRIES_INSPECT_ON_EVICT` -/
def triedEntriesInspectOnEvict : ℕ := 4
/-- `ADDRMAN_HORIZON_DAYS`, `ADDRMAN_MIN_FAIL_DAYS` -/
def horizonDays : Int64 := 30
def minFailDays : Int64 := 7
/-- `ADDRMAN_RETRIES`, `ADDRMAN_MAX_FAILURES` -/
def retries : Int32 := 3
def maxFailures : Int32 := 10
/-- `ADDRMAN_GETADDR_MAX_PCT`, `ADDRMAN_GETADDR_MAX` -/
def getAddrMaxPct : ℕ := 23
def getAddrMax : ℕ := 2500

instance : NeZero triedBucketCount := ⟨by decide⟩
instance : NeZero newBucketCount := ⟨by decide⟩

/-! ## One address -/

/-- An `unsigned int` as an `int64`, and the other way round -/
def timeOf (nTime : UInt32) : Int64 := Int64.ofNat nTime.toNat
def toTime (n : Int64) : UInt32 := n.toUInt64.toUInt32

namespace CAddrInfo

/-- `CAddrInfo(addrIn, addrSource)` -/
def ofAddress (addrIn : CAddress) (addrSource : CNetAddr) : CAddrInfo where
  toCAddress := { addrIn with nLastTry := 0 }
  source := addrSource
  nLastSuccess := 0
  nAttempts := 0
  nRefCount := 0
  fInTried := false
  nRandomPos := none

/-- `CAddrInfo()` -/
def init : CAddrInfo := ofAddress CAddress.init 0

/-- `IsTerrible` -/
def isTerrible (a : CAddrInfo) (nNow : Int64) : Bool :=
  -- never remove things tried the last minute
  if a.nLastTry ≠ 0 ∧ nNow - 60 ≤ a.nLastTry then false
  -- came in a flying DeLorean
  else if nNow + 10 * 60 < timeOf a.nTime then true
  -- not seen in over a month
  else if a.nTime = 0 ∨ horizonDays * 86400 < nNow - timeOf a.nTime then true
  -- tried three times and never a success
  else if a.nLastSuccess = 0 ∧ retries ≤ a.nAttempts then true
  -- 10 successive failures in the last week
  else if minFailDays * 86400 < nNow - a.nLastSuccess ∧ maxFailures ≤ a.nAttempts then true
  else false

/-- `nRefCount += n` -/
def addRefs (a : CAddrInfo) (n : ℤ) : CAddrInfo := { a with nRefCount := a.nRefCount + n }

/-- `nRandomPos = n` -/
def setRandomPos (a : CAddrInfo) (n : ℕ) : CAddrInfo := { a with nRandomPos := some n }

/-- `fInTried = true` -/
def setTried (a : CAddrInfo) : CAddrInfo := { a with fInTried := true }

/-- "remove the to-be-replaced tried entry from the tried set" -/
def setEvicted (a : CAddrInfo) : CAddrInfo := { a with fInTried := false, nRefCount := 1 }

/-- What `Good_` notes of the entry -/
def good (a : CAddrInfo) (nTime : Int64) : CAddrInfo :=
  { a with nLastSuccess := nTime, nLastTry := nTime, nTime := toTime nTime, nAttempts := 0 }

/-- What `Attempt_` notes of it -/
def attempt (a : CAddrInfo) (nTime : Int64) : CAddrInfo :=
  { a with nLastTry := nTime, nAttempts := a.nAttempts + 1 }

/-- What `Connected_` notes of it -/
def connected (a : CAddrInfo) (nTime : Int64) : CAddrInfo :=
  if 20 * 60 < nTime - timeOf a.nTime then { a with nTime := toTime nTime } else a

/-- What `Add_` notes of an entry that is there: "periodically update nTime",
"add services" -/
def update (a : CAddrInfo) (nNow : Int64) (addr : CAddress) (nTimePenalty : Int64) : CAddrInfo :=
  let fCurrentlyOnline := nNow - timeOf addr.nTime < 24 * 60 * 60
  let nUpdateInterval : Int64 := if fCurrentlyOnline then 60 * 60 else 24 * 60 * 60
  { a with
    nTime := if addr.nTime ≠ 0 ∧ (a.nTime = 0 ∨
        timeOf a.nTime < timeOf addr.nTime - nUpdateInterval - nTimePenalty) then
      toTime (max 0 (timeOf addr.nTime - nTimePenalty)) else a.nTime
    nServices := a.nServices ||| addr.nServices }

/-- And of a new one -/
def penalise (a : CAddrInfo) (nTimePenalty : Int64) : CAddrInfo :=
  { a with nTime := toTime (max 0 (timeOf a.nTime - nTimePenalty)) }

variable [P : Platform]

/-- `Hash(ss.begin(), ss.end()).Get64()` -/
def hash64 (bytes : List UInt8) : ℕ := (P.hash bytes).toNat % 2 ^ 64

/-- `GetTriedBucket` -/
def getTriedBucket (a : CAddrInfo) (nKey : List UInt8) : Fin triedBucketCount :=
  let hash1 := hash64 (serializeBytes nKey ++ serializeBytes a.getKey)
  let hash2 := hash64 (serializeBytes nKey ++ serializeBytes (CNetAddr.getGroup a.ip) ++
    leBytes 8 (hash1 % triedBucketsPerGroup))
  Fin.ofNat triedBucketCount hash2

/-- `GetNewBucket` -/
def getNewBucket (a : CAddrInfo) (nKey : List UInt8) (src : CNetAddr) : Fin newBucketCount :=
  let hash1 := hash64 (serializeBytes nKey ++ serializeBytes (CNetAddr.getGroup a.ip) ++
    serializeBytes (CNetAddr.getGroup src))
  let hash2 := hash64 (serializeBytes nKey ++ serializeBytes (CNetAddr.getGroup src) ++
    leBytes 8 (hash1 % newBucketsPerSourceGroup))
  Fin.ofNat newBucketCount hash2

end CAddrInfo

/-! ## The tables -/

/-- `CAddrMan` -/
structure CAddrMan where
  nKey : List UInt8
  nIdCount : ℕ
  mapInfo : Map ℕ CAddrInfo
  mapAddr : Map CNetAddr ℕ
  vRandom : List ℕ
  nTried : ℤ
  vvTried : Fin triedBucketCount → List ℕ
  nNew : ℤ
  vvNew : Fin newBucketCount → Finset ℕ

/-- What a function of the address manager is: no return is an assertion
that failed. -/
abbrev ManStep (α : Type) := Step CAddrMan Failure α

/-- `GetRandInt`, of a draw -/
def getRandInt (r nMax : ℕ) : ℕ := if nMax = 0 then 0 else r % nMax

/-- The draws after the first `k` -/
def after (rand : ℕ → ℕ) (k : ℕ) : ℕ → ℕ := fun n => rand (k + n)

/-- `assert` -/
def assert (b : Bool) : ManStep Unit := if b then pure () else Step.fail (.crash "assert")

namespace CAddrMan

/-- `CAddrMan()`, with the key it draws -/
def init (nKey : List UInt8) : CAddrMan where
  nKey := nKey
  nIdCount := 0
  mapInfo := ∅
  mapAddr := ∅
  vRandom := []
  nTried := 0
  vvTried _ := []
  nNew := 0
  vvNew _ := ∅

/-- `mapInfo.count(nId) == 1` -/
def has (s : CAddrMan) (nId : ℕ) : Bool := s.mapInfo.contains nId

/-- `mapInfo[nId] = info` -/
@[simps] def setInfo (s : CAddrMan) (nId : ℕ) (info : CAddrInfo) : CAddrMan :=
  { s with mapInfo := s.mapInfo.insert nId info }

/-- A new entry in the three tables that find it -/
@[simps] def enter (s : CAddrMan) (nId : ℕ) (info : CAddrInfo) : CAddrMan := { s with
  mapInfo := s.mapInfo.insert nId info
  mapAddr := s.mapAddr.insert info.ip nId
  vRandom := s.vRandom ++ [nId] }

/-- The entry at the end of `vRandom` goes from them. -/
@[simps] def leave (s : CAddrMan) (nId : ℕ) (info : CAddrInfo) : CAddrMan := { s with
  vRandom := s.vRandom.dropLast
  mapAddr := s.mapAddr.erase info.ip
  mapInfo := s.mapInfo.erase nId }

/-- `nNew += n`, `nTried += n` -/
@[simps] def addNew (s : CAddrMan) (n : ℤ) : CAddrMan := { s with nNew := s.nNew + n }
@[simps] def addTried (s : CAddrMan) (n : ℤ) : CAddrMan := { s with nTried := s.nTried + n }

/-- A change of `vvNew[nUBucket]`, of `vvTried[nKBucket]` -/
@[simps] def updateNew (s : CAddrMan) (nUBucket : Fin newBucketCount) (f : Finset ℕ → Finset ℕ) : CAddrMan :=
  { s with vvNew := Function.update s.vvNew nUBucket (f (s.vvNew nUBucket)) }
@[simps] def updateTried (s : CAddrMan) (nKBucket : Fin triedBucketCount) (f : List ℕ → List ℕ) : CAddrMan :=
  { s with vvTried := Function.update s.vvTried nKBucket (f (s.vvTried nKBucket)) }

/-- How many "new" buckets have `nId` -/
def nBuckets (s : CAddrMan) (nId : ℕ) : ℕ :=
  (List.finRange newBucketCount).countP fun b => nId ∈ s.vvNew b

/-- "remove the entry from all new buckets" -/
@[simps] def eraseNew (s : CAddrMan) (nId : ℕ) : CAddrMan :=
  { s with vvNew := fun b => (s.vvNew b).erase nId }

/-- `mapInfo[nId]`, which makes an entry where there is none -/
def info (nId : ℕ) : ManStep CAddrInfo := do
  let s ← Step.get
  match s.mapInfo[nId]? with
  | some info => pure info
  | none => do
    Step.modify (·.setInfo nId CAddrInfo.init)
    pure CAddrInfo.init

/-- `Find`, with the number it gives through `pnId` -/
def find (s : CAddrMan) (addr : CNetAddr) : Option (ℕ × CAddrInfo) :=
  match s.mapAddr[addr]? with
  | none => none
  | some nId => (s.mapInfo[nId]?).map fun info => (nId, info)

/-- `Create`, and the number of the new entry -/
def create (addr : CAddress) (addrSource : CNetAddr) : ManStep ℕ := do
  let s ← Step.get
  let nId := s.nIdCount
  let entry := (CAddrInfo.ofAddress addr addrSource).setRandomPos s.vRandom.length
  Step.modify fun s => { s.enter nId entry with nIdCount := nId + 1 }
  pure nId

/-- `SwapRandom`; a position that was never set is behind every end. -/
def swapRandom (nRndPos1 nRndPos2 : Option ℕ) : ManStep Unit := do
  if nRndPos1 = nRndPos2 then pure ()
  else
    let s ← Step.get
    match nRndPos1, nRndPos2 with
    | some pos1, some pos2 =>
      match s.vRandom[pos1]?, s.vRandom[pos2]? with
      | some nId1, some nId2 => do
        assert (s.has nId1)
        assert (s.has nId2)
        let info1 ← info nId1
        Step.modify (·.setInfo nId1 (info1.setRandomPos pos2))
        let info2 ← info nId2
        Step.modify (·.setInfo nId2 (info2.setRandomPos pos1))
        Step.modify fun s => { s with vRandom := (s.vRandom.set pos1 nId2).set pos2 nId1 }
      | _, _ => assert false
    | _, _ => assert false

/-! ## Evicting -/

/-- The loop of `SelectTried`, `left` steps before its end: the bucket, and
the position it returns. `nOldest` and `nOldestPos` start as `-1`. -/
def selectTriedLoop (rand : ℕ → ℕ) : ℕ → ℕ → List ℕ → Option ℕ → Option ℕ →
    ManStep (List ℕ × Option ℕ)
  | 0, _, vTried, _, nOldestPos => pure (vTried, nOldestPos)
  | left + 1, i, vTried, nOldest, nOldestPos =>
    if h : i < vTried.length then do
      let nPos := getRandInt (rand i) (vTried.length - i) + i
      let nTemp := vTried.getD nPos 0
      let vTried := (vTried.set nPos vTried[i]).set i nTemp
      match nOldest with
      | none => selectTriedLoop rand left (i + 1) vTried (some nTemp) (some nPos)
      | some oldest => do
        let s ← Step.get
        assert (s.has nTemp)
        let infoTemp ← info nTemp
        let infoOldest ← info oldest
        if infoTemp.nLastSuccess < infoOldest.nLastSuccess then
          selectTriedLoop rand left (i + 1) vTried (some nTemp) (some nPos)
        else selectTriedLoop rand left (i + 1) vTried nOldest nOldestPos
    else pure (vTried, nOldestPos)

/-- `SelectTried` -/
def selectTried (rand : ℕ → ℕ) (nKBucket : Fin triedBucketCount) : ManStep (Option ℕ) := do
  let s ← Step.get
  let (vTried, nOldestPos) ←
    selectTriedLoop rand triedEntriesInspectOnEvict 0 (s.vvTried nKBucket) none none
  Step.modify (·.updateTried nKBucket fun _ => vTried)
  pure nOldestPos

/-- An entry of a "new" bucket loses a reference; with the last one it goes
from every table. -/
def release (nUBucket : Fin newBucketCount) (nId : ℕ) : ManStep Unit := do
  let entry ← info nId
  let entry := entry.addRefs (-1)
  Step.modify (·.setInfo nId entry)
  if entry.nRefCount = 0 then
    let s ← Step.get
    swapRandom entry.nRandomPos (some (s.vRandom.length - 1))
    Step.modify fun s => (s.leave nId entry).addNew (-1)
  Step.modify (·.updateNew nUBucket (·.erase nId))

/-- "first look for deletable items" -/
def firstTerrible (nNow : Int64) : List ℕ → ManStep (Option ℕ)
  | [] => pure none
  | nId :: rest => do
    let s ← Step.get
    assert (s.has nId)
    let entry ← info nId
    if entry.isTerrible nNow then pure (some nId) else firstTerrible nNow rest

/-- "select four randomly, and pick the oldest of those": the walk through
the bucket from its `nI`-th entry -/
def oldestOf (n : List ℕ) : ℕ → List ℕ → Option ℕ → ManStep (Option ℕ)
  | _, [], nOldest => pure nOldest
  | nI, nId :: rest, nOldest =>
    if nI ∈ n then
      match nOldest with
      | none => oldestOf n (nI + 1) rest (some nId)
      | some oldest => do
        let s ← Step.get
        assert (s.has nId)
        let entry ← info nId
        let infoOldest ← info oldest
        if entry.nTime < infoOldest.nTime then oldestOf n (nI + 1) rest (some nId)
        else oldestOf n (nI + 1) rest nOldest
    else oldestOf n (nI + 1) rest nOldest

/-- `ShrinkNew`, at the adjusted time `nNow` -/
def shrinkNew (rand : ℕ → ℕ) (nNow : Int64) (nUBucket : Fin newBucketCount) : ManStep ℕ := do
  let s ← Step.get
  let vNew := (s.vvNew nUBucket).sort (· ≤ ·)
  match ← firstTerrible nNow vNew with
  | some nId => do
    release nUBucket nId
    pure 0
  | none => do
    let n := (List.range 4).map fun k => getRandInt (rand k) vNew.length
    match ← oldestOf n 0 vNew none with
    | none => do
      assert false
      pure 1
    | some nOldest => do
      let s ← Step.get
      assert (s.has nOldest)
      release nUBucket nOldest
      pure 1

variable [P : Platform]

/-- What `MakeTried` does with a full bucket: "find an item to evict" and
move it back to new, `nId` takes its place. -/
def evict (rand : ℕ → ℕ) (nId : ℕ) (nOrigin : Fin newBucketCount)
    (nKBucket : Fin triedBucketCount) : ManStep Unit := do
  let nPos ← selectTried rand nKBucket
  let s ← Step.get
  match nPos.bind fun nPos => ((s.vvTried nKBucket)[nPos]?).map fun nOld => (nPos, nOld) with
  | none => assert false
  | some (nPos, nOld) => do
    -- find which new bucket it belongs to
    assert (s.has nOld)
    let infoOld ← info nOld
    let nUBucket := infoOld.getNewBucket s.nKey infoOld.source
    Step.modify (·.setInfo nOld infoOld.setEvicted)
    -- if there is no place in that one, the new bucket nId came from
    let nTarget := if (s.vvNew nUBucket).card < newBucketSize then nUBucket else nOrigin
    Step.modify fun s => (s.updateNew nTarget (insert nOld)).addNew 1
    Step.modify (·.updateTried nKBucket (·.set nPos nId))
    let entry ← info nId
    Step.modify (·.setInfo nId entry.setTried)

/-- `MakeTried` -/
def makeTried (rand : ℕ → ℕ) (nId : ℕ) (nOrigin : Fin newBucketCount) : ManStep Unit := do
  let s ← Step.get
  assert (nId ∈ s.vvNew nOrigin)
  let entry ← info nId
  -- remove the entry from all new buckets
  let entry := entry.addRefs (-s.nBuckets nId)
  Step.modify fun s => ((s.setInfo nId entry).eraseNew nId).addNew (-1)
  assert (entry.nRefCount = 0)
  -- what tried bucket to move the entry to
  let nKBucket := entry.getTriedBucket s.nKey
  -- first check whether there is place to just add it
  if (s.vvTried nKBucket).length < triedBucketSize then
    Step.modify (·.updateTried nKBucket (· ++ [nId]))
    Step.modify fun s => (s.addTried 1).setInfo nId entry.setTried
  else evict rand nId nOrigin nKBucket

/-! ## The five requests -/

/-- `Good_` -/
def good_ (rand : ℕ → ℕ) (addr : CService) (nTime : Int64) : ManStep Unit := do
  let s ← Step.get
  match s.find addr.ip with
  | none => pure ()
  | some (nId, entry) =>
    -- check whether we are talking about the exact same CService (including same port)
    if entry.toCService ≠ addr then pure ()
    else do
      Step.modify (·.setInfo nId (entry.good nTime))
      -- if it is already in the tried set, don't do anything else
      if entry.fInTried then pure ()
      else
        -- find a bucket it is in now
        let nRnd := getRandInt (rand 0) newBucketCount
        let buckets := (List.range newBucketCount).map fun n => Fin.ofNat newBucketCount (n + nRnd)
        match buckets.find? fun nB => nId ∈ s.vvNew nB with
        | none => pure ()
        | some nUBucket => makeTried (after rand 1) nId nUBucket

/-- The part of `Add_` that puts the entry in a bucket -/
def addToBucket (rand : ℕ → ℕ) (nNow : Int64) (nId : ℕ) (source : CNetAddr) : ManStep Unit := do
  let entry ← info nId
  let s ← Step.get
  let nUBucket := entry.getNewBucket s.nKey source
  if nId ∈ s.vvNew nUBucket then pure ()
  else do
    Step.modify (·.setInfo nId (entry.addRefs 1))
    if (s.vvNew nUBucket).card = newBucketSize then
      let _ ← shrinkNew rand nNow nUBucket
    Step.modify (·.updateNew nUBucket (insert nId))

/-- `Add_`, at the adjusted time `nNow` -/
def add_ (rand : ℕ → ℕ) (nNow : Int64) (addr : CAddress) (source : CNetAddr)
    (nTimePenalty : Int64) : ManStep Bool := do
  if CNetAddr.isRoutable addr.ip = false then pure false
  else
    let s ← Step.get
    match s.find addr.ip with
    | some (nId, entry) => do
      let entry := entry.update nNow addr nTimePenalty
      Step.modify (·.setInfo nId entry)
      -- do not update if no new information is present
      if addr.nTime = 0 ∨ (entry.nTime ≠ 0 ∧ addr.nTime ≤ entry.nTime) then pure false
      -- do not update if the entry was already in the "tried" table
      else if entry.fInTried then pure false
      -- do not update if the max reference count is reached
      else if entry.nRefCount = newBucketsPerAddress then pure false
      -- stochastic test: previous nRefCount == N: 2^N times harder to increase it
      else if 1 < 2 ^ entry.nRefCount.toNat ∧
          getRandInt (rand 0) (2 ^ entry.nRefCount.toNat) ≠ 0 then pure false
      else do
        addToBucket (after rand 1) nNow nId source
        pure false
    | none => do
      let nId ← create addr source
      let entry ← info nId
      Step.modify fun s => (s.setInfo nId (entry.penalise nTimePenalty)).addNew 1
      addToBucket (after rand 1) nNow nId source
      pure true

omit P

/-- `Attempt_` -/
def attempt_ (addr : CService) (nTime : Int64) : ManStep Unit := do
  let s ← Step.get
  match s.find addr.ip with
  | none => pure ()
  | some (nId, entry) =>
    if entry.toCService ≠ addr then pure ()
    else Step.modify (·.setInfo nId (entry.attempt nTime))

/-- `Connected_` -/
def connected_ (addr : CService) (nTime : Int64) : ManStep Unit := do
  let s ← Step.get
  match s.find addr.ip with
  | none => pure ()
  | some (nId, entry) =>
    if entry.toCService ≠ addr then pure ()
    else Step.modify (·.setInfo nId (entry.connected nTime))

/-- The loop of `GetAddr_`, from step `n`, with `left` to go -/
def getAddrLoop (rand : ℕ → ℕ) : ℕ → ℕ → List CAddress → ManStep (List CAddress)
  | 0, _, vAddr => pure vAddr
  | left + 1, n, vAddr => do
    let s ← Step.get
    let nRndPos := getRandInt (rand n) (s.vRandom.length - n) + n
    swapRandom (some n) (some nRndPos)
    let s ← Step.get
    match s.vRandom[n]? with
    | none => do
      assert false
      pure vAddr
    | some nId => do
      assert (s.has nId)
      let entry ← info nId
      getAddrLoop rand left (n + 1) (vAddr ++ [entry.toCAddress])

/-- `GetAddr_` -/
def getAddr_ (rand : ℕ → ℕ) : ManStep (List CAddress) := do
  let s ← Step.get
  getAddrLoop rand (min (getAddrMaxPct * s.vRandom.length / 100) getAddrMax) 0 []

/-- The loops of `Select_`: a bucket, a position in it, and whether the
entry there is taken, until one is. `accept n` is how the `n`-th comparison
of a draw with the entry's chance comes out. -/
def selectLoop (buckets : List (List ℕ)) (rand : ℕ → ℕ) (accept : ℕ → Bool) :
    ℕ → ℕ → ManStep (Option CAddress)
  | 0, _ => pure none
  | fuel + 1, n => do
    let bucket := buckets.getD (getRandInt (rand (2 * n)) buckets.length) []
    match bucket[getRandInt (rand (2 * n + 1)) bucket.length]? with
    | none => selectLoop buckets rand accept fuel (n + 1)
    | some nId => do
      let s ← Step.get
      assert (s.has nId)
      let entry ← info nId
      if accept n then pure (some entry.toCAddress)
      else selectLoop buckets rand accept fuel (n + 1)

/-- `Select_`, as far as `fuel` rounds of its loop get. `tried` is how the
comparison of the square roots comes out. -/
def select_ (tried : Bool) (rand : ℕ → ℕ) (accept : ℕ → Bool) (fuel : ℕ) :
    ManStep (Option CAddress) := do
  let s ← Step.get
  if s.vRandom.length = 0 then pure (some CAddress.init)
  else if tried then
    selectLoop ((List.finRange triedBucketCount).map s.vvTried) rand accept fuel 0
  else
    selectLoop ((List.finRange newBucketCount).map fun b => (s.vvNew b).sort (· ≤ ·))
      rand accept fuel 0

end CAddrMan

end Peers

end CryptoBullion
