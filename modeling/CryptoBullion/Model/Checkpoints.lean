import CryptoBullion.Model.ProcessBlock
import CryptoBullion.Model.BlockIndex
/-!
# Checkpoints

Hardened checkpoints are compiled in. The synchronised checkpoint is
broadcast: a block may only come to lie below it, and a checkpoint whose
block has not come yet is pending until it does. `FullNode` is the node
together with what it keeps beside its chain: the checkpoints and the
blocks without a parent.
-/

namespace CryptoBullion

/-- One call of `AcceptBlock`: of which block, how it ended, and whether
the block was in the index then. -/
structure Attempt where
  hash : Uint256
  result : Except Failure Unit
  fIndexed : Bool

/-- A node with its orphan blocks and its checkpoints. -/
structure FullNode where
  node : NodeState
  /-- with `hashPendingCheckpoint` -/
  orphans : OrphanBlocks
  setStakeSeenOrphan : Finset (COutPoint × ℕ)
  hashSyncCheckpoint : Uint256
  hashInvalidCheckpoint : Uint256
  /-- the record `WriteSyncCheckpoint` writes -/
  hashSyncCheckpointOnDisk : Option Uint256
  /-- `-nosynccheckpoints` -/
  fNoSyncCheckpoints : Bool
  /-- history, newest first; read by nothing -/
  attempts : List Attempt

/-- A step on the node alone. -/
def onNode {α : Type} (x : Step NodeState Failure α) : Step FullNode Failure α :=
  Step.zoom (·.node) (fun n s => { s with node := n }) x

/-! ## Hardened checkpoints -/

/-- `hashGenesisBlockOfficial` -/
def hashGenesisBlockOfficial : Uint256 :=
  0x000002655a721555160ea9bcb1072faf63ff0c8dffed173d60b1d3556a134dc1

/-- `hashGenesisBlockTestNet` -/
def hashGenesisBlockTestNet : Uint256 :=
  0x61d0019e85d49d536ede59e12c4390f11ef5380be5abb3e8698fcaf0519d3c52

/-- `mapCheckpoints`, without the times -/
def mapCheckpoints : List (ℤ × Uint256) :=
  [(0, hashGenesisBlockOfficial),
    (95002, 0x000000002005b8fcc4e971b14ef655535fde9285c913c52f3c7064d889cd6226),
    (128580, 0x0000000005bbf12779485036c7aa23d0c017182dabdbb58e86b66384e929fd2c),
    (150002, 0x00000000023d5687abb2208b1df44974a50c519f3a6f11c29b891dbe8cc84ebf),
    (183993, 0x000000001da3185b0b68ac3499084fd96e95487f62700f5ffd040bd8b4d58398),
    (190000, 0x000000000e226034b27a0fef11039fee830ff8027e0f17b926bb83c01bf3b688),
    (230000, 0x00000000469a52e1ecddf74ebd18d034ae42122729687ecbf5e233562fdfd39f),
    (260000, 0x0000000070030143c51d204917e5aaac6cf37d4b1803d72c08dafd12edc8ea72),
    (290000, 0x00000000af91b16f01a659894a24c879ee62133e34f9efabdc9fa08d281a4b11),
    (320000, 0x00000001d4ee504e892fd7597c0342079f8ec14a6bd7f0e38d77be78baa4442f),
    (350000, 0x000000026ff936a9f4d77ef8b3f43fb7c2202219c4246ac56c413ec37672f0e4),
    (380000, 0x0000000125a6f752588db314e8577e5c0126dc416929073ea50a21479d6deb69),
    (402000, 0x00000002c544f0f8c83671bb5dd48b6ced70dc3db5f6588643b910c079689ce0),
    (430000, 0x00000006ba35bae2e2af99bf37243488afc8d6efd0d7cf77bd96bf94e07b80e1),
    (460000, 0x109a874f7d794025858987cc72bac7f2baeff792a01d31afa9984a125da22fbd),
    (510000, 0x00000000114e79134fa556d603c1e5230e122bd0a78f6192888362bd5091bd18),
    (530000, 0x00000000a0540d980018d3b1992bbd10906bb9872b0fc953542d6fb4cddc7ff8),
    (560000, 0x00000004d61b326efed561b7fbf5b4d61b64fe6945f9f126f8b3153190fe1cdd),
    (590000, 0x000000004d64aa9e1c77b55c4db47dcdec8f878269f87737ef7decbb69f9f9e8),
    (610000, 0x0000000677b1841abad721ec3167b3c7b0463d53a22d78fbcd85c2eb53af56f2),
    (640000, 0x00000000d5da601476027f06518128b32a7d5bcddb9098e34aab7570830c6e84),
    (690000, 0xd60ffff3c297dc6b0b6020d733cd912ca5506bed2fe7472d3fda459c52a8a43e),
    (730000, 0xfde685b6116963359b221fc5235a6736f00d24c093bc4de5f3e0b0394a51c56a),
    (780000, 0x000000000280ad0eacaf25174b49cb9f965d192f25d3e47d2e4a6b053fb6f990),
    (820000, 0x0000000090a8d91fd306e83390eca58d65c576203a8a1a053c1b099190147cb9),
    (850000, 0x000000008b4658c03a8f13866ddb046227de8a96b3ee21078a828aa54d37e90d),
    (870000, 0x000000030107f0e16cb4dbbb14a548d91a56527534d34cadd9ac475adec719da),
    (890000, 0x000000012fa9230d9f3f15d203a787db0b9e92889eca232cc59f763368896935),
    (910000, 0x000000006251188a93289e904eb674dbfa15722e163d4ec90a9673b84d6ac767),
    (920000, 0x000000016365ab52244f095a0a2e47c95c9b448b97cd5542d2cdf4dce380ea63),
    (930000, 0x000000010d42105d7fb5fd8b37c1e089587831b215c2ffa0d910331bb622cf7b),
    (940000, 0x00000000effedf62c11f4915af520ff9760fe95079274272644db33fafcc144a),
    (950000, 0x000000013d1baea87356546d2a145ab914ce3e150a1a815255c94467926b8afa),
    (960000, 0x00000005ae8130555185ada554519439bdc71c390f95bd5e55530c240db3db54),
    (970000, 0x0000000056cf659b939456d76a883cf2147c49047c950ef7415c5700e0b5b4db),
    (980000, 0x00000002933a54248502f0091078d3c33269e6d0293358e9259f8581aa91359c),
    (990000, 0x00000000758136b0e554e639ad6fa11b7eb5f514120240960f36a33710cfe253),
    (1000000, 0x00000002c6f432ca95d5ea89b84d2bfd701e3253d8edef06d18fed7ec09de30c),
    (1100000, 0x000000015ac05d2bd89aba131cc9d57cdd7edda818320516cf2f346a2515b9be),
    (1200000, 0x000000007a41df6df9174de6483a00c6a70bfa1c2a383d723def0776b6e3601f),
    (1302573, 0x51050155f2159ecbaf3470725c50db7f34bb2a8590f1bb638474c6519e99e6ac),
    (1309160, 0x97ba36ecbcd66d6894b2766aec2b74c128afb5070ed4ba2243ae36f996fbfca8),
    (1310272, 0x720b51ded661eb7fd9ba0b4e47743dd80aeeba9adbc22dd4dad8ca58198390df),
    (1310670, 0x0abd54495d29078ea17efaae129c97224f6db03292bde04a905ca72bf1bd4547),
    (2318178, 0xfc3c5cd0ee81c62e1166c887d79977f040f2620ce189812f7aa0b701217f3441),
    (2319474, 0xd19281d0ae3644a487cb3b339a0e8f29093df69e26de068d38d148eb996bcbc5)]

/-- `mapCheckpointsTestnet` -/
def mapCheckpointsTestnet : List (ℤ × Uint256) := [(0, hashGenesisBlockTestNet)]

section

variable [P : Platform]

/-- `CheckHardened` -/
def checkHardened (nHeight : ℤ) (hash : Uint256) : Bool :=
  match (if P.fTestNet then mapCheckpointsTestnet else mapCheckpoints).find? (·.1 = nHeight) with
  | none => true
  | some checkpoint => hash = checkpoint.2

/-! ## The synchronised checkpoint -/

/-- `while (pindex->nHeight > nHeight) if (!(pindex = pindex->pprev)) return error(…)` -/
def traceBack (s : NodeState) (nHeight : ℤ) (msg : String) : ℕ → Uint256 → Except Failure Uint256
  | 0, _ => .error (.crash "endless loop")
  | fuel + 1, pindex =>
    if nHeight < s.nHeight pindex then
      match s.pprev pindex with
      | none => .error (.error msg)
      | some prev => traceBack s nHeight msg fuel prev
    else .ok pindex

/-- `GetLastSyncCheckpoint` -/
def FullNode.getLastSyncCheckpoint (s : FullNode) : Option Uint256 :=
  if s.node.mapBlockIndex.contains s.hashSyncCheckpoint then some s.hashSyncCheckpoint else none

/-- Above the checkpoint, only its descendants can pass. -/
def FullNode.checkDescendant (s : FullNode) (pindexPrev : Uint256) : Except Failure Unit :=
  let nSyncHeight := s.node.nHeight s.hashSyncCheckpoint
  if nSyncHeight < s.node.nHeight pindexPrev + 1 then do
    let pindex ← traceBack s.node nSyncHeight
      "CheckSync: pprev null - block index structure failure" (s.node.walkFuel pindexPrev) pindexPrev
    reject (s.node.nHeight pindex < nSyncHeight ∨ pindex ≠ s.hashSyncCheckpoint) .quiet
  else .ok ()

/-- `CheckSync` -/
def FullNode.checkSync (s : FullNode) (hashBlock pindexPrev : Uint256) : Except Failure Unit :=
  if P.fTestNet then .ok ()
  else do
    let nHeight := s.node.nHeight pindexPrev + 1
    reject (s.node.mapBlockIndex.contains s.hashSyncCheckpoint = false)
      (.crash "mapBlockIndex.count(hashSyncCheckpoint)")
    let nSyncHeight := s.node.nHeight s.hashSyncCheckpoint
    s.checkDescendant pindexPrev
    reject (nHeight = nSyncHeight ∧ hashBlock ≠ s.hashSyncCheckpoint) .quiet
    reject (nHeight < nSyncHeight ∧ s.node.mapBlockIndex.contains hashBlock = false) .quiet

/-- `return error(…)` over a checkpoint that conflicts -/
def conflicting (hashCheckpoint : Uint256) (msg : String) : Step FullNode Failure Unit := do
  Step.modify fun s => { s with hashInvalidCheckpoint := hashCheckpoint }
  Step.fail (.error msg)

/-- `ValidateSyncCheckpoint` -/
def validateSyncCheckpoint (hashCheckpoint : Uint256) : Step FullNode Failure Unit := do
  let s ← Step.get
  Step.lift (reject (s.node.mapBlockIndex.contains s.hashSyncCheckpoint = false)
    (.error "ValidateSyncCheckpoint: block index missing for current sync-checkpoint"))
  Step.lift (reject (s.node.mapBlockIndex.contains hashCheckpoint = false)
    (.error "ValidateSyncCheckpoint: block index missing for received sync-checkpoint"))
  let nSyncHeight := s.node.nHeight s.hashSyncCheckpoint
  let nRecvHeight := s.node.nHeight hashCheckpoint
  if nRecvHeight ≤ nSyncHeight then do
    -- an older checkpoint: the current one should be its descendant
    let pindex ← Step.lift (traceBack s.node nRecvHeight
      "ValidateSyncCheckpoint: pprev1 null - block index structure failure"
      (s.node.walkFuel s.hashSyncCheckpoint) s.hashSyncCheckpoint)
    if pindex ≠ hashCheckpoint then
      conflicting hashCheckpoint
        "ValidateSyncCheckpoint: new sync-checkpoint is conflicting with current sync-checkpoint"
    else Step.fail .quiet
  else do
    -- it should be a descendant of the current one
    let pindex ← Step.lift (traceBack s.node nSyncHeight
      "ValidateSyncCheckpoint: pprev2 null - block index structure failure"
      (s.node.walkFuel hashCheckpoint) hashCheckpoint)
    if pindex ≠ s.hashSyncCheckpoint then
      conflicting hashCheckpoint
        "ValidateSyncCheckpoint: new sync-checkpoint is not a descendant of current sync-checkpoint"
    else pure ()

/-- `WriteSyncCheckpoint`, in a database transaction of its own -/
def writeSyncCheckpoint (hashCheckpoint : Uint256) : Step FullNode Failure Unit := do
  let ans ← onNode askOutside
  if ans.fDbOk then
    Step.modify fun s => { s with
      hashSyncCheckpoint := hashCheckpoint
      hashSyncCheckpointOnDisk := some hashCheckpoint }
  else Step.fail (.error "WriteSyncCheckpoint(): failed to commit to db sync checkpoint")

/-- Make the block of a checkpoint the tip, where it is not in the main
chain. `who` is the caller, as its messages name it. -/
def switchToCheckpoint (who : String) (hashCheckpoint : Uint256) : Step FullNode Failure Unit := do
  let s ← Step.get
  if s.node.isInMainChain hashCheckpoint then pure ()
  else do
    let block ← onNode (readFromDisk hashCheckpoint
      (who ++ ": ReadFromDisk failed for sync checkpoint"))
    match ← (onNode (closeTxDb (setBestChain block hashCheckpoint))).attempt with
    | .ok () => pure ()
    | .error f =>
      if f.returnsFalse then
        conflicting hashCheckpoint (who ++ ": SetBestChain failed for sync checkpoint")
      else Step.fail f

/-- No checkpoint is pending any more. -/
def clearPending : Step FullNode Failure Unit :=
  Step.modify fun s => { s with orphans := { s.orphans with hashPendingCheckpoint := 0 } }

/-- `AcceptPendingSyncCheckpoint` -/
def acceptPendingSyncCheckpoint : Step FullNode Failure Unit := do
  let s ← Step.get
  let hashPending := s.orphans.hashPendingCheckpoint
  if hashPending ≠ 0 ∧ s.node.mapBlockIndex.contains hashPending then do
    match ← (validateSyncCheckpoint hashPending).attempt with
    | .ok () => do
      switchToCheckpoint "AcceptPendingSyncCheckpoint" hashPending
      Step.mapError (·.orElse
          (.error "AcceptPendingSyncCheckpoint(): failed to write sync checkpoint"))
        (writeSyncCheckpoint hashPending)
      clearPending
    | .error f =>
      if f.returnsFalse then do
        clearPending
        Step.fail .quiet
      else Step.fail f
  else Step.fail .quiet

end

end CryptoBullion
