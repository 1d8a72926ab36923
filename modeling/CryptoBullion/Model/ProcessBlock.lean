import CryptoBullion.Model.CheckBlock
/-!
# What ProcessBlock asks of a block first

Before it keeps a block in any way, `ProcessBlock` looks for it among the
blocks it has and the orphans it keeps, refuses a stake it has seen, and
calls `CheckBlock`. A duplicate stake is let through where an orphan
waits for the block, or a pending checkpoint does: the latter is found by
walking back from the checkpoint's block through the orphans.
-/

namespace CryptoBullion

variable [P : Platform]

/-- The blocks kept until their parents come, and the checkpoint that
waits for its block. -/
structure OrphanBlocks where
  mapOrphanBlocks : Map Uint256 CBlock
  /-- the orphans once more, keyed by the parent they wait for -/
  mapOrphanBlocksByPrev : List (Uint256 × CBlock)
  hashPendingCheckpoint : Uint256

namespace OrphanBlocks

variable (orphans : OrphanBlocks)

/-- `WantedByOrphan`: the parent the first block of an orphan's chain
waits for. `none` where the walk is not over after `fuel` steps. -/
def wantedByOrphan : ℕ → CBlock → Option Uint256
  | 0, pblockOrphan =>
    match orphans.mapOrphanBlocks[pblockOrphan.hashPrevBlock]? with
    | none => some pblockOrphan.hashPrevBlock
    | some _ => none
  | fuel + 1, pblockOrphan =>
    match orphans.mapOrphanBlocks[pblockOrphan.hashPrevBlock]? with
    | none => some pblockOrphan.hashPrevBlock
    | some parent => wantedByOrphan fuel parent

/-- `WantedByPendingSyncCheckpoint`. Among `size` orphans a walk that has
not ended after `size` steps never does. -/
def wantedByPendingSyncCheckpoint (hashBlock : Uint256) : Except Failure Bool :=
  if orphans.hashPendingCheckpoint = 0 then .ok false
  else if hashBlock = orphans.hashPendingCheckpoint then .ok true
  else match orphans.mapOrphanBlocks[orphans.hashPendingCheckpoint]? with
    | none => .ok false
    | some pblockOrphan =>
      match orphans.wantedByOrphan orphans.mapOrphanBlocks.size pblockOrphan with
      | none => .error (.crash "WantedByOrphan")
      | some hash => .ok (hashBlock = hash)

end OrphanBlocks

/-- `GetProofOfStake` -/
def CBlock.getProofOfStake (block : CBlock) : COutPoint × ℕ :=
  if block.isProofOfStake then
    (((block.vtx[1]?.bind (·.vin.head?)).map (·.prevout)).getD COutPoint.null,
      (block.vtx[1]?.map (·.nTime)).getD 0)
  else (COutPoint.null, 0)

/-- The block stakes what an indexed block has staked already, and no
orphan waits for it. -/
def CBlock.isDuplicateStake (block : CBlock) (s : NodeState) (orphans : OrphanBlocks) : Bool :=
  block.isProofOfStake && decide (block.getProofOfStake ∈ s.setStakeSeen) &&
    !orphans.mapOrphanBlocksByPrev.any (·.1 = block.getHash)

/-- `ProcessBlock`, as far as `CheckBlock`. -/
def processBlockChecks (block : CBlock) (s : NodeState) (orphans : OrphanBlocks)
    (nAdjustedTime : ℤ) : Except Failure Unit := do
  let hash := block.getHash
  reject (s.mapBlockIndex.contains hash) (.error "ProcessBlock() : already have block")
  reject (orphans.mapOrphanBlocks.contains hash)
    (.error "ProcessBlock() : already have block (orphan)")
  if block.isDuplicateStake s orphans then
    let fWanted ← orphans.wantedByPendingSyncCheckpoint hash
    reject (fWanted = false) (.error "ProcessBlock() : duplicate proof-of-stake")
  onFalse (block.checkBlock nAdjustedTime s.bestHeight true true true)
    (.error "ProcessBlock() : CheckBlock FAILED")

/-! ## How far a walk through the orphans goes -/

namespace OrphanBlocks

variable {orphans : OrphanBlocks} {b c : CBlock} {n m : ℕ} {root : Uint256}

/-- The blocks a walk visits, the newest first. -/
def visited (orphans : OrphanBlocks) : ℕ → CBlock → Option CBlock
  | 0, b => some b
  | n + 1, b => (orphans.mapOrphanBlocks[b.hashPrevBlock]?).bind (orphans.visited n)

omit [P : Platform] in
theorem visited_add : ∀ {n : ℕ} {b : CBlock},
    orphans.visited (n + m) b = (orphans.visited n b).bind (orphans.visited m)
  | 0, b => by simp [visited]
  | n + 1, b => by
    rw [Nat.succ_add, visited, visited]
    rcases orphans.mapOrphanBlocks[b.hashPrevBlock]? with _ | p
    · rfl
    · simp only [Option.bind_some]
      exact visited_add

omit [P : Platform] in
/-- A walk ends with the first block whose parent is no orphan. -/
theorem wantedByOrphan_eq_some_iff : ∀ {n : ℕ} {b : CBlock},
    orphans.wantedByOrphan n b = some root ↔
      ∃ k ≤ n, ∃ c, orphans.visited k b = some c ∧
        orphans.mapOrphanBlocks[c.hashPrevBlock]? = none ∧ c.hashPrevBlock = root := by
  intro n
  induction n with
  | zero =>
    intro b
    rw [wantedByOrphan]
    cases h : orphans.mapOrphanBlocks[b.hashPrevBlock]? with
    | none =>
      constructor
      · intro heq
        exact ⟨0, le_rfl, b, rfl, h, Option.some.inj heq⟩
      · rintro ⟨k, hk, c, hc, -, hroot⟩
        obtain rfl := Nat.le_zero.1 hk
        rw [visited, Option.some.injEq] at hc
        rw [hc, hroot]
    | some p =>
      constructor
      · intro heq
        exact absurd heq (by simp)
      · rintro ⟨k, hk, c, hc, hnone, -⟩
        obtain rfl := Nat.le_zero.1 hk
        rw [visited, Option.some.injEq] at hc
        rw [← hc, h] at hnone
        exact absurd hnone (by simp)
  | succ n ih =>
    intro b
    rw [wantedByOrphan]
    cases h : orphans.mapOrphanBlocks[b.hashPrevBlock]? with
    | none =>
      constructor
      · intro heq
        exact ⟨0, Nat.zero_le _, b, rfl, h, Option.some.inj heq⟩
      · rintro ⟨_ | k, -, c, hc, -, hroot⟩
        · rw [visited, Option.some.injEq] at hc
          rw [hc, hroot]
        · rw [visited, h] at hc
          exact absurd hc (by simp)
    | some p =>
      simp only [ih]
      constructor
      · rintro ⟨k, hk, c, hc⟩
        exact ⟨k + 1, by omega, c, by rw [visited, h]; exact hc⟩
      · rintro ⟨_ | k, hk, c, hc, hnone, hroot⟩
        · rw [visited, Option.some.injEq] at hc
          rw [← hc, h] at hnone
          exact absurd hnone (by simp)
        · rw [visited, h] at hc
          exact ⟨k, by omega, c, hc, hnone, hroot⟩

omit [P : Platform] in
/-- **A walk that ends visits no block twice**, so it is no longer than
there are orphans. -/
theorem le_size_of_visited {k : ℕ} (hc : orphans.visited k b = some c)
    (hend : orphans.mapOrphanBlocks[c.hashPrevBlock]? = none) :
    k ≤ orphans.mapOrphanBlocks.size := by
  -- the parent's hash read at each step, a key of the orphans at every step but the last
  have hsplit : ∀ {i}, i ≤ k → ∃ d, orphans.visited i b = some d ∧
      orphans.visited (k - i) d = some c := by
    intro i hi
    rw [← Nat.add_sub_of_le hi, visited_add] at hc
    exact Option.bind_eq_some_iff.1 hc
  let key : ℕ → Uint256 := fun i => ((orphans.visited i b).map (·.hashPrevBlock)).getD 0
  have hkey : ∀ {i d}, orphans.visited i b = some d → key i = d.hashPrevBlock := by
    intro i d hd
    simp [key, hd]
  have hmem : ∀ i ∈ Finset.range k, key i ∈ orphans.mapOrphanBlocks.keys.toFinset := by
    intro i hi
    have hlt := Finset.mem_range.1 hi
    obtain ⟨d, hd, hrest⟩ := hsplit hlt.le
    obtain ⟨j, hj⟩ : ∃ j, k - i = j + 1 := ⟨k - i - 1, by omega⟩
    rw [hj, visited] at hrest
    obtain ⟨p, hp, -⟩ := Option.bind_eq_some_iff.1 hrest
    rw [hkey hd, List.mem_toFinset, Std.ExtTreeMap.mem_keys]
    exact Std.ExtTreeMap.mem_iff_isSome_getElem?.2 (by rw [hp]; rfl)
  have hinj : Set.InjOn key (Finset.range k) := by
    intro i hi j hj heq
    by_contra hne
    -- from equal keys on the two walks agree, and one of them ends too early
    wlog hij : i < j generalizing i j
    · exact this hj hi heq.symm (Ne.symm hne) (by omega)
    have hjk : j < k := by simpa using hj
    obtain ⟨d, hd, -⟩ := hsplit (hij.le.trans hjk.le)
    obtain ⟨e, he, hrest⟩ := hsplit hjk.le
    rw [hkey hd, hkey he] at heq
    obtain ⟨m, hm⟩ : ∃ m, k - j = m + 1 := ⟨k - j - 1, by omega⟩
    have hsame : orphans.visited (k - j) d = some c := by
      rw [hm, visited, heq]
      rwa [hm, visited] at hrest
    obtain ⟨e', he', hrest'⟩ := hsplit (show i + (k - j) ≤ k by omega)
    rw [visited_add, hd, Option.bind_some, hsame, Option.some.injEq] at he'
    subst he'
    obtain ⟨m', hm'⟩ : ∃ m', k - (i + (k - j)) = m' + 1 := ⟨k - (i + (k - j)) - 1, by omega⟩
    rw [hm', visited, hend] at hrest'
    exact absurd hrest' (by simp)
  have hcard := Finset.card_le_card_of_injOn key hmem hinj
  have hkeys := List.toFinset_card_le orphans.mapOrphanBlocks.keys
  rw [Finset.card_range] at hcard
  rw [Std.ExtTreeMap.length_keys] at hkeys
  omega

omit [P : Platform] in
/-- So `size` steps are enough: a walk that ends at all ends within them. -/
theorem wantedByOrphan_size (h : orphans.wantedByOrphan n b = some root) :
    orphans.wantedByOrphan orphans.mapOrphanBlocks.size b = some root := by
  obtain ⟨k, -, c, hc, hend, hroot⟩ := wantedByOrphan_eq_some_iff.1 h
  exact wantedByOrphan_eq_some_iff.2 ⟨k, le_size_of_visited hc hend, c, hc, hend, hroot⟩

end OrphanBlocks

end CryptoBullion
