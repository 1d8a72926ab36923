import CryptoBullion.Chain.Trust
import CryptoBullion.Model.OrphanBlocks
/-!
# What AcceptBlock leaves alone

`AcceptBlock` does not touch the orphan blocks, and the only entry it can
add to the index is the block's own. Whether it does so has little to do
with what it returns: an entry that was made stays, even if the block
cannot become the best afterwards.
-/

namespace CryptoBullion

variable [P : Platform]

/-- The orphans are the same, and the index has at most one more entry. -/
structure Beside (hash : Uint256) (s s' : FullNode) : Prop where
  kept : ∀ h ∈ s.node.mapBlockIndex, h ∈ s'.node.mapBlockIndex
  only : ∀ h ∈ s'.node.mapBlockIndex, h = hash ∨ h ∈ s.node.mapBlockIndex
  mapOrphanBlocks : s'.orphans.mapOrphanBlocks = s.orphans.mapOrphanBlocks
  mapOrphanBlocksByPrev : s'.orphans.mapOrphanBlocksByPrev = s.orphans.mapOrphanBlocksByPrev
  setStakeSeenOrphan : s'.setStakeSeenOrphan = s.setStakeSeenOrphan
  attempts : s'.attempts = s.attempts

variable {hash : Uint256} {block : CBlock} {s s' : FullNode} {n n' : NodeState} {α : Type}

omit [P : Platform] in
instance : Std.Refl (Beside hash) := ⟨fun _ => ⟨fun _ hh => hh, fun _ => .inr, rfl, rfl, rfl, rfl⟩⟩

omit [P : Platform] in
instance : IsTrans FullNode (Beside hash) where
  trans _ _ _ h h' :=
    { kept := fun k hk => h'.kept k (h.kept k hk)
      only := fun k hk => (h'.only k hk).elim .inl (h.only k)
      mapOrphanBlocks := h'.mapOrphanBlocks.trans h.mapOrphanBlocks
      mapOrphanBlocksByPrev := h'.mapOrphanBlocksByPrev.trans h.mapOrphanBlocksByPrev
      setStakeSeenOrphan := h'.setStakeSeenOrphan.trans h.setStakeSeenOrphan
      attempts := h'.attempts.trans h.attempts }

/-! ## The node alone -/

/-- The same of a node: its index has at most one more entry. -/
structure NodeState.IndexGrows (hash : Uint256) (n n' : NodeState) : Prop where
  kept : ∀ h ∈ n.mapBlockIndex, h ∈ n'.mapBlockIndex
  only : ∀ h ∈ n'.mapBlockIndex, h = hash ∨ h ∈ n.mapBlockIndex

namespace NodeState.IndexGrows

omit [P : Platform] in
instance : Std.Refl (IndexGrows hash) := ⟨fun _ => ⟨fun _ hh => hh, fun _ => .inr⟩⟩

omit [P : Platform] in
instance : IsTrans NodeState (IndexGrows hash) where
  trans _ _ _ h h' := ⟨fun k hk => h'.kept k (h.kept k hk),
    fun k hk => (h'.only k hk).elim .inl (h.only k)⟩

omit [P : Platform] in
theorem of_sameTree (h : SameTree n n') : IndexGrows hash n n' :=
  ⟨fun _ hk => h.mem_iff.2 hk, fun _ hk => .inr (h.mem_iff.1 hk)⟩

omit [P : Platform] in
theorem of_eq (h : n'.mapBlockIndex = n.mapBlockIndex) : IndexGrows hash n n' :=
  ⟨fun _ hk => h ▸ hk, fun _ hk => .inr (h ▸ hk)⟩

end NodeState.IndexGrows

open NodeState (IndexGrows)
open Step (Preserves)

omit [P : Platform] in
theorem indexGrows_closeTxDb {x : Step NodeState Failure Unit} (h : Preserves (IndexGrows hash) x) :
    Preserves (IndexGrows hash) (closeTxDb x) := fun n => ⟨(h n).kept, (h n).only⟩

theorem indexGrows_setBestChain {pindex : Uint256} :
    Preserves (IndexGrows hash) (setBestChain block pindex) :=
  (sameTree_setBestChain block pindex).mono IndexGrows.of_sameTree

theorem indexGrows_indexBlock {nFile nBlockPos : ℕ} :
    Preserves (IndexGrows block.getHash) (indexBlock block nFile nBlockPos) := by
  have hinsert : ∀ i, Preserves (IndexGrows block.getHash)
      (Step.modify (insertEntry block.getHash i) : Step NodeState Failure Unit) := by
    refine fun i => .modify fun n => ⟨fun h hh => ?_, fun h hh => ?_⟩
    · exact Std.ExtTreeMap.mem_insert.2 (.inr hh)
    · rcases Std.ExtTreeMap.mem_insert.1 hh with heq | hh
      · exact .inl (Std.compare_eq_iff_eq.1 heq).symm
      · exact .inr hh
  exact .bind .get fun _ => .bind .lift fun i => .bind (hinsert i) fun _ =>
    .bind (sameTree_txnBegin.mono IndexGrows.of_sameTree) fun _ =>
      .bind (sameTree_onTxDb.mono IndexGrows.of_sameTree) fun _ =>
        (sameTree_txnCommit.mono IndexGrows.of_sameTree).mapError

theorem indexGrows_addToBlockIndex {nFile nBlockPos : ℕ} :
    Preserves (IndexGrows block.getHash) (addToBlockIndex block nFile nBlockPos) := by
  refine indexGrows_closeTxDb (.bind indexGrows_indexBlock fun _ => .bind .get fun n => ?_)
  split
  · exact indexGrows_setBestChain.mapError
  · exact .pure

omit [P : Platform] in
theorem indexGrows_writeToDisk : Preserves (IndexGrows hash) (writeToDisk block) := by
  refine .bind (fun n => IndexGrows.of_eq rfl) fun ans => .bind .get fun n => ?_
  split
  · exact .bind (.modify fun n => IndexGrows.of_eq rfl) fun _ => .pure
  · exact .fail

/-- **A block that was added** is in the index. -/
theorem mem_of_addToBlockIndex {nFile nBlockPos : ℕ}
    (h : addToBlockIndex block nFile nBlockPos n = (.ok (), n')) :
    block.getHash ∈ n'.mapBlockIndex := by
  obtain ⟨n₁, n₂, hindex, rfl, hbest⟩ := of_addToBlockIndex_eq_ok h
  have hmem : block.getHash ∈ n₁.mapBlockIndex := by
    rw [indexBlock, Step.get_bind] at hindex
    obtain ⟨i, -, hindex⟩ := Step.lift_bind_eq_ok.1 hindex
    rw [Step.modify_bind] at hindex
    obtain ⟨_, n₃, hbegin, hindex⟩ := Step.bind_eq_ok.1 hindex
    obtain ⟨_, n₄, hwrite, hcommit⟩ := Step.bind_eq_ok.1 hindex
    have h₃ := sameTree_txnBegin.of_eq hbegin
    have h₄ := sameTree_onTxDb.of_eq hwrite
    have h₁ := sameTree_txnCommit.of_eq (Step.mapError_eq_ok.1 hcommit)
    refine h₁.mem_iff.2 (h₄.mem_iff.2 (h₃.mem_iff.2 ?_))
    exact Std.ExtTreeMap.mem_insert_self
  rcases hbest with ⟨-, hset⟩ | ⟨-, rfl⟩
  · exact ((sameTree_setBestChain block _).of_eq hset).mem_iff.2 hmem
  · exact hmem

/-! ## AcceptBlock -/

omit [P : Platform] in
theorem beside_onNode {x : Step NodeState Failure α} (h : Preserves (IndexGrows hash) x) :
    Preserves (Beside hash) (onNode x) :=
  fun s => ⟨(h s.node).kept, (h s.node).only, rfl, rfl, rfl, rfl⟩

omit [P : Platform] in
/-- What changes neither the node nor the orphans. -/
theorem beside_modify {f : FullNode → FullNode}
    (h : ∀ s, (f s).node = s.node ∧ (f s).orphans.mapOrphanBlocks = s.orphans.mapOrphanBlocks ∧
      (f s).orphans.mapOrphanBlocksByPrev = s.orphans.mapOrphanBlocksByPrev ∧
      (f s).setStakeSeenOrphan = s.setStakeSeenOrphan ∧ (f s).attempts = s.attempts) :
    Preserves (Beside hash) (Step.modify f : Step FullNode Failure Unit) := by
  refine .modify fun s => ?_
  obtain ⟨hn, h₁, h₂, h₃, h₄⟩ := h s
  exact ⟨fun k hk => hn ▸ hk, fun k hk => .inr (hn ▸ hk), h₁, h₂, h₃, h₄⟩

omit [P : Platform] in
theorem beside_validateSyncCheckpoint {hashCheckpoint : Uint256} :
    Preserves (Beside hash) (validateSyncCheckpoint hashCheckpoint) := by
  have hconflict : ∀ msg, Preserves (Beside hash) (conflicting hashCheckpoint msg) := fun msg =>
    .bind (beside_modify fun _ => ⟨rfl, rfl, rfl, rfl, rfl⟩) fun _ => .fail
  refine .bind .get fun s => .bind .lift fun _ => .bind .lift fun _ => ?_
  dsimp only
  split
  · refine .bind .lift fun pindex => ?_
    split
    · exact hconflict _
    · exact .fail
  · refine .bind .lift fun pindex => ?_
    split
    · exact hconflict _
    · exact .pure

omit [P : Platform] in
theorem beside_writeSyncCheckpoint {hashCheckpoint : Uint256} :
    Preserves (Beside hash) (writeSyncCheckpoint hashCheckpoint) := by
  refine .bind (beside_onNode fun n => IndexGrows.of_eq rfl) fun ans => ?_
  split
  · exact beside_modify fun _ => ⟨rfl, rfl, rfl, rfl, rfl⟩
  · exact .fail

theorem beside_switchToCheckpoint {who : String} {hashCheckpoint : Uint256} :
    Preserves (Beside hash) (switchToCheckpoint who hashCheckpoint) := by
  refine .bind .get fun s => ?_
  split
  · exact .pure
  refine .bind (beside_onNode ((preserves_readFromDisk.mono Tentative.sameTree).mono
    IndexGrows.of_sameTree)) fun block => ?_
  refine .bind (beside_onNode (indexGrows_closeTxDb indexGrows_setBestChain)).attempt fun r => ?_
  split
  · exact .pure
  · split
    · exact .bind (beside_modify fun _ => ⟨rfl, rfl, rfl, rfl, rfl⟩) fun _ => .fail
    · exact .fail

theorem beside_acceptPendingSyncCheckpoint :
    Preserves (Beside hash) acceptPendingSyncCheckpoint := by
  have hclear : Preserves (Beside hash) clearPending :=
    beside_modify fun _ => ⟨rfl, rfl, rfl, rfl, rfl⟩
  refine .bind .get fun s => ?_
  dsimp only
  split
  · refine .bind beside_validateSyncCheckpoint.attempt fun r => ?_
    split
    · exact .bind beside_switchToCheckpoint fun _ =>
        .bind beside_writeSyncCheckpoint.mapError fun _ => hclear
    · split
      · exact .bind hclear fun _ => .fail
      · exact .fail
  · exact .fail

omit [P : Platform] in
theorem beside_ignoreFalse {x : Step FullNode Failure Unit} (h : Preserves (Beside hash) x) :
    Preserves (Beside hash) (ignoreFalse x) := by
  refine .bind h.attempt fun r => ?_
  split
  · exact .pure
  · split
    · exact .pure
    · exact .fail

theorem beside_storeBlock : Preserves (Beside block.getHash) (storeBlock block) := by
  refine .bind (beside_onNode fun n => IndexGrows.of_eq rfl) fun ans => ?_
  split
  · exact .bind (beside_onNode indexGrows_writeToDisk) fun pos =>
      (beside_onNode indexGrows_addToBlockIndex).mapError
  · exact .fail

/-- **`AcceptBlock` moves nothing but the node and the checkpoints**, and
adds no entry but the block's. -/
theorem beside_acceptBlock : Preserves (Beside block.getHash) (acceptBlock block) :=
  .bind .get fun _ => .bind .lift fun _ => .bind beside_storeBlock fun _ =>
    beside_ignoreFalse beside_acceptPendingSyncCheckpoint

/-- **A block it accepts is in the index.** -/
theorem mem_of_acceptBlock (h : acceptBlock block s = (.ok (), s')) :
    block.getHash ∈ s'.node.mapBlockIndex := by
  rw [acceptBlock, Step.get_bind] at h
  obtain ⟨_, -, h⟩ := Step.lift_bind_eq_ok.1 h
  obtain ⟨_, s₁, hstore, h⟩ := Step.bind_eq_ok.1 h
  refine ((beside_ignoreFalse beside_acceptPendingSyncCheckpoint).of_eq h : Beside block.getHash s₁ s').kept _ ?_
  obtain ⟨ans, s₂, -, hstore⟩ := Step.bind_eq_ok.1 hstore
  split_ifs at hstore
  · obtain ⟨pos, s₃, -, hadd⟩ := Step.bind_eq_ok.1 hstore
    rw [Step.mapError_eq_ok, onNode, Step.zoom_apply] at hadd
    obtain ⟨hok, rfl⟩ := Prod.mk.inj hadd
    exact mem_of_addToBlockIndex (Step.eq_of_fst_eq hok)
  · exact absurd hstore (by simp)

/-! ## The work queue -/

/-- The state once `AcceptBlock` of a block has been noted. -/
def noted (block : CBlock) (r : Except Failure Unit) (s : FullNode) : FullNode :=
  { s with
    attempts := ⟨block.getHash, r, s.node.mapBlockIndex.contains block.getHash⟩ :: s.attempts }

/-- And once the block was forgotten. -/
def forgotten (block : CBlock) (s : FullNode) : FullNode :=
  { s with
    orphans := { s.orphans with mapOrphanBlocks := s.orphans.mapOrphanBlocks.erase block.getHash }
    setStakeSeenOrphan := s.setStakeSeenOrphan.erase block.getProofOfStake }

theorem attemptBlock_eq : attemptBlock block s =
    (.ok (acceptBlock block s).1, noted block (acceptBlock block s).1 (acceptBlock block s).2) := rfl

/-- **What trying an orphan does**: it is forgotten, unless `AcceptBlock`
throws. -/
theorem tryOrphanBlock_cases {r : Except Failure Bool} (h : tryOrphanBlock block s = (r, s')) :
    ∃ r₁ s₁, acceptBlock block s = (r₁, s₁) ∧
      (r₁ = .ok () ∧ r = .ok true ∧ s' = forgotten block (noted block r₁ s₁) ∨
        (∃ f, r₁ = .error f ∧ f.returnsFalse = true) ∧ r = .ok false ∧
          s' = forgotten block (noted block r₁ s₁) ∨
        ∃ f, r₁ = .error f ∧ f.returnsFalse = false ∧ r = .error f ∧ s' = noted block r₁ s₁) := by
  rw [tryOrphanBlock, Step.bind_of_ok attemptBlock_eq] at h
  rcases ha : acceptBlock block s with ⟨⟨f⟩ | ⟨⟨⟩⟩, s₁⟩ <;> simp only [ha] at h
  · refine ⟨_, s₁, rfl, .inr ?_⟩
    split_ifs at h with hf
    · obtain ⟨rfl, rfl⟩ := Prod.mk.inj h
      exact .inl ⟨⟨f, rfl, hf⟩, rfl, rfl⟩
    · obtain ⟨rfl, rfl⟩ := Prod.mk.inj h
      exact .inr ⟨f, rfl, by simpa using hf, rfl, rfl⟩
  · obtain ⟨rfl, rfl⟩ := Prod.mk.inj h
    exact ⟨_, s₁, rfl, .inl ⟨rfl, rfl, rfl⟩⟩

/-- **An invariant of the inner loop**, of the blocks still to be tried and
those accepted so far. -/
theorem tryOrphanBlocks_rule (I : List CBlock → List Uint256 → FullNode → Prop)
    (hstep : ∀ b l acc s s' fAccepted, I (b :: l) acc s →
      tryOrphanBlock b s = (.ok fAccepted, s') →
        I l (acc ++ if fAccepted then [b.getHash] else []) s') :
    ∀ {l} acc {s s' accepted}, I l acc s → tryOrphanBlocks l s = (.ok accepted, s') →
      I [] (acc ++ accepted) s'
  | [], acc, s, s', accepted, hI, h => by
    obtain ⟨hacc, rfl⟩ := Prod.mk.inj h
    rw [← Except.ok.inj hacc, List.append_nil]
    exact hI
  | b :: l, acc, s, s', accepted, hI, h => by
    obtain ⟨fAccepted, s₁, htry, h⟩ := Step.bind_eq_ok.1 h
    obtain ⟨accepted', s₂, hrest, h⟩ := Step.bind_eq_ok.1 h
    obtain ⟨hacc, rfl⟩ := Prod.mk.inj h
    have hrule := tryOrphanBlocks_rule I hstep _ (hstep b l acc s s₁ fAccepted hI htry) hrest
    rw [← Except.ok.inj hacc]
    cases fAccepted <;> simpa using hrule

/-- The state once a key has been dropped. -/
def dropKey (hashPrev : Uint256) (s : FullNode) : FullNode :=
  { s with orphans := { s.orphans with
    mapOrphanBlocksByPrev := s.orphans.mapOrphanBlocksByPrev.filter (·.1 ≠ hashPrev) } }

/-- **An invariant of the work queue**, of what is left of it. -/
theorem workQueue_rule (J : List Uint256 → FullNode → Prop)
    (hturn : ∀ hashPrev rest s s' accepted, J (hashPrev :: rest) s →
      tryOrphanBlocks (s.orphans.waiting hashPrev) s = (.ok accepted, s') →
        J (rest ++ accepted) (dropKey hashPrev s')) :
    ∀ {fuel q s s'}, J q s → workQueue fuel q s = (.ok (), s') → J [] s'
  | 0, [], s, s', hJ, h => (Prod.mk.inj h).2 ▸ hJ
  | _ + 1, [], s, s', hJ, h => (Prod.mk.inj h).2 ▸ hJ
  | 0, _ :: _, s, s', hJ, h => absurd (Prod.mk.inj h).1 (by simp)
  | fuel + 1, hashPrev :: rest, s, s', hJ, h => by
    rw [workQueue, Step.get_bind] at h
    obtain ⟨accepted, s₁, htry, h⟩ := Step.bind_eq_ok.1 h
    rw [Step.modify_bind] at h
    exact workQueue_rule J hturn (hturn hashPrev rest s s₁ accepted hJ htry) h

/-- Nothing leaves the second map before a turn is over, and what was noted
stays noted. -/
structure Noting (s s' : FullNode) : Prop where
  mapOrphanBlocksByPrev : s'.orphans.mapOrphanBlocksByPrev = s.orphans.mapOrphanBlocksByPrev
  attempts : s.attempts <:+ s'.attempts

omit [P : Platform] in
instance : Std.Refl Noting := ⟨fun _ => ⟨rfl, List.suffix_rfl⟩⟩

omit [P : Platform] in
instance : IsTrans FullNode Noting := ⟨fun _ _ _ h h' =>
  ⟨h'.mapOrphanBlocksByPrev.trans h.mapOrphanBlocksByPrev, h.attempts.trans h'.attempts⟩⟩

theorem noting_tryOrphanBlock : Preserves Noting (tryOrphanBlock block) := by
  have hattempt : Preserves Noting (attemptBlock block) := by
    intro s
    have hb : Beside block.getHash s (acceptBlock block s).2 := beside_acceptBlock s
    rw [attemptBlock_eq]
    exact ⟨hb.mapOrphanBlocksByPrev, hb.attempts ▸ List.suffix_cons _ _⟩
  have hforget : Preserves Noting (forgetOrphan block) := .modify fun s => ⟨rfl, List.suffix_rfl⟩
  refine .bind hattempt fun r => ?_
  split
  · exact .bind hforget fun _ => .pure
  · split
    · exact .bind hforget fun _ => .pure
    · exact .fail

theorem noting_tryOrphanBlocks : ∀ {l : List CBlock}, Preserves Noting (tryOrphanBlocks l)
  | [] => .pure
  | _ :: _ => .bind noting_tryOrphanBlock fun _ => .bind noting_tryOrphanBlocks fun _ => .pure

/-- At most all that are tried are accepted. -/
theorem length_tryOrphanBlocks : ∀ {l : List CBlock} {s s' : FullNode} {accepted : List Uint256},
    tryOrphanBlocks l s = (.ok accepted, s') → accepted.length ≤ l.length
  | [], s, s', accepted, h => by
    obtain ⟨hacc, -⟩ := Prod.mk.inj h
    rw [← Except.ok.inj hacc]
    exact le_rfl
  | b :: l, s, s', accepted, h => by
    obtain ⟨fAccepted, s₁, -, h⟩ := Step.bind_eq_ok.1 h
    obtain ⟨accepted', s₂, hrest, h⟩ := Step.bind_eq_ok.1 h
    obtain ⟨hacc, -⟩ := Prod.mk.inj h
    have hle := length_tryOrphanBlocks hrest
    rw [← Except.ok.inj hacc, List.length_cons]
    cases fAccepted
    · exact hle.trans (Nat.le_succ _)
    · exact Nat.succ_le_succ hle

omit [P : Platform] in
theorem length_waiting_add (orphans : OrphanBlocks) (hashPrev : Uint256) :
    (orphans.waiting hashPrev).length +
        (orphans.mapOrphanBlocksByPrev.filter (·.1 ≠ hashPrev)).length =
      orphans.mapOrphanBlocksByPrev.length := by
  rw [OrphanBlocks.waiting, List.length_map]
  have hsum := List.length_eq_length_filter_add (l := orphans.mapOrphanBlocksByPrev)
    (fun p => decide (p.1 = hashPrev))
  rw [hsum]
  congr 2
  exact List.filter_congr fun p _ => by simp

/-- **The queue ends by itself**: every turn after the first comes from a
block that was taken out, so more turns than that change nothing. -/
theorem workQueue_succ : ∀ {fuel : ℕ} {q : List Uint256} {s : FullNode},
    q.length + s.orphans.mapOrphanBlocksByPrev.length ≤ fuel →
      workQueue (fuel + 1) q s = workQueue fuel q s
  | 0, [], s, _ => rfl
  | _ + 1, [], s, _ => rfl
  | 0, _ :: _, s, h => by simp at h
  | fuel + 1, hashPrev :: rest, s, h => by
    rw [workQueue, workQueue, Step.get_bind, Step.get_bind]
    rcases htry : tryOrphanBlocks (s.orphans.waiting hashPrev) s with ⟨f | accepted, s₁⟩
    · rw [Step.bind_of_error htry, Step.bind_of_error htry]
    · rw [Step.bind_of_ok htry, Step.bind_of_ok htry, Step.modify_bind, Step.modify_bind]
      apply workQueue_succ
      have hle := length_tryOrphanBlocks htry
      have hsum := length_waiting_add s.orphans hashPrev
      have hsame := (noting_tryOrphanBlocks.of_eq htry).mapOrphanBlocksByPrev
      rw [List.length_cons] at h
      rw [List.length_append]
      dsimp only
      rw [hsame]
      omega

/-- What ends the inner loop early is an exception of `AcceptBlock`. -/
theorem tryOrphanBlocks_eq_error {f : Failure} : ∀ {l : List CBlock} {s s' : FullNode},
    tryOrphanBlocks l s = (.error f, s') →
      ∃ b ∈ l, ∃ a ∈ s'.attempts, a.hash = b.getHash ∧ a.result = .error f ∧ f.returnsFalse = false
  | [], s, s', h => absurd (Prod.mk.inj h).1 (by simp)
  | b :: l, s, s', h => by
    rcases Step.bind_eq_error.1 h with h | ⟨fAccepted, s₁, -, h⟩
    · obtain ⟨r, s₁, -, ⟨-, hr, -⟩ | ⟨-, hr, -⟩ | ⟨f', rfl, hf, hr, rfl⟩⟩ := tryOrphanBlock_cases h
      · exact absurd hr (by simp)
      · exact absurd hr (by simp)
      · obtain rfl := Except.error.inj hr
        exact ⟨b, List.mem_cons_self, _, List.mem_cons_self, rfl, rfl, hf⟩
    · rcases Step.bind_eq_error.1 h with h | ⟨accepted, s₂, -, h⟩
      · obtain ⟨b', hb', hrest⟩ := tryOrphanBlocks_eq_error h
        exact ⟨b', List.mem_cons_of_mem _ hb', hrest⟩
      · exact absurd (Prod.mk.inj h).1 (by simp)

/-- And so is what ends the queue early. -/
theorem workQueue_eq_error {f : Failure} : ∀ {fuel : ℕ} {q : List Uint256} {s s' : FullNode},
    workQueue fuel q s = (.error f, s') → f.isCrash = true ∨
      ∃ p ∈ s.orphans.mapOrphanBlocksByPrev, ∃ a ∈ s'.attempts,
        a.hash = p.2.getHash ∧ a.result = .error f ∧ f.returnsFalse = false
  | 0, [], s, s', h => absurd (Prod.mk.inj h).1 (by simp)
  | _ + 1, [], s, s', h => absurd (Prod.mk.inj h).1 (by simp)
  | 0, _ :: _, s, s', h => .inl (Except.error.inj (Prod.mk.inj h).1 ▸ rfl)
  | fuel + 1, hashPrev :: rest, s, s', h => by
    rw [workQueue, Step.get_bind] at h
    rcases Step.bind_eq_error.1 h with h | ⟨accepted, s₁, htry, h⟩
    · obtain ⟨b, hb, a, ha, heq⟩ := tryOrphanBlocks_eq_error h
      obtain ⟨p, hp, rfl⟩ := List.mem_map.1 hb
      exact .inr ⟨p, (List.mem_filter.1 hp).1, a, ha, heq⟩
    · rw [Step.modify_bind] at h
      rcases workQueue_eq_error h with hcrash | ⟨p, hp, hrest⟩
      · exact .inl hcrash
      · refine .inr ⟨p, ?_, hrest⟩
        rw [← (noting_tryOrphanBlocks.of_eq htry).mapOrphanBlocksByPrev]
        exact (List.mem_filter.1 hp).1

/-! ## The whole call -/

/-- What `ProcessBlock` has moved before it accepts a block or shelves it:
neither the orphans nor the index. -/
structure Checked (s s' : FullNode) : Prop where
  mapBlockIndex : s'.node.mapBlockIndex = s.node.mapBlockIndex
  orphans : s'.orphans = s.orphans
  setStakeSeenOrphan : s'.setStakeSeenOrphan = s.setStakeSeenOrphan

omit [P : Platform] in
instance : Std.Refl Checked := ⟨fun _ => ⟨rfl, rfl, rfl⟩⟩

omit [P : Platform] in
instance : IsTrans FullNode Checked := ⟨fun _ _ _ h h' =>
  ⟨h'.mapBlockIndex.trans h.mapBlockIndex, h'.orphans.trans h.orphans,
    h'.setStakeSeenOrphan.trans h.setStakeSeenOrphan⟩⟩

theorem checked_checkStake : Preserves Checked (checkStake block) := by
  unfold checkStake
  split
  · exact .bind (fun _ => ⟨rfl, rfl, rfl⟩) fun _ => .bind .get fun _ => .bind .lift fun _ =>
      .modify fun _ => ⟨rfl, rfl, rfl⟩
  · exact .pure

/-- **The ways through `ProcessBlock`**: a check fails; or the block is new
and either shelved, where its parent is not indexed, or accepted. -/
theorem processBlock_cases {pfrom : Bool} {r : Except Failure Unit}
    (h : processBlock pfrom block s = (r, s')) : ∃ s₁, Checked s s₁ ∧
      ((∃ f, r = .error f ∧ s' = s₁) ∨
        s.orphans.mapOrphanBlocks[block.getHash]? = none ∧
          (block.hashPrevBlock ∈ s.node.mapBlockIndex ∧ acceptAndFollow block s₁ = (r, s') ∨
            block.hashPrevBlock ∉ s.node.mapBlockIndex ∧ keepOrphanBlock pfrom block s₁ = (r, s'))) := by
  have hfirst : Checked s (onNode askOutside { s with attempts := [] }).2 := ⟨rfl, rfl, rfl⟩
  rw [processBlock, Step.modify_bind] at h
  rcases hask : onNode askOutside { s with attempts := [] } with ⟨f | ans, s₁⟩
  · exact absurd (Prod.mk.inj hask).1 (by simp [askOutside])
  rw [Step.bind_of_ok hask, Step.get_bind] at h
  rw [hask] at hfirst
  rcases hchecks : processBlockChecks block s₁.node s₁.orphans ans.nAdjustedTime with f | _
  · rw [hchecks, Step.lift_error_bind] at h
    obtain ⟨rfl, rfl⟩ := Prod.mk.inj h
    exact ⟨_, hfirst, .inl ⟨f, rfl, rfl⟩⟩
  have hnew : s.orphans.mapOrphanBlocks[block.getHash]? = none := by
    simp only [processBlockChecks, except_bind_eq_ok, reject_eq_ok, exists_const,
      Bool.not_eq_true] at hchecks
    rw [← hfirst.orphans]
    exact Std.ExtTreeMap.getElem?_eq_none fun hmem =>
      absurd (Std.ExtTreeMap.mem_iff_contains.1 hmem) (by simp [hchecks.2.1])
  rw [hchecks, Step.lift_ok_bind] at h
  rcases hs : checkStake block s₁ with ⟨f | _, s₂⟩
  · rw [Step.bind_of_error hs] at h
    obtain ⟨rfl, rfl⟩ := Prod.mk.inj h
    exact ⟨_, IsTrans.trans _ _ _ hfirst (checked_checkStake.of_eq hs), .inl ⟨f, rfl, rfl⟩⟩
  have h₂ : Checked s s₂ := IsTrans.trans _ _ _ hfirst (checked_checkStake.of_eq hs)
  rw [Step.bind_of_ok hs, Step.get_bind] at h
  rcases hwork : s₂.checkMinWork block with f | _
  · rw [hwork, Step.lift_error_bind] at h
    obtain ⟨rfl, rfl⟩ := Prod.mk.inj h
    exact ⟨_, h₂, .inl ⟨f, rfl, rfl⟩⟩
  rw [hwork, Step.lift_ok_bind] at h
  refine ⟨s₂, h₂, .inr ⟨hnew, ?_⟩⟩
  rw [h₂.mapBlockIndex] at h
  split_ifs at h with hparent
  · exact .inl ⟨Std.ExtTreeMap.mem_iff_contains.2 hparent, h⟩
  · exact .inr ⟨fun hmem => hparent (Std.ExtTreeMap.mem_iff_contains.1 hmem), h⟩

/-- The state once a block has been shelved. -/
def shelved (block : CBlock) (s : FullNode) : FullNode :=
  { s with
    setStakeSeenOrphan :=
      if block.isProofOfStake then insert block.getProofOfStake s.setStakeSeenOrphan
      else s.setStakeSeenOrphan
    orphans := { s.orphans with
      mapOrphanBlocks := s.orphans.mapOrphanBlocks.insertIfNew block.getHash block
      mapOrphanBlocksByPrev := s.orphans.mapOrphanBlocksByPrev ++ [(block.hashPrevBlock, block)] } }

/-- **Shelving a block** refuses its proof of stake, or is done; only the
walk to the root may come after. -/
theorem keepOrphanBlock_cases {pfrom : Bool} {r : Except Failure Unit}
    (h : keepOrphanBlock pfrom block s = (r, s')) :
    (∃ f, r = .error f ∧ s' = s) ∨
      s' = shelved block s ∧ ∀ f, r = .error f → f.isCrash = true := by
  rcases hs : keepStake block s with ⟨f | _, s₁⟩
  · rw [keepOrphanBlock, Step.bind_of_error hs] at h
    obtain ⟨rfl, rfl⟩ := Prod.mk.inj h
    refine .inl ⟨f, rfl, ?_⟩
    unfold keepStake at hs
    split_ifs at hs with hpos
    · rw [Step.get_bind] at hs
      rcases Step.lift_bind_eq_error.1 hs with ⟨-, rfl⟩ | ⟨_, -, hs⟩
      · rfl
      · exact absurd (Prod.mk.inj hs).1 (by simp)
    · exact absurd (Prod.mk.inj hs).1 (by simp)
  · have hs₁ : s₁ = { s with setStakeSeenOrphan :=
        if block.isProofOfStake then insert block.getProofOfStake s.setStakeSeenOrphan
        else s.setStakeSeenOrphan } := by
      unfold keepStake at hs
      split_ifs at hs ⊢ with hpos
      · rw [Step.get_bind] at hs
        obtain ⟨_, -, hs⟩ := Step.lift_bind_eq_ok.1 hs
        exact (Prod.mk.inj hs).2.symm
      · exact (Prod.mk.inj hs).2.symm
    rw [keepOrphanBlock, Step.bind_of_ok hs, Step.modify_bind, Step.get_bind] at h
    right
    split at h
    · split at h
      · obtain ⟨rfl, rfl⟩ := Prod.mk.inj h
        rw [hs₁]
        exact ⟨rfl, fun f hf => Except.error.inj hf ▸ rfl⟩
      · obtain ⟨rfl, rfl⟩ := Prod.mk.inj h
        rw [hs₁]
        exact ⟨rfl, fun f hf => absurd hf (by simp)⟩
    · obtain ⟨rfl, rfl⟩ := Prod.mk.inj h
      rw [hs₁]
      exact ⟨rfl, fun f hf => absurd hf (by simp)⟩

/-- **Accepting a block**: its own `AcceptBlock` fails, or the queue is
worked off. -/
theorem acceptAndFollow_cases {r : Except Failure Unit} (h : acceptAndFollow block s = (r, s')) :
    ∃ r₁ s₁, acceptBlock block s = (r₁, s₁) ∧
      ((∃ f, r₁ = .error f ∧ s' = noted block r₁ s₁) ∨
        r₁ = .ok () ∧ workQueue (s₁.orphans.mapOrphanBlocksByPrev.length + 1) [block.getHash]
          (noted block r₁ s₁) = (r, s')) := by
  rw [acceptAndFollow, Step.bind_of_ok attemptBlock_eq] at h
  rcases ha : acceptBlock block s with ⟨⟨f⟩ | ⟨⟨⟩⟩, s₁⟩ <;> simp only [ha] at h
  · obtain ⟨rfl, rfl⟩ := Prod.mk.inj h
    exact ⟨_, s₁, rfl, .inl ⟨f, rfl, rfl⟩⟩
  · exact ⟨_, s₁, rfl, .inr ⟨rfl, h⟩⟩

end CryptoBullion
