import CryptoBullion.Chain.Agreement
/-!
# Switching branches on a working disk

On a sound node whose disk answers, nothing a reorganisation does can fail
but `ConnectBlock` and `DisconnectBlock` themselves: the fork is found, the
two branches are walked, the blocks are read back and the batch is
committed. What the two functions answered is in the history, so a
reorganisation comes out as the history says it did.
-/

namespace CryptoBullion

variable {s s' : NodeState} {p q c pfork pindex pindexNew best : Uint256}
variable {fuel : ℕ} {l L Lp Lq : List Uint256}

/-! ## Finding the fork -/

/-- The longer branch is lowered to a block that still has the common
ancestor below it. -/
theorem lowerTo_spec {nHeight : ℤ} (hg : Graded s.pprev s.nHeight) (hl : Lineage s.pprev p L)
    (hc : c ∈ L) (hcn : s.nHeight c ≤ nHeight) (hfuel : (s.nHeight p).toNat < fuel) :
    ∃ q, lowerTo s nHeight fuel p = .ok q ∧ q ∈ L ∧ s.nHeight q ≤ nHeight ∧
      ∃ L', Lineage s.pprev q L' ∧ c ∈ L' := by
  induction fuel generalizing p L with
  | zero => exact absurd hfuel (Nat.not_lt_zero _)
  | succ fuel ih =>
    rw [lowerTo]
    split_ifs with hlow
    · cases hl with
      | root hp =>
        rw [List.mem_singleton.1 hc] at hcn
        omega
      | @step _ prev L₁ hp hl =>
        have hcl : c ∈ L₁ := by
          rcases List.mem_cons.1 hc with rfl | hc
          · omega
          · exact hc
        have hlt := hg.lt hp
        have hnn := hg.nonneg prev
        obtain ⟨q, hq, hqL, hqn, hL'⟩ := ih hl hcl (by omega)
        exact ⟨q, by simp only [hp, hq], List.mem_cons_of_mem _ hqL, hqn, hL'⟩
    · exact ⟨p, rfl, hl.self_mem, by omega, L, hl, hc⟩

/-- **Two branches with a common ancestor have a fork**, and it is found. -/
theorem findFork_spec (hg : Graded s.pprev s.nHeight) (hp : Lineage s.pprev p Lp)
    (hq : Lineage s.pprev q Lq) (hcp : c ∈ Lp) (hcq : c ∈ Lq)
    (hfuel : (s.nHeight p).toNat < fuel) :
    ∃ f, findFork s fuel p q = .ok f ∧ f ∈ Lp ∧ f ∈ Lq := by
  induction fuel generalizing p q Lp Lq with
  | zero => exact absurd hfuel (Nat.not_lt_zero _)
  | succ fuel ih =>
    rw [findFork]
    split_ifs with heq
    · exact ⟨p, rfl, hp.self_mem, heq ▸ hq.self_mem⟩
    have hch := hp.height_le hg hcp
    obtain ⟨q', hq', hq'L, hq'h, L', hL', hcL'⟩ :=
      lowerTo_spec hg hq hcq hch (Nat.lt_succ_self (s.nHeight q).toNat)
    have hwalk : s.walkFuel q = (s.nHeight q).toNat + 1 := rfl
    rw [hwalk, hq']
    change ∃ f, (if p = q' then _ else _) = _ ∧ _
    split_ifs with heq'
    · exact ⟨p, rfl, hp.self_mem, heq' ▸ hq'L⟩
    -- the fork lies below `p`, or `p` would have been met
    have hcne : c ≠ p := by
      rintro rfl
      have hle := hL'.height_le hg hcL'
      obtain ⟨t, rfl⟩ := hL'.exists_cons
      rcases List.mem_cons.1 hcL' with rfl | hct
      · exact heq' rfl
      · have := hL'.height_lt hg hct
        omega
    cases hp with
    | root hp => exact absurd (List.mem_singleton.1 hcp) hcne
    | @step _ prev L₁ hprev hp =>
      have hcL₁ : c ∈ L₁ := (List.mem_cons.1 hcp).resolve_left hcne
      have hlt := hg.lt hprev
      have hnn := hg.nonneg prev
      obtain ⟨f, hf, hfp, hfq⟩ := ih hp hL' hcL₁ hcL' (by omega)
      refine ⟨f, by simp only [hprev, hf], List.mem_cons_of_mem _ hfp, ?_⟩
      obtain ⟨pre, suf, rfl, hsuf⟩ := hq.exists_suffix hq'L
      rw [hsuf.unique hL']
      exact List.mem_append_right _ hfq

/-- A branch is walked down to any block on it. -/
theorem walkTo_ok (hg : Graded s.pprev s.nHeight) (hl : Lineage s.pprev p L) (hf : pfork ∈ L)
    (hfuel : (s.nHeight p).toNat < fuel) : ∃ l, walkTo s pfork fuel p = .ok l := by
  induction fuel generalizing p L with
  | zero => exact absurd hfuel (Nat.not_lt_zero _)
  | succ fuel ih =>
    rw [walkTo]
    split_ifs with heq
    · exact ⟨[], rfl⟩
    cases hl with
    | root _ => exact absurd (List.mem_singleton.1 hf).symm heq
    | @step _ prev L₁ hp hl =>
      have hlt := hg.lt hp
      have hnn := hg.nonneg prev
      obtain ⟨l, hl'⟩ := ih hl ((List.mem_cons.1 hf).resolve_left (Ne.symm heq)) (by omega)
      exact ⟨p :: l, by simp only [hp, hl']; rfl⟩

/-- **Splitting a branch** ends at a block of it. -/
theorem splitBranch_ok (bnBestTrust : ℕ) (hg : Graded s.pprev s.nHeight)
    (hfuel : (s.nHeight p).toNat < fuel) : ∃ r, splitBranch s bnBestTrust fuel p = .ok r := by
  induction fuel generalizing p with
  | zero => exact absurd hfuel (Nat.not_lt_zero _)
  | succ fuel ih =>
    rw [splitBranch]
    rcases hp : s.pprev p with _ | prev
    · exact ⟨_, rfl⟩
    · simp only
      split_ifs
      · have hlt := hg.lt hp
        have hnn := hg.nonneg prev
        obtain ⟨r, hr⟩ := ih (p := prev) (by omega)
        exact ⟨(r.1, p :: r.2), by rw [hr]; rfl⟩
      · exact ⟨_, rfl⟩

/-- Where nothing is postponed, it ends where it began. -/
theorem eq_of_splitBranch {bnBestTrust : ℕ} {r : Uint256 × List Uint256}
    (h : splitBranch s bnBestTrust fuel p = .ok r) (hr : r.2 = []) : r.1 = p := by
  cases fuel with
  | zero => exact absurd h (by simp [splitBranch])
  | succ fuel =>
    rw [splitBranch] at h
    split at h
    · obtain rfl := Except.ok.inj h
      rfl
    · split_ifs at h
      · obtain ⟨r', -, heq⟩ := except_bind_eq_ok.1 h
        obtain rfl := Except.ok.inj heq
        exact absurd hr (List.cons_ne_nil _ _)
      · obtain rfl := Except.ok.inj h
        rfl

/-- Where something is, it ends at a block that has more trust than asked
for. -/
theorem bnChainTrust_of_splitBranch {bnBestTrust : ℕ} {r : Uint256 × List Uint256}
    (h : splitBranch s bnBestTrust fuel p = .ok r) (hr : r.2 ≠ []) :
    bnBestTrust < s.bnChainTrust r.1 := by
  induction fuel generalizing p r with
  | zero => exact absurd h (by simp [splitBranch])
  | succ fuel ih =>
    rw [splitBranch] at h
    split at h
    · obtain rfl := Except.ok.inj h
      exact absurd rfl hr
    · split_ifs at h with htrust
      · obtain ⟨r', hr', heq⟩ := except_bind_eq_ok.1 h
        obtain rfl := Except.ok.inj heq
        by_cases hnil : r'.2 = []
        · rwa [eq_of_splitBranch hr' hnil]
        · have := ih hr' hnil
          exact this
      · obtain rfl := Except.ok.inj h
        exact absurd rfl hr

/-! ## A working disk -/

/-- From here on every write and every read succeeds. -/
def NodeState.Working (s : NodeState) : Prop :=
  ∀ n, (s.outside n).fDbOk = true ∧ ∀ nFile nPos, (s.outside n).fReadOk nFile nPos = true

theorem NodeState.Working.of_asked (hw : s.Working) (ha : Asked s s') : s'.Working := by
  obtain ⟨k, hk⟩ := ha
  intro n
  rw [hk]
  exact hw _

section Attempts

variable [P : Platform]
variable {block : CBlock} {msg : String} {g f : Failure} {x : Step NodeState Failure Unit}
variable {y : CBlock → Step NodeState Failure Unit} {e : Bool → Event}

/-- The stored proof-of-work blocks, the genesis block aside, have the work
their headers ask for: `CheckBlock` has seen to it before they were
stored. -/
def NodeState.Worked (s : NodeState) : Prop :=
  ∀ h block, s.Stores h block → s.pprev h ≠ none → block.isProofOfWork →
    checkProofOfWork block.getHash block.nBits = .ok ()

/-- What is needed to read the blocks of a branch back. -/
structure NodeState.Ready (s : NodeState) : Prop where
  forest : s.Forest
  filed : s.Filed
  worked : s.Worked
  working : s.Working

namespace NodeState.Ready

theorem of_sameTree (hr : s.Ready) (ht : SameTree s s')
    (hg : s'.pindexGenesisBlock = s.pindexGenesisBlock) (ha : Asked s s') : s'.Ready where
  forest := hr.forest.of_sameTree ht
  filed := hr.filed.of_sameTree ht hg
  worked h block hs hp := by
    rw [ht.pprev] at hp
    exact hr.worked h block ((Filed.stores_of_sameTree ht).1 hs) hp
  working := hr.working.of_asked ha

theorem of_tentative (hr : s.Ready) (ht : Tentative s s') : s'.Ready :=
  hr.of_sameTree ht.sameTree (by rw [ht.rest]) ht.asked

end NodeState.Ready

/-- **An entry's block can be read back.** -/
theorem readFromDisk_ok (msg : String) (hr : s.Ready) (hm : pindex ∈ s.mapBlockIndex)
    (hp : s.pprev pindex ≠ none) :
    ∃ block, s.Stores pindex block ∧ readFromDisk pindex msg s = (.ok block, s.ask.2) := by
  obtain ⟨block, hst, hhash, -⟩ := hr.filed.stored pindex hm
  refine ⟨block, hst, Prod.ext ?_ (readFromDisk_eq pindex msg s)⟩
  obtain ⟨b, hfind⟩ : ∃ b, s.blockFiles.find?
      (fun b => b.nFile = (s.entry pindex).nFile && b.nBlockPos = (s.entry pindex).nBlockPos) =
        some b := by
    rw [← Option.isSome_iff_exists, List.find?_isSome]
    exact ⟨_, hst.2, by simp⟩
  obtain rfl : b = ⟨(s.entry pindex).nFile, (s.entry pindex).nBlockPos, block⟩ := by
    have hpos := List.find?_some hfind
    simp only [Bool.and_eq_true, decide_eq_true_eq] at hpos
    exact hr.filed.eq_of_pos (List.mem_of_find?_eq_some hfind) hst.2 hpos.1 hpos.2
  have hopen : openBlockFile s.ask.1 (s.entry pindex).nFile (s.entry pindex).nBlockPos = true := by
    have h₁ := hr.filed.nFile_pos _ hst.2
    have h₂ := hr.filed.nFile_lt _ hst.2
    have h₃ : s.ask.1.fReadOk (s.entry pindex).nFile (s.entry pindex).nBlockPos = true :=
      (hr.working 0).2 _ _
    simp only [openBlockFile, h₃, Bool.and_true, Bool.and_eq_true, Bool.not_eq_true',
      decide_eq_false_iff_not, decide_eq_true_eq]
    exact ⟨not_lt.2 h₁, h₂.ne⟩
  have hread : readBlock s.blockFiles s.ask.1 (s.entry pindex).nFile (s.entry pindex).nBlockPos
      true = .ok block := by
    rw [readBlock, hopen, hfind]
    have hwork := hr.worked pindex block hst hp
    by_cases hpow : block.isProofOfWork = true
    · simp only [hpow, hwork hpow]
      rfl
    · simp only [hpow]
      rfl
  rw [readFromDisk, askOutside_bind, Step.get_bind, Step.lift_apply]
  change onFalse (do
    let block ← readBlock s.blockFiles s.ask.1 (s.entry pindex).nFile (s.entry pindex).nBlockPos true
    reject (block.getHash ≠ pindex)
      (.error "CBlock::ReadFromDisk() : GetHash() doesn't match index")
    .ok block) (.error msg) = .ok block
  rw [onFalse_eq_ok, hread]
  simp only [except_bind_eq_ok, reject_eq_ok, exists_const, not_not]
  exact ⟨block, rfl, hhash, rfl⟩

/-- Reading a block and trying something on it ends as the history says
the trial ended. -/
theorem attempt_spec (hr : s.Ready) (hm : pindex ∈ s.mapBlockIndex) (hp : s.pprev pindex ≠ none)
    {z : Step NodeState Failure CBlock}
    (hz : z = (readFromDisk pindex msg >>= fun block =>
      Step.mapError (·.orElse g) (logged e (y block)) >>= fun _ => pure block)) :
    (∃ b s', z s = (.ok b, s') ∧ e true ∈ s'.trace) ∨
      ∃ f s', z s = (.error f, s') ∧ e false ∈ s'.trace := by
  obtain ⟨block, -, hread⟩ := readFromDisk_ok msg hr hm hp
  subst hz
  rw [Step.bind_of_ok hread]
  rcases hy : y block s.ask.2 with ⟨f | u, s₁⟩
  · right
    have hlog : Step.mapError (·.orElse g) (logged e (y block)) s.ask.2 =
        (.error (f.orElse g), s₁.log (e false)) := by
      rw [Step.mapError_apply, logged, hy]
      rfl
    exact ⟨_, _, Step.bind_of_error hlog, List.mem_cons_self⟩
  · left
    have hlog : Step.mapError (·.orElse g) (logged e (y block)) s.ask.2 =
        (.ok (), s₁.log (e true)) := by
      rw [Step.mapError_apply, logged, hy]
      rfl
    exact ⟨_, _, Step.bind_of_ok hlog, List.mem_cons_self⟩

/-- **A branch's blocks are tried one after the other**, until one fails. -/
theorem collect_spec {z : Uint256 → Step NodeState Failure CBlock} {e : Uint256 → Bool → Event}
    (hz : ∀ {s pindex}, s.Ready → pindex ∈ s.mapBlockIndex → s.pprev pindex ≠ none →
      (∃ b s', z pindex s = (.ok b, s') ∧ e pindex true ∈ s'.trace) ∨
        ∃ f s', z pindex s = (.error f, s') ∧ e pindex false ∈ s'.trace)
    (hkeep : ∀ pindex, Step.Preserves Tentative (z pindex)) (hr : s.Ready)
    (hl : ∀ h ∈ l, h ∈ s.mapBlockIndex ∧ s.pprev h ≠ none) :
    (∃ bs s', Step.collect z l s = (.ok bs, s') ∧ ∀ h ∈ l, e h true ∈ s'.trace) ∨
      ∃ f s', Step.collect z l s = (.error f, s') ∧ ∃ h ∈ l, e h false ∈ s'.trace := by
  induction l generalizing s with
  | nil => exact .inl ⟨[], s, rfl, by simp⟩
  | cons pindex l ih =>
    obtain ⟨hm, hp⟩ := hl pindex List.mem_cons_self
    rw [Step.collect]
    rcases hz hr hm hp with ⟨b, s₁, hok, htrue⟩ | ⟨f, s₁, herr, hfalse⟩
    · have ht : Tentative s s₁ := by
        have := hkeep pindex s
        rwa [hok] at this
      have hl₁ : ∀ h ∈ l, h ∈ s₁.mapBlockIndex ∧ s₁.pprev h ≠ none := by
        intro h hh
        obtain ⟨hm, hp⟩ := hl h (List.mem_cons_of_mem _ hh)
        rw [ht.sameTree.mem_iff, ht.sameTree.pprev]
        exact ⟨hm, hp⟩
      rw [Step.bind_of_ok hok]
      have hgrow := (Step.Preserves.collect hkeep l s₁).smooth.trace
      rcases ih (hr.of_tentative ht) hl₁ with ⟨bs, s₂, hok₂, htrue₂⟩ | ⟨f, s₂, herr₂, h, hh, hfalse⟩
      · rw [hok₂] at hgrow
        rw [Step.bind_of_ok hok₂]
        refine .inl ⟨b :: bs, s₂, rfl, fun h hh => ?_⟩
        rcases List.mem_cons.1 hh with rfl | hh
        · exact hgrow.subset htrue
        · exact htrue₂ h hh
      · rw [Step.bind_of_error herr₂]
        exact .inr ⟨f, s₂, rfl, h, List.mem_cons_of_mem _ hh, hfalse⟩
    · rw [Step.bind_of_error herr]
      exact .inr ⟨f, s₁, rfl, pindex, List.mem_cons_self, hfalse⟩

theorem connectOne_spec (hr : s.Ready) (hm : pindex ∈ s.mapBlockIndex)
    (hp : s.pprev pindex ≠ none) :
    (∃ b s', connectOne pindex s = (.ok b, s') ∧ .connect pindex true ∈ s'.trace) ∨
      ∃ f s', connectOne pindex s = (.error f, s') ∧ .connect pindex false ∈ s'.trace :=
  attempt_spec (e := .connect pindex) (y := (connectBlock · pindex)) hr hm hp rfl

theorem disconnectOne_spec (hr : s.Ready) (hm : pindex ∈ s.mapBlockIndex)
    (hp : s.pprev pindex ≠ none) :
    (∃ b s', disconnectOne pindex s = (.ok b, s') ∧ .disconnect pindex true ∈ s'.trace) ∨
      ∃ f s', disconnectOne pindex s = (.error f, s') ∧ .disconnect pindex false ∈ s'.trace :=
  attempt_spec (e := .disconnect pindex) (y := (disconnectBlock · pindex)) hr hm hp rfl

omit [P : Platform] in
/-- A commit on a working disk succeeds. -/
theorem txnCommit_of_working (msg : String) (hw : s.Working) :
    txnCommit msg s = (.ok (), { s.ask.2 with txdb := s.txdb.commit }) := by
  have hok : s.ask.1.fDbOk = true := (hw 0).1
  rw [txnCommit, askOutside_bind, if_pos hok]
  rfl

/-- **A switch of branches ends as the history says**: with every block of
the new branch connected, or on one that was not, or on one of the old
branch that was not disconnected. -/
theorem switchBranch_spec (pindexNew : Uint256) (vDisconnect vConnect : List Uint256) (hr : s.Ready)
    (hd : ∀ h ∈ vDisconnect, h ∈ s.mapBlockIndex ∧ s.pprev h ≠ none)
    (hc : ∀ h ∈ vConnect, h ∈ s.mapBlockIndex ∧ s.pprev h ≠ none) :
    (∃ s', switchBranch pindexNew vDisconnect vConnect s = (.ok (), s') ∧
        ∀ h ∈ vConnect, .connect h true ∈ s'.trace) ∨
      ∃ f s', switchBranch pindexNew vDisconnect vConnect s = (.error f, s') ∧
        ((∃ h ∈ vConnect, .connect h false ∈ s'.trace) ∨ ∃ h, .disconnect h false ∈ s'.trace) := by
  rw [switchBranch]
  rcases collect_spec (e := .disconnect) disconnectOne_spec (fun _ => preserves_disconnectOne) hr hd with
    ⟨bs, s₁, hok, -⟩ | ⟨f, s₁, herr, h, -, hfalse⟩
  swap
  · rw [Step.bind_of_error herr]
    exact .inr ⟨f, s₁, rfl, .inr ⟨h, hfalse⟩⟩
  have ht : Tentative s s₁ := by
    have := preserves_disconnectAll (l := vDisconnect) s
    rwa [hok] at this
  have hr₁ := hr.of_tentative ht
  have hc₁ : ∀ h ∈ vConnect, h ∈ s₁.mapBlockIndex ∧ s₁.pprev h ≠ none := by
    intro h hh
    rw [ht.sameTree.mem_iff, ht.sameTree.pprev]
    exact hc h hh
  rw [Step.bind_of_ok hok]
  rcases collect_spec (e := .connect) connectOne_spec (fun _ => preserves_connectOne) hr₁ hc₁ with
    ⟨cs, s₂, hok₂, htrue⟩ | ⟨f, s₂, herr, h, hh, hfalse⟩
  swap
  · rw [Step.bind_of_error herr]
    exact .inr ⟨f, s₂, rfl, .inl ⟨h, hh, hfalse⟩⟩
  have ht₂ : Tentative s₁ s₂ := by
    have := preserves_connectAll (l := vConnect) s₁
    rwa [hok₂] at this
  -- nothing after the last connection can fail
  left
  rw [Step.bind_of_ok hok₂, onTxDb_modify_bind]
  have hw : NodeState.Working { s₂ with txdb := s₂.txdb.writeHashBestChain pindexNew } :=
    (hr₁.of_tentative ht₂).working
  rw [Step.bind_of_ok (txnCommit_of_working _ hw), Step.modify_bind]
  set s₃ := relink vDisconnect vConnect
    { ({ s₂ with txdb := s₂.txdb.writeHashBestChain pindexNew } : NodeState).ask.2 with
      txdb := (s₂.txdb.writeHashBestChain pindexNew).commit } with hs₃
  have ht₃ : SameTree _ s₃ := sameTree_relink
  have htrace : s₂.trace <:+ s₃.trace := ht₃.trace
  rcases hpool : Step.forEach acceptToMemoryPool (bs.flatMap fun b => b.vtx.filter fun tx =>
      !(tx.isCoinBase || tx.isCoinStake)) s₃ with ⟨f | u, s₄⟩
  · exact absurd hpool forEach_acceptToMemoryPool_ne_error
  · refine ⟨_, Step.bind_of_ok hpool, fun h hh => ?_⟩
    have h₄ := forEach_acceptToMemoryPool hpool
    have heq : (removeAll (cs.flatMap (·.vtx)) s₄).trace = s₃.trace := by
      rw [removeAll, h₄]
    exact heq ▸ htrace.subset (htrue h hh)

/-- **A reorganisation on a sound node with a working disk** fails on a
block that does not connect or disconnect, and on nothing else. -/
theorem reorganize_spec (hr : s.Ready) (hbest : s.pindexBest = some best)
    (hb : best ∈ s.mapBlockIndex) (hp : pindexNew ∈ s.mapBlockIndex) :
    ∃ pfork vDisconnect vConnect suf,
      Lineage s.pprev best (vDisconnect ++ pfork :: suf) ∧
      Lineage s.pprev pindexNew (vConnect ++ pfork :: suf) ∧
      ((∃ s', reorganize pindexNew s = (.ok (), s') ∧
          ∀ h ∈ vConnect, .connect h true ∈ s'.trace) ∨
        ∃ f s', reorganize pindexNew s = (.error f, s') ∧
          ((∃ h ∈ vConnect, .connect h false ∈ s'.trace) ∨
            ∃ h, .disconnect h false ∈ s'.trace)) := by
  obtain ⟨Lb, hLb⟩ := Lineage.exists_of_graded hr.forest.graded best
  obtain ⟨Ln, hLn⟩ := Lineage.exists_of_graded hr.forest.graded pindexNew
  -- both branches go down to the genesis block
  obtain ⟨r, hlast, hrb, -⟩ := hLb.exists_getLast
  have hrn : r ∈ Ln := by
    have hlast' := genesis_of_lineage hr.forest hr.filed hLn hp
    rw [← genesis_of_lineage hr.forest hr.filed hLb hb, hlast] at hlast'
    exact List.mem_of_getLast? hlast'
  have hfuel : ∀ p, (s.nHeight p).toNat < s.walkFuel p := fun p => Nat.lt_succ_self _
  obtain ⟨pfork, hfork, hfb, hfn⟩ := findFork_spec hr.forest.graded hLb hLn hrb hrn (hfuel best)
  obtain ⟨vDisconnect, hdis⟩ := walkTo_ok hr.forest.graded hLb hfb (hfuel best)
  obtain ⟨vConnect, hcon⟩ := walkTo_ok hr.forest.graded hLn hfn (hfuel pindexNew)
  obtain ⟨L, hL⟩ := Lineage.exists_of_graded hr.forest.graded pfork
  obtain ⟨suf, rfl⟩ := hL.exists_cons
  have hlb := lineage_of_walkTo hdis hL
  have hln := lineage_of_walkTo hcon hL
  have habove : ∀ {p l}, p ∈ s.mapBlockIndex → Lineage s.pprev p (l ++ pfork :: suf) →
      ∀ h ∈ l, h ∈ s.mapBlockIndex ∧ s.pprev h ≠ none := by
    intro p l hp hl h hh
    exact ⟨hr.forest.mem_of_lineage hl hp h (List.mem_append_left _ hh), hl.parent_ne_none hh⟩
  refine ⟨pfork, vDisconnect, vConnect, suf, hlb, hln, ?_⟩
  have heq : reorganize pindexNew s = switchBranch pindexNew vDisconnect vConnect.reverse s := by
    rw [reorganize, Step.get_bind]
    simp only [hbest, hfork, hdis, hcon, Step.lift_ok_bind]
  rw [heq]
  have hspec := switchBranch_spec pindexNew vDisconnect vConnect.reverse hr
    (habove hb hlb) (fun h hh => habove hp hln h (List.mem_reverse.1 hh))
  simpa only [List.mem_reverse] using hspec

omit [P : Platform] in
/-- Giving up on a block adds nothing to the history. -/
theorem orInvalid_of_error (pindexNew : Uint256) (g : Failure) {s₁ : NodeState}
    (h : x s = (.error f, s₁)) :
    ∃ f' s', orInvalid pindexNew g x s = (.error f', s') ∧ s₁.trace <:+ s'.trace := by
  rw [orInvalid, Step.attempt_bind, h]
  by_cases hf : f.returnsFalse
  · simp only [hf, if_true]
    rw [txnAbort, onTxDb_modify_bind]
    have hgrow := (unmoved_invalidChainFound pindexNew { s₁ with txdb := s₁.txdb.abort }).smooth.trace
    rcases hinv : invalidChainFound pindexNew { s₁ with txdb := s₁.txdb.abort } with ⟨f' | u, s'⟩ <;>
      rw [hinv] at hgrow
    · exact ⟨f', s', Step.bind_of_error hinv, hgrow⟩
    · exact ⟨g, s', Step.bind_of_ok hinv, hgrow⟩
  · simp only [hf]
    exact ⟨f, s₁, rfl, List.suffix_rfl⟩

omit [P : Platform] in
theorem orInvalid_of_ok (pindexNew : Uint256) (g : Failure) (h : x s = (.ok (), s')) :
    orInvalid pindexNew g x s = (.ok (), s') := by
  rw [orInvalid, Step.attempt_bind, h]
  rfl

/-- **An extension on a working disk** fails exactly when the block does
not connect. -/
theorem setBestChainInner_spec (block : CBlock) (hw : s.Working)
    (hp : s.pprev pindexNew ≠ none) :
    (∃ s', setBestChainInner block pindexNew s = (.ok (), s') ∧
        .connect pindexNew true ∈ s'.trace) ∨
      ∃ f s', setBestChainInner block pindexNew s = (.error f, s') ∧
        .connect pindexNew false ∈ s'.trace := by
  rw [setBestChainInner]
  rcases hc : connectBlock block pindexNew s with ⟨f | u, s₁⟩
  · right
    have hlog : logged (.connect pindexNew) (connectBlock block pindexNew) s =
        (.error f, s₁.log (.connect pindexNew false)) := by
      rw [logged, hc]
      rfl
    obtain ⟨f', s', herr, hgrow⟩ := orInvalid_of_error pindexNew .quiet (Step.bind_of_error hlog)
    exact ⟨f', s', Step.bind_of_error herr, hgrow.subset List.mem_cons_self⟩
  · left
    have hlog : logged (.connect pindexNew) (connectBlock block pindexNew) s =
        (.ok (), s₁.log (.connect pindexNew true)) := by
      rw [logged, hc]
      rfl
    obtain ⟨s₂, hs₂⟩ : ∃ s₂, s₂ = { s₁.log (.connect pindexNew true) with
      txdb := CTxDB.writeHashBestChain s₁.txdb block.getHash } := ⟨_, rfl⟩
    have hx : (logged (.connect pindexNew) (connectBlock block pindexNew) >>= fun _ =>
        onTxDb (Step.modify (CTxDB.writeHashBestChain · block.getHash))) s = (.ok (), s₂) := by
      rw [Step.bind_of_ok hlog, hs₂]
      rfl
    have htent : Tentative s s₂ := by
      have := tentative_extend block pindexNew s
      rwa [hx] at this
    obtain ⟨prev, hprev⟩ : ∃ prev, s₂.ask.2.pprev pindexNew = some prev := by
      obtain ⟨prev, hprev⟩ := Option.ne_none_iff_exists'.1 hp
      exact ⟨prev, (congrFun htent.sameTree.pprev _).trans hprev⟩
    have hcommit := txnCommit_of_working "SetBestChain() : TxnCommit failed"
      (hw.of_asked htent.asked)
    rw [Step.bind_of_ok (orInvalid_of_ok pindexNew .quiet hx), Step.bind_of_ok hcommit,
      Step.get_bind]
    set s₃ : NodeState := { s₂.ask.2 with txdb := s₂.txdb.commit } with hs₃
    have hprev₃ : s₃.pprev pindexNew = some prev := hprev
    have hgrow : SameTree s₃ (linkNext (some pindexNew) pindexNew s₃) := sameTree_linkNext
    have hmem : .connect pindexNew true ∈ s₃.trace := by
      rw [hs₃, hs₂]
      exact List.mem_cons_self
    simp only [hprev₃, Step.modify_bind, Step.modify_apply]
    exact ⟨_, rfl, hgrow.trace.subset hmem⟩

end Attempts

end CryptoBullion
