import CryptoBullion.Miner.Scan
/-!
# The memory a template is built in

`CreateNewBlock` reads `vtx[1]` for a proof-of-stake block, which has no
second transaction yet, and follows the pointers the scan entered in
`mapDependers`. The first goes wrong for the first candidate that gets as
far as the time limit; the second where a parent is added under which a
transaction was entered that turned out to miss an input. Nothing else
does: the selection always comes to its end.
-/

namespace CryptoBullion

variable [P : Platform]

/-! ## Pointers followed -/

/-- The nodes of the list that still wait for something. -/
def Selection.waitingNodes (sel : Selection) : Finset ℕ :=
  sel.vOrphan.keys.toFinset.filter fun a =>
    ((sel.vOrphan[a]?).map (·.setDependsOn)).getD ∅ ≠ ∅

/-- What bounds the turns still to come: each takes a candidate off the
queue, and a node gets onto it once. -/
def Selection.turns (sel : Selection) : ℕ := sel.vecPriority.length + sel.waitingNodes.card

omit [P : Platform] in
theorem mem_waitingNodes {sel : Selection} {a : ℕ} :
    a ∈ sel.waitingNodes ↔ ∃ o, sel.vOrphan[a]? = some o ∧ o.setDependsOn ≠ ∅ := by
  rw [Selection.waitingNodes, Finset.mem_filter, List.mem_toFinset, Std.ExtTreeMap.mem_keys,
    Std.ExtTreeMap.mem_iff_isSome_getElem?]
  cases sel.vOrphan[a]? with
  | none => simp
  | some o => simp

/-- A candidate is one of those that can be asked. -/
structure Selection.Good (sel : Selection) : Prop where
  waiting : ∀ (a : ℕ) (o : COrphan), sel.vOrphan[a]? = some o → Summable o.candidate.tx
  queued : ∀ p ∈ sel.vecPriority, Summable p.tx

/-- What following pointers leaves as it was. -/
structure Selection.SameBlock (sel sel' : Selection) : Prop where
  vtx : sel'.vtx = sel.vtx
  nOutOfRange : sel'.nOutOfRange = sel.nOutOfRange
  nodes : ∀ a, sel'.vOrphan.contains a = sel.vOrphan.contains a

variable {hash : Uint256} {sel sel' : Selection}

omit [P : Platform] in
/-- Waking one node: the list keeps its nodes, and no turn is added. -/
theorem Selection.Good.wake {a : ℕ} {o : COrphan} (hg : sel.Good)
    (ho : sel.vOrphan[a]? = some o) (hwaits : o.setDependsOn ≠ ∅) (rest : Finset Uint256)
    (hsel' : sel' = { sel with
      vOrphan := sel.vOrphan.insert a { o with setDependsOn := rest }
      vecPriority := if rest = ∅ then sel.vecPriority ++ [o.candidate] else sel.vecPriority }) :
    sel.SameBlock sel' ∧ sel'.Good ∧ sel'.turns ≤ sel.turns := by
  have hget : ∀ b, sel'.vOrphan[b]? =
      if a = b then some { o with setDependsOn := rest } else sel.vOrphan[b]? := by
    intro b
    rw [hsel', Std.ExtTreeMap.getElem?_insert]
    simp only [Std.compare_eq_iff_eq]
  refine ⟨⟨by rw [hsel'], by rw [hsel'], fun b => ?_⟩, ⟨fun b o' ho' => ?_, fun p hp => ?_⟩, ?_⟩
  · rw [Std.ExtTreeMap.contains_eq_isSome_getElem?, hget, Std.ExtTreeMap.contains_eq_isSome_getElem?]
    split_ifs with hab
    · rw [← hab, ho]
      rfl
    · rfl
  · rw [hget] at ho'
    split_ifs at ho'
    · obtain rfl := Option.some.inj ho'
      exact hg.waiting a o ho
    · exact hg.waiting b o' ho'
  · rw [hsel'] at hp
    dsimp only at hp
    split_ifs at hp
    · rcases List.mem_append.1 hp with hp | hp
      · exact hg.queued p hp
      · obtain rfl := List.mem_singleton.1 hp
        exact hg.waiting a o ho
    · exact hg.queued p hp
  · have hmem : a ∈ sel.waitingNodes := mem_waitingNodes.2 ⟨o, ho, hwaits⟩
    by_cases hrest : rest = ∅
    · -- the node stops waiting as its candidate joins the queue
      have hsub : sel'.waitingNodes ⊆ sel.waitingNodes.erase a := by
        intro b hb
        obtain ⟨o', ho', hne⟩ := mem_waitingNodes.1 hb
        rw [hget] at ho'
        split_ifs at ho' with hab
        · obtain rfl := Option.some.inj ho'
          exact absurd hrest hne
        · exact Finset.mem_erase.2 ⟨Ne.symm hab, mem_waitingNodes.2 ⟨o', ho', hne⟩⟩
      have hcard := Finset.card_le_card hsub
      rw [Finset.card_erase_of_mem hmem] at hcard
      have hpos := Finset.card_pos.2 ⟨a, hmem⟩
      have hlen : sel'.vecPriority.length = sel.vecPriority.length + 1 := by
        rw [hsel']
        simp [hrest]
      unfold Selection.turns
      omega
    · have hsub : sel'.waitingNodes ⊆ sel.waitingNodes := by
        intro b hb
        obtain ⟨o', ho', hne⟩ := mem_waitingNodes.1 hb
        rw [hget] at ho'
        split_ifs at ho' with hab
        · exact hab ▸ hmem
        · exact mem_waitingNodes.2 ⟨o', ho', hne⟩
      have hcard := Finset.card_le_card hsub
      have hlen : sel'.vecPriority.length = sel.vecPriority.length := by
        rw [hsel']
        simp [hrest]
      unfold Selection.turns
      omega

omit [P : Platform] in
theorem Selection.SameBlock.trans {sel sel₁ sel₂ : Selection} (h : sel.SameBlock sel₁)
    (h' : sel₁.SameBlock sel₂) : sel.SameBlock sel₂ where
  vtx := h'.vtx.trans h.vtx
  nOutOfRange := h'.nOutOfRange.trans h.nOutOfRange
  nodes a := (h'.nodes a).trans (h.nodes a)

omit [P : Platform] in
/-- **Good pointers can be followed**, and cost nothing in turns. -/
theorem exists_wakeDependers : ∀ {addresses : List ℕ} {sel : Selection}, sel.Good →
    (∀ a ∈ addresses, sel.vOrphan.contains a = true) →
      ∃ sel', wakeDependers hash addresses sel = .ok sel' ∧ sel.SameBlock sel' ∧ sel'.Good ∧
        sel'.turns ≤ sel.turns
  | [], sel, hg, _ => ⟨sel, rfl, ⟨rfl, rfl, fun _ => rfl⟩, hg, le_rfl⟩
  | a :: addresses, sel, hg, hlive => by
    have ha := hlive a List.mem_cons_self
    rw [Std.ExtTreeMap.contains_eq_isSome_getElem?, Option.isSome_iff_exists] at ha
    obtain ⟨o, ho⟩ := ha
    have hrest := fun b hb => hlive b (List.mem_cons_of_mem a hb)
    rw [wakeDependers, ho]
    dsimp only
    by_cases hwaits : o.setDependsOn = ∅
    · rw [if_pos hwaits]
      exact exists_wakeDependers hg hrest
    · rw [if_neg hwaits]
      obtain ⟨hsame, hg₁, hturns⟩ := hg.wake ho hwaits (o.setDependsOn.erase hash) rfl
      obtain ⟨sel', h, hsame', hg', hturns'⟩ := exists_wakeDependers hg₁
        (fun b hb => by rw [hsame.nodes]; exact hrest b hb)
      exact ⟨sel', h, hsame.trans hsame', hg', hturns'.trans hturns⟩

omit [P : Platform] in
/-- **A stale one is the end.** -/
theorem wakeDependers_stale : ∀ {addresses : List ℕ} {sel : Selection},
    (∃ a ∈ addresses, sel.vOrphan.contains a = false) →
      wakeDependers hash addresses sel = .error (.crash "porphan")
  | [], sel, h => absurd h (by simp)
  | a :: addresses, sel, h => by
    rw [wakeDependers]
    cases ho : sel.vOrphan[a]? with
    | none => rfl
    | some o =>
      have hrest : ∃ b ∈ addresses, sel.vOrphan.contains b = false := by
        obtain ⟨b, hb, hnot⟩ := h
        rcases List.mem_cons.1 hb with rfl | hb
        · rw [Std.ExtTreeMap.contains_eq_isSome_getElem?, ho] at hnot
          exact absurd hnot (by simp)
        · exact ⟨b, hb, hnot⟩
      dsimp only
      by_cases hwaits : o.setDependsOn = ∅
      · rw [if_pos hwaits]
        exact wakeDependers_stale hrest
      · rw [if_neg hwaits]
        refine wakeDependers_stale ?_
        obtain ⟨b, hb, hnot⟩ := hrest
        refine ⟨b, hb, ?_⟩
        rw [Std.ExtTreeMap.contains_insert, hnot, Bool.or_false]
        by_contra hc
        have hab : a = b := by simpa using hc
        subst hab
        rw [Std.ExtTreeMap.contains_eq_isSome_getElem?, ho] at hnot
        exact absurd hnot (by simp)

/-! ## One candidate -/

section Select

variable {c : MinerContext} {p : TxPriority}

/-- What became of a candidate, apart from the pointers: `sel₁` is the
block after it was skipped, or taken. -/
structure Skipped (c : MinerContext) (sel : Selection) (p : TxPriority) (sel₁ : Selection) :
    Prop where
  vtx : sel₁.vtx = sel.vtx
  nBlockSize : sel₁.nBlockSize = sel.nBlockSize
  nBlockSigOps : sel₁.nBlockSigOps = sel.nBlockSigOps
  run : ∀ mapDependers, selectTx { c with mapDependers := mapDependers } sel p = .ok sel₁

structure Taken (c : MinerContext) (sel : Selection) (p : TxPriority) (sel₁ : Selection) :
    Prop where
  vtx : sel₁.vtx = sel.vtx ++ [p.tx]
  fits : c.passesOver sel p = false
  inTime : c.tooLate sel p.tx = false
  run : ∀ mapDependers, selectTx { c with mapDependers := mapDependers } sel p =
    wakeDependers p.tx.getHash ((mapDependers[p.tx.getHash]?).getD []) sel₁

/-- **A candidate is skipped or taken**, whatever `mapDependers` holds. -/
theorem skipped_or_taken (c : MinerContext) (sel : Selection) (hsum : Summable p.tx) :
    ∃ sel₁ : Selection, sel₁.vecPriority = sel.vecPriority ∧ sel₁.vOrphan = sel.vOrphan ∧
      sel₁.nOutOfRange = sel.nOutOfRange +
        (if c.passesOver sel p = false ∧ c.readsPastEnd sel p.tx = true then 1 else 0) ∧
      (Skipped c sel p sel₁ ∨ Taken c sel p sel₁) := by
  cases hover : c.passesOver sel p with
  | true =>
    refine ⟨sel, rfl, rfl, by simp, .inl ⟨rfl, rfl, rfl, fun mapDependers => ?_⟩⟩
    exact if_pos hover
  | false =>
    simp only [true_and]
    set n := sel.nOutOfRange + if c.readsPastEnd sel p.tx = true then 1 else 0 with hn
    have hfits : ¬ c.passesOver sel p = true := ne_true_of_eq_false hover
    cases hlate : c.tooLate sel p.tx with
    | true =>
      refine ⟨{ sel with nOutOfRange := n }, rfl, rfl, rfl, .inl ⟨rfl, rfl, rfl, fun md => ?_⟩⟩
      unfold selectTx
      rw [if_neg (by exact hfits)]
      exact if_pos hlate
    | false =>
      have hintime : ¬ c.tooLate sel p.tx = true := ne_true_of_eq_false hlate
      by_cases hfree : (sel.fSortedByFee && c.order.feeBelow p c.args.nMinTxFee &&
          decide (c.args.nBlockMinSize ≤ sel.nBlockSize + p.tx.getSerializeSize)) = true
      · refine ⟨{ sel with nOutOfRange := n }, rfl, rfl, rfl, .inl ⟨rfl, rfl, rfl, fun md => ?_⟩⟩
        unfold selectTx
        rw [if_neg (by exact hfits)]
        dsimp only
        rw [if_neg (by exact hintime)]
        exact if_pos hfree
      · set sel₂ : Selection :=
          { sel with nOutOfRange := n, fSortedByFee := c.sortsByFee { sel with nOutOfRange := n } p }
          with hsel₂
        obtain ⟨r, hr⟩ := exists_tryConnect c sel₂
          (p.tx.getMinFee sel.nBlockSize false) hsum.1 hsum.2
        cases r with
        | none =>
          refine ⟨sel₂, rfl, rfl, rfl, .inl ⟨rfl, rfl, rfl, fun md => ?_⟩⟩
          have hr' : tryConnect { c with mapDependers := md } sel₂ p.tx
              (p.tx.getMinFee sel.nBlockSize false) = .ok none := hr
          unfold selectTx
          rw [if_neg (by exact hfits)]
          dsimp only
          rw [if_neg (by exact hintime), if_neg (by exact hfree)]
          exact (congrArg (· >>= _) hr').trans rfl
        | some r =>
          obtain ⟨nTxFees, nTxSigOps, mapTestPool⟩ := r
          refine ⟨{ sel₂ with
            vtx := sel₂.vtx ++ [p.tx]
            mapTestPool := mapTestPool
            nBlockSize := sel₂.nBlockSize + p.tx.getSerializeSize
            nBlockSigOps := sel₂.nBlockSigOps + nTxSigOps
            nFees := sel₂.nFees + nTxFees }, rfl, rfl, rfl, .inr ⟨rfl, hover, hlate, fun md => ?_⟩⟩
          have hr' : tryConnect { c with mapDependers := md } sel₂ p.tx
              (p.tx.getMinFee sel.nBlockSize false) =
                .ok (some (nTxFees, nTxSigOps, mapTestPool)) := hr
          unfold selectTx
          rw [if_neg (by exact hfits)]
          dsimp only
          rw [if_neg (by exact hintime), if_neg (by exact hfree)]
          exact (congrArg (· >>= _) hr').trans rfl

/-- What a turn leaves out of `mapDependers` when it is to be safe. -/
def MinerContext.dependers (c : MinerContext) (hash : Uint256) : List ℕ :=
  (c.mapDependers[hash]?).getD []

/-- The block with one candidate less on its queue. -/
def Selection.without (sel : Selection) (i : ℕ) : Selection :=
  { sel with vecPriority := sel.vecPriority.eraseIdx i }

omit [P : Platform] in
theorem Selection.turns_without {i : ℕ} (hp : sel.vecPriority[i]? = some p) :
    (sel.without i).turns + 1 = sel.turns := by
  have hi := (List.getElem?_eq_some_iff.1 hp).1
  have hlen : (sel.without i).vecPriority.length = sel.vecPriority.length - 1 :=
    List.length_eraseIdx_of_lt hi
  have hwait : (sel.without i).waitingNodes = sel.waitingNodes := rfl
  rw [Selection.turns, Selection.turns, hlen, hwait]
  omega

omit [P : Platform] in
theorem Selection.Good.of_sub (hg : sel.Good) (horphan : sel'.vOrphan = sel.vOrphan)
    (hqueue : ∀ p ∈ sel'.vecPriority, p ∈ sel.vecPriority) : sel'.Good where
  waiting := by
    rw [horphan]
    exact hg.waiting
  queued p hp := hg.queued p (hqueue p hp)

/-- The first read of `vtx[1]` is made past the end. -/
def MinerContext.early (c : MinerContext) (sel : Selection) (p : TxPriority) : Bool :=
  !c.passesOver sel p && c.readsPastEnd sel p.tx

/-- A whole turn of the selection, with `live` for the entries of
`mapDependers` that are not stale: what it does to the block and what
becomes of it with the stale ones. -/
structure Turn (c : MinerContext) (nodes : ℕ → Bool) (sel : Selection) (i : ℕ) (p : TxPriority)
    (sel₂ : Selection) : Prop where
  good : sel₂.Good
  nodes_eq : ∀ a, sel₂.vOrphan.contains a = nodes a
  turns_lt : sel₂.turns < sel.turns
  nOutOfRange : sel₂.nOutOfRange = sel.nOutOfRange + if c.early sel p then 1 else 0
  cases :
    (sel₂.vtx = sel.vtx ∧ (∀ q, c.early sel₂ q = c.early sel q) ∧
      sel₂.vecPriority = sel.vecPriority.eraseIdx i ∧ selectTx c (sel.without i) p = .ok sel₂) ∨
    (sel₂.vtx = sel.vtx ++ [p.tx] ∧
      (c.fProofOfStake = true → sel.vtx.length ≤ 1 → c.early sel p = true) ∧
      ((∀ a ∈ c.dependers p.tx.getHash, nodes a = true) →
        selectTx c (sel.without i) p = .ok sel₂) ∧
      ((∃ a ∈ c.dependers p.tx.getHash, nodes a = false) →
        selectTx c (sel.without i) p = .error (.crash "porphan")))

variable {nodes : ℕ → Bool} {live : Map Uint256 (List ℕ)}

/-- **Every turn can be made** with the live entries. -/
theorem exists_turn (hlive : ∀ hash, (live[hash]?).getD [] = (c.dependers hash).filter nodes)
    (hg : sel.Good) (hnodes : ∀ a, sel.vOrphan.contains a = nodes a) {i : ℕ}
    (hp : sel.vecPriority[i]? = some p) :
    ∃ sel₂, selectTx { c with mapDependers := live } (sel.without i) p = .ok sel₂ ∧
      Turn c nodes sel i p sel₂ := by
  have hturns := Selection.turns_without hp
  have hsum : Summable p.tx := hg.queued p (List.mem_of_getElem? hp)
  have hgpop : (sel.without i).Good := hg.of_sub rfl fun q hq => List.mem_of_mem_eraseIdx hq
  obtain ⟨sel₁, hqueue, horphan, hcount, hcase⟩ := skipped_or_taken c (sel.without i) hsum
  have hgood₁ : sel₁.Good := hgpop.of_sub horphan (by rw [hqueue]; exact fun _ h => h)
  have hnodes₁ : ∀ a, sel₁.vOrphan.contains a = nodes a := by
    intro a
    rw [horphan]
    exact hnodes a
  have hturns₁ : sel₁.turns = (sel.without i).turns := by
    rw [Selection.turns, Selection.turns, Selection.waitingNodes, Selection.waitingNodes,
      hqueue, horphan]
  have hcount₁ : sel₁.nOutOfRange = sel.nOutOfRange + if c.early sel p then 1 else 0 := by
    rw [hcount]
    have hover : c.passesOver (sel.without i) p = c.passesOver sel p := rfl
    have hreads : c.readsPastEnd (sel.without i) p.tx = c.readsPastEnd sel p.tx := rfl
    have hn : (sel.without i).nOutOfRange = sel.nOutOfRange := rfl
    rw [hover, hreads, hn, MinerContext.early]
    cases c.passesOver sel p <;> simp
  rcases hcase with hskip | htake
  · refine ⟨sel₁, hskip.run live, hgood₁, hnodes₁, by omega, hcount₁, .inl ⟨hskip.vtx, ?_, hqueue,
      hskip.run c.mapDependers⟩⟩
    intro q
    have hvtx : sel₁.vtx = sel.vtx := hskip.vtx
    have hsize : sel₁.nBlockSize = sel.nBlockSize := hskip.nBlockSize
    have hsigops : sel₁.nBlockSigOps = sel.nBlockSigOps := hskip.nBlockSigOps
    rw [MinerContext.early, MinerContext.early, MinerContext.passesOver, MinerContext.passesOver,
      MinerContext.readsPastEnd, MinerContext.readsPastEnd, hvtx, hsize, hsigops]
  · have hrun : selectTx c (sel.without i) p =
        wakeDependers p.tx.getHash (c.dependers p.tx.getHash) sel₁ := htake.run c.mapDependers
    obtain ⟨sel₂, hwake, hsame, hgood₂, hturns₂⟩ :
        ∃ sel₂, wakeDependers p.tx.getHash ((c.dependers p.tx.getHash).filter nodes) sel₁ =
          .ok sel₂ ∧ sel₁.SameBlock sel₂ ∧ sel₂.Good ∧ sel₂.turns ≤ sel₁.turns :=
      exists_wakeDependers hgood₁ fun a ha => by
        rw [hnodes₁]
        exact (List.mem_filter.1 ha).2
    refine ⟨sel₂, by rw [htake.run live, hlive, hwake], hgood₂,
      fun a => (hsame.nodes a).trans (hnodes₁ a), by omega, by rw [hsame.nOutOfRange, hcount₁],
      .inr ⟨by rw [hsame.vtx, htake.vtx]; rfl, ?_, ?_, ?_⟩⟩
    · intro hstake hlen
      have hfits : c.passesOver sel p = false := htake.fits
      have hintime : c.tooLate (sel.without i) p.tx = false := htake.inTime
      rw [MinerContext.tooLate, Bool.or_eq_false_iff] at hintime
      rw [MinerContext.early, hfits, MinerContext.readsPastEnd, hintime.1, hstake]
      simpa using hlen
    · intro hgood
      rw [hrun, ← hwake, List.filter_eq_self.2 hgood]
    · rintro ⟨a, ha, hnot⟩
      rw [hrun, wakeDependers_stale ⟨a, ha, (hnodes₁ a).trans hnot⟩]

/-- The front of the queue, and what the selection makes of it. -/
theorem selectTxs_succ (c : MinerContext) (fuel : ℕ) (sel : Selection) :
    ∃ i, (sel.vecPriority[i]? = none → sel.vecPriority = []) ∧
      ∀ md, selectTxs { c with mapDependers := md } (fuel + 1) sel =
        match sel.vecPriority[i]? with
        | none => .ok sel
        | some p => selectTx { c with mapDependers := md } (sel.without i) p >>=
            selectTxs { c with mapDependers := md } fuel := by
  refine ⟨c.order.front sel.fSortedByFee sel.vecPriority % sel.vecPriority.length, ?_, fun _ => rfl⟩
  intro h
  rw [List.getElem?_eq_none_iff] at h
  by_contra hne
  exact absurd (Nat.mod_lt _ (List.length_pos_of_ne_nil hne)) (not_lt.2 h)

/-- **The selection comes to its end**, unless it takes a parent under
which something stale was entered. `live` is the same selection with the
stale entries left out. -/
theorem selectTxs_spec
    (hlive : ∀ hash, (live[hash]?).getD [] = (c.dependers hash).filter nodes) :
    ∀ {fuel : ℕ} {sel : Selection}, sel.Good → (∀ a, sel.vOrphan.contains a = nodes a) →
      sel.turns < fuel →
      ∃ sel' taken, selectTxs { c with mapDependers := live } fuel sel = .ok sel' ∧
        sel'.vtx = sel.vtx ++ taken ∧ sel.nOutOfRange ≤ sel'.nOutOfRange ∧
        ((∀ tx ∈ taken, ∀ a ∈ c.dependers tx.getHash, nodes a = true) ∧
            selectTxs c fuel sel = .ok sel' ∨
          (∃ tx ∈ taken, ∃ a ∈ c.dependers tx.getHash, nodes a = false) ∧
            selectTxs c fuel sel = .error (.crash "porphan")) := by
  intro fuel
  induction fuel with
  | zero => exact fun _ _ hlt => absurd hlt (Nat.not_lt_zero _)
  | succ fuel ih =>
    intro sel hg hnodes hlt
    obtain ⟨i, -, hstep⟩ := selectTxs_succ c fuel sel
    rw [hstep live, show selectTxs c (fuel + 1) sel = _ from hstep c.mapDependers]
    cases hp : sel.vecPriority[i]? with
    | none => exact ⟨sel, [], rfl, by simp, le_rfl, .inl ⟨by simp, rfl⟩⟩
    | some p =>
      obtain ⟨sel₂, hrun, ht⟩ := exists_turn hlive hg hnodes hp
      have hlt₂ : sel₂.turns < fuel := lt_of_lt_of_le ht.turns_lt (Nat.le_of_lt_succ hlt)
      obtain ⟨sel', taken, hrest, hvtx, hle, hres⟩ := ih ht.good ht.nodes_eq hlt₂
      have hmono : sel.nOutOfRange ≤ sel'.nOutOfRange := by
        have := ht.nOutOfRange
        omega
      dsimp only
      rw [hrun, except_ok_bind]
      rcases ht.cases with ⟨hsame, -, -, hc⟩ | ⟨htook, -, hgood, hstale⟩
      · exact ⟨sel', taken, hrest, by rw [hvtx, hsame], hmono, by rw [hc, except_ok_bind]; exact hres⟩
      · refine ⟨sel', p.tx :: taken, hrest, ?_, hmono, ?_⟩
        · rw [hvtx, htook, List.append_assoc]
          rfl
        by_cases hall : ∀ a ∈ c.dependers p.tx.getHash, nodes a = true
        · rw [hgood hall, except_ok_bind]
          rcases hres with ⟨hrest', hc⟩ | ⟨⟨tx, htx, hst⟩, hc⟩
          · exact .inl ⟨List.forall_mem_cons.2 ⟨hall, hrest'⟩, hc⟩
          · exact .inr ⟨⟨tx, List.mem_cons_of_mem _ htx, hst⟩, hc⟩
        · obtain ⟨a, ha, hnot⟩ : ∃ a ∈ c.dependers p.tx.getHash, nodes a = false := by
            by_contra hno
            refine hall fun a ha => ?_
            by_contra hn
            exact hno ⟨a, ha, Bool.eq_false_iff.2 hn⟩
          exact .inr ⟨⟨p.tx, List.mem_cons_self, a, ha, hnot⟩,
            by rw [hstale ⟨a, ha, hnot⟩, except_error_bind]⟩

/-- **`vtx[1]` is read past the end** by a proof-of-stake template for the
first candidate to get that far, and by nothing else. -/
theorem nOutOfRange_selectTxs
    (hlive : ∀ hash, (live[hash]?).getD [] = (c.dependers hash).filter nodes) :
    ∀ {fuel : ℕ} {sel sel' : Selection}, sel.Good → (∀ a, sel.vOrphan.contains a = nodes a) →
      sel.turns < fuel → selectTxs { c with mapDependers := live } fuel sel = .ok sel' →
        (c.fProofOfStake = false → sel'.nOutOfRange = sel.nOutOfRange) ∧
        (c.fProofOfStake = true → sel.vtx.length ≤ 1 →
          (sel'.nOutOfRange = sel.nOutOfRange ↔ ∀ p ∈ sel.vecPriority, c.early sel p = false)) := by
  intro fuel
  induction fuel with
  | zero => exact fun _ _ hlt => absurd hlt (Nat.not_lt_zero _)
  | succ fuel ih =>
    intro sel sel' hg hnodes hlt h
    obtain ⟨i, hempty, hstep⟩ := selectTxs_succ c fuel sel
    rw [hstep live] at h
    cases hp : sel.vecPriority[i]? with
    | none =>
      rw [hp] at h
      obtain rfl := Except.ok.inj h
      refine ⟨fun _ => rfl, fun _ _ => iff_of_true rfl ?_⟩
      rw [hempty hp]
      simp
    | some p =>
      obtain ⟨sel₂, hrun, ht⟩ := exists_turn hlive hg hnodes hp
      have hlt₂ : sel₂.turns < fuel := lt_of_lt_of_le ht.turns_lt (Nat.le_of_lt_succ hlt)
      rw [hp] at h
      dsimp only at h
      rw [hrun, except_ok_bind] at h
      obtain ⟨hwork, hstake⟩ := ih ht.good ht.nodes_eq hlt₂ h
      obtain ⟨sel₃, -, hrest, -, hle, -⟩ := selectTxs_spec hlive ht.good ht.nodes_eq hlt₂
      obtain rfl := Except.ok.inj (hrest.symm.trans h)
      have hmem := List.mem_of_getElem? hp
      have hcount := ht.nOutOfRange
      cases he : c.early sel p with
      | true =>
        rw [he, if_pos rfl] at hcount
        refine ⟨fun hwork' => ?_, fun _ _ => iff_of_false (by omega) fun hall => ?_⟩
        · rw [MinerContext.early, MinerContext.readsPastEnd, hwork'] at he
          exact absurd he (by simp)
        · exact absurd (hall p hmem) (by simp [he])
      | false =>
        rw [he, if_neg Bool.false_ne_true, Nat.add_zero] at hcount
        rw [← hcount]
        refine ⟨hwork, fun hs hlen => ?_⟩
        rcases ht.cases with ⟨hsame, hearly, hqueue, -⟩ | ⟨-, htook, -⟩
        · rw [hstake hs (by rw [hsame]; exact hlen), hqueue]
          simp only [hearly]
          constructor
          · intro hall q hq
            obtain ⟨j, hj⟩ := List.mem_iff_getElem?.1 hq
            by_cases hij : j = i
            · rw [hij, hp, Option.some.injEq] at hj
              exact hj ▸ he
            · exact hall q (List.mem_eraseIdx_iff_getElem?.2 ⟨j, hij, hj⟩)
          · exact fun hall q hq => hall q (List.mem_of_mem_eraseIdx hq)
        · exact absurd (htook hs hlen) (by simp [he])

end Select

/-! ## The whole call -/

section Template

variable (s : NodeState) (ans : Answer) (args : MinerArgs) (order : PriorityOrder)
variable (fProofOfStake : Bool) (reservedKey : CScript) (strayTime : ℕ)

/-- The pool's transactions, in the order of the scan. -/
def poolTxs : List CTransaction := s.mempool.mapTx.toList.map (·.2)

/-- The entries of `mapDependers` whose nodes are on the list. -/
def Scanned.live (sc : Scanned) : Map Uint256 (List ℕ) :=
  sc.mapDependers.map fun _ addresses => addresses.filter fun a => sc.vOrphan.contains a

/-- The selection with the entries `mapDependers`. -/
def selection (pindexPrev : Uint256) (sc : Scanned) (mapDependers : Map Uint256 (List ℕ)) :
    Except Failure Selection :=
  selectTxs ⟨s, ans, args, order, pindexPrev, fProofOfStake, mapDependers, strayTime⟩
    (s.mempool.mapTx.size + 1)
    { vtx := [templateCoinBase ans fProofOfStake reservedKey]
      mapTestPool := ∅
      nBlockSize := 1000
      nBlockSigOps := 100
      nFees := 0
      fSortedByFee := args.nBlockPrioritySize ≤ 0
      vecPriority := sc.vecPriority
      vOrphan := sc.vOrphan
      nOutOfRange := 0 }

/-- A transaction that waits for nothing and gets as far as the time limit
of an empty template. -/
structure IsEarly (tx : CTransaction) : Prop where
  ready : IsReady s ans tx
  size : 1000 + tx.getSerializeSize < args.nBlockMaxSize
  sigOps : 100 + tx.getLegacySigOpCount < maxBlockSigops
  time : (tx.nTime : ℤ) ≤ ans.nAdjustedTime

/-- **Nothing goes astray**: for proof of stake no pool transaction is
early, and no transaction is taken, the stale entries left out, under
which one with a missing input was entered. -/
def NothingAstray : Prop :=
  ∀ pindexPrev sc, s.pindexBest = some pindexPrev →
    scanTxs s ans ⟨0, ∅, ∅, []⟩ (poolTxs s) = .ok sc →
      (fProofOfStake = true → ∀ tx ∈ poolTxs s, ¬ IsEarly s ans args tx) ∧
      ∀ sel, selection s ans args order fProofOfStake reservedKey strayTime pindexPrev sc sc.live =
        .ok sel → ∀ tx ∈ sel.vtx.tail, ∀ t ∈ poolTxs s, ¬ LeavesStale s ans t tx.getHash

/-- A call that neither followed a pointer to a node that is gone nor read
past the end of `vtx`. -/
def MemorySafe (r : Except Failure BlockTemplate) : Prop :=
  r ≠ .error (.crash "porphan") ∧ ∀ t, r = .ok t → t.nOutOfRange = 0

variable {s ans args order fProofOfStake reservedKey strayTime}

omit [P : Platform] in
/-- What the scan gives the selection to start from. -/
theorem selection_start {sc : Scanned} (hi : ScanInv s ans (poolTxs s) sc)
    {sel : Selection} (hqueue : sel.vecPriority = sc.vecPriority)
    (horphan : sel.vOrphan = sc.vOrphan) : sel.Good ∧ sel.turns < s.mempool.mapTx.size + 1 := by
  refine ⟨⟨by rw [horphan]; exact hi.waiting, fun p hp => ?_⟩, ?_⟩
  · rw [hqueue] at hp
    exact (hi.queued p hp).2.2
  · have hnodes : sel.waitingNodes.card ≤ sc.vOrphan.size := by
      rw [Selection.waitingNodes, horphan]
      refine (Finset.card_filter_le _ _).trans ((List.toFinset_card_le _).trans ?_)
      rw [Std.ExtTreeMap.length_keys]
    have hcount := hi.count
    rw [poolTxs, List.length_map, Std.ExtTreeMap.length_toList] at hcount
    rw [Selection.turns, hqueue]
    omega

/-- The scan fails on a sum out of range, and on nothing else. -/
theorem exception_of_scanTxs {f : Failure} : ∀ {txs : List CTransaction} {sc : Scanned},
    scanTxs s ans sc txs = .error f → ∃ what, f = .exception what
  | [], sc, h => absurd h (by simp [scanTxs])
  | tx :: txs, sc, h => by
    have hvalue : ∀ {l : List CTxOut} {n : ℤ} {f : Failure},
        CTransaction.valueOutLoop n l = .error f → ∃ what, f = .exception what := by
      intro l
      induction l with
      | nil => exact fun h => absurd h (by simp [CTransaction.valueOutLoop])
      | cons o l ih =>
        intro n f h
        rw [CTransaction.valueOutLoop] at h
        split_ifs at h
        · exact ⟨_, (Except.error.inj h).symm⟩
        · exact ih h
    rw [scanTxs] at h
    cases hs : scanTx s ans sc tx with
    | ok sc' =>
      rw [hs, except_ok_bind] at h
      exact exception_of_scanTxs h
    | error g =>
      rw [hs, except_error_bind] at h
      obtain rfl := Except.error.inj h
      rw [scanTx] at hs
      split_ifs at hs
      cases hv : tx.getValueOut with
      | error e =>
        obtain ⟨what, rfl⟩ := hvalue hv
        dsimp only at hs
        split_ifs at hs
        rw [hv, except_error_bind] at hs
        exact ⟨what, (Except.error.inj hs).symm⟩
      | ok n =>
        dsimp only at hs
        split_ifs at hs
        rw [hv, except_ok_bind] at hs
        split at hs <;> exact absurd hs (by simp)

omit [P : Platform] in
/-- The queue's early candidates are the pool's early transactions. -/
theorem early_iff {sc : Scanned} (hi : ScanInv s ans (poolTxs s) sc) {c : MinerContext}
    {sel : Selection} (hc : c.args = args ∧ c.ans = ans ∧ c.fProofOfStake = true)
    (hsel : sel.vtx.length = 1 ∧ sel.nBlockSize = 1000 ∧ sel.nBlockSigOps = 100) :
    (∀ p ∈ sc.vecPriority, c.early sel p = false) ↔ ∀ tx ∈ poolTxs s, ¬ IsEarly s ans args tx := by
  obtain ⟨rfl, rfl, hstake⟩ := hc
  obtain ⟨hlen, hsize, hsigops⟩ := hsel
  have hearly : ∀ p : TxPriority, c.early sel p = true ↔
      1000 + p.tx.getSerializeSize < c.args.nBlockMaxSize ∧
        100 + p.tx.getLegacySigOpCount < maxBlockSigops ∧ (p.tx.nTime : ℤ) ≤ c.ans.nAdjustedTime := by
    intro p
    rw [MinerContext.early, MinerContext.passesOver, MinerContext.readsPastEnd, hsize, hsigops,
      hstake, hlen]
    simp [and_assoc]
  constructor
  · intro h tx htx he
    obtain ⟨p, hp, rfl⟩ := hi.ready tx htx he.ready
    exact absurd ((hearly p).2 ⟨he.size, he.sigOps, he.time⟩) (by simp [h p hp])
  · intro h p hp
    by_contra hne
    obtain ⟨h₁, h₂, h₃⟩ := (hearly p).1 (Bool.not_eq_false _ ▸ hne)
    obtain ⟨hmem, hready, -⟩ := hi.queued p hp
    exact h p.tx hmem ⟨hready, h₁, h₂, h₃⟩

/-- **`CreateNewBlock` keeps to its memory** exactly where nothing goes
astray. -/
theorem memorySafe_iff :
    MemorySafe (createNewBlock s ans args order fProofOfStake reservedKey strayTime) ↔
      NothingAstray s ans args order fProofOfStake reservedKey strayTime := by
  cases hbest : s.pindexBest with
  | none =>
    have hrun : createNewBlock s ans args order fProofOfStake reservedKey strayTime =
        .error (.crash "pindexPrev") := by
      rw [createNewBlock, hbest]
    rw [hrun]
    refine iff_of_true ⟨by simp, fun t h => absurd h (by simp)⟩ fun _ _ h => ?_
    rw [hbest] at h
    exact absurd h (by simp)
  | some pindexPrev =>
  cases hscan : scanTxs s ans ⟨0, ∅, ∅, []⟩ (poolTxs s) with
  | error f =>
    have hrun : createNewBlock s ans args order fProofOfStake reservedKey strayTime = .error f := by
      rw [createNewBlock, hbest]
      dsimp only
      rw [← poolTxs, hscan, except_error_bind]
    obtain ⟨what, rfl⟩ := exception_of_scanTxs hscan
    rw [hrun]
    refine iff_of_true ⟨by simp, fun t h => absurd h (by simp)⟩ fun _ _ _ h => ?_
    rw [hscan] at h
    exact absurd h (by simp)
  | ok sc =>
    have hi : ScanInv s ans (poolTxs s) sc := scanInv_scanTxs scanInv_empty hscan
    set c : MinerContext :=
      ⟨s, ans, args, order, pindexPrev, fProofOfStake, sc.mapDependers, strayTime⟩ with hc
    set start : Selection :=
      { vtx := [templateCoinBase ans fProofOfStake reservedKey], mapTestPool := ∅,
        nBlockSize := 1000, nBlockSigOps := 100, nFees := 0,
        fSortedByFee := args.nBlockPrioritySize ≤ 0, vecPriority := sc.vecPriority,
        vOrphan := sc.vOrphan, nOutOfRange := 0 } with hstart
    have hlive : ∀ hash, (sc.live[hash]?).getD [] =
        (c.dependers hash).filter fun a => sc.vOrphan.contains a := by
      intro hash
      rw [Scanned.live, Std.ExtTreeMap.getElem?_map]
      show _ = ((sc.mapDependers[hash]?).getD []).filter _
      cases sc.mapDependers[hash]? <;> rfl
    have hgood : start.Good ∧ start.turns < s.mempool.mapTx.size + 1 := selection_start hi rfl rfl
    obtain ⟨sel', taken, hrun, hvtx, -, hres⟩ :=
      selectTxs_spec hlive hgood.1 (fun _ => rfl) hgood.2
    obtain ⟨hwork, hstake⟩ := nOutOfRange_selectTxs hlive hgood.1 (fun _ => rfl) hgood.2 hrun
    obtain ⟨finish, hcreate, hfinish⟩ : ∃ finish : Selection → BlockTemplate,
        createNewBlock s ans args order fProofOfStake reservedKey strayTime =
          (selectTxs c (s.mempool.mapTx.size + 1) start >>= fun sel => .ok (finish sel)) ∧
        ∀ sel, (finish sel).nOutOfRange = sel.nOutOfRange := by
      apply Exists.intro
      apply And.intro
      · rw [createNewBlock, hbest]
        dsimp only
        rw [← poolTxs, hscan, except_ok_bind]
      · intro sel
        rfl
    -- what is taken is fit to be taken exactly where no entry under it is stale
    have htaken : (∀ tx ∈ taken, ∀ a ∈ c.dependers tx.getHash, sc.vOrphan.contains a = true) ↔
        ∀ tx ∈ taken, ∀ t ∈ poolTxs s, ¬ LeavesStale s ans t tx.getHash := by
      refine forall₂_congr fun tx _ => ?_
      have hst := hi.stale tx.getHash
      constructor
      · intro hall t ht hleaves
        obtain ⟨a, ha, hnot⟩ := hst.2 ⟨t, ht, hleaves⟩
        exact absurd (hall a ha) (by rw [hnot]; exact Bool.false_ne_true)
      · intro hno a ha
        by_contra hnot
        obtain ⟨t, ht, hleaves⟩ := hst.1 ⟨a, ha, Bool.eq_false_iff.2 hnot⟩
        exact hno t ht hleaves
    have hsel : ∀ sel, selection s ans args order fProofOfStake reservedKey strayTime pindexPrev sc
        sc.live = .ok sel → sel.vtx.tail = taken := by
      intro sel h
      obtain rfl := Except.ok.inj (hrun.symm.trans h)
      rw [hvtx]
      rfl
    have hreads : sel'.nOutOfRange = 0 ↔
        (fProofOfStake = true → ∀ tx ∈ poolTxs s, ¬ IsEarly s ans args tx) := by
      cases hstakes : fProofOfStake with
      | false => exact iff_of_true (hwork hstakes) fun h => absurd h (by simp)
      | true =>
        have hearly : (∀ p ∈ sc.vecPriority, c.early start p = false) ↔
            ∀ tx ∈ poolTxs s, ¬ IsEarly s ans args tx :=
          early_iff hi ⟨rfl, rfl, hstakes⟩ ⟨rfl, rfl, rfl⟩
        rw [← hearly]
        simpa using hstake hstakes le_rfl
    rcases hres with ⟨hall, hok⟩ | ⟨⟨tx, htx, a, ha, hnot⟩, herr⟩
    · rw [hok, except_ok_bind] at hcreate
      rw [hcreate]
      constructor
      · rintro ⟨-, hzero⟩ pindexPrev' sc' hbest' hscan'
        obtain rfl := Option.some.inj (hbest.symm.trans hbest')
        obtain rfl := Except.ok.inj (hscan.symm.trans hscan')
        refine ⟨hreads.1 (by rw [← hfinish]; exact hzero _ rfl), fun sel hs tx htx => ?_⟩
        rw [hsel sel hs] at htx
        exact htaken.1 hall tx htx
      · intro h
        refine ⟨by simp, fun t ht => ?_⟩
        obtain rfl := Except.ok.inj ht
        rw [hfinish]
        exact hreads.2 (h pindexPrev sc hbest hscan).1
    · rw [herr, except_error_bind] at hcreate
      rw [hcreate]
      refine iff_of_false (fun h => h.1 rfl) fun h => ?_
      have hno := (h pindexPrev sc hbest hscan).2 sel' hrun
      rw [hsel sel' hrun] at hno
      exact absurd (htaken.2 hno tx htx a ha) (by rw [hnot]; exact Bool.false_ne_true)

end Template

/-! ## A pool with one payment -/

namespace OnePayment

/-- A coinbase of ten coins, in a block of its own. -/
def funding : CTransaction where
  nVersion := 1
  nTime := 100
  vin := [{ prevout := COutPoint.null, scriptSig := [0, 0], nSequence := uintMax }]
  vout := [{ nValue := 10 * coin, scriptPubKey := [1] }]
  nLockTime := 0

/-- What spends it. -/
def spend : CTransaction where
  nVersion := 1
  nTime := 900
  vin := [{ prevout := ⟨100, 0⟩, scriptSig := [], nSequence := uintMax }]
  vout := [{ nValue := 9 * coin, scriptPubKey := [1] }]
  nLockTime := 0

def fundingBlock : CBlock where
  nVersion := 1
  hashPrevBlock := 0
  hashMerkleRoot := 0
  nTime := 100
  nBits := 0x1e0fffff
  nNonce := 1
  vtx := [funding]
  vchBlockSig := []

/-- The block on disk, its coinbase indexed, and the payment in the pool. -/
def node : NodeState :=
  { NodeState.blank fun _ => ⟨1000, true, fun _ _ => true⟩ with
    mapBlockIndex := ({} : Map Uint256 CBlockIndex).insert 1 { CBlockIndex.null with nTime := 100 }
    pindexBest := some 1
    txdb :=
      { committed := Std.ExtTreeMap.insert ∅ (.tx 100)
          (.txIndex (CTxIndex.fresh ⟨1, 0, fundingBlock.firstTxOffset⟩ 1))
        activeBatch := none }
    mempool := { mapTx := ({} : Map Uint256 CTransaction).insert 900 spend, mapNextTx := ∅ }
    blockFiles := [⟨1, 0, fundingBlock⟩] }

/-- Candidates in the order they came, none of them free. -/
def order : PriorityOrder := ⟨fun _ _ => 0, fun _ _ => false, fun _ => false⟩

end OnePayment

omit [P : Platform] in
/-- **One payment in the pool is enough** for a proof-of-stake template to
read past the end of `vtx`. -/
theorem not_memorySafe :
    ¬ ∀ (s : NodeState) (ans : Answer) (args : MinerArgs) (order : PriorityOrder)
        (fProofOfStake : Bool) (reservedKey : CScript) (strayTime : ℕ),
      MemorySafe (createNewBlock (P := Platform.toy) s ans args order fProofOfStake reservedKey
        strayTime) := by
  intro h
  have hrun : ((createNewBlock (P := Platform.toy) OnePayment.node
      ⟨1000, true, fun _ _ => true⟩ ⟨none, none, none, minTxFee⟩ OnePayment.order true [] 0).toOption.map
        (·.nOutOfRange)) = some 1 := by
    decide +kernel
  have hsafe := (h OnePayment.node ⟨1000, true, fun _ _ => true⟩ ⟨none, none, none, minTxFee⟩
    OnePayment.order true [] 0).2
  cases ht : createNewBlock (P := Platform.toy) OnePayment.node
      ⟨1000, true, fun _ _ => true⟩ ⟨none, none, none, minTxFee⟩ OnePayment.order true [] 0 with
  | error f =>
    rw [ht] at hrun
    exact absurd hrun (by simp [Except.toOption])
  | ok t =>
    rw [ht] at hrun
    have hone : t.nOutOfRange = 1 := by simpa [Except.toOption] using hrun
    exact absurd (hsafe t ht) (by rw [hone]; exact Nat.one_ne_zero)

end CryptoBullion
