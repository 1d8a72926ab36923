import CryptoBullion.Common.Lineage
import CryptoBullion.Model.Kernel
/-!
# How a stake modifier is selected

The candidates are sorted by time, so those that are not too late come
first, and a round that has found one of them stops before the others.
What a round takes is then the least of them by selection hash, or the
earliest that is left where all are too late. Fewer rounds are made than
there are candidates, and no block stands twice on a chain: so no round
goes without one.
-/

namespace CryptoBullion

variable [P : Platform]

/-! ## The chain a modifier is computed on -/

/-- **A chain of the index** with the blocks on it, the last first: each is
indexed and stands one above the one before, down to a genesis block that
has generated a modifier. -/
inductive IndexChain (s : NodeState) : Uint256 → List Uint256 → Prop
  | genesis {pindex : Uint256} (hin : s.mapBlockIndex.contains pindex = true)
      (hprev : s.pprev pindex = none) (hheight : s.nHeight pindex = 0)
      (hgenerated : (s.entry pindex).fGeneratedStakeModifier = true) : IndexChain s pindex [pindex]
  | next {pindex prev : Uint256} {l : List Uint256} (hrest : IndexChain s prev l)
      (hin : s.mapBlockIndex.contains pindex = true) (hprev : s.pprev pindex = some prev)
      (hheight : s.nHeight pindex = s.nHeight prev + 1) : IndexChain s pindex (pindex :: l)

variable {s : NodeState} {prev p q : Uint256} {l : List Uint256} {nTime nPrev : ℕ} {nStart nStop : ℤ}

namespace IndexChain

omit P

/-- Heights count the blocks. -/
theorem length_eq (h : IndexChain s prev l) : (l.length : ℤ) = s.nHeight prev + 1 := by
  induction h with
  | genesis _ _ hheight _ =>
    rw [hheight]
    rfl
  | next _ _ _ hheight ih =>
    rw [List.length_cons, Nat.cast_succ, ih, hheight]

theorem contains (h : IndexChain s prev l) (hp : p ∈ l) : s.mapBlockIndex.contains p = true := by
  induction h with
  | genesis hin _ _ _ =>
    obtain rfl := List.mem_singleton.1 hp
    exact hin
  | next _ hin _ _ ih =>
    rcases List.mem_cons.1 hp with rfl | hp
    · exact hin
    · exact ih hp

/-- Nothing on the chain is higher than its last block. -/
theorem nHeight_le (h : IndexChain s prev l) (hp : p ∈ l) : s.nHeight p ≤ s.nHeight prev := by
  induction h with
  | genesis _ _ _ _ =>
    obtain rfl := List.mem_singleton.1 hp
    exact le_rfl
  | next _ _ _ hheight ih =>
    rcases List.mem_cons.1 hp with rfl | hp
    · exact le_rfl
    · have := ih hp
      omega

/-- **No block stands on it twice.** -/
theorem nodup (h : IndexChain s prev l) : l.Nodup := by
  induction h with
  | genesis _ _ _ _ => exact List.nodup_singleton _
  | @next pindex prev l hrest _ _ hheight ih =>
    refine List.nodup_cons.2 ⟨fun hmem => ?_, ih⟩
    have := hrest.nHeight_le hmem
    omega

/-- A turn for each block is enough. -/
theorem length_le_walkFuel (h : IndexChain s prev l) : l.length ≤ s.walkFuel prev := by
  have hlen := h.length_eq
  unfold NodeState.walkFuel
  omega

/-- **There is a last modifier**: that of the last block that generated
one. -/
theorem getLastStakeModifier_eq (h : IndexChain s prev l) {fuel : ℕ} (hfuel : l.length ≤ fuel) :
    ∃ g, l.find? (fun p => (s.entry p).fGeneratedStakeModifier) = some g ∧
      getLastStakeModifier s fuel prev = .ok ((s.entry g).nStakeModifier, (s.entry g).getBlockTime) := by
  induction h generalizing fuel with
  | @genesis pindex _ _ _ hgenerated =>
    cases fuel with
    | zero => exact absurd hfuel (by simp)
    | succ fuel =>
      refine ⟨pindex, List.find?_cons_of_pos hgenerated, ?_⟩
      rw [getLastStakeModifier, if_pos hgenerated]
  | @next pindex prev l _ _ hprev _ ih =>
    cases fuel with
    | zero => exact absurd hfuel (by simp)
    | succ fuel =>
      rw [List.length_cons] at hfuel
      rw [getLastStakeModifier]
      by_cases hgenerated : (s.entry pindex).fGeneratedStakeModifier = true
      · exact ⟨pindex, List.find?_cons_of_pos hgenerated, if_pos hgenerated⟩
      · obtain ⟨g, hg, hlast⟩ := ih (Nat.le_of_succ_le_succ hfuel)
        refine ⟨g, by simp [hgenerated, hg], ?_⟩
        rw [if_neg hgenerated, hprev]
        exact hlast

/-- **The candidates** are the blocks back to the first that is before the
start. -/
theorem candidates_eq (h : IndexChain s prev l) {fuel : ℕ} (hfuel : l.length ≤ fuel) :
    candidates s nStart fuel (some prev) =
      (l.takeWhile fun p => nStart ≤ (s.entry p).getBlockTime).map fun p => ((s.entry p).getBlockTime, p) := by
  induction h generalizing fuel with
  | @genesis pindex _ hprev _ _ =>
    cases fuel with
    | zero => exact absurd hfuel (by simp)
    | succ fuel =>
      have hnone : candidates s nStart fuel none = [] := by cases fuel <;> rfl
      rw [candidates, hprev, hnone, List.takeWhile_cons]
      by_cases htime : nStart ≤ (s.entry pindex).getBlockTime
      · simp [htime]
      · simp [htime]
  | @next pindex prev l _ _ hprev _ ih =>
    cases fuel with
    | zero => exact absurd hfuel (by simp)
    | succ fuel =>
      rw [List.length_cons] at hfuel
      rw [candidates, hprev, ih (Nat.le_of_succ_le_succ hfuel), List.takeWhile_cons]
      by_cases htime : nStart ≤ (s.entry pindex).getBlockTime
      · simp [htime]
      · simp [htime]

end IndexChain

/-! ## A round -/

/-- The order of the candidates: by time, then by hash. -/
def timeKey (s : NodeState) (pindex : Uint256) : ℤ ×ₗ ℕ :=
  toLex ((s.entry pindex).getBlockTime, pindex.toNat)

/-- The order in which a round takes them: by selection hash, the earlier of
two with the same. -/
def selectionKey (s : NodeState) (nStakeModifierPrev : ℕ) (pindex : Uint256) : ℕ ×ₗ ℤ ×ₗ ℕ :=
  toLex ((selectionHash s nStakeModifierPrev pindex).toNat, timeKey s pindex)

/-- **What a round takes** of candidates, after some have been taken: the
first by selection hash of those that are not too late, or the earliest
where all are. -/
structure Picks (s : NodeState) (nStakeModifierPrev : ℕ) (nStop : ℤ) (candidates taken : List Uint256)
    (pindex : Uint256) : Prop where
  mem : pindex ∈ candidates
  fresh : pindex ∉ taken
  least : ∀ q ∈ candidates, q ∉ taken → (s.entry q).getBlockTime ≤ nStop →
    (s.entry pindex).getBlockTime ≤ nStop ∧
      selectionKey s nStakeModifierPrev pindex ≤ selectionKey s nStakeModifierPrev q
  earliest : (∀ q ∈ candidates, q ∉ taken → nStop < (s.entry q).getBlockTime) →
    ∀ q ∈ candidates, q ∉ taken → timeKey s pindex ≤ timeKey s q

section
variable {taken : List Uint256} {sorted : List (ℤ × Uint256)} {b : Uint256}

omit P in
theorem candidateLe_iff {a b : ℤ × Uint256} :
    candidateLe a b = true ↔ (toLex (a.1, a.2.toNat) : ℤ ×ₗ ℕ) ≤ toLex (b.1, b.2.toNat) := by
  unfold candidateLe
  rw [Prod.Lex.toLex_le_toLex]
  simp only [Bool.or_eq_true, Bool.and_eq_true, decide_eq_true_eq, BitVec.le_def]

/-- The candidates as they are sorted: each with its time, and indexed. -/
structure Sorted (s : NodeState) (sorted : List (ℤ × Uint256)) : Prop where
  pairwise : sorted.Pairwise fun a b => candidateLe a b = true
  time : ∀ a ∈ sorted, a.1 = (s.entry a.2).getBlockTime
  indexed : ∀ a ∈ sorted, s.mapBlockIndex.contains a.2 = true

omit P in
theorem Sorted.tail {a : ℤ × Uint256} (h : Sorted s (a :: sorted)) : Sorted s sorted where
  pairwise := (List.pairwise_cons.1 h.pairwise).2
  time i hi := h.time i (List.mem_cons_of_mem a hi)
  indexed i hi := h.indexed i (List.mem_cons_of_mem a hi)

omit P in
/-- The first is the earliest. -/
theorem Sorted.timeKey_le {a i : ℤ × Uint256} (h : Sorted s (a :: sorted)) (hi : i ∈ sorted) :
    timeKey s a.2 ≤ timeKey s i.2 := by
  have hle := candidateLe_iff.1 ((List.pairwise_cons.1 h.pairwise).1 i hi)
  rw [h.time a List.mem_cons_self, h.time i (List.mem_cons_of_mem a hi)] at hle
  exact hle

omit P in
theorem Sorted.time_le {a i : ℤ × Uint256} (h : Sorted s (a :: sorted)) (hi : i ∈ sorted) :
    (s.entry a.2).getBlockTime ≤ (s.entry i.2).getBlockTime := by
  rcases Prod.Lex.toLex_le_toLex.1 (h.timeKey_le hi) with hlt | ⟨heq, -⟩
  · exact hlt.le
  · exact heq.le

/-- **Once a candidate has been found**, the best is kept of those that
follow in time. -/
theorem selectBlockFromCandidates_some (taken : List Uint256) (nStop : ℤ) (nPrev : ℕ) (hs : Sorted s sorted)
    (hb : ∀ a ∈ sorted, timeKey s b ≤ timeKey s a.2) :
    ∃ p, selectBlockFromCandidates s taken nStop nPrev (some (selectionHash s nPrev b, b)) sorted = .ok p ∧
      (p = b ∨ p ∈ sorted.map Prod.snd ∧ p ∉ taken ∧ (s.entry p).getBlockTime ≤ nStop) ∧
      selectionKey s nPrev p ≤ selectionKey s nPrev b ∧
      ∀ q ∈ sorted.map Prod.snd, q ∉ taken → (s.entry q).getBlockTime ≤ nStop →
        selectionKey s nPrev p ≤ selectionKey s nPrev q := by
  induction sorted generalizing b with
  | nil => exact ⟨b, rfl, .inl rfl, le_rfl, fun q hq => absurd hq (by simp)⟩
  | cons a sorted ih =>
    have hin := hs.indexed a List.mem_cons_self
    rw [selectBlockFromCandidates]
    simp only [hin, Bool.not_true, Bool.false_eq_true, if_false, Option.isSome_some, Bool.true_and,
      decide_eq_true_eq, List.map_cons]
    by_cases hlate : nStop < (s.entry a.2).getBlockTime
    · -- what follows is later still
      rw [if_pos hlate]
      refine ⟨b, rfl, .inl rfl, le_rfl, fun q hq _ htime => ?_⟩
      rcases List.mem_cons.1 hq with rfl | hq
      · omega
      · obtain ⟨i, hi, rfl⟩ := List.mem_map.1 hq
        have := hs.time_le hi
        omega
    rw [if_neg hlate]
    by_cases htaken : taken.contains a.2 = true
    · rw [if_pos htaken]
      obtain ⟨p, hp, hmem, hle, hall⟩ := ih hs.tail fun i hi => hb i (List.mem_cons_of_mem a hi)
      refine ⟨p, hp, hmem.imp_right fun h => ⟨List.mem_cons_of_mem _ h.1, h.2⟩, hle, ?_⟩
      intro q hq hfresh htime
      rcases List.mem_cons.1 hq with rfl | hq
      · exact absurd (by simpa using htaken) hfresh
      · exact hall q hq hfresh htime
    rw [if_neg htaken]
    have hfresh : a.2 ∉ taken := by simpa using htaken
    by_cases hless : selectionHash s nPrev a.2 < selectionHash s nPrev b
    · rw [if_pos hless]
      obtain ⟨p, hp, hmem, hle, hall⟩ := ih hs.tail fun i hi => hs.timeKey_le hi
      have hkey : selectionKey s nPrev a.2 ≤ selectionKey s nPrev b :=
        Prod.Lex.toLex_le_toLex.2 (.inl (BitVec.lt_def.1 hless))
      refine ⟨p, hp, .inr ?_, hle.trans hkey, ?_⟩
      · rcases hmem with rfl | hmem
        · exact ⟨List.mem_cons_self, hfresh, not_lt.1 hlate⟩
        · exact ⟨List.mem_cons_of_mem _ hmem.1, hmem.2⟩
      · intro q hq hq' htime
        rcases List.mem_cons.1 hq with rfl | hq
        · exact hle
        · exact hall q hq hq' htime
    · rw [if_neg hless]
      obtain ⟨p, hp, hmem, hle, hall⟩ := ih hs.tail fun i hi => hb i (List.mem_cons_of_mem a hi)
      have hkey : selectionKey s nPrev b ≤ selectionKey s nPrev a.2 := by
        refine Prod.Lex.toLex_le_toLex.2 ?_
        rcases lt_or_eq_of_le (not_lt.1 fun h => hless (BitVec.lt_def.2 h)) with hlt | heq
        · exact .inl hlt
        · exact .inr ⟨heq, hb a List.mem_cons_self⟩
      refine ⟨p, hp, hmem.imp_right fun h => ⟨List.mem_cons_of_mem _ h.1, h.2⟩, hle, ?_⟩
      intro q hq hq' htime
      rcases List.mem_cons.1 hq with rfl | hq
      · exact hle.trans hkey
      · exact hall q hq hq' htime

/-- **A round takes a candidate** as long as there is one left. -/
theorem selectBlockFromCandidates_picks (nStop : ℤ) (nPrev : ℕ) (hs : Sorted s sorted)
    (hleft : ∃ p ∈ sorted.map Prod.snd, p ∉ taken) :
    ∃ p, selectBlockFromCandidates s taken nStop nPrev none sorted = .ok p ∧
      Picks s nPrev nStop (sorted.map Prod.snd) taken p := by
  induction sorted with
  | nil =>
    obtain ⟨p, hp, -⟩ := hleft
    exact absurd hp (by simp)
  | cons a sorted ih =>
    have hin := hs.indexed a List.mem_cons_self
    rw [selectBlockFromCandidates]
    simp only [hin, Bool.not_true, Bool.false_eq_true, if_false, Option.isSome_none, Bool.false_and,
      List.map_cons]
    by_cases htaken : taken.contains a.2 = true
    · rw [if_pos htaken]
      have htaken' : a.2 ∈ taken := by simpa using htaken
      have hskip : ∀ q ∈ a.2 :: sorted.map Prod.snd, q ∉ taken → q ∈ sorted.map Prod.snd := by
        intro q hq hfresh
        rcases List.mem_cons.1 hq with rfl | hq
        · exact absurd htaken' hfresh
        · exact hq
      obtain ⟨p, hp, hfresh⟩ := hleft
      obtain ⟨p, hp, hpick⟩ := ih hs.tail ⟨p, hskip p hp hfresh, hfresh⟩
      refine ⟨p, hp, List.mem_cons_of_mem _ hpick.mem, hpick.fresh, ?_, ?_⟩
      · exact fun q hq hfresh => hpick.least q (hskip q hq hfresh) hfresh
      · intro hlate q hq hfresh
        exact hpick.earliest (fun q hq => hlate q (List.mem_cons_of_mem _ hq)) q (hskip q hq hfresh) hfresh
    · rw [if_neg htaken]
      have hfresh : a.2 ∉ taken := by simpa using htaken
      obtain ⟨p, hp, hmem, hle, hall⟩ := selectBlockFromCandidates_some taken nStop nPrev
        hs.tail fun i hi => hs.timeKey_le hi
      refine ⟨p, hp, ?_⟩
      by_cases hlate : nStop < (s.entry a.2).getBlockTime
      · -- everything is too late, so the first is taken
        have hafter : ∀ q ∈ a.2 :: sorted.map Prod.snd, nStop < (s.entry q).getBlockTime := by
          intro q hq
          rcases List.mem_cons.1 hq with rfl | hq
          · exact hlate
          · obtain ⟨i, hi, rfl⟩ := List.mem_map.1 hq
            exact hlate.trans_le (hs.time_le hi)
        obtain rfl : p = a.2 := by
          rcases hmem with rfl | ⟨hmem, -, htime⟩
          · rfl
          · exact absurd (hafter p (List.mem_cons_of_mem _ hmem)) (not_lt.2 htime)
        refine ⟨List.mem_cons_self, hfresh, fun q hq _ htime => ?_, fun _ q hq _ => ?_⟩
        · exact absurd (hafter q hq) (not_lt.2 htime)
        · rcases List.mem_cons.1 hq with rfl | hq
          · exact le_rfl
          · obtain ⟨i, hi, rfl⟩ := List.mem_map.1 hq
            exact hs.timeKey_le hi
      · have hgood : p ∉ taken ∧ (s.entry p).getBlockTime ≤ nStop := by
          rcases hmem with rfl | hmem
          · exact ⟨hfresh, not_lt.1 hlate⟩
          · exact hmem.2
        refine ⟨?_, hgood.1, fun q hq hq' htime => ⟨hgood.2, ?_⟩, fun hall' => ?_⟩
        · rcases hmem with rfl | hmem
          · exact List.mem_cons_self
          · exact List.mem_cons_of_mem _ hmem.1
        · rcases List.mem_cons.1 hq with rfl | hq
          · exact hle
          · exact hall q hq hq' htime
        · exact absurd (hall' a.2 List.mem_cons_self hfresh) hlate

end

/-! ## All rounds -/

/-- Bits as a number, the first of them the lowest. -/
def entropyBits (s : NodeState) : List Uint256 → ℕ
  | [] => 0
  | p :: ps => (if (s.entry p).fStakeEntropy then 1 else 0) + 2 * entropyBits s ps

/-- `nSelectionIntervalStop` of a round -/
def stopTime (nStart : ℤ) (nTime nRound : ℕ) : ℤ :=
  nStart + ((List.range nRound).map fun r => (getStakeModifierSelectionIntervalSection r nTime : ℤ)).sum

/-- **Blocks taken round by round.** -/
def PicksAll (s : NodeState) (nStakeModifierPrev nTime : ℕ) (nStart : ℤ)
    (candidates selected : List Uint256) : Prop :=
  ∀ r p, selected[r]? = some p →
    Picks s nStakeModifierPrev (stopTime nStart nTime (r + 1)) candidates (selected.take r) p

section
variable {selected candidates : List Uint256} {sorted : List (ℤ × Uint256)} {r n : ℕ}

omit P

theorem stopTime_succ :
    stopTime nStart nTime (n + 1) = stopTime nStart nTime n + getStakeModifierSelectionIntervalSection n nTime := by
  unfold stopTime
  rw [List.range_succ, List.map_append, List.sum_append, List.map_singleton, List.sum_singleton, add_assoc]

theorem entropyBits_append :
    entropyBits s (selected ++ [p]) =
      entropyBits s selected + (if (s.entry p).fStakeEntropy then 1 else 0) * 2 ^ selected.length := by
  induction selected with
  | nil => simp [entropyBits]
  | cons q selected ih =>
    rw [List.cons_append, entropyBits, ih, entropyBits, List.length_cons, pow_succ]
    ring

/-- **Each bit is the entropy bit of the block taken**, and there are no
others. -/
theorem testBit_entropyBits :
    (entropyBits s selected).testBit r = (selected[r]?.map fun p => (s.entry p).fStakeEntropy).getD false := by
  induction selected generalizing r with
  | nil => simp [entropyBits]
  | cons q selected ih =>
    rw [entropyBits]
    cases r with
    | zero =>
      rw [Nat.testBit_zero]
      by_cases hbit : (s.entry q).fStakeEntropy = true
      · simp [hbit]
      · simp [hbit]
    | succ r =>
      have hhalf : ((if (s.entry q).fStakeEntropy then 1 else 0) + 2 * entropyBits s selected) / 2 =
          entropyBits s selected := by
        split_ifs <;> omega
      rw [Nat.testBit_succ, hhalf, ih, List.getElem?_cons_succ]

end

section
variable {selected candidates : List Uint256} {sorted : List (ℤ × Uint256)}

theorem PicksAll.append (h : PicksAll s nPrev nTime nStart candidates selected)
    (hp : Picks s nPrev (stopTime nStart nTime (selected.length + 1)) candidates selected p) :
    PicksAll s nPrev nTime nStart candidates (selected ++ [p]) := by
  intro r q hq
  rcases Nat.lt_trichotomy r selected.length with hlt | rfl | hlt
  · rw [List.getElem?_append_left hlt] at hq
    rw [List.take_append_of_le_length hlt.le]
    exact h r q hq
  · rw [List.getElem?_concat_length] at hq
    obtain rfl := Option.some.inj hq
    rwa [List.take_left]
  · rw [List.getElem?_eq_none (by simp; omega)] at hq
    exact absurd hq (by simp)

/-- **The rounds** add as many blocks as there are rounds, where there are
enough candidates. -/
theorem modifierRounds_picks (rounds : ℕ) (hs : Sorted s sorted) (hnodup : (sorted.map Prod.snd).Nodup)
    (hsel : PicksAll s nPrev nTime nStart (sorted.map Prod.snd) selected)
    (hrounds : selected.length + rounds ≤ sorted.length) :
    ∃ selected', selected'.length = selected.length + rounds ∧
      PicksAll s nPrev nTime nStart (sorted.map Prod.snd) selected' ∧
      modifierRounds s sorted nPrev nTime rounds selected.length (stopTime nStart nTime selected.length)
        selected.reverse (entropyBits s selected) = .ok (entropyBits s selected') := by
  induction rounds generalizing selected with
  | zero => exact ⟨selected, rfl, hsel, rfl⟩
  | succ rounds ih =>
    -- fewer have been taken than there are
    have hleft : ∃ p ∈ sorted.map Prod.snd, p ∉ selected.reverse := by
      by_contra hnone
      push Not at hnone
      have hle := (hnodup.subperm hnone).length_le
      rw [List.length_map, List.length_reverse] at hle
      omega
    obtain ⟨p, hp, hpick⟩ := selectBlockFromCandidates_picks
      (stopTime nStart nTime (selected.length + 1)) nPrev hs hleft
    have hpick' : Picks s nPrev (stopTime nStart nTime (selected.length + 1)) (sorted.map Prod.snd) selected p :=
      ⟨hpick.mem, by simpa using hpick.fresh, by simpa using hpick.least, by simpa using hpick.earliest⟩
    obtain ⟨selected', hlen, hall, hrun⟩ := ih (hsel.append hpick') (by simp; omega)
    refine ⟨selected', by rw [hlen]; simp; omega, hall, ?_⟩
    rw [entropyBits_append, List.length_append, List.length_singleton, List.reverse_append] at hrun
    rw [modifierRounds, ← stopTime_succ, hp]
    exact hrun

end

/-! ## The whole selection -/

/-- `nSelectionIntervalStart` -/
def selectionStart (s : NodeState) (prev : Uint256) (nTime : ℕ) : ℤ :=
  (s.entry prev).getBlockTime / getModifierInterval nTime * getModifierInterval nTime -
    getStakeModifierSelectionInterval nTime

/-- **A modifier gathered from candidates**: so many rounds as there are
candidates, 64 at most, each taking what `Picks` says, and a bit for each
block taken. -/
structure Selects (s : NodeState) (nStakeModifierPrev nTime : ℕ) (nStart : ℤ)
    (candidates selected : List Uint256) (nStakeModifier : ℕ) : Prop where
  rounds : selected.length = min 64 candidates.length
  picks : PicksAll s nStakeModifierPrev nTime nStart candidates selected
  bits : ∀ r, nStakeModifier.testBit r = (selected[r]?.map fun p => (s.entry p).fStakeEntropy).getD false

section
variable {candidates candidates' : List Uint256}

theorem Picks.of_mem_iff {taken : List Uint256} (h : Picks s nPrev nStop candidates taken p)
    (hmem : ∀ q, q ∈ candidates' ↔ q ∈ candidates) : Picks s nPrev nStop candidates' taken p where
  mem := (hmem p).2 h.mem
  fresh := h.fresh
  least q hq := h.least q ((hmem q).1 hq)
  earliest hlate q hq := h.earliest (fun q hq => hlate q ((hmem q).2 hq)) q ((hmem q).1 hq)

omit P in
theorem candidateLe_trans (a b c : ℤ × Uint256) (h₁ : candidateLe a b = true)
    (h₂ : candidateLe b c = true) : candidateLe a c = true :=
  candidateLe_iff.2 ((candidateLe_iff.1 h₁).trans (candidateLe_iff.1 h₂))

omit P in
theorem candidateLe_total (a b : ℤ × Uint256) : (candidateLe a b || candidateLe b a) = true := by
  rw [Bool.or_eq_true, candidateLe_iff, candidateLe_iff]
  exact le_total _ _

omit P in
/-- Sorting the candidates. -/
theorem sorted_mergeSort {l : List (ℤ × Uint256)} (htime : ∀ a ∈ l, a.1 = (s.entry a.2).getBlockTime)
    (hin : ∀ a ∈ l, s.mapBlockIndex.contains a.2 = true) : Sorted s (l.mergeSort candidateLe) where
  pairwise := List.pairwise_mergeSort candidateLe_trans candidateLe_total l
  time a ha := htime a (List.mem_mergeSort.1 ha)
  indexed a ha := hin a (List.mem_mergeSort.1 ha)

end

/-- **The modifier of the next block**: the last one again, or a new one
where its interval has passed. -/
theorem IndexChain.computeNextStakeModifier_eq (h : IndexChain s prev l) (nTime : ℕ) :
    ∃ g selected nStakeModifier,
      l.find? (fun p => (s.entry p).fGeneratedStakeModifier) = some g ∧
      Selects s (s.entry g).nStakeModifier nTime (selectionStart s prev nTime)
        (l.takeWhile fun p => selectionStart s prev nTime ≤ (s.entry p).getBlockTime)
        selected nStakeModifier ∧
      computeNextStakeModifier s (some prev) nTime = .ok
        (if (s.entry prev).getBlockTime / (getModifierInterval nTime : ℤ) ≤
            (s.entry g).getBlockTime / (getModifierInterval nTime : ℤ)
          then ((s.entry g).nStakeModifier, false) else (nStakeModifier, true)) := by
  obtain ⟨g, hg, hlast⟩ := h.getLastStakeModifier_eq h.length_le_walkFuel
  set nStart := selectionStart s prev nTime with hstart
  set near := l.takeWhile fun p => nStart ≤ (s.entry p).getBlockTime with hnear
  have hcandidates : candidates s nStart (s.walkFuel prev) (some prev) =
      near.map fun p => ((s.entry p).getBlockTime, p) := h.candidates_eq h.length_le_walkFuel
  set sorted := (near.map fun p => ((s.entry p).getBlockTime, p)).reverse.mergeSort candidateLe with hsorted
  have hsub : ∀ p ∈ near, p ∈ l := fun p hp => (List.takeWhile_sublist _).subset hp
  have hs : Sorted s sorted := by
    refine sorted_mergeSort (fun a ha => ?_) fun a ha => ?_
    · obtain ⟨p, -, rfl⟩ := List.mem_map.1 (List.mem_reverse.1 ha)
      rfl
    · obtain ⟨p, hp, rfl⟩ := List.mem_map.1 (List.mem_reverse.1 ha)
      exact h.contains (hsub p hp)
  have hperm : (sorted.map Prod.snd).Perm near := by
    have hback : (near.map fun p => ((s.entry p).getBlockTime, p)).map Prod.snd = near := by
      rw [List.map_map]
      exact List.map_id near
    have := ((List.mergeSort_perm _ candidateLe).trans (List.reverse_perm
      (near.map fun p => ((s.entry p).getBlockTime, p)))).map Prod.snd
    rwa [hback] at this
  have hlen : sorted.length = near.length := by
    rw [← hperm.length_eq, List.length_map]
  have hnodup : (sorted.map Prod.snd).Nodup :=
    hperm.nodup_iff.2 (h.nodup.sublist (List.takeWhile_sublist _))
  have hnone : PicksAll s (s.entry g).nStakeModifier nTime nStart (sorted.map Prod.snd) [] :=
    fun r p hp => absurd hp (by simp)
  obtain ⟨selected, hcount, hpicks, hrun⟩ := modifierRounds_picks (min 64 sorted.length)
    hs hnodup hnone (by simp)
  refine ⟨g, selected, entropyBits s selected, hg, ⟨?_, ?_, fun r => testBit_entropyBits⟩, ?_⟩
  · rw [hcount, List.length_nil, Nat.zero_add, hlen]
  · exact fun r p hp => (hpicks r p hp).of_mem_iff fun q => (hperm.mem_iff (a := q)).symm
  · have hlast' : onFalse (getLastStakeModifier s (s.walkFuel prev) prev)
        (.error "ComputeNextStakeModifier: unable to get last modifier") =
          .ok ((s.entry g).nStakeModifier, (s.entry g).getBlockTime) := by
      rw [hlast]
      rfl
    have hrun' : modifierRounds s sorted (s.entry g).nStakeModifier nTime (min 64 sorted.length) 0 nStart [] 0 =
        .ok (entropyBits s selected) := by
      have hzero : stopTime nStart nTime ([] : List Uint256).length = nStart := by
        simp [stopTime]
      rw [hzero] at hrun
      exact hrun
    have hsort : (candidates s ((s.entry prev).getBlockTime / (getModifierInterval nTime : ℤ) *
        (getModifierInterval nTime : ℤ) - getStakeModifierSelectionInterval nTime) (s.walkFuel prev)
          (some prev)).reverse.mergeSort candidateLe = sorted := by
      rw [hsorted, ← hcandidates]
      rfl
    unfold computeNextStakeModifier
    simp only [hlast', hsort, bind, Except.bind]
    split_ifs with hsame
    · rfl
    · change (modifierRounds s sorted _ nTime _ 0 nStart [] 0).bind (fun nNew => .ok (nNew, true)) = _
      rw [hrun']
      rfl

/-- **The next stake modifier**, for every chain of the index: it is always
computed. Where a new one is generated, its candidates are the blocks back
to the first whose time is before the start of the selection; exactly
`min 64 n` rounds take one each of them, as `Picks` says; and its bits are
the entropy bits of the blocks taken, all others being zero. -/
theorem computeNextStakeModifier_selects (s : NodeState) (prev : Uint256) (l : List Uint256) (nTime : ℕ)
    (h : IndexChain s prev l) :
    ∃ nStakeModifier fGenerated,
      computeNextStakeModifier s (some prev) nTime = .ok (nStakeModifier, fGenerated) ∧
      (fGenerated = true → ∃ g selected,
        l.find? (fun p => (s.entry p).fGeneratedStakeModifier) = some g ∧
        Selects s (s.entry g).nStakeModifier nTime (selectionStart s prev nTime)
          (l.takeWhile fun p => selectionStart s prev nTime ≤ (s.entry p).getBlockTime)
          selected nStakeModifier) := by
  obtain ⟨g, selected, nStakeModifier, hg, hselects, hrun⟩ := h.computeNextStakeModifier_eq nTime
  split_ifs at hrun
  · exact ⟨_, _, hrun, fun h => absurd h (by simp)⟩
  · exact ⟨_, _, hrun, fun _ => ⟨g, selected, hg, hselects⟩⟩

/-! ## Blocks behind an early one -/

namespace EarlyBlock

/-- A block of some time. -/
def block (nTime : ℕ) (nHeight : ℤ) (pprev : Option Uint256) : CBlockIndex :=
  { (default : CBlockIndex) with
    nTime := nTime, nHeight := nHeight, pprev := pprev, fStakeEntropy := true
    fGeneratedStakeModifier := pprev = none }

/-- A chain of four blocks. The third is earlier than the second. -/
def state : NodeState :=
  { NodeState.blank (fun _ => ⟨0, true, fun _ _ => true⟩) with
    mapBlockIndex := ((((∅ : Map Uint256 CBlockIndex).insert 1 (block 0 0 none)).insert 2
      (block 6600 1 (some 1))).insert 3 (block 6500 2 (some 2))).insert 4 (block 10000 3 (some 3)) }

omit P

theorem chain : IndexChain state 4 [4, 3, 2, 1] := by
  have h₁ : IndexChain state 1 [1] := .genesis (by decide +kernel) (by decide +kernel)
    (by decide +kernel) (by decide +kernel)
  have h₂ : IndexChain state 2 [2, 1] := h₁.next (by decide +kernel) (by decide +kernel) (by decide +kernel)
  have h₃ : IndexChain state 3 [3, 2, 1] :=
    h₂.next (by decide +kernel) (by decide +kernel) (by decide +kernel)
  exact h₃.next (by decide +kernel) (by decide +kernel) (by decide +kernel)

end EarlyBlock

omit P in
open EarlyBlock in
/-- The next modifier of that chain. -/
theorem computeNextStakeModifier_selects_early :
    ∃ nStakeModifier fGenerated,
      computeNextStakeModifier (P := Platform.toy) state (some 4) hardforkTime =
        .ok (nStakeModifier, fGenerated) := by
  obtain ⟨m, fGenerated, hrun, -⟩ := computeNextStakeModifier_selects (P := Platform.toy) state 4 _
    hardforkTime chain
  exact ⟨m, fGenerated, hrun⟩

omit P in
open EarlyBlock in
/-- A block late enough does not count as a candidate when it stands behind
one that is too early. -/
theorem computeNextStakeModifier_not_all :
    letI := Platform.toy
    ¬ ∀ (s : NodeState) (prev : Uint256) (l : List Uint256) (nTime : ℕ), IndexChain s prev l →
      ∃ nStakeModifier fGenerated,
        computeNextStakeModifier s (some prev) nTime = .ok (nStakeModifier, fGenerated) ∧
        (fGenerated = true → ∃ g selected,
          l.find? (fun p => (s.entry p).fGeneratedStakeModifier) = some g ∧
          Selects s (s.entry g).nStakeModifier nTime (selectionStart s prev nTime)
            (l.filter fun p => selectionStart s prev nTime ≤ (s.entry p).getBlockTime)
            selected nStakeModifier) := by
  let := Platform.toy
  intro hall
  obtain ⟨m, fGenerated, hrun, hnew⟩ := hall state 4 _ hardforkTime chain
  obtain ⟨g, selected, m', hg, hselects, hrun'⟩ := chain.computeNextStakeModifier_eq hardforkTime
  obtain rfl : g = 1 := by
    have hfind : [4, 3, 2, 1].find? (fun p => (state.entry p).fGeneratedStakeModifier) = some 1 := by
      decide +kernel
    rw [hfind] at hg
    exact (Option.some.inj hg).symm
  rw [if_neg (by decide +kernel), hrun] at hrun'
  obtain ⟨rfl, rfl⟩ := Prod.mk.inj (Except.ok.inj hrun')
  obtain ⟨_, selected', -, hselects'⟩ := hnew rfl
  -- one round is made, of the last block alone
  have hone : selected.length = 1 := by
    rw [hselects.rounds]
    decide +kernel
  have htwo : selected'.length = 2 := by
    rw [hselects'.rounds]
    decide +kernel
  have hbit := hselects.bits 1
  rw [List.getElem?_eq_none hone.le] at hbit
  have hbit' := hselects'.bits 1
  rw [hbit, List.getElem?_eq_getElem (htwo ▸ Nat.lt_succ_self 1)] at hbit'
  have hmem := (hselects'.picks 1 _ (List.getElem?_eq_getElem (htwo ▸ Nat.lt_succ_self 1))).mem
  have hall' : ([4, 3, 2, 1] : List Uint256).all (fun p => (state.entry p).fStakeEntropy) = true := by
    decide +kernel
  have hentropy := List.all_eq_true.1 hall' _ (List.mem_filter.1 hmem).1
  rw [Option.map_some, Option.getD_some, hentropy] at hbit'
  exact absurd hbit' (by decide)

end CryptoBullion
