import CryptoBullion.Chain.Agreement
import CryptoBullion.Model.Locator
/-!
# Locators find the fork

The `k`-th entry of a locator stands `distance k` blocks back: one block
further with each entry at first, and from the eleventh on the steps
double. The reader's own count takes the same steps (`distanceLoop_eq`).
A reader whose chain forks off `d` blocks back has every entry from there
on, so it finds the first that is `d` blocks back or more, and that is
never twice as far.
-/

namespace CryptoBullion

namespace Locator

/-! ## The steps -/

/-- How far back the `k`-th entry is. -/
def distance (k : ℕ) : ℕ := if k ≤ 10 then k else 9 + 2 ^ (k - 10)

/-- How far it is from there to the next. -/
def step (k : ℕ) : ℕ := if k ≤ 10 then 1 else 2 ^ (k - 10)

variable {k d n : ℕ}

theorem distance_succ : distance (k + 1) = distance k + step k := by
  unfold distance step
  rcases Nat.lt_trichotomy k 10 with h | rfl | h
  · rw [if_pos (by omega), if_pos (by omega), if_pos (by omega)]
  · rfl
  · rw [if_neg (by omega), if_neg (by omega), if_neg (by omega)]
    obtain ⟨m, rfl⟩ : ∃ m, k = 10 + m := ⟨k - 10, by omega⟩
    rw [show 10 + m + 1 - 10 = m + 1 by omega, show 10 + m - 10 = m by omega, pow_succ]
    omega

theorem step_pos : 0 < step k := by
  unfold step
  split_ifs
  · exact one_pos
  · exact Nat.two_pow_pos _

/-- "Exponentially larger steps back", after ten entries. -/
theorem step_succ : step (k + 1) = if 10 ≤ k then step k * 2 else step k := by
  unfold step
  rcases Nat.lt_trichotomy k 10 with h | rfl | h
  · rw [if_pos (by omega), if_neg (by omega), if_pos (by omega)]
  · rfl
  · rw [if_neg (by omega), if_pos (by omega), if_neg (by omega)]
    obtain ⟨m, rfl⟩ : ∃ m, k = 10 + m := ⟨k - 10, by omega⟩
    rw [show 10 + m + 1 - 10 = m + 1 by omega, show 10 + m - 10 = m by omega, pow_succ]

theorem strictMono_distance : StrictMono distance :=
  strictMono_nat_of_lt_succ fun k => by
    rw [distance_succ]
    exact Nat.lt_add_of_pos_right step_pos

theorem ten_lt_distance_iff : 10 < distance k ↔ 10 < k := by
  have hten : distance 10 < distance k ↔ 10 < k := strictMono_distance.lt_iff_lt
  exact hten

/-- Up to eleven blocks back every block has an entry. -/
theorem distance_of_le (h : k ≤ 11) : distance k = k := by
  unfold distance
  split_ifs with hle
  · rfl
  · obtain rfl : k = 11 := by omega
    rfl

/-- **The first entry that is far enough is not twice as far.** -/
theorem distance_lt_two_mul (h : 11 < d) (hlt : ∀ j, j < k → distance j < d) : distance k < 2 * d := by
  by_cases hk : k ≤ 11
  · rw [distance_of_le hk]
    omega
  · obtain ⟨m, rfl⟩ : ∃ m, k = 11 + (m + 1) := ⟨k - 12, by omega⟩
    have hbefore := hlt (11 + m) (by omega)
    unfold distance at hbefore ⊢
    rw [if_neg (by omega)] at hbefore ⊢
    rw [show 11 + m - 10 = m + 1 by omega] at hbefore
    rw [show 11 + (m + 1) - 10 = m + 1 + 1 by omega, pow_succ]
    omega

end Locator

open Locator

variable {s r : NodeState} {pindex h : Uint256} {p : Option Uint256} {l rest : List Uint256}
variable {vHave : CBlockLocator} {d k n fuel : ℕ}

/-! ## Writing a locator -/

/-- Going back takes blocks off a line of descent. -/
theorem stepBack_of_lineage (hl : Lineage s.pprev pindex l) :
    s.stepBack n (some pindex) = l[n]? := by
  induction n generalizing pindex l with
  | zero => exact hl.head?_eq.symm.trans List.head?_eq_getElem?
  | succ n ih =>
    rw [NodeState.stepBack]
    cases hl with
    | root hroot =>
      rw [hroot]
      cases n <;> rfl
    | step hp hl =>
      rw [hp, List.getElem?_cons_succ]
      exact ih hl

/-- What is behind a block of a line of descent is that block's. -/
theorem Lineage.drop (hl : Lineage s.pprev pindex l) (hn : l[n]? = some h) :
    Lineage s.pprev h (l.drop n) := by
  obtain ⟨hlt, hget⟩ := List.getElem?_eq_some_iff.1 hn
  have hsplit : l = l.take n ++ h :: l.drop (n + 1) := by
    rw [← hget, ← List.drop_eq_getElem_cons hlt, List.take_append_drop]
  rw [List.drop_eq_getElem_cons hlt, hget]
  rw [hsplit] at hl
  exact hl.suffix

/-- A line of descent is no longer than the height it starts at allows. -/
theorem Lineage.length_le {ι : Type} {parent : ι → Option ι} {height : ι → ℤ} {i : ι} {l : List ι}
    (h : Lineage parent i l) (hg : Graded parent height) : l.length ≤ (height i).toNat + 1 := by
  induction h with
  | root _ => exact Nat.le_add_left 1 _
  | @step i j l hp _ ih =>
    have hlt := hg.lt hp
    have hnonneg := hg.nonneg j
    rw [List.length_cons]
    omega

/-- The entries of a line of descent from the `k`-th on: those within it. -/
def entries (l : List Uint256) (k : ℕ) : ℕ → List Uint256
  | 0 => []
  | fuel + 1 =>
    match l[distance k]? with
    | none => []
    | some h => h :: entries l (k + 1) fuel

/-- **The loop takes the entries one by one.** -/
theorem setLoop_of_lineage (hl : Lineage s.pprev pindex l) (hk : vHave.length = k) :
    s.setLoop fuel (step k) l[distance k]? vHave = vHave ++ entries l k fuel := by
  induction fuel generalizing k vHave with
  | zero => exact (List.append_nil _).symm
  | succ fuel ih =>
    rw [entries]
    rcases hget : l[distance k]? with _ | h
    · exact (List.append_nil _).symm
    · have hback : s.stepBack (step k) (some h) = l[distance (k + 1)]? := by
        rw [stepBack_of_lineage (hl.drop hget), List.getElem?_drop, distance_succ]
      have hstep : (if 10 < (vHave ++ [h]).length then step k * 2 else step k) = step (k + 1) := by
        rw [step_succ, List.length_append, List.length_singleton, hk]
        exact if_congr (by omega) rfl rfl
      rw [NodeState.setLoop]
      dsimp only
      rw [hstep, hback, ih (by rw [List.length_append, List.length_singleton, hk]), List.append_assoc]
      rfl

theorem length_entries_le : (entries l k fuel).length ≤ fuel := by
  induction fuel generalizing k with
  | zero => exact le_rfl
  | succ fuel ih =>
    rw [entries]
    split
    · exact Nat.zero_le _
    · exact Nat.succ_le_succ ih

/-- Each entry is where it should be. -/
theorem getElem?_entries {i : ℕ} (hi : i < (entries l k fuel).length) :
    (entries l k fuel)[i]? = l[distance (k + i)]? := by
  induction fuel generalizing k i with
  | zero => exact absurd hi (Nat.not_lt_zero _)
  | succ fuel ih =>
    rw [entries] at hi ⊢
    split at hi <;> rename_i hget
    · exact absurd hi (Nat.not_lt_zero _)
    · cases i with
      | zero => exact hget.symm
      | succ i =>
        rw [List.getElem?_cons_succ, ih (Nat.lt_of_succ_lt_succ hi)]
        congr 2
        omega

/-- Where the entries end, so does the line of descent, given fuel for all of
it. -/
theorem length_le_distance (hfuel : l.length ≤ k + fuel) :
    l.length ≤ distance (k + (entries l k fuel).length) := by
  induction fuel generalizing k with
  | zero =>
    have hle := strictMono_distance.le_apply (x := k)
    show l.length ≤ distance k
    omega
  | succ fuel ih =>
    rw [entries]
    split <;> rename_i hget
    · exact List.getElem?_eq_none_iff.1 hget
    · have h := ih (k := k + 1) (by omega)
      rw [List.length_cons]
      rwa [show k + 1 + (entries l (k + 1) fuel).length = k + ((entries l (k + 1) fuel).length + 1) by
        omega] at h

/-! ## Reading a locator -/

/-- **The reader's distance is that of the first entry it has**, or one
entry further where it has none. -/
theorem distanceLoop_eq : r.distanceLoop (distance k) (step k) vHave =
    distance (k + vHave.findIdx r.hasInMainChain) := by
  induction vHave generalizing k with
  | nil => rfl
  | cons hash vHave ih =>
    rw [NodeState.distanceLoop, List.findIdx_cons]
    cases hhas : r.hasInMainChain hash
    · have hstep : (if 10 < distance k + step k then step k * 2 else step k) = step (k + 1) := by
        rw [step_succ, ← distance_succ]
        exact if_congr (ten_lt_distance_iff.trans Nat.lt_succ_iff) rfl rfl
      rw [if_neg Bool.false_ne_true, hstep, ← distance_succ, ih, cond_false]
      congr 1
      omega
    · rw [if_pos rfl, cond_true]
      rfl

/-- A node's main chain, tip first. -/
structure NodeState.MainChain (r : NodeState) (l : List Uint256) : Prop where
  mem_iff : ∀ h, r.hasInMainChain h = true ↔ h ∈ l
  lineage : ∃ tip, Lineage r.pprev tip l

/-- A sound node has one. -/
theorem NodeState.Sound.exists_mainChain [P : Platform] (hr : r.Sound) :
    ∃ l, r.MainChain l ∧ l.getLast? = r.pindexGenesisBlock := by
  obtain ⟨best, l, hb, hc⟩ := hr.chain
  have hmem := hr.forest.mem_of_lineage hc.thread.lineage hb.mem
  refine ⟨l, ⟨fun h => ?_, best, hc.thread.lineage⟩,
    genesis_of_lineage hr.forest hr.filed hc.thread.lineage hb.mem⟩
  have hmain : r.isInMainChain h = true ↔ h ∈ l := by
    rw [hc.thread.mem_iff_next, NodeState.isInMainChain, hb.pindexBest, Bool.or_eq_true,
      decide_eq_true_iff, Option.some.injEq, eq_comm (a := best)]
  unfold NodeState.hasInMainChain
  rw [Bool.and_eq_true, hmain]
  exact ⟨fun h => h.2, fun h => ⟨Std.ExtTreeMap.mem_iff_contains.1 (hmem _ h), h⟩⟩

/-- The second chain forks from the first at `fork`, `d` blocks back. -/
structure ForksAt (chain main : List Uint256) (d : ℕ) (fork : Uint256) : Prop where
  get : chain[d]? = some fork
  mem : fork ∈ main
  above : ∀ k < d, ∀ h, chain[k]? = some h → h ∉ main

variable {chain main : List Uint256} {fork : Uint256}

/-- From the fork on, the first chain is in the second: a block has the same
predecessor in both. -/
theorem ForksAt.mem_iff (hf : ForksAt chain main d fork) (hchain : Lineage s.pprev pindex chain)
    (hmain : r.MainChain main) (hshared : ∀ h ∈ chain, h ∈ main → s.pprev h = r.pprev h)
    (hk : chain[k]? = some h) : h ∈ main ↔ d ≤ k := by
  refine ⟨fun hmem => ?_, fun hle => ?_⟩
  · by_contra hlt
    exact hf.above k (by omega) h hk hmem
  · obtain ⟨tip, hl⟩ := hmain.lineage
    induction k, hle using Nat.le_induction generalizing h with
    | base =>
      obtain rfl : h = fork := Option.some.inj (hk.symm.trans hf.get)
      exact hf.mem
    | succ k hle ih =>
      obtain ⟨hlt, -⟩ := List.getElem?_eq_some_iff.1 hk
      have hbefore : chain[k]? = some chain[k] := List.getElem?_eq_getElem (by omega)
      have hmem := ih hbefore
      -- the block's predecessor in the one chain is its predecessor in the other
      have hparent : s.pprev chain[k] = some h := by
        have hdrop := stepBack_of_lineage (n := 1) (hchain.drop hbefore)
        rw [List.getElem?_drop, hk] at hdrop
        exact hdrop
      rw [hshared _ (List.getElem_mem _) hmem] at hparent
      exact hl.parent_mem hmem hparent

/-- What a reader finds in a locator: block `h`, which is `k` blocks back,
and the distance it works out. -/
structure Finds [P : Platform] (r : NodeState) (vHave : CBlockLocator) (chain main : List Uint256)
    (d : ℕ) (fork h : Uint256) (k : ℕ) : Prop where
  back : chain[k]? = some h
  found : r.getBlockIndex vHave = some h
  common : h ∈ main
  exact_of_le : d ≤ 11 → h = fork
  near : 11 < d → k < 2 * d ∨ h = hashGenesisBlock
  distance_le : k ≤ r.getDistanceBack vHave
  distance_eq : (∃ e ∈ vHave.dropLast, r.hasInMainChain e = true) → r.getDistanceBack vHave = k

section
variable [P : Platform]

/-- A locator is its entries and the genesis block. -/
theorem locator_eq (hchain : Lineage s.pprev pindex chain) : s.locator pindex =
    entries chain 0 ((s.nHeight pindex).toNat + 1) ++ [hashGenesisBlock] := by
  have hloop : s.setLoop ((s.nHeight pindex).toNat + 1) (step 0) chain[distance 0]? [] =
      [] ++ entries chain 0 ((s.nHeight pindex).toNat + 1) := setLoop_of_lineage hchain rfl
  have hfirst : chain[distance 0]? = some pindex := hchain.head?_eq ▸ List.head?_eq_getElem?.symm
  rw [hfirst] at hloop
  unfold NodeState.locator
  exact congrArg (· ++ [hashGenesisBlock]) hloop

omit P in
/-- The first entry a reader has is what it finds. -/
theorem getBlockIndex_of_findIdx {i : ℕ} (hi : vHave.findIdx r.hasInMainChain = i)
    (hget : vHave[i]? = some h) : r.getBlockIndex vHave = some h := by
  obtain ⟨hlt, hget⟩ := List.getElem?_eq_some_iff.1 hget
  have hfind : vHave.find? r.hasInMainChain = some h := by
    rw [List.find?_eq_some_iff_getElem]
    refine ⟨?_, i, hlt, hget, fun j hj => ?_⟩
    · subst hi
      rw [← hget]
      exact List.findIdx_getElem
    · subst hi
      simpa using List.not_of_lt_findIdx hj
  unfold NodeState.getBlockIndex
  rw [hfind, Option.some_or]

/-- **Locators find the fork.** For every two nodes whose chains share the
genesis block, a block of the one and its line of descent, and the main
chain of the other that forks from it `d` blocks back: what the other finds
in the block's locator is a common ancestor, the fork itself for `d` up to
eleven, and otherwise less than `2 * d` blocks back or the genesis block;
and the distance it works out is exact, or at least as large where only the
appended genesis block was found. -/
theorem locator_finds (s r : NodeState) (pindex : Uint256) (chain main : List Uint256) (d : ℕ)
    (fork : Uint256) (hs : s.Forest) (hchain : Lineage s.pprev pindex chain)
    (hmain : r.MainChain main) (hgenesis : chain.getLast? = some hashGenesisBlock)
    (hgenesis' : main.getLast? = some hashGenesisBlock)
    (hshared : ∀ h ∈ chain, h ∈ main → s.pprev h = r.pprev h) (hf : ForksAt chain main d fork) :
    ∃ h k, Finds r (s.locator pindex) chain main d fork h k := by
  have hfuel : chain.length ≤ 0 + ((s.nHeight pindex).toNat + 1) := by
    have := hchain.length_le hs.graded
    omega
  rw [locator_eq hchain]
  have hends := length_le_distance hfuel
  rw [Nat.zero_add] at hends
  generalize hvs : entries chain 0 ((s.nHeight pindex).toNat + 1) = vs at hends
  have hget : ∀ {i : ℕ}, i < vs.length → vs[i]? = chain[distance i]? := by
    intro i hi
    subst hvs
    rw [getElem?_entries hi, Nat.zero_add]
  have hdistance : r.getDistanceBack (vs ++ [hashGenesisBlock]) =
      distance ((vs ++ [hashGenesisBlock]).findIdx r.hasInMainChain) := by
    have hloop : r.distanceLoop (distance 0) (step 0) (vs ++ [hashGenesisBlock]) =
        distance (0 + (vs ++ [hashGenesisBlock]).findIdx r.hasInMainChain) := distanceLoop_eq
    rwa [Nat.zero_add] at hloop
  by_cases hany : ∃ e ∈ vs, r.hasInMainChain e = true
  · -- an entry is found
    have hi : (vs ++ [hashGenesisBlock]).findIdx r.hasInMainChain = vs.findIdx r.hasInMainChain := by
      rw [List.findIdx_append, if_pos (List.findIdx_lt_length.2 hany)]
    have hlt := List.findIdx_lt_length.2 hany
    set i := vs.findIdx r.hasInMainChain with hidef
    have hentry : chain[distance i]? = some vs[i] := by
      rw [← hget hlt]
      exact List.getElem?_eq_getElem hlt
    have hcommon : vs[i] ∈ main := (hmain.mem_iff _).1 List.findIdx_getElem
    have hfar : d ≤ distance i := (hf.mem_iff hchain hmain hshared hentry).1 hcommon
    have hbefore : ∀ j, j < i → distance j < d := by
      intro j hj
      have hentry' : chain[distance j]? = some vs[j] := by
        rw [← hget (hj.trans hlt)]
        exact List.getElem?_eq_getElem (hj.trans hlt)
      by_contra hle
      have hmem := (hf.mem_iff hchain hmain hshared hentry').2 (by omega)
      have hnot := List.not_of_lt_findIdx hj
      rw [(hmain.mem_iff _).2 hmem] at hnot
      exact absurd hnot (by simp)
    refine ⟨vs[i], distance i, hentry, ?_, hcommon, fun hd => ?_, fun hd => ?_, ?_, fun _ => ?_⟩
    · refine getBlockIndex_of_findIdx hi ?_
      rw [List.getElem?_append_left hlt]
      exact List.getElem?_eq_getElem hlt
    · have hexact : distance i = d := by
        have hle : i ≤ d := by
          by_contra hgt
          have := hbefore d (by omega)
          rw [distance_of_le hd] at this
          omega
        have := strictMono_distance.monotone hle
        rw [distance_of_le hd] at this
        omega
      rw [hexact, hf.get] at hentry
      exact (Option.some.inj hentry).symm
    · exact .inl (distance_lt_two_mul hd hbefore)
    · rw [hdistance, hi]
    · rw [hdistance, hi]
  · -- only the genesis block is
    have hi : (vs ++ [hashGenesisBlock]).findIdx r.hasInMainChain = vs.length := by
      have hg : r.hasInMainChain hashGenesisBlock = true :=
        (hmain.mem_iff _).2 (List.mem_of_getLast? hgenesis')
      have hnone : vs.findIdx r.hasInMainChain = vs.length :=
        List.findIdx_eq_length.2 fun e he => by
          by_contra hhas
          exact hany ⟨e, he, by simpa using hhas⟩
      rw [List.findIdx_append, hnone, if_neg (lt_irrefl _), List.findIdx_cons, hg, cond_true, Nat.zero_add]
    have hlen : 0 < chain.length := List.length_pos_iff.2 hchain.ne_nil
    refine ⟨hashGenesisBlock, chain.length - 1, ?_, ?_, List.mem_of_getLast? hgenesis', fun hd => ?_,
      fun _ => .inr rfl, ?_, fun hsome => ?_⟩
    · rw [← List.getLast?_eq_getElem?, hgenesis]
    · refine getBlockIndex_of_findIdx hi ?_
      rw [List.getElem?_append_right le_rfl, Nat.sub_self]
      rfl
    · -- the fork would have been an entry
      exfalso
      obtain ⟨hlt, -⟩ := List.getElem?_eq_some_iff.1 hf.get
      have hd' : d < vs.length := by
        rw [← strictMono_distance.lt_iff_lt, distance_of_le hd]
        omega
      have hfork := hget hd'
      rw [distance_of_le hd, hf.get] at hfork
      exact hany ⟨fork, List.mem_of_getElem? hfork, (hmain.mem_iff _).2 hf.mem⟩
    · rw [hdistance, hi]
      omega
    · rw [List.dropLast_concat] at hsome
      exact absurd hsome hany

end

open Apart in
/-- Two blocks above the tip, one finds the tip. -/
theorem locator_finds_apart :
    letI := Platform.toy
    ∃ main h k, Finds s₃ (s₃.locator 2) [2, 1, hashGenesisBlock] main 2 hashGenesisBlock h k := by
  letI := Platform.toy
  have hsound : s₃.Sound := sound_of_reachable reachable₃ fun h hmem => by
    have htrace : s₃.trace = [] := by decide
    rw [htrace] at hmem
    exact absurd hmem List.not_mem_nil
  have hroot : s₃.pindexGenesisBlock = some hashGenesisBlock := by decide
  have hchain : Lineage s₃.pprev 2 [2, 1, hashGenesisBlock] :=
    .step (by decide) (.step (by decide) (.root (by decide)))
  obtain ⟨main, hmain, hlast⟩ := hsound.exists_mainChain
  rw [hroot] at hlast
  have hout : ∀ h, s₃.hasInMainChain h = false → h ∉ main := fun h hno hmem => by
    rw [(hmain.mem_iff h).2 hmem] at hno
    exact absurd hno (by simp)
  refine ⟨main, locator_finds s₃ s₃ 2 [2, 1, hashGenesisBlock] main 2 hashGenesisBlock
    hsound.forest hchain hmain rfl hlast (fun _ _ _ => rfl) ⟨rfl, List.mem_of_getLast? hlast, ?_⟩⟩
  rintro k hk h hget
  obtain rfl | rfl : k = 0 ∨ k = 1 := by omega
  · obtain rfl : 2 = h := Option.some.inj hget
    exact hout 2 (by decide)
  · obtain rfl : 1 = h := Option.some.inj hget
    exact hout 1 (by decide)

end CryptoBullion
