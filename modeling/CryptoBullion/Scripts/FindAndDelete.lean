import CryptoBullion.Scripts.Instructions
/-!
# Deleting an instruction

`FindAndDelete` walks a script an instruction at a time and takes out what
it finds, comparing bytes wherever it stands. It stands at the front of an
instruction only: behind one it has read, or where bytes have moved up to
from behind one it has erased. What it looks for is an instruction itself,
so it is found just where an instruction is equal to it, never across two
or inside the operand of one.
-/

namespace CryptoBullion

variable {b c pc pc' s tail : CScript} {is : List CScript} {fuel : ℕ}

/-! ## With its result -/

/-- The inner loop, and how often it erases. -/
def eraseHere (b : CScript) : ℕ → CScript → ℕ × CScript
  | 0, pc => (0, pc)
  | fuel + 1, pc =>
    if b.isPrefixOf pc then
      let (nFound, pc) := eraseHere b fuel (pc.drop b.length)
      (nFound + 1, pc)
    else (0, pc)

/-- The outer loop: what is left of the script from `pc` on. -/
def findAndEraseLoop (b : CScript) : ℕ → CScript → ℕ × CScript
  | 0, pc => (0, pc)
  | fuel + 1, pc =>
    let (nHere, pc) := eraseHere b pc.length pc
    match getOp pc with
    | none => (nHere, pc)
    | some (_, _, rest) =>
      let (nFound, left) := findAndEraseLoop b fuel rest
      (nHere + nFound, pc.take (pc.length - rest.length) ++ left)

/-- `CScript::FindAndDelete`: `nFound`, and the script it leaves -/
def findAndErase (b script : CScript) : ℕ × CScript :=
  if b.isEmpty then (0, script) else findAndEraseLoop b (script.length + 1) script

theorem snd_eraseHere : (eraseHere b fuel pc).2 = deleteHere b fuel pc := by
  induction fuel generalizing pc with
  | zero => rfl
  | succ fuel ih =>
    rw [eraseHere, deleteHere]
    split_ifs
    · exact ih
    · rfl

/-- What is left is what signature checks work on. -/
theorem snd_findAndErase : (findAndErase b s).2 = findAndDelete b s := by
  have hloop : ∀ {fuel : ℕ} {pc : CScript},
      (findAndEraseLoop b fuel pc).2 = findAndDeleteLoop b fuel pc := by
    intro fuel
    induction fuel with
    | zero => exact rfl
    | succ fuel ih =>
      intro pc
      rw [findAndEraseLoop, findAndDeleteLoop, ← snd_eraseHere]
      dsimp only
      rcases getOp (eraseHere b pc.length pc).2 with _ | ⟨opcode, data, rest⟩
      · rfl
      · dsimp only
        rw [ih]
  unfold findAndErase findAndDelete
  split_ifs
  · rfl
  · exact hloop

/-! ## Instructions and tail -/

/-- The bytes of one instruction. -/
def IsInstruction (b : CScript) : Prop := ∃ opcode data, getOp b = some (opcode, data, [])

/-- The loop of `GetOp`: each instruction by its bytes, and what is left when
it fails. -/
def splitLoop : ℕ → CScript → List CScript × CScript
  | 0, pc => ([], pc)
  | fuel + 1, pc =>
    match getOp pc with
    | none => ([], pc)
    | some (_, _, rest) =>
      let (is, tail) := splitLoop fuel rest
      (pc.take (pc.length - rest.length) :: is, tail)

/-- A script's instructions up to the first malformed one, and the tail. -/
def split (script : CScript) : List CScript × CScript := splitLoop (script.length + 1) script

/-- What a script is split into: instructions, and a tail that is none. -/
structure Splits (script : CScript) (is : List CScript) (tail : CScript) : Prop where
  eq : script = is.flatten ++ tail
  isInstruction : ∀ c ∈ is, IsInstruction c
  tail : getOp tail = none

theorem IsInstruction.length_pos (h : IsInstruction b) : 0 < b.length := by
  obtain ⟨opcode, data, h⟩ := h
  exact length_of_getOp h

theorem IsInstruction.getOp_append (h : IsInstruction b) (pc : CScript) :
    ∃ opcode data, getOp (b ++ pc) = some (opcode, data, pc) := by
  obtain ⟨opcode, data, h⟩ := h
  exact ⟨opcode, data, CryptoBullion.getOp_append h⟩

/-- **A script is split in one way.** -/
theorem splitLoop_eq (h : Splits s is tail) (hfuel : s.length < fuel) :
    splitLoop fuel s = (is, tail) := by
  induction is generalizing s fuel with
  | nil =>
    obtain rfl : s = tail := h.eq
    cases fuel with
    | zero => exact absurd hfuel (Nat.not_lt_zero _)
    | succ fuel => rw [splitLoop, h.tail]
  | cons c is ih =>
    obtain ⟨hc, his⟩ := List.forall_mem_cons.1 h.isInstruction
    have heq : s = c ++ (is.flatten ++ tail) := by
      rw [h.eq, List.flatten_cons, List.append_assoc]
    obtain ⟨opcode, data, hop⟩ := hc.getOp_append (is.flatten ++ tail)
    have hpos := hc.length_pos
    have hlen : s.length = c.length + (is.flatten ++ tail).length := by
      rw [heq, List.length_append]
    cases fuel with
    | zero => exact absurd hfuel (Nat.not_lt_zero _)
    | succ fuel =>
      have hrest : splitLoop fuel (is.flatten ++ tail) = (is, tail) :=
        ih ⟨rfl, his, h.tail⟩ (by omega)
      rw [splitLoop, heq, hop]
      dsimp only
      rw [hrest, List.length_append, Nat.add_sub_cancel, List.take_left]

theorem splits_splitLoop (hfuel : s.length < fuel) :
    Splits s (splitLoop fuel s).1 (splitLoop fuel s).2 := by
  induction fuel generalizing s with
  | zero => exact absurd hfuel (Nat.not_lt_zero _)
  | succ fuel ih =>
    rw [splitLoop]
    rcases hop : getOp s with _ | ⟨opcode, data, rest⟩
    · exact ⟨rfl, fun _ h => absurd h List.not_mem_nil, hop⟩
    · obtain ⟨c, hc, rfl⟩ := exists_of_getOp hop
      have hpos : 0 < c.length := length_of_getOp hc
      rw [List.length_append] at hfuel
      have hrest := ih (s := rest) (by omega)
      dsimp only
      rw [List.length_append, Nat.add_sub_cancel, List.take_left]
      refine ⟨?_, List.forall_mem_cons.2 ⟨⟨opcode, data, hc⟩, hrest.isInstruction⟩, hrest.tail⟩
      rw [List.flatten_cons, List.append_assoc, ← hrest.eq]

/-- **Every script is split** into its instructions and a tail. -/
theorem splits_split : Splits s (split s).1 (split s).2 := splits_splitLoop (Nat.lt_succ_self _)

theorem split_eq (h : Splits s is tail) : split s = (is, tail) :=
  splitLoop_eq h (Nat.lt_succ_self _)

theorem Splits.cons (h : Splits s (c :: is) tail) :
    s = c ++ (is.flatten ++ tail) ∧ Splits (is.flatten ++ tail) is tail := by
  refine ⟨?_, rfl, fun d hd => h.isInstruction d (List.mem_cons_of_mem c hd), h.tail⟩
  rw [h.eq, List.flatten_cons, List.append_assoc]

/-! ## Erasing -/

/-- **What begins with an instruction** has it for its first. -/
theorem Splits.isPrefixOf_cons (h : Splits s (c :: is) tail) (hb : IsInstruction b) :
    b.isPrefixOf s = true ↔ c = b := by
  rw [List.isPrefixOf_iff_prefix]
  constructor
  · rintro ⟨rest, heq⟩
    obtain ⟨opcode, data, hop⟩ := hb.getOp_append rest
    have hc := h.isInstruction c List.mem_cons_self
    obtain ⟨opcode', data', hop'⟩ := hc.getOp_append (is.flatten ++ tail)
    -- the same script, so the same is left of it
    rw [heq, h.cons.1, hop'] at hop
    obtain ⟨-, h'⟩ := Prod.mk.inj (Option.some.inj hop)
    obtain ⟨-, rfl⟩ := Prod.mk.inj h'
    rw [h.cons.1] at heq
    exact (List.append_cancel_right heq).symm
  · rintro rfl
    exact ⟨_, h.cons.1.symm⟩

/-- A tail begins with none. -/
theorem isPrefixOf_of_getOp_eq_none (htail : getOp tail = none) (hb : IsInstruction b) :
    b.isPrefixOf tail = false := by
  by_contra h
  obtain ⟨rest, rfl⟩ := List.isPrefixOf_iff_prefix.1 (Bool.eq_true_of_not_eq_false h)
  obtain ⟨opcode, data, hop⟩ := hb.getOp_append rest
  rw [htail] at hop
  cases hop

/-- The inner loop erases the instructions at the front that are `b`. -/
theorem eraseHere_eq (h : Splits s is tail) (hb : IsInstruction b) (hfuel : s.length ≤ fuel) :
    eraseHere b fuel s =
      ((is.takeWhile (· = b)).length, (is.dropWhile (· = b)).flatten ++ tail) := by
  induction is generalizing s fuel with
  | nil =>
    obtain rfl : s = tail := h.eq
    cases fuel with
    | zero => rfl
    | succ fuel =>
      rw [eraseHere, isPrefixOf_of_getOp_eq_none h.tail hb, if_neg Bool.false_ne_true]
      rfl
  | cons c is ih =>
    obtain ⟨heq, hrest⟩ := h.cons
    have hpos := (h.isInstruction c List.mem_cons_self).length_pos
    have hlen : s.length = c.length + (is.flatten ++ tail).length := by
      rw [heq, List.length_append]
    cases fuel with
    | zero => omega
    | succ fuel =>
      rw [eraseHere]
      by_cases hcb : c = b
      · have hdrop : s.drop b.length = is.flatten ++ tail := by
          rw [heq, hcb, List.drop_left]
        rw [if_pos ((h.isPrefixOf_cons hb).2 hcb), hdrop, ih hrest (by omega)]
        simp [hcb]
      · rw [if_neg (fun hp => hcb ((h.isPrefixOf_cons hb).1 hp)), heq]
        simp [hcb]

/-- Counting and keeping what is left of the front. -/
theorem count_filter_dropWhile (is : List CScript) (b : CScript) :
    is.count b = (is.takeWhile (· = b)).length + (is.dropWhile (· = b)).count b ∧
      is.filter (· ≠ b) = (is.dropWhile (· = b)).filter (· ≠ b) := by
  induction is with
  | nil => exact ⟨rfl, rfl⟩
  | cons c is ih =>
    by_cases hcb : c = b
    · subst hcb
      simp only [decide_true, List.takeWhile_cons_of_pos, List.dropWhile_cons_of_pos,
        List.count_cons_self, List.length_cons]
      refine ⟨by omega, ?_⟩
      rw [List.filter_cons_of_neg (by simp)]
      exact ih.2
    · simp [hcb]

/-- **The outer loop** takes out every instruction that is `b`. -/
theorem findAndEraseLoop_eq (h : Splits s is tail) (hb : IsInstruction b) (hfuel : s.length < fuel) :
    findAndEraseLoop b fuel s = (is.count b, (is.filter (· ≠ b)).flatten ++ tail) := by
  induction fuel generalizing s is with
  | zero => exact absurd hfuel (Nat.not_lt_zero _)
  | succ fuel ih =>
    obtain ⟨hcount, hfilter⟩ := count_filter_dropWhile is b
    have hmem : ∀ c ∈ is.dropWhile (· = b), IsInstruction c := fun c hc =>
      h.isInstruction c ((List.dropWhile_suffix _).subset hc)
    have hle : ((is.dropWhile (· = b)).flatten ++ tail).length ≤ s.length := by
      rw [h.eq]
      conv_rhs => rw [← List.takeWhile_append_dropWhile (p := (· = b)) (l := is)]
      simp only [List.flatten_append, List.length_append]
      omega
    rw [findAndEraseLoop, eraseHere_eq h hb le_rfl]
    dsimp only
    rw [hcount, hfilter]
    rcases hleft : is.dropWhile (· = b) with _ | ⟨c, rest⟩
    · -- none is left
      rw [List.flatten_nil, List.nil_append, h.tail]
      simp
    · rw [hleft] at hmem hle
      have hcb : ¬ c = b := by
        have hne : is.dropWhile (· = b) ≠ [] := by simp [hleft]
        simpa [hleft] using List.head_dropWhile_not (· = b) hne
      have hsplits : Splits ((c :: rest).flatten ++ tail) (c :: rest) tail := ⟨rfl, hmem, h.tail⟩
      obtain ⟨heq, hrest⟩ := hsplits.cons
      have hpos := (hmem c List.mem_cons_self).length_pos
      obtain ⟨opcode, data, hop⟩ := (hmem c List.mem_cons_self).getOp_append (rest.flatten ++ tail)
      have hlen : (rest.flatten ++ tail).length < fuel := by
        rw [heq, List.length_append] at hle
        omega
      rw [heq, hop]
      dsimp only
      rw [ih hrest hlen, List.length_append, Nat.add_sub_cancel, List.take_left,
        List.count_cons_of_ne hcb, List.filter_cons_of_pos (by simpa using hcb), List.flatten_cons,
        List.append_assoc]

/-- **Deleting an instruction deletes just the instructions equal to it.** For
every script, split into its instructions and a malformed tail, and every
well-formed instruction `b`: the instructions that are not `b` are left, in
order and with the bytes they had, and the tail behind them; the number of
the others is returned; and nothing is found the second time. -/
theorem findAndErase_instructions (s b : CScript) (hb : IsInstruction b) :
    Splits s (split s).1 (split s).2 ∧
      findAndErase b s =
        ((split s).1.count b, ((split s).1.filter (· ≠ b)).flatten ++ (split s).2) ∧
      split (findAndErase b s).2 = ((split s).1.filter (· ≠ b), (split s).2) ∧
      findAndErase b (findAndErase b s).2 = (0, (findAndErase b s).2) ∧
      findAndDelete b s = (findAndErase b s).2 := by
  have hne : b.isEmpty = false := by
    cases b with
    | nil => exact absurd hb.length_pos (Nat.not_lt_zero _)
    | cons op b => rfl
  have herase : ∀ {s is tail}, Splits s is tail →
      findAndErase b s = (is.count b, (is.filter (· ≠ b)).flatten ++ tail) := by
    intro s is tail h
    rw [findAndErase, hne, if_neg Bool.false_ne_true, findAndEraseLoop_eq h hb (Nat.lt_succ_self _)]
  have hsplits : Splits s (split s).1 (split s).2 := splits_split
  have hleft : Splits (((split s).1.filter (· ≠ b)).flatten ++ (split s).2)
      ((split s).1.filter (· ≠ b)) (split s).2 :=
    ⟨rfl, fun c hc => hsplits.isInstruction c (List.mem_of_mem_filter hc), hsplits.tail⟩
  have hgone : ((split s).1.filter (· ≠ b)).count b = 0 := by
    rw [List.count_eq_zero]
    intro hmem
    simpa using List.of_mem_filter hmem
  have hkept : ((split s).1.filter (· ≠ b)).filter (· ≠ b) = (split s).1.filter (· ≠ b) := by
    rw [List.filter_filter]
    simp
  refine ⟨hsplits, herase hsplits, ?_, ?_, snd_findAndErase.symm⟩
  · rw [herase hsplits]
    exact split_eq hleft
  · rw [herase hsplits, herase hleft, hgone, hkept]

/-- The push of one byte, deleted from a script that has it twice, once inside
a longer push. -/
theorem findAndErase_instructions_push :
    findAndErase [1, 7] [1, 7, 3, 1, 7, 9, 172, 1, 7] = (2, [3, 1, 7, 9, 172]) := by
  have h := (findAndErase_instructions [1, 7, 3, 1, 7, 9, 172, 1, 7] [1, 7] ⟨1, [7], by decide⟩).2.1
  rw [h]
  decide

end CryptoBullion
