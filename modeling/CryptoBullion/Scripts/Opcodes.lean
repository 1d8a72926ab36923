import CryptoBullion.Common.Triple
import CryptoBullion.Model.Interpreter
import CryptoBullion.Model.Serialize
import CryptoBullion.Targets.Compact
/-!
# What an opcode does

One assertion runs through all opcodes: `Deep L k c n` says how many elements
the stack has at least, that no element is longer than a value may be, and
where the two counters stand. Each access of the code has its rule, which
asks for the depth the access needs; an opcode's triple is put together
from the rules of its accesses. So every `if (stack.size() < n)` of the
source is seen to be as large as the accesses behind it.
-/

namespace CryptoBullion

/-! ## Numbers on the stack -/

section
variable {vch : List UInt8} {n : ℤ}

/-- A number of 64 bits takes eight bytes. -/
theorem length_getVch_le (hn : n.natAbs < 2 ^ 63) : (getVch n).length ≤ 8 := by
  rw [getVch, length_leBytes]
  rcases Nat.eq_zero_or_pos n.natAbs with h | h
  · rw [h]
    decide
  · have := mpiSize_lt h (k := 9) hn (by norm_num)
    omega

/-- A count takes no more bytes than what it counts, or eight. -/
theorem length_getVch_natCast_le {m : ℕ} : (getVch (m : ℤ)).length ≤ max 8 m := by
  rw [getVch, length_leBytes, Int.natAbs_natCast]
  unfold mpiSize
  split_ifs with h₁ h₂
  · omega
  all_goals
    have := Nat.log2_le_self m
    omega

/-- A number `CastToBigNum` takes is small. -/
theorem natAbs_bnOfVch_lt (hlen : vch.length ≤ nMaxNumSize) : (bnOfVch vch).natAbs < 2 ^ 32 := by
  have hlt : ofLeBytes vch < 2 ^ 32 :=
    ofLeBytes_lt.trans_le ((Nat.pow_le_pow_right (by norm_num) hlen).trans (by norm_num [nMaxNumSize]))
  unfold bnOfVch
  split
  · decide
  · split_ifs
    · rw [Int.natAbs_neg, Int.natAbs_natCast]
      exact (Nat.sub_le _ _).trans_lt hlt
    · rwa [Int.natAbs_natCast]

theorem getInt_nonneg_le : getInt n ≤ 2147483647 := by
  unfold getInt
  split_ifs <;> omega

end

namespace ScriptStep

open Step (Triple)

/-! ## The assertion -/

/-- The longest value a script may push, or what was on the stack before. -/
def longest (L : ℕ) : ℕ := max 520 L

theorem le_longest {L n : ℕ} (h : n ≤ 520) : n ≤ longest L := h.trans (le_max_left _ _)

/-- Of a stack: at least `n` elements, none too long; and the counters, the
first within its limit. -/
structure Deep (L k c n : ℕ) (s : ScriptState) : Prop where
  few : k ≤ 201
  depth : n ≤ s.stack.length
  short : ∀ vch ∈ s.stack, vch.length ≤ longest L
  shortAlt : ∀ vch ∈ s.altstack, vch.length ≤ longest L
  nOpCount : s.nOpCount = k
  nCheckSigs : s.nCheckSigs ≤ c

/-- How an opcode may fail: by the code's own choice, or on a number too
long. The stack left is as good as any. -/
structure Stops (L c : ℕ) (f : ScriptFailure) (s : ScriptState) : Prop where
  inRange : f ≠ .outOfRange
  inTurns : f ≠ .outOfTurns
  short : ∀ vch ∈ s.stack, vch.length ≤ longest L
  nCheckSigs : s.nCheckSigs ≤ c

variable {L k c m n i j : ℕ} {vch : List UInt8} {s : ScriptState} {p : Prop} {f : ScriptFailure}

namespace Deep

theorem le (hs : Deep L k c m s) (h : n ≤ m) : Deep L k c n s :=
  ⟨hs.few, h.trans hs.depth, hs.short, hs.shortAlt, hs.nOpCount, hs.nCheckSigs⟩

theorem stops (hs : Deep L k c m s) (h₁ : f ≠ .outOfRange) (h₂ : f ≠ .outOfTurns) : Stops L c f s :=
  ⟨h₁, h₂, hs.short, hs.nCheckSigs⟩

/-- More calls may have been made. -/
theorem calls {d : ℕ} (hs : Deep L k c n s) (h : c ≤ d) : Deep L k d n s :=
  ⟨hs.few, hs.depth, hs.short, hs.shortAlt, hs.nOpCount, hs.nCheckSigs.trans h⟩

/-- Another stack of short elements. -/
theorem withStack (hs : Deep L k c m s) {stack : List (List UInt8)} (hn : n ≤ stack.length)
    (hshort : ∀ vch ∈ stack, vch.length ≤ longest L) : Deep L k c n { s with stack := stack } :=
  ⟨hs.few, hn, hshort, hs.shortAlt, hs.nOpCount, hs.nCheckSigs⟩

theorem push (hs : Deep L k c n s) (h : vch.length ≤ longest L) :
    Deep L k c (n + 1) { s with stack := vch :: s.stack } := by
  have hdepth := hs.depth
  refine hs.withStack (by rw [List.length_cons]; omega) fun v hv => ?_
  rcases List.mem_cons.1 hv with rfl | hv
  · exact h
  · exact hs.short v hv

end Deep

/-! ## Rules for the accesses -/

theorem require_of [Decidable p] (h : p) : require p s = (.ok (), s) := by
  rw [require, if_pos h]
  rfl

theorem require_of_not [Decidable p] (h : ¬ p) : require p s = (.error .returnFalse, s) := by
  rw [require, if_neg h]
  rfl

theorem fail_spec {α : Type} {Q : α → ScriptState → Prop} :
    Triple (Deep L k c n) (Step.fail .returnFalse : ScriptStep α) Q (Stops L c) :=
  Triple.fail.pre fun _ hs => hs.stops (by simp) (by simp)

theorem require_spec {I : ScriptState → Prop} [Decidable p] (hI : ∀ s, I s → Deep L k c n s) :
    Triple I (require p) (fun _ s => p ∧ I s) (Stops L c) := by
  unfold require
  refine .ite (fun hp => ?_) fun _ => fail_spec.pre hI
  exact (Triple.pure (Q := fun _ s => p ∧ I s)).pre fun s hs => ⟨hp, hs⟩

/-- A condition on the state there is. -/
theorem check_spec {q : ScriptState → Prop} [DecidablePred q] :
    Triple (Deep L k c n) (Step.get >>= fun s => require (q s)) (fun _ s => q s ∧ Deep L k c n s)
      (Stops L c) := by
  refine .get_bind fun t ht => ?_
  refine (require_spec fun s hs => hs ▸ ht).post fun _ s hs => ?_
  obtain ⟨hq, rfl⟩ := hs
  exact ⟨hq, ht⟩

/-- **`if (stack.size() < n) return false;`** -/
theorem needs_spec : Triple (Deep L k c m) (needs n) (fun _ => Deep L k c n) (Stops L c) := by
  unfold needs
  refine check_spec.post fun _ s hs => ?_
  exact ⟨hs.2.few, hs.1, hs.2.short, hs.2.shortAlt, hs.2.nOpCount, hs.2.nCheckSigs⟩

/-- **`stacktop(-i)` of a stack deep enough** gives an element. -/
theorem stackTop_spec (hi : 1 ≤ i) (hin : i ≤ n) :
    Triple (Deep L k c n) (stackTop i) (fun vch s => vch.length ≤ longest L ∧ Deep L k c n s)
      (Stops L c) := by
  unfold stackTop
  refine .get_bind fun t ht => ?_
  have hlt : i - 1 < t.stack.length := by
    have := ht.depth
    omega
  rw [List.getElem?_eq_getElem hlt]
  simp only [if_neg (show ¬ i = 0 by omega)]
  refine Triple.pure.pre fun s hs => ?_
  subst hs
  exact ⟨ht.short _ (List.getElem_mem hlt), ht⟩

theorem setTop_spec (hi : 1 ≤ i) (hin : i ≤ n) (hvch : vch.length ≤ longest L) :
    Triple (Deep L k c n) (setTop i vch) (fun _ => Deep L k c n) (Stops L c) := by
  unfold setTop
  refine .get_bind fun t ht => ?_
  have hdepth := ht.depth
  rw [if_neg (by omega)]
  refine Triple.modify.pre fun s hs => ?_
  subst hs
  refine ht.withStack (by rw [List.length_set]; exact hdepth) fun v hv => ?_
  rcases List.mem_or_eq_of_mem_set hv with hv | rfl
  · exact ht.short v hv
  · exact hvch

theorem pushStack_spec (hvch : vch.length ≤ longest L) :
    Triple (Deep L k c n) (pushStack vch) (fun _ => Deep L k c (n + 1)) (Stops L c) :=
  Triple.modify.pre fun _ hs => hs.push hvch

theorem popStack_spec : Triple (Deep L k c (n + 1)) popStack (fun _ => Deep L k c n) (Stops L c) := by
  unfold popStack
  refine .get_bind fun t ht => ?_
  have hdepth := ht.depth
  rcases hstack : t.stack with _ | ⟨vch, stack⟩
  · rw [hstack] at hdepth
    exact absurd hdepth (by simp)
  · refine Triple.modify.pre fun s hs => ?_
    subst hs
    rw [hstack, List.length_cons] at hdepth
    exact ht.withStack (by omega) fun v hv => ht.short v (hstack ▸ List.mem_cons_of_mem _ hv)

theorem popStacks_spec :
    ∀ {m : ℕ}, Triple (Deep L k c (n + m)) (popStacks m) (fun _ => Deep L k c n) (Stops L c)
  | 0 => Triple.pure (Q := fun _ => Deep L k c n)
  | m + 1 => (popStack_spec (n := n + m)).bind fun _ => popStacks_spec

theorem eraseTop_spec (hi : 1 ≤ i) (hin : i ≤ n + 1) :
    Triple (Deep L k c (n + 1)) (eraseTop i) (fun _ => Deep L k c n) (Stops L c) := by
  unfold eraseTop
  refine .get_bind fun t ht => ?_
  have hdepth := ht.depth
  rw [if_neg (by omega)]
  refine Triple.modify.pre fun s hs => ?_
  subst hs
  refine ht.withStack ?_ fun v hv => ht.short v (List.mem_of_mem_eraseIdx hv)
  rw [List.length_eraseIdx, if_pos (by omega)]
  omega

theorem insertTop_spec (hin : i ≤ n) (hvch : vch.length ≤ longest L) :
    Triple (Deep L k c n) (insertTop i vch) (fun _ => Deep L k c (n + 1)) (Stops L c) := by
  unfold insertTop
  refine .get_bind fun t ht => ?_
  have hdepth := ht.depth
  rw [if_neg (by omega)]
  refine Triple.modify.pre fun s hs => ?_
  subst hs
  refine ht.withStack ?_ fun v hv => ?_
  · rw [List.length_insertIdx_of_le_length (by omega)]
    omega
  · rcases (List.mem_insertIdx (by omega)).1 hv with rfl | hv
    · exact hvch
    · exact ht.short v hv

theorem swapTop_spec (hi : 1 ≤ i) (hin : i ≤ n) (hj : 1 ≤ j) (hjn : j ≤ n) :
    Triple (Deep L k c n) (swapTop i j) (fun _ => Deep L k c n) (Stops L c) := by
  unfold swapTop
  refine (stackTop_spec hi hin).bind fun vch₁ => .and_pre fun h₁ => ?_
  refine (stackTop_spec hj hjn).bind fun vch₂ => .and_pre fun h₂ => ?_
  exact (setTop_spec hi hin h₂).bind fun _ => setTop_spec hj hjn h₁

/-- `CastToBigNum` is where an exception comes from. -/
theorem castToBigNum_spec :
    Triple (Deep L k c n) (castToBigNum vch) (fun bn s => bn.natAbs < 2 ^ 32 ∧ Deep L k c n s)
      (Stops L c) := by
  unfold castToBigNum
  refine .ite (fun _ => ?_) fun hlen => ?_
  · exact Triple.fail.pre fun s hs => hs.stops (by simp) (by simp)
  · exact Triple.pure.pre fun s hs => ⟨natAbs_bnOfVch_lt (by omega), hs⟩

theorem bigNumTop_spec (hi : 1 ≤ i) (hin : i ≤ n) :
    Triple (Deep L k c n) (bigNumTop i) (fun bn s => bn.natAbs < 2 ^ 32 ∧ Deep L k c n s) (Stops L c) := by
  unfold bigNumTop
  exact (stackTop_spec hi hin).bind fun _ => .and_pre fun _ => castToBigNum_spec

theorem verifyResult_spec {fVerify fOk : Bool} :
    Triple (Deep L k c (n + 1)) (verifyResult fVerify fOk) (fun _ => Deep L k c n) (Stops L c) := by
  unfold verifyResult
  refine .ite (fun _ => .ite (fun _ => popStack_spec) fun _ => fail_spec) fun _ => ?_
  exact (Triple.pure (Q := fun _ => Deep L k c n)).pre fun s hs => hs.le (Nat.le_succ n)

theorem length_vchBool_le {b : Bool} : (vchBool b).length ≤ longest L := by
  refine le_longest ?_
  cases b <;> decide

/-! ## Control and stack opcodes -/

theorem ifOp_spec {fNot fExec : Bool} :
    Triple (Deep L k c 0) (ifOp fNot fExec) (fun _ => Deep L k c 0) (Stops L c) := by
  have hvalue : Triple (Deep L k c 0) (ifValue fNot fExec) (fun _ => Deep L k c 0) (Stops L c) := by
    unfold ifValue
    refine .ite (fun _ => ?_) fun _ => Triple.pure (Q := fun _ => Deep L k c 0)
    refine needs_spec.bind fun _ => ?_
    refine (stackTop_spec le_rfl le_rfl).bind fun vch => .and_pre fun _ => ?_
    exact (popStack_spec (n := 0)).bind fun _ => Triple.pure (Q := fun _ => Deep L k c 0)
  unfold ifOp
  refine hvalue.bind fun fValue => Triple.modify.pre fun s hs => ?_
  exact ⟨hs.few, hs.depth, hs.short, hs.shortAlt, hs.nOpCount, hs.nCheckSigs⟩

/-- Behind the check, `vfExec` is not empty. -/
theorem elseOp_spec : Triple (Deep L k c 0) elseOp (fun _ => Deep L k c 0) (Stops L c) := by
  unfold elseOp needsExec flipExec
  refine check_spec.bind fun _ => .get_bind fun t ht => ?_
  rcases hexec : t.vfExec with _ | ⟨f, vfExec⟩
  · exact absurd hexec ht.1
  · refine Triple.modify.pre fun s hs => ?_
    subst hs
    exact ⟨ht.2.few, ht.2.depth, ht.2.short, ht.2.shortAlt, ht.2.nOpCount, ht.2.nCheckSigs⟩

theorem endIfOp_spec : Triple (Deep L k c 0) endIfOp (fun _ => Deep L k c 0) (Stops L c) := by
  unfold endIfOp needsExec popExec
  refine check_spec.bind fun _ => .get_bind fun t ht => ?_
  rcases hexec : t.vfExec with _ | ⟨f, vfExec⟩
  · exact absurd hexec ht.1
  · refine Triple.modify.pre fun s hs => ?_
    subst hs
    exact ⟨ht.2.few, ht.2.depth, ht.2.short, ht.2.shortAlt, ht.2.nOpCount, ht.2.nCheckSigs⟩

theorem verifyOp_spec : Triple (Deep L k c 0) verifyOp (fun _ => Deep L k c 0) (Stops L c) := by
  unfold verifyOp
  refine needs_spec.bind fun _ => ?_
  exact (stackTop_spec le_rfl le_rfl).bind fun vch => .and_pre fun _ => verifyResult_spec

theorem toAltStackOp_spec : Triple (Deep L k c 0) toAltStackOp (fun _ => Deep L k c 0) (Stops L c) := by
  unfold toAltStackOp
  refine needs_spec.bind fun _ => ?_
  refine (stackTop_spec le_rfl le_rfl).bind fun vch => .and_pre fun hvch => ?_
  refine Triple.bind (Q := fun _ => Deep L k c 1) (Triple.modify.pre fun s hs => ?_) fun _ =>
    popStack_spec
  refine ⟨hs.few, hs.depth, hs.short, fun v hv => ?_, hs.nOpCount, hs.nCheckSigs⟩
  rcases List.mem_cons.1 hv with rfl | hv
  · exact hvch
  · exact hs.shortAlt v hv

/-- And so for the other stack. -/
theorem fromAltStackOp_spec :
    Triple (Deep L k c 0) fromAltStackOp (fun _ => Deep L k c 0) (Stops L c) := by
  unfold fromAltStackOp
  refine .get_bind fun t ht => ?_
  refine (require_spec fun s hs => hs ▸ ht).bind fun _ => .and_pre fun hlen => ?_
  rcases halt : t.altstack with _ | ⟨vch, altstack⟩
  · rw [halt] at hlen
    exact absurd hlen (by simp)
  · have hshort : ∀ v ∈ vch :: altstack, v.length ≤ longest L := halt ▸ ht.shortAlt
    refine ((pushStack_spec (hshort vch List.mem_cons_self)).pre fun s hs => hs ▸ ht).bind fun _ =>
      Triple.modify.pre fun s hs => ?_
    exact ⟨hs.few, Nat.zero_le _, hs.short, fun v hv => hshort v (List.mem_cons_of_mem _ hv), hs.nOpCount,
      hs.nCheckSigs⟩

theorem dropOp_spec : Triple (Deep L k c 0) (dropOp n) (fun _ => Deep L k c 0) (Stops L c) := by
  unfold dropOp
  refine needs_spec.bind fun _ => ?_
  exact (popStacks_spec (n := 0)).pre fun s hs => by rwa [Nat.zero_add]

theorem collect_stackTop_spec : ∀ {tops : List ℕ}, (∀ i ∈ tops, 1 ≤ i ∧ i ≤ n) →
    Triple (Deep L k c n) (Step.collect stackTop tops)
      (fun vchs s => (∀ vch ∈ vchs, vch.length ≤ longest L) ∧ Deep L k c n s) (Stops L c)
  | [], _ => Triple.pure.pre fun s hs => ⟨by simp, hs⟩
  | i :: tops, h => by
    obtain ⟨h₁, hn⟩ := h i List.mem_cons_self
    refine (stackTop_spec h₁ hn).bind fun vch => .and_pre fun hvch => ?_
    refine (collect_stackTop_spec fun j hj => h j (List.mem_cons_of_mem i hj)).bind fun vchs =>
      .and_pre fun hvchs => Triple.pure.pre fun s hs => ⟨?_, hs⟩
    exact List.forall_mem_cons.2 ⟨hvch, hvchs⟩

/-- **Copies are taken from among the elements asked for.** -/
theorem copyOp_spec {tops : List ℕ} (h : ∀ i ∈ tops, 1 ≤ i ∧ i ≤ n) :
    Triple (Deep L k c 0) (copyOp n tops) (fun _ => Deep L k c 0) (Stops L c) := by
  unfold copyOp
  refine needs_spec.bind fun _ => ?_
  refine (collect_stackTop_spec h).bind fun vchs => .and_pre fun hvchs => ?_
  refine (Triple.forEach (I := Deep L k c 0) fun vch hvch => ?_).pre fun s hs => hs.le (Nat.zero_le n)
  exact (pushStack_spec (hvchs vch hvch)).post fun _ s hs => hs.le (Nat.zero_le _)

theorem swapOp_spec {pairs : List (ℕ × ℕ)}
    (h : ∀ p ∈ pairs, (1 ≤ p.1 ∧ p.1 ≤ n) ∧ 1 ≤ p.2 ∧ p.2 ≤ n) :
    Triple (Deep L k c 0) (swapOp n pairs) (fun _ => Deep L k c 0) (Stops L c) := by
  unfold swapOp
  refine needs_spec.bind fun _ => ?_
  refine (Triple.forEach fun p hp => ?_).post fun _ s hs => hs.le (Nat.zero_le n)
  obtain ⟨⟨h₁, h₂⟩, h₃, h₄⟩ := h p hp
  exact swapTop_spec h₁ h₂ h₃ h₄

theorem rot2Op_spec : Triple (Deep L k c 0) rot2Op (fun _ => Deep L k c 0) (Stops L c) := by
  unfold rot2Op
  refine needs_spec.bind fun _ => ?_
  refine (stackTop_spec (by norm_num) (by norm_num)).bind fun vch₁ => .and_pre fun h₁ => ?_
  refine (stackTop_spec (by norm_num) (by norm_num)).bind fun vch₂ => .and_pre fun h₂ => ?_
  refine (eraseTop_spec (n := 5) (by norm_num) (by norm_num)).bind fun _ => ?_
  refine (eraseTop_spec (n := 4) (by norm_num) (by norm_num)).bind fun _ => ?_
  refine (pushStack_spec h₁).bind fun _ => ?_
  exact (pushStack_spec h₂).post fun _ s hs => hs.le (Nat.zero_le _)

theorem ifDupOp_spec : Triple (Deep L k c 0) ifDupOp (fun _ => Deep L k c 0) (Stops L c) := by
  unfold ifDupOp
  refine needs_spec.bind fun _ => ?_
  refine (stackTop_spec le_rfl le_rfl).bind fun vch => .and_pre fun hvch => .ite (fun _ => ?_) fun _ => ?_
  · exact (pushStack_spec hvch).post fun _ s hs => hs.le (Nat.zero_le _)
  · exact (Triple.pure (Q := fun _ => Deep L k c 0)).pre fun s hs => hs.le (Nat.zero_le _)

theorem depthOp_spec :
    Triple (fun s => Deep L k c 0 s ∧ s.stack.length ≤ 1000) depthOp (fun _ => Deep L k c 0) (Stops L c) := by
  unfold depthOp
  refine .get_bind fun t ht => ?_
  have hlen : (getVch (t.stack.length : ℤ)).length ≤ longest L :=
    (length_getVch_le (by rw [Int.natAbs_natCast]; omega)).trans (le_longest (by norm_num))
  exact ((pushStack_spec hlen).pre fun s hs => hs ▸ ht.1).post fun _ s hs => hs.le (Nat.zero_le _)

theorem nipOp_spec : Triple (Deep L k c 0) nipOp (fun _ => Deep L k c 0) (Stops L c) := by
  unfold nipOp
  refine needs_spec.bind fun _ => ?_
  exact (eraseTop_spec (n := 1) (by norm_num) le_rfl).post fun _ s hs => hs.le (Nat.zero_le _)

/-- **`OP_PICK` and `OP_ROLL` check the depth they are given** against what
is left when the number is off the stack. -/
theorem pickOp_spec {fRoll : Bool} :
    Triple (Deep L k c 0) (pickOp fRoll) (fun _ => Deep L k c 0) (Stops L c) := by
  unfold pickOp
  refine needs_spec.bind fun _ => ?_
  refine (bigNumTop_spec le_rfl (by norm_num)).bind fun bn => .and_pre fun _ => ?_
  refine (popStack_spec (n := 1)).bind fun _ => .get_bind fun t ht => ?_
  refine (require_spec fun s hs => hs ▸ ht).bind fun _ => .and_pre fun hn => ?_
  set d := (getInt bn).toNat + 1 with hd
  have hdeep : Deep L k c d t := by
    have hlen : ((t.stack.length : ℕ) : ℤ) > getInt bn := by omega
    exact ⟨ht.few, by omega, ht.short, ht.shortAlt, ht.nOpCount, ht.nCheckSigs⟩
  refine ((stackTop_spec (n := d) (by omega) le_rfl).pre fun s hs => hs ▸ hdeep).bind fun vch =>
    .and_pre fun hvch => ?_
  refine Triple.bind (Q := fun _ => Deep L k c 0) ?_ fun _ =>
    (pushStack_spec hvch).post fun _ s hs => hs.le (Nat.zero_le _)
  unfold rollTop
  refine .ite (fun _ => ?_) fun _ => ?_
  · exact (eraseTop_spec (n := d - 1) (by omega) (by omega)).imp
      (fun s hs => hs.le (by omega)) (fun _ s hs => hs.le (Nat.zero_le _)) fun _ _ h => h
  · exact (Triple.pure (Q := fun _ => Deep L k c 0)).pre fun s hs => hs.le (Nat.zero_le _)

theorem tuckOp_spec : Triple (Deep L k c 0) tuckOp (fun _ => Deep L k c 0) (Stops L c) := by
  unfold tuckOp
  refine needs_spec.bind fun _ => ?_
  refine (stackTop_spec le_rfl (by norm_num)).bind fun vch => .and_pre fun hvch => ?_
  exact (insertTop_spec le_rfl hvch).post fun _ s hs => hs.le (Nat.zero_le _)

theorem sizeOp_spec : Triple (Deep L k c 0) sizeOp (fun _ => Deep L k c 0) (Stops L c) := by
  unfold sizeOp
  refine needs_spec.bind fun _ => ?_
  refine (stackTop_spec le_rfl le_rfl).bind fun vch => .and_pre fun hvch => ?_
  have hlen : (getVch (vch.length : ℤ)).length ≤ longest L := by
    refine length_getVch_natCast_le.trans (max_le (le_longest (by norm_num)) hvch)
  exact (pushStack_spec hlen).post fun _ s hs => hs.le (Nat.zero_le _)

theorem equalOp_spec {fVerify : Bool} :
    Triple (Deep L k c 0) (equalOp fVerify) (fun _ => Deep L k c 0) (Stops L c) := by
  unfold equalOp
  refine needs_spec.bind fun _ => ?_
  refine (stackTop_spec (by norm_num) le_rfl).bind fun vch₁ => .and_pre fun _ => ?_
  refine (stackTop_spec le_rfl (by norm_num)).bind fun vch₂ => .and_pre fun _ => ?_
  refine (popStack_spec (n := 1)).bind fun _ => (popStack_spec (n := 0)).bind fun _ => ?_
  exact (pushStack_spec length_vchBool_le).bind fun _ => verifyResult_spec

/-! ## Numeric and hash opcodes -/

theorem unaryOp_spec {g : ℤ → ℤ} (hg : ∀ a, a.natAbs < 2 ^ 32 → (g a).natAbs < 2 ^ 63) :
    Triple (Deep L k c 0) (unaryOp g) (fun _ => Deep L k c 0) (Stops L c) := by
  unfold unaryOp
  refine needs_spec.bind fun _ => ?_
  refine (bigNumTop_spec le_rfl le_rfl).bind fun bn => .and_pre fun hbn => ?_
  refine (popStack_spec (n := 0)).bind fun _ => ?_
  have hlen : (getVch (g bn)).length ≤ longest L := (length_getVch_le (hg bn hbn)).trans (le_longest (by norm_num))
  exact (pushStack_spec hlen).post fun _ s hs => hs.le (Nat.zero_le _)

theorem binaryOp_spec {fVerify : Bool} {g : ℤ → ℤ → ℤ}
    (hg : ∀ a b, a.natAbs < 2 ^ 32 → b.natAbs < 2 ^ 32 → (g a b).natAbs < 2 ^ 63) :
    Triple (Deep L k c 0) (binaryOp fVerify g) (fun _ => Deep L k c 0) (Stops L c) := by
  unfold binaryOp
  refine needs_spec.bind fun _ => ?_
  refine (bigNumTop_spec (by norm_num) le_rfl).bind fun bn₁ => .and_pre fun h₁ => ?_
  refine (bigNumTop_spec le_rfl (by norm_num)).bind fun bn₂ => .and_pre fun h₂ => ?_
  refine (popStack_spec (n := 1)).bind fun _ => (popStack_spec (n := 0)).bind fun _ => ?_
  have hlen : (getVch (g bn₁ bn₂)).length ≤ longest L :=
    (length_getVch_le (hg _ _ h₁ h₂)).trans (le_longest (by norm_num))
  refine (pushStack_spec hlen).bind fun _ => .ite (fun _ => ?_) fun _ => ?_
  · exact (stackTop_spec le_rfl le_rfl).bind fun vch => .and_pre fun _ => verifyResult_spec
  · exact (Triple.pure (Q := fun _ => Deep L k c 0)).pre fun s hs => hs.le (Nat.zero_le _)

theorem withinOp_spec : Triple (Deep L k c 0) withinOp (fun _ => Deep L k c 0) (Stops L c) := by
  unfold withinOp
  refine needs_spec.bind fun _ => ?_
  refine (bigNumTop_spec (by norm_num) le_rfl).bind fun bn₁ => .and_pre fun _ => ?_
  refine (bigNumTop_spec (by norm_num) (by norm_num)).bind fun bn₂ => .and_pre fun _ => ?_
  refine (bigNumTop_spec le_rfl (by norm_num)).bind fun bn₃ => .and_pre fun _ => ?_
  refine (popStack_spec (n := 2)).bind fun _ => (popStack_spec (n := 1)).bind fun _ =>
    (popStack_spec (n := 0)).bind fun _ => ?_
  exact (pushStack_spec length_vchBool_le).post fun _ s hs => hs.le (Nat.zero_le _)

theorem hashOp_spec {g : List UInt8 → List UInt8} (hg : ∀ vch, (g vch).length ≤ longest L) :
    Triple (Deep L k c 0) (hashOp g) (fun _ => Deep L k c 0) (Stops L c) := by
  unfold hashOp
  refine needs_spec.bind fun _ => ?_
  refine (stackTop_spec le_rfl le_rfl).bind fun vch => .and_pre fun _ => ?_
  refine (popStack_spec (n := 0)).bind fun _ => ?_
  exact (pushStack_spec (hg vch)).post fun _ s hs => hs.le (Nat.zero_le _)

/-! ## Signatures -/

section
variable {checkSig : SigChecker} {fVerify : Bool} {scriptCode : CScript} {d : ℕ}
variable {α : Type} {I : ScriptState → Prop} {x : ScriptStep α} {Q : α → ScriptState → Prop}

theorem Stops.calls (h : Stops L c f s) (hcd : c ≤ d) : Stops L d f s :=
  ⟨h.inRange, h.inTurns, h.short, h.nCheckSigs.trans hcd⟩

/-- A step may count fewer calls than it is allowed. -/
theorem triple_calls (hx : Triple I x Q (Stops L c)) (hcd : c ≤ d) : Triple I x Q (Stops L d) :=
  hx.imp (fun _ h => h) (fun _ _ h => h) fun _ _ h => h.calls hcd

theorem callCheckSig_spec {vchSig vchPubKey : List UInt8} {E : ScriptFailure → ScriptState → Prop} :
    Triple (Deep L k c n) (callCheckSig checkSig vchSig vchPubKey scriptCode)
      (fun _ => Deep L k (c + 1) n) E := by
  unfold callCheckSig
  refine Triple.bind (Q := fun _ => Deep L k (c + 1) n) (Triple.modify.pre fun s hs => ?_) fun _ =>
    Triple.pure (Q := fun _ => Deep L k (c + 1) n)
  exact ⟨hs.few, hs.depth, hs.short, hs.shortAlt, hs.nOpCount, Nat.succ_le_succ hs.nCheckSigs⟩

/-- **One call for `OP_CHECKSIG`.** -/
theorem checkSigOp_spec :
    Triple (Deep L k c 0) (checkSigOp checkSig fVerify) (fun _ => Deep L k (c + 1) 0) (Stops L (c + 1)) := by
  unfold checkSigOp
  have hcd : c ≤ c + 1 := Nat.le_succ c
  refine (triple_calls needs_spec hcd).bind fun _ => ?_
  refine (triple_calls (stackTop_spec (by norm_num) le_rfl) hcd).bind fun vchSig => .and_pre fun _ => ?_
  refine (triple_calls (stackTop_spec le_rfl (by norm_num)) hcd).bind fun vchPubKey =>
    .and_pre fun _ => .get_bind fun t ht => ?_
  refine (callCheckSig_spec.pre fun s hs => hs ▸ ht).bind fun fSuccess => ?_
  refine (popStack_spec (n := 1)).bind fun _ => (popStack_spec (n := 0)).bind fun _ => ?_
  exact (pushStack_spec length_vchBool_le).bind fun _ => verifyResult_spec

theorem dropSigs_spec : ∀ {m i : ℕ} {scriptCode : CScript}, 1 ≤ i → i + m ≤ n + 1 →
    Triple (Deep L k c n) (dropSigs m i scriptCode) (fun _ => Deep L k c n) (Stops L c)
  | 0, _, _, _, _ => Triple.pure (Q := fun _ => Deep L k c n)
  | m + 1, i, scriptCode, hi, hin =>
    (stackTop_spec hi (by omega)).bind fun _ => .and_pre fun _ =>
      dropSigs_spec (by omega) (by omega)

/-- **The loop stays among the keys and signatures**, and calls `CheckSig`
at most once a key. -/
theorem multiSigLoop_spec : ∀ {nKeys nSigs isig ikey c : ℕ}, nSigs ≤ nKeys → 1 ≤ isig → 1 ≤ ikey →
    isig + nSigs ≤ n + 1 → ikey + nKeys ≤ n + 1 →
    Triple (Deep L k c n) (multiSigLoop checkSig scriptCode nKeys nSigs isig ikey)
      (fun _ => Deep L k (c + nKeys) n) (Stops L (c + nKeys))
  | _, 0, _, _, _, _, _, _, _, _ => by
    rw [multiSigLoop]
    exact (Triple.pure (Q := fun _ => Deep L k _ n)).pre fun s hs => hs.calls (Nat.le_add_right _ _)
  | nKeys + 1, nSigs + 1, isig, ikey, c, hle, hisig, hikey, hsigs, hkeys => by
    rw [multiSigLoop]
    have hcd : c ≤ c + (nKeys + 1) := Nat.le_add_right _ _
    refine (triple_calls (stackTop_spec hisig (by omega)) hcd).bind fun vchSig => .and_pre fun _ => ?_
    refine (triple_calls (stackTop_spec hikey (by omega)) hcd).bind fun vchPubKey =>
      .and_pre fun _ => callCheckSig_spec.bind fun fOk => ?_
    have hcount : c + (nKeys + 1) = c + 1 + nKeys := by omega
    rw [hcount]
    refine .ite (fun _ => ?_) fun hmore => ?_
    · exact (Triple.pure (Q := fun _ => Deep L k _ n)).pre fun s hs => hs.calls (Nat.le_add_right _ _)
    · refine multiSigLoop_spec ?_ ?_ ?_ ?_ ?_
      · omega
      · split_ifs <;> omega
      · omega
      · split_ifs <;> omega
      · omega

/-- The number of keys on top of the stack, for `OP_CHECKMULTISIG`. -/
def multiSigKeys (s : ScriptState) : ℕ :=
  match s.stack with
  | [] => 0
  | vch :: _ => (getInt (bnOfVch vch)).toNat

theorem countOps_spec :
    Triple (Deep L k c n) (countOps m) (fun _ => Deep L (k + m) c n) (Stops L c) := by
  unfold countOps
  refine .of_forall fun t ht => ?_
  refine Triple.bind (Q := fun _ => (· = { t with nOpCount := t.nOpCount + m }))
    (Triple.modify.pre fun s hs => hs ▸ rfl) fun _ => .get_bind fun u hu => ?_
  subst hu
  unfold require
  refine .ite (fun hle => ?_) fun _ => ?_
  · refine (Triple.pure (Q := fun _ => Deep L (k + m) c n)).pre fun s hs => ?_
    subst hs
    have hk := ht.nOpCount
    exact ⟨hk ▸ hle, ht.depth, ht.short, ht.shortAlt, congrArg (· + m) hk, ht.nCheckSigs⟩
  · refine Triple.fail.pre fun s hs => ?_
    subst hs
    exact ⟨by simp, by simp, ht.short, ht.nCheckSigs⟩

theorem needs_at {t : ScriptState} (ht : Deep L k c m t) :
    Triple (· = t) (needs n) (fun _ s => n ≤ t.stack.length ∧ s = t) (Stops L c) := by
  unfold needs
  refine .get_bind fun u hu => ?_
  subst hu
  exact require_spec fun s hs => hs ▸ ht

theorem bigNumTop_at {t : ScriptState} (ht : Deep L k c n t) (hi : 1 ≤ i) (hin : i ≤ n)
    (hvch : t.stack[i - 1]? = some vch) :
    Triple (· = t) (bigNumTop i) (fun bn s => bn = bnOfVch vch ∧ s = t) (Stops L c) := by
  unfold bigNumTop
  refine Triple.bind (Q := fun v s => v = vch ∧ s = t) ?_ fun v => .and_pre fun hv => ?_
  · unfold stackTop
    refine .get_bind fun u hu => ?_
    subst hu
    rw [hvch]
    simp only [if_neg (show ¬ i = 0 by omega)]
    exact Triple.pure.pre fun s hs => ⟨rfl, hs⟩
  · unfold castToBigNum
    subst hv
    refine .ite (fun _ => ?_) fun hlen => ?_
    · exact Triple.fail.pre fun s hs => (hs ▸ ht).stops (by simp) (by simp)
    · exact Triple.pure.pre fun s hs => ⟨rfl, hs⟩

/-- **`OP_CHECKMULTISIG` counts its keys**, and makes at most as many calls,
at most twenty. -/
theorem checkMultiSigOp_spec {nKeys : ℕ} :
    Triple (fun s => Deep L k c 0 s ∧ multiSigKeys s = nKeys) (checkMultiSigOp checkSig fVerify)
      (fun _ => Deep L (k + nKeys) (c + min nKeys 20) 0) (Stops L (c + min nKeys 20)) := by
  have hcd : c ≤ c + min nKeys 20 := Nat.le_add_right _ _
  refine .of_forall fun t ⟨ht, hkeys⟩ => ?_
  unfold checkMultiSigOp
  refine (triple_calls (needs_at ht) hcd).bind fun _ => .and_pre fun hlen => ?_
  rcases hstack : t.stack with _ | ⟨vch, stack⟩
  · rw [hstack] at hlen
    exact absurd hlen (by simp)
  have ht₁ : Deep L k c 1 t := ⟨ht.few, hlen, ht.short, ht.shortAlt, ht.nOpCount, ht.nCheckSigs⟩
  have hn : (getInt (bnOfVch vch)).toNat = nKeys := by
    rw [← hkeys, multiSigKeys, hstack]
  refine (triple_calls (bigNumTop_at ht₁ le_rfl le_rfl (by rw [hstack]; rfl)) hcd).bind fun bn =>
    .and_pre fun hbn => ?_
  subst hbn
  simp only [hn]
  refine (triple_calls (require_spec fun s hs => hs ▸ ht) hcd).bind fun _ => .and_pre fun hrange => ?_
  have hmin : min nKeys 20 = nKeys := by omega
  rw [hmin] at hcd ⊢
  refine (triple_calls (countOps_spec.pre fun s hs => hs ▸ ht) hcd).bind fun _ => ?_
  refine (triple_calls needs_spec hcd).bind fun _ => ?_
  refine (triple_calls (bigNumTop_spec (by omega) le_rfl) hcd).bind fun bnSigs => .and_pre fun _ => ?_
  refine (triple_calls (require_spec fun s hs => hs) hcd).bind fun _ => .and_pre fun hsigs => ?_
  have hle : (getInt bnSigs).toNat ≤ nKeys := by omega
  refine (triple_calls needs_spec hcd).bind fun _ => .get_bind fun u hu => ?_
  refine (triple_calls ((dropSigs_spec (by omega) (by omega)).pre fun s hs => hs ▸ hu) hcd).bind
    fun scriptCode => ?_
  refine (multiSigLoop_spec hle (by omega) (by omega) (by omega) (by omega)).bind fun fSuccess => ?_
  refine ((popStacks_spec (n := 0)).pre fun s hs => by rwa [Nat.zero_add]).bind fun _ => ?_
  exact (pushStack_spec length_vchBool_le).bind fun _ => verifyResult_spec

end

/-! ## The switch -/

/-- The keys an opcode counts as operations. -/
def opKeys (op : OpCode) (s : ScriptState) : ℕ :=
  match op with
  | .checkMultiSig | .checkMultiSigVerify => multiSigKeys s
  | _ => 0

/-- The calls of `CheckSig` an opcode may make. -/
def opCalls (op : OpCode) (s : ScriptState) : ℕ :=
  match op with
  | .checkSig | .checkSigVerify => 1
  | .checkMultiSig | .checkMultiSigVerify => min (multiSigKeys s) 20
  | _ => 0

section
variable [P : Platform] [D : Digests] {checkSig : SigChecker} {op : OpCode} {fExec : Bool}
variable {pc : CScript} {t : ScriptState}

/-- **Every opcode of the switch stays in range**, counts its keys, and
calls `CheckSig` as often as it may. -/
theorem execOp_spec (ht : Deep L k c 0 t) (hlen : t.stack.length ≤ 1000) :
    Triple (· = t) (execOp checkSig op fExec pc)
      (fun _ => Deep L (k + opKeys op t) (c + opCalls op t) 0) (Stops L (c + opCalls op t)) := by
  have hplain : ∀ {x : ScriptStep Unit}, Triple (Deep L k c 0) x (fun _ => Deep L k c 0) (Stops L c) →
      Triple (· = t) x (fun _ => Deep L k c 0) (Stops L c) :=
    fun h => h.pre fun s hs => hs ▸ ht
  have hbool : ∀ b : Bool, (bnBool b).natAbs < 2 ^ 63 := by decide
  have hbytes : ∀ {j m : ℕ}, j ≤ longest L → (leBytes j m).length ≤ longest L := fun hj => by
    rwa [length_leBytes]
  cases op with
  | nop | nop1 | nop2 | nop3 | nop4 | nop5 | nop6 | nop7 | nop8 | nop9 | nop10 =>
    exact hplain (Triple.pure (Q := fun _ => Deep L k c 0))
  | «if» => exact hplain ifOp_spec
  | notIf => exact hplain ifOp_spec
  | «else» => exact hplain elseOp_spec
  | endIf => exact hplain endIfOp_spec
  | verify => exact hplain verifyOp_spec
  | toAltStack => exact hplain toAltStackOp_spec
  | fromAltStack => exact hplain fromAltStackOp_spec
  | drop2 | drop => exact hplain dropOp_spec
  | dup2 | dup3 | over2 | dup | «over» => exact hplain (copyOp_spec (by decide))
  | rot2 => exact hplain rot2Op_spec
  | swap2 | rot | swap => exact hplain (swapOp_spec (by decide))
  | ifDup => exact hplain ifDupOp_spec
  | depth =>
    refine (depthOp_spec (k := k) (c := c)).pre fun s hs => ?_
    subst hs
    exact ⟨ht, hlen⟩
  | nip => exact hplain nipOp_spec
  | pick | roll => exact hplain pickOp_spec
  | tuck => exact hplain tuckOp_spec
  | size => exact hplain sizeOp_spec
  | equal | equalVerify => exact hplain equalOp_spec
  | add1 | sub1 | negate => exact hplain (unaryOp_spec fun a ha => by omega)
  | abs => exact hplain (unaryOp_spec fun a ha => by split_ifs <;> omega)
  | not | notEqual0 => exact hplain (unaryOp_spec fun a _ => hbool _)
  | add | sub => exact hplain (binaryOp_spec fun a b ha hb => by omega)
  | boolAnd | boolOr | numEqual | numEqualVerify | numNotEqual | lessThan | greaterThan
  | lessThanOrEqual | greaterThanOrEqual =>
    exact hplain (binaryOp_spec fun a b _ _ => hbool _)
  | min | max => exact hplain (binaryOp_spec fun a b ha hb => by split_ifs <;> omega)
  | within => exact hplain withinOp_spec
  | ripemd160 | sha1 | hash160 => exact hplain (hashOp_spec fun vch => hbytes (le_longest (by norm_num)))
  | sha256 => exact hplain (hashOp_spec fun vch => hbytes (le_longest (by norm_num)))
  | hash256 => exact hplain (hashOp_spec fun vch => hbytes (le_longest (by norm_num)))
  | codeSeparator =>
    exact hplain (Triple.modify.pre fun s hs =>
      ⟨hs.few, hs.depth, hs.short, hs.shortAlt, hs.nOpCount, hs.nCheckSigs⟩)
  | checkSig | checkSigVerify => exact checkSigOp_spec.pre fun s hs => hs ▸ ht
  | checkMultiSig | checkMultiSigVerify =>
    refine checkMultiSigOp_spec.pre fun s hs => ?_
    subst hs
    exact ⟨ht, rfl⟩
  | _ => exact hplain fail_spec

/-! ## An instruction and a turn -/

/-- The instruction is one of the switch and reaches it. -/
def Executes (opcode : ℕ) (fExec : Bool) : Prop :=
  op16 < opcode ∧ (fExec ∨ (opIf ≤ opcode ∧ opcode ≤ opEndIf))

instance {opcode : ℕ} {fExec : Bool} : Decidable (Executes opcode fExec) :=
  inferInstanceAs (Decidable (_ ∧ _))

/-- The keys an instruction counts. -/
def instructionKeys (opcode : ℕ) (s : ScriptState) : ℕ :=
  if Executes opcode (s.vfExec.all id) then opKeys (opCodeOf opcode) s else 0

/-- The calls of `CheckSig` it may make. -/
def instructionCalls (opcode : ℕ) (s : ScriptState) : ℕ :=
  if Executes opcode (s.vfExec.all id) then opCalls (opCodeOf opcode) s else 0

/-- **An instruction read is executed in range.** -/
theorem execInstruction_spec {opcode : ℕ} {data : List UInt8} (ht : Deep L k c 0 t)
    (hlen : t.stack.length ≤ 1000) (hdata : data.length ≤ 520) :
    Triple (· = t) (execInstruction checkSig opcode data (t.vfExec.all id) pc)
      (fun _ => Deep L (k + instructionKeys opcode t) (c + instructionCalls opcode t) 0)
      (Stops L (c + instructionCalls opcode t)) := by
  have hquiet : ∀ {x : ScriptStep Unit},
      Triple (Deep L k c 0) x (fun _ => Deep L k c 0) (Stops L c) → opcode ≤ op16 →
        Triple (· = t) x (fun _ => Deep L (k + instructionKeys opcode t)
          (c + instructionCalls opcode t) 0) (Stops L (c + instructionCalls opcode t)) := by
    intro x hx hop
    have hno : ¬ Executes opcode (t.vfExec.all id) := fun h => absurd h.1 (by omega)
    rw [instructionKeys, instructionCalls, if_neg hno, if_neg hno]
    exact hx.pre fun s hs => hs ▸ ht
  have hpush : ∀ {vch : List UInt8}, vch.length ≤ longest L →
      Triple (Deep L k c 0) (pushStack vch) (fun _ => Deep L k c 0) (Stops L c) :=
    fun hvch => (pushStack_spec hvch).post fun _ s hs => hs.le (Nat.zero_le _)
  unfold execInstruction
  simp only [opPushData4, opIf, opEndIf, op1Negate, op1, opReserved]
  refine .ite (fun h => ?_) fun h₁ => .ite (fun h₂ => .ite (fun h => ?_) fun h₃ =>
    .ite (fun h => ?_) fun h₄ => ?_) fun h₂ => ?_
  · exact hquiet (hpush (le_longest hdata)) (by simp only [op16]; omega)
  · refine hquiet (hpush ((length_getVch_le ?_).trans (le_longest (by norm_num)))) ?_
    · simp only [op16] at h
      omega
    · simp only [op16] at h ⊢
      omega
  · exact hquiet fail_spec (by simp only [op16]; omega)
  · -- the opcode is one of the switch
    have hex : Executes opcode (t.vfExec.all id) := by
      refine ⟨?_, by simpa only [opIf, opEndIf] using h₂⟩
      simp only [op16] at h₃ ⊢
      by_cases hf : t.vfExec.all id = true
      · have : ¬ opcode ≤ 78 := fun hle => h₁ ⟨hf, hle⟩
        omega
      · have := h₂.resolve_left hf
        omega
    rw [instructionKeys, instructionCalls, if_pos hex, if_pos hex]
    exact execOp_spec ht hlen
  · have hno : ¬ Executes opcode (t.vfExec.all id) :=
      fun h => h₂ (by simpa only [opIf, opEndIf] using h.2)
    rw [instructionKeys, instructionCalls, if_neg hno, if_neg hno]
    exact (Triple.pure (Q := fun _ => Deep L k c 0)).pre fun s hs => hs ▸ ht

/-- What a turn adds to the count of operations. -/
def turnOps (opcode : ℕ) (s : ScriptState) : ℕ :=
  (if op16 < opcode then 1 else 0) + instructionKeys opcode s

/-- An evaluation between two turns. -/
structure Between (L k c : ℕ) (s : ScriptState) : Prop extends Deep L k c 0 s where
  size : s.stack.length + s.altstack.length ≤ 1000

theorem countOp_spec {opcode : ℕ} (ht : Deep L k c n t) :
    Triple (· = t) (countOp opcode)
      (fun _ s => s = { t with nOpCount := s.nOpCount } ∧
        Deep L (k + if op16 < opcode then 1 else 0) c n s) (Stops L c) := by
  unfold countOp
  refine .ite (fun h => ?_) fun h => ?_
  · rw [if_pos h]
    refine fun s hs => ⟨fun a s' hrun => ⟨?_, ?_⟩, fun e s' hrun => ?_⟩
    · subst hs
      unfold countOps at hrun
      rw [Step.modify_bind, Step.get_bind] at hrun
      unfold require at hrun
      split at hrun
      · obtain ⟨-, rfl⟩ := Prod.mk.inj hrun
        rfl
      · exact absurd (congrArg Prod.fst hrun) (by simp)
    · exact countOps_spec.of_ok (hs ▸ ht) hrun
    · exact countOps_spec.of_error (hs ▸ ht) hrun
  · rw [if_neg h]
    refine Triple.pure.pre fun s hs => ?_
    subst hs
    exact ⟨rfl, ht⟩

/-- **A turn** reads an instruction and executes it in range; what it
leaves is within the limits again. -/
theorem evalTurn_spec (ht : Between L k c t) :
    Triple (· = t) (evalTurn checkSig pc)
      (fun pc' s => ∃ opcode data, getOp pc = some (opcode, data, pc') ∧
        Between L (k + turnOps opcode t) (c + instructionCalls opcode t) s)
      (fun f s => (∃ opcode data pc', getOp pc = some (opcode, data, pc') ∧
        Stops L (c + instructionCalls opcode t) f s) ∨ getOp pc = none ∧ Stops L c f s) := by
  unfold evalTurn
  refine .get_bind fun u hu => ?_
  subst hu
  rcases hop : getOp pc with _ | ⟨opcode, data, pc'⟩
  · exact Triple.fail.pre fun s hs => .inr ⟨rfl, hs ▸ ht.toDeep.stops (by simp) (by simp)⟩
  have hcd : c ≤ c + instructionCalls opcode u := Nat.le_add_right _ _
  refine Triple.imp (E := Stops L (c + instructionCalls opcode u))
    (Q := fun pc'' s => pc'' = pc' ∧
      Between L (k + turnOps opcode u) (c + instructionCalls opcode u) s) ?_ (fun _ h => h) ?_ ?_
  · refine (triple_calls (require_spec fun s hs => hs ▸ ht.toDeep) hcd).bind fun _ =>
      .and_pre fun hdata => ?_
    refine (triple_calls (countOp_spec ht.toDeep) hcd).bind fun _ => .of_forall fun v hv => ?_
    obtain ⟨hveq, hv⟩ := hv
    refine (triple_calls (require_spec fun s hs => hs ▸ hv) hcd).bind fun _ => .and_pre fun _ => ?_
    have hexec : v.vfExec = u.vfExec := by rw [hveq]
    have hstack : v.stack = u.stack := by rw [hveq]
    have hkeys : ∀ op, opKeys op v = opKeys op u := fun op => by
      cases op <;> simp [opKeys, multiSigKeys, hstack]
    have hcalls : ∀ op, opCalls op v = opCalls op u := fun op => by
      cases op <;> simp [opCalls, multiSigKeys, hstack]
    have hlen : v.stack.length ≤ 1000 := by
      have := ht.size
      rw [hstack]
      omega
    have hex : Triple (· = v) (execInstruction checkSig opcode data (v.vfExec.all id) pc') _ _ :=
      execInstruction_spec hv hlen hdata
    rw [instructionKeys, instructionCalls, hexec, hkeys, hcalls] at hex
    refine Triple.bind hex fun _ => ?_
    unfold sizeLimit
    refine Triple.bind check_spec fun _ => Triple.pure.pre fun s hs => ?_
    refine ⟨rfl, ?_, hs.1⟩
    have := hs.2
    rwa [Nat.add_assoc] at this
  · rintro pc'' s ⟨rfl, hs⟩
    exact ⟨opcode, data, rfl, hs⟩
  · exact fun f s hs => .inl ⟨opcode, data, pc', rfl, hs⟩

end

end ScriptStep

end CryptoBullion
