import CryptoBullion.Common.Matching
import CryptoBullion.Scripts.Opcodes
/-!
# `CHECKMULTISIG` matches signatures to keys in order

The opcode is run on a stack that holds a number of keys, the keys, a
number of signatures, the signatures and one element more. Its loop takes
every match from the top of the stack down, so by the theory of such
matchings it succeeds exactly when all signatures can be assigned to keys
in order, whatever `CheckSig` says of each pair.
-/

namespace CryptoBullion

open Matching (InOrder greedy)

namespace ScriptStep

variable {s : ScriptState} {vch : List UInt8} {i n : ℕ} {p : Prop} {checkSig : SigChecker}
variable {scriptCode : CScript}

/-! ## What the accesses give -/

theorem needs_of_le (h : n ≤ s.stack.length) : needs n s = (.ok (), s) := by
  rw [needs, Step.get_bind]
  exact require_of h

theorem stackTop_of_getElem? (h : s.stack[i]? = some vch) : stackTop (i + 1) s = (.ok vch, s) := by
  rw [stackTop, Step.get_bind, Nat.add_sub_cancel, h]
  rfl

theorem bigNumTop_of_getElem? (h : s.stack[i]? = some vch) (hlen : vch.length ≤ nMaxNumSize) :
    bigNumTop (i + 1) s = (.ok (bnOfVch vch), s) := by
  rw [bigNumTop, Step.bind_of_ok (stackTop_of_getElem? h), castToBigNum, if_neg (by omega)]
  rfl

theorem popStacks_of_le : ∀ {n : ℕ} {s : ScriptState}, n ≤ s.stack.length →
    popStacks n s = (.ok (), { s with stack := s.stack.drop n })
  | 0, _, _ => rfl
  | n + 1, s, h => by
    rcases hstack : s.stack with _ | ⟨vch, stack⟩
    · rw [hstack] at h
      exact absurd h (by simp)
    · have hpop : popStack s = (.ok (), { s with stack := stack }) := by
        rw [popStack, Step.get_bind, hstack]
        rfl
      rw [hstack, List.length_cons] at h
      rw [popStacks, Step.bind_of_ok hpop, popStacks_of_le (Nat.le_of_succ_le_succ h)]
      rfl

theorem countOps_of_le (h : s.nOpCount + n ≤ 201) :
    countOps n s = (.ok (), { s with nOpCount := s.nOpCount + n }) := by
  rw [countOps, Step.modify_bind, Step.get_bind]
  exact require_of h

theorem countOps_of_lt (h : 201 < s.nOpCount + n) :
    countOps n s = (.error .returnFalse, { s with nOpCount := s.nOpCount + n }) := by
  rw [countOps, Step.modify_bind, Step.get_bind]
  exact require_of_not (by simpa using h)

theorem callCheckSig_apply {vchSig vchPubKey : List UInt8} :
    callCheckSig checkSig vchSig vchPubKey scriptCode s =
      (.ok (checkSig vchSig vchPubKey scriptCode), { s with nCheckSigs := s.nCheckSigs + 1 }) := rfl

/-! ## The loops -/

/-- The script that is signed: no signature signs itself. -/
def withoutSigs (sigs : List (List UInt8)) (scriptCode : CScript) : CScript :=
  sigs.foldl (fun scriptCode vchSig => findAndDelete (pushBytes vchSig) scriptCode) scriptCode

/-- The first loop goes through the signatures. -/
theorem dropSigs_of_drop {sigs below : List (List UInt8)} :
    s.stack.drop i = sigs ++ below →
      dropSigs sigs.length (i + 1) scriptCode s = (.ok (withoutSigs sigs scriptCode), s) := by
  induction sigs generalizing i scriptCode with
  | nil => exact fun _ => rfl
  | cons vchSig sigs ih =>
    intro h
    have hget : s.stack[i]? = some vchSig := by
      rw [← List.head?_drop, h]
      rfl
    have hdrop : s.stack.drop (i + 1) = sigs ++ below := by
      rw [← List.drop_drop, h]
      rfl
    rw [List.length_cons, dropSigs, Step.bind_of_ok (stackTop_of_getElem? hget), ih hdrop]
    rfl

/-- **The second loop takes every match**, and asks about each key at most
once. -/
theorem multiSigLoop_of_drop (checkSig : SigChecker) (scriptCode : CScript) {sigs keys below below' : List (List UInt8)} {isig ikey : ℕ} :
    sigs.length ≤ keys.length → s.stack.drop isig = sigs ++ below →
      s.stack.drop ikey = keys ++ below' →
      ∃ calls ≤ keys.length,
        multiSigLoop checkSig scriptCode keys.length sigs.length (isig + 1) (ikey + 1) s =
          (.ok (greedy (fun vchSig vchPubKey => checkSig vchSig vchPubKey scriptCode) sigs keys),
            { s with nCheckSigs := s.nCheckSigs + calls }) := by
  induction keys generalizing s sigs isig ikey with
  | nil =>
    intro hle _ _
    obtain rfl := List.length_eq_zero_iff.1 (Nat.le_zero.1 hle)
    exact ⟨0, le_rfl, rfl⟩
  | cons vchPubKey keys ih =>
    intro hle hsigs hkeys
    cases sigs with
    | nil => exact ⟨0, Nat.zero_le _, rfl⟩
    | cons vchSig sigs =>
      have hsig : s.stack[isig]? = some vchSig := by
        rw [← List.head?_drop, hsigs]
        rfl
      have hkey : s.stack[ikey]? = some vchPubKey := by
        rw [← List.head?_drop, hkeys]
        rfl
      have hnext : s.stack.drop (ikey + 1) = keys ++ below' := by
        rw [← List.drop_drop, hkeys]
        rfl
      rw [List.length_cons, List.length_cons] at hle
      rw [List.length_cons, List.length_cons, multiSigLoop,
        Step.bind_of_ok (stackTop_of_getElem? hsig), Step.bind_of_ok (stackTop_of_getElem? hkey),
        Step.bind_of_ok callCheckSig_apply, greedy]
      by_cases hok : checkSig vchSig vchPubKey scriptCode = true
      · -- the next signature, against the next key
        have hdrop : s.stack.drop (isig + 1) = sigs ++ below := by
          rw [← List.drop_drop, hsigs]
          rfl
        obtain ⟨calls, hcalls, hrun⟩ := ih (s := { s with nCheckSigs := s.nCheckSigs + 1 })
          (Nat.le_of_succ_le_succ hle) hdrop hnext
        refine ⟨calls + 1, Nat.succ_le_succ hcalls, ?_⟩
        simp only [hok, if_true]
        rw [if_neg (by omega), hrun, Nat.add_assoc, Nat.add_comm 1 calls]
      · simp only [hok, if_false, Bool.false_eq_true]
        by_cases hmore : keys.length < sigs.length + 1
        · -- fewer keys are left than signatures
          refine ⟨1, Nat.succ_le_succ (Nat.zero_le _), ?_⟩
          rw [if_pos hmore]
          have hfalse : greedy (fun vchSig vchPubKey => checkSig vchSig vchPubKey scriptCode)
              (vchSig :: sigs) keys = false := by
            rw [← Bool.not_eq_true, Matching.greedy_iff]
            exact fun h => absurd (Matching.length_le_of_inOrder h) (by simpa using hmore)
          rw [hfalse]
          rfl
        · obtain ⟨calls, hcalls, hrun⟩ := ih (s := { s with nCheckSigs := s.nCheckSigs + 1 })
            (by simpa using hmore : (vchSig :: sigs).length ≤ keys.length) hsigs hnext
          refine ⟨calls + 1, Nat.succ_le_succ hcalls, ?_⟩
          rw [if_neg (by omega)]
          rw [List.length_cons] at hrun
          rw [hrun, Nat.add_assoc, Nat.add_comm 1 calls]

/-! ## The opcode -/

theorem getInt_natCast (h : n ≤ 2147483647) : getInt (n : ℤ) = n := by
  unfold getInt
  rw [if_pos (by omega), if_neg (by omega)]

/-- Bytes that `CastToBigNum` takes for a number. -/
structure Encodes (vch : List UInt8) (n : ℕ) : Prop where
  length : vch.length ≤ nMaxNumSize
  value : bnOfVch vch = n

/-- The stack before the opcode: the keys and the signatures as they were
pushed, each with their number, and under them the element that is taken
off as well. -/
structure MultiSigStack (stack keys sigs rest : List (List UInt8)) : Prop where
  shape : ∃ vchKeys vchSigs dummy : List UInt8, Encodes vchKeys keys.length ∧
    Encodes vchSigs sigs.length ∧
      stack = vchKeys :: (keys.reverse ++ (vchSigs :: (sigs.reverse ++ dummy :: rest)))
  few : keys.length ≤ 20
  fewer : sigs.length ≤ keys.length

variable {keys sigs rest : List (List UInt8)}

/-- With too many operations behind it, the opcode fails before it looks at
a signature. -/
theorem checkMultiSigOp_of_lt {fVerify : Bool} (h : MultiSigStack s.stack keys sigs rest)
    (hops : 201 < s.nOpCount + keys.length) :
    checkMultiSigOp checkSig fVerify s =
      (.error .returnFalse, { s with nOpCount := s.nOpCount + keys.length }) := by
  obtain ⟨vchKeys, vchSigs, dummy, hvchKeys, -, hstack⟩ := h.shape
  have hfew := h.few
  have hint := getInt_natCast (show keys.length ≤ 2147483647 by omega)
  have hneeds : needs 1 s = (.ok (), s) := needs_of_le (by rw [hstack, List.length_cons]; omega)
  have hnum : bigNumTop 1 s = (.ok (keys.length : ℤ), s) := by
    rw [← hvchKeys.value]
    exact bigNumTop_of_getElem? (by rw [hstack]; rfl) hvchKeys.length
  rw [checkMultiSigOp, Step.bind_of_ok hneeds, Step.bind_of_ok hnum]
  simp only [hint, Int.toNat_natCast]
  rw [Step.bind_of_ok (require_of (by omega)), Step.bind_of_error (countOps_of_lt hops)]

/-- **The opcode otherwise**: everything it looked at is off the stack, and
the outcome of the matching is on it. -/
theorem checkMultiSigOp_of_le (checkSig : SigChecker) (h : MultiSigStack s.stack keys sigs rest)
    (hops : s.nOpCount + keys.length ≤ 201) :
    ∃ calls ≤ keys.length, checkMultiSigOp checkSig false s = (.ok (), { s with
      stack := vchBool (greedy (fun vchSig vchPubKey =>
        checkSig vchSig vchPubKey (withoutSigs sigs.reverse s.pbegincodehash))
          sigs.reverse keys.reverse) :: rest
      nOpCount := s.nOpCount + keys.length
      nCheckSigs := s.nCheckSigs + calls }) := by
  obtain ⟨vchKeys, vchSigs, dummy, hvchKeys, hvchSigs, hstack⟩ := h.shape
  have hfew := h.few
  have hfewer := h.fewer
  have hint := getInt_natCast (show keys.length ≤ 2147483647 by omega)
  have hint' := getInt_natCast (show sigs.length ≤ 2147483647 by omega)
  have hlen : s.stack.length = keys.length + sigs.length + 3 + rest.length := by
    rw [hstack]
    simp only [List.length_cons, List.length_append, List.length_reverse]
    omega
  have hneeds : needs 1 s = (.ok (), s) := needs_of_le (by omega)
  have hnum : bigNumTop 1 s = (.ok (keys.length : ℤ), s) := by
    rw [← hvchKeys.value]
    exact bigNumTop_of_getElem? (by rw [hstack]; rfl) hvchKeys.length
  -- the keys are counted as operations
  set s₁ : ScriptState := { s with nOpCount := s.nOpCount + keys.length } with hs₁
  have hneeds₁ : needs (2 + keys.length) s₁ = (.ok (), s₁) :=
    needs_of_le (by show _ ≤ s.stack.length; omega)
  have hkeys : s₁.stack.drop 1 = keys.reverse ++ (vchSigs :: (sigs.reverse ++ dummy :: rest)) := by
    show s.stack.drop 1 = _
    rw [hstack]
    rfl
  have hbelow : s₁.stack.drop (1 + keys.length) = vchSigs :: (sigs.reverse ++ dummy :: rest) := by
    rw [← List.drop_drop, hkeys, ← List.length_reverse, List.drop_left]
  have hnum₁ : bigNumTop (2 + keys.length) s₁ = (.ok (sigs.length : ℤ), s₁) := by
    rw [← hvchSigs.value, show 2 + keys.length = 1 + keys.length + 1 by omega]
    exact bigNumTop_of_getElem? (by rw [← List.head?_drop, hbelow]; rfl) hvchSigs.length
  have hsigs : s₁.stack.drop (2 + keys.length) = sigs.reverse ++ dummy :: rest := by
    rw [show 2 + keys.length = 1 + keys.length + 1 by omega, ← List.drop_drop, hbelow]
    rfl
  have hneeds₂ : needs (2 + keys.length + 1 + sigs.length) s₁ = (.ok (), s₁) :=
    needs_of_le (by show _ ≤ s.stack.length; omega)
  have hdrop : dropSigs sigs.reverse.length _ s₁.pbegincodehash s₁ = _ := dropSigs_of_drop hsigs
  obtain ⟨calls, hcalls, hloop⟩ := multiSigLoop_of_drop checkSig
    (withoutSigs sigs.reverse s.pbegincodehash)
    (by simpa only [List.length_reverse] using hfewer) hsigs hkeys
  rw [List.length_reverse] at hcalls hdrop
  rw [List.length_reverse, List.length_reverse] at hloop
  refine ⟨calls, hcalls, ?_⟩
  rw [checkMultiSigOp, Step.bind_of_ok hneeds, Step.bind_of_ok hnum]
  simp only [hint, Int.toNat_natCast]
  rw [Step.bind_of_ok (require_of (by omega)), Step.bind_of_ok (countOps_of_le hops),
    Step.bind_of_ok hneeds₁, Step.bind_of_ok hnum₁]
  simp only [hint', Int.toNat_natCast]
  rw [Step.bind_of_ok (require_of (by omega)), Step.bind_of_ok hneeds₂, Step.get_bind,
    Step.bind_of_ok hdrop, Step.bind_of_ok hloop,
    Step.bind_of_ok (popStacks_of_le (by show _ ≤ s.stack.length; omega))]
  have hrest : s₁.stack.drop (2 + keys.length + 1 + sigs.length) = rest := by
    rw [show 2 + keys.length + 1 + sigs.length = 2 + keys.length + (sigs.reverse.length + 1) by
      rw [List.length_reverse]; omega, ← List.drop_drop, hsigs, ← List.drop_drop, List.drop_left]
    rfl
  simp only [hrest]
  rfl

/-- **`OP_CHECKMULTISIG` decides whether the signatures can be assigned to
keys in order**, each to one that verifies it, whatever `CheckSig` answers;
it takes the keys, the signatures, their numbers and one element more off
the stack; and it calls `CheckSig` at most once a key. With too many
operations counted it fails instead. -/
theorem checkMultiSigOp_matches (checkSig : SigChecker) (s : ScriptState)
    (keys sigs rest : List (List UInt8)) (h : MultiSigStack s.stack keys sigs rest) :
    (s.nOpCount + keys.length ≤ 201 → ∃ (fSuccess : Bool) (calls : ℕ),
      (fSuccess = true ↔ InOrder (fun vchSig vchPubKey =>
        checkSig vchSig vchPubKey (withoutSigs sigs.reverse s.pbegincodehash) = true) sigs keys) ∧
      s.stack.length = keys.length + sigs.length + 3 + rest.length ∧
      calls ≤ keys.length ∧ checkMultiSigOp checkSig false s = (.ok (), { s with
        stack := vchBool fSuccess :: rest
        nOpCount := s.nOpCount + keys.length
        nCheckSigs := s.nCheckSigs + calls })) ∧
    (201 < s.nOpCount + keys.length → checkMultiSigOp checkSig false s =
      (.error .returnFalse, { s with nOpCount := s.nOpCount + keys.length })) := by
  refine ⟨fun hops => ?_, checkMultiSigOp_of_lt h⟩
  obtain ⟨calls, hcalls, hrun⟩ := checkMultiSigOp_of_le checkSig h hops
  refine ⟨_, calls, ?_, ?_, hcalls, hrun⟩
  · rw [Matching.greedy_iff, Matching.inOrder_reverse]
  · obtain ⟨vchKeys, vchSigs, dummy, -, -, hstack⟩ := h.shape
    rw [hstack]
    simp only [List.length_cons, List.length_append, List.length_reverse]
    omega

/-- Two of three, in order. -/
theorem checkMultiSigOp_matches_twoOfThree :
    ∃ (fSuccess : Bool) (calls : ℕ),
      (fSuccess = true ↔ InOrder
        (fun vchSig vchPubKey : List UInt8 => decide (vchSig = vchPubKey) = true)
        [[7], [9]] [[7], [8], [9]]) ∧ calls ≤ 3 ∧
      checkMultiSigOp (fun vchSig vchPubKey _ => decide (vchSig = vchPubKey)) false
        ⟨[[3], [9], [8], [7], [2], [9], [7], []], [], [], 0, [], 0⟩ =
          (.ok (), ⟨[vchBool fSuccess], [], [], 3, [], calls⟩) := by
  have h : MultiSigStack [[3], [9], [8], [7], [2], [9], [7], []] [[7], [8], [9]] [[7], [9]] [] :=
    ⟨⟨[3], [2], [], ⟨by decide, by decide⟩, ⟨by decide, by decide⟩, rfl⟩, by decide, by decide⟩
  obtain ⟨fSuccess, calls, hiff, -, hcalls, hrun⟩ := (checkMultiSigOp_matches
    (fun vchSig vchPubKey _ => decide (vchSig = vchPubKey))
    ⟨[[3], [9], [8], [7], [2], [9], [7], []], [], [], 0, [], 0⟩ _ _ _ h).1 (by decide)
  refine ⟨fSuccess, calls, hiff, hcalls, ?_⟩
  rw [hrun]
  simp only [Nat.zero_add]
  rfl

end ScriptStep

end CryptoBullion
