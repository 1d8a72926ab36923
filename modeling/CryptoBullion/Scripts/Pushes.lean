import CryptoBullion.Scripts.Safety
/-!
# Instructions that push a value

What a turn does with an instruction up to `OP_16` where everything is
executed: it pushes a value, or the script fails. A script of such
instructions only is push-only, and the last value it pushes is the one
the scanners look for.
-/

namespace CryptoBullion

open ScriptStep

variable [P : Platform] [D : Digests]
variable {checkSig : SigChecker} {pc pc' : CScript} {s s' : ScriptState} {opcode : ℕ}
variable {data : List UInt8}

/-- What an instruction up to `OP_16` pushes: its operand, or the number it
stands for. -/
def pushedValue (opcode : ℕ) (data : List UInt8) : List UInt8 :=
  if opcode ≤ opPushData4 then data else getVch ((opcode : ℤ) - (op1 - 1))

/-- **A turn with such an instruction.** -/
theorem evalTurn_push (hop : getOp pc = some (opcode, data, pc')) (hle : opcode ≤ op16)
    (hexec : s.vfExec.all id = true) :
    evalTurn checkSig pc s =
      if 520 < data.length ∨ opcode = opReserved then (.error .returnFalse, s)
      else (if s.stack.length + s.altstack.length < 1000 then .ok pc' else .error .returnFalse,
        { s with stack := pushedValue opcode data :: s.stack }) := by
  unfold evalTurn
  rw [Step.get_bind]
  simp only [hop, hexec]
  by_cases hlong : 520 < data.length
  · rw [if_pos (.inl hlong), Step.bind_of_error (require_of_not (by omega))]
  have hcount : countOp opcode s = (.ok (), s) := by
    rw [countOp, if_neg (by omega)]
    rfl
  have hable : ¬ (op16 < opcode ∧ (opCodeOf opcode).isDisabled = true) :=
    fun h => absurd h.1 (by omega)
  rw [Step.bind_of_ok (require_of (by omega)), Step.bind_of_ok hcount,
    Step.bind_of_ok (require_of hable)]
  by_cases hres : opcode = opReserved
  · have hfail : execInstruction checkSig opcode data true pc' s = (.error .returnFalse, s) := by
      subst hres
      rfl
    rw [if_pos (.inr hres), Step.bind_of_error hfail]
  · have hpush : execInstruction checkSig opcode data true pc' s =
        (.ok (), { s with stack := pushedValue opcode data :: s.stack }) := by
      unfold execInstruction pushedValue
      by_cases hdata : opcode ≤ opPushData4
      · rw [if_pos ⟨rfl, hdata⟩, if_pos hdata]
        rfl
      · rw [if_neg (fun h => hdata h.2), if_pos (.inl rfl), if_neg hdata, if_pos]
        · rfl
        · simp only [opPushData4, op1Negate, op1, op16, opReserved] at *
          omega
    rw [if_neg (by tauto), Step.bind_of_ok hpush]
    set pushed : ScriptState := { s with stack := pushedValue opcode data :: s.stack } with hpushed
    by_cases hsize : s.stack.length + s.altstack.length < 1000
    · have hlimit : sizeLimit pushed = (.ok (), pushed) := by
        unfold sizeLimit
        rw [Step.get_bind]
        exact require_of (by simp only [hpushed, List.length_cons]; omega)
      rw [if_pos hsize, Step.bind_of_ok hlimit]
      rfl
    · have hlimit : sizeLimit pushed = (.error .returnFalse, pushed) := by
        unfold sizeLimit
        rw [Step.get_bind]
        exact require_of_not (by simp only [hpushed, List.length_cons]; omega)
      rw [if_neg hsize, Step.bind_of_error hlimit]

/-- Where the turn succeeds, the value is on the stack. -/
theorem of_evalTurn_push (hop : getOp pc = some (opcode, data, pc')) (hle : opcode ≤ op16)
    (hexec : s.vfExec.all id = true) {pc'' : CScript} (h : evalTurn checkSig pc s = (.ok pc'', s')) :
    pc'' = pc' ∧ s' = { s with stack := pushedValue opcode data :: s.stack } := by
  rw [evalTurn_push hop hle hexec] at h
  split_ifs at h
  · exact absurd (congrArg Prod.fst h) (by simp)
  · obtain ⟨h₁, rfl⟩ := Prod.mk.inj h
    exact ⟨(Except.ok.inj h₁).symm, rfl⟩
  · exact absurd (congrArg Prod.fst h) (by simp)

/-- Where nothing is executed, such an instruction does nothing. -/
theorem of_evalTurn_skip (hop : getOp pc = some (opcode, data, pc')) (hle : opcode ≤ op16)
    (hexec : s.vfExec.all id = false) {pc'' : CScript} (h : evalTurn checkSig pc s = (.ok pc'', s')) :
    s' = s := by
  unfold evalTurn at h
  rw [Step.get_bind] at h
  simp only [hop, hexec] at h
  have hcount : countOp opcode s = (.ok (), s) := by
    rw [countOp, if_neg (by omega)]
    rfl
  have hable : ¬ (op16 < opcode ∧ (opCodeOf opcode).isDisabled = true) :=
    fun h => absurd h.1 (by omega)
  have hskip : execInstruction checkSig opcode data false pc' s = (.ok (), s) := by
    unfold execInstruction
    rw [if_neg (by simp), if_neg]
    · rfl
    · rintro (hfalse | hif)
      · exact absurd hfalse (by simp)
      · simp only [opIf, op16] at hif hle
        omega
  by_cases hlong : 520 < data.length
  · rw [Step.bind_of_error (require_of_not (by omega))] at h
    exact absurd (congrArg Prod.fst h) (by simp)
  rw [Step.bind_of_ok (require_of (by omega)), Step.bind_of_ok hcount,
    Step.bind_of_ok (require_of hable), Step.bind_of_ok hskip] at h
  unfold sizeLimit at h
  obtain ⟨_, s₁, hsize, h⟩ := Step.bind_eq_ok.1 h
  obtain ⟨-, rfl⟩ := Prod.mk.inj h
  rw [Step.get_bind, require] at hsize
  split_ifs at hsize
  · exact (Prod.mk.inj hsize).2.symm
  · exact absurd (congrArg Prod.fst hsize) (by simp)

end CryptoBullion
