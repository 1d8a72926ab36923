import CryptoBullion.Scripts.Instructions
import CryptoBullion.Scripts.Opcodes
/-!
# The interpreter is safe on every input

Whatever the script, an evaluation ends after as many turns as the script
has bytes, no access is out of range, and between two turns the limits on
elements and operations hold. The one exception that is ever thrown is that
of `CastToBigNum`. So `VerifyScript` is safe as well: when it takes the
serialised script off the copied stack, there is one, since a
pay-to-script-hash output fails on an empty stack.
-/

namespace CryptoBullion

open Step (Triple)
open ScriptStep

variable [P : Platform] [D : Digests]
variable {checkSig : SigChecker} {script pc pc' : CScript} {s s' t : ScriptState} {L n : ℕ}
variable {opcode : ℕ} {data : List UInt8} {m m' : ScriptMachine} {f : ScriptFailure}

/-! ## The loop -/

/-- An evaluation between two turns, wherever its counters stand. -/
def Fine (L : ℕ) (s : ScriptState) : Prop := ∃ k c, Between L k c s

/-- How an evaluation may fail. -/
structure FailsSafe (L : ℕ) (f : ScriptFailure) (stack : List (List UInt8)) : Prop where
  kind : f = .returnFalse ∨ f = .overflow
  short : ∀ vch ∈ stack, vch.length ≤ longest L

omit P D in
theorem ScriptStep.Stops.failsSafe {c : ℕ} (h : Stops L c f s) : FailsSafe L f s.stack := by
  refine ⟨?_, h.short⟩
  have h₁ := h.inRange
  have h₂ := h.inTurns
  cases f <;> simp_all

theorem evalTurn_fine :
    Triple (Fine L) (evalTurn checkSig pc)
      (fun pc' s => pc'.length < pc.length ∧ Fine L s) (fun f s => FailsSafe L f s.stack) := by
  refine .of_forall fun t ⟨k, c, ht⟩ => ?_
  refine (evalTurn_spec ht).imp (fun _ h => h) ?_ ?_
  · rintro pc' s ⟨opcode, data, hop, hs⟩
    exact ⟨length_of_getOp hop, _, _, hs⟩
  · rintro f s (⟨_, _, _, -, hs⟩ | ⟨-, hs⟩)
    · exact hs.failsSafe
    · exact hs.failsSafe

/-- **A turn for each byte is enough.** -/
theorem evalLoop_fine : ∀ {fuel : ℕ} {pc : CScript}, pc.length ≤ fuel →
    Triple (Fine L) (evalLoop checkSig fuel pc) (fun _ => Fine L) (fun f s => FailsSafe L f s.stack)
  | _, [], _ => by
    rw [evalLoop]
    exact Triple.pure (Q := fun _ => Fine L)
  | 0, _ :: _, h => absurd h (by simp)
  | fuel + 1, b :: pc, h => by
    rw [evalLoop]
    refine Triple.bind evalTurn_fine fun pc' => .and_pre fun hpc => ?_
    exact evalLoop_fine (by omega)

/-- A machine between two evaluations. -/
structure Rests (L : ℕ) (m : ScriptMachine) : Prop where
  size : m.stack.length ≤ 1000
  short : ∀ vch ∈ m.stack, vch.length ≤ longest L

omit P D in
/-- Where an evaluation starts, its counters are at zero. -/
theorem Rests.enter (hm : Rests L m) : Between L 0 m.nCheckSigs (m.enter script) where
  few := Nat.zero_le _
  depth := Nat.zero_le _
  short := hm.short
  shortAlt vch hv := absurd hv List.not_mem_nil
  nOpCount := rfl
  nCheckSigs := le_rfl
  size := hm.size

theorem evalBody_fine :
    Triple (Fine L) (evalBody checkSig script) (fun _ => Fine L) (fun f s => FailsSafe L f s.stack) := by
  have hrequire : ∀ {p : Prop} [Decidable p], Triple (Fine L) (require p) (fun _ => Fine L)
      (fun f s => FailsSafe L f s.stack) := by
    intro p _
    refine .of_forall fun t ht => ?_
    obtain ⟨k, c, h⟩ := ht
    exact (require_spec (I := (· = t)) fun s hs => hs ▸ h.toDeep).imp (fun _ h => h)
      (fun _ s hs => hs.2 ▸ ⟨k, c, h⟩) fun _ _ hs => hs.failsSafe
  unfold evalBody
  refine hrequire.bind fun _ => (evalLoop_fine le_rfl).bind fun _ => .get_bind fun t ht => ?_
  exact hrequire.pre fun s hs => hs ▸ ht

/-- **`EvalScript` is safe**: it fails by choice or on a number too long, and
otherwise leaves the stack within its limits. -/
theorem evalScript_fine :
    Triple (Rests L) (evalScript checkSig script) (fun _ => Rests L)
      (fun f m => FailsSafe L f m.stack) := by
  intro m hm
  have hstart : Fine L (m.enter script) := ⟨0, _, hm.enter⟩
  have hbody : Triple (Fine L) (evalBody checkSig script) _ _ := evalBody_fine
  obtain ⟨hok, herr⟩ := hbody _ hstart
  unfold evalScript
  rw [Step.zoom_apply]
  refine ⟨fun a m' h => ?_, fun f m' h => ?_⟩
  · obtain ⟨h₁, rfl⟩ := Prod.mk.inj h
    obtain ⟨k, c, hs⟩ := hok a _ (Prod.ext h₁ rfl)
    exact ⟨(Nat.le_add_right _ _).trans hs.size, hs.short⟩
  · obtain ⟨h₁, rfl⟩ := Prod.mk.inj h
    exact herr f _ (Prod.ext h₁ rfl)

/-! ## Pay to script hash -/

/-- **A pay-to-script-hash output fails on an empty stack.** -/
theorem evalScript_scriptHash_nil {script : CScript} (h : isPayToScriptHash script = true)
    (hm : m.stack = []) : ∃ f m', evalScript checkSig script m = (.error f, m') := by
  simp only [isPayToScriptHash, Bool.and_eq_true, decide_eq_true_eq] at h
  obtain ⟨⟨⟨hlen, hhash⟩, -⟩, -⟩ := h
  obtain ⟨op, rest, rfl⟩ : ∃ op rest, script = op :: rest := by
    cases script with
    | nil => exact absurd hlen (by simp)
    | cons op rest => exact ⟨op, rest, rfl⟩
  obtain rfl : op = 169 := Option.some.inj hhash
  have hturn : ∃ f s', evalTurn checkSig (169 :: rest) (m.enter (169 :: rest)) = (.error f, s') := by
    have hop : getOp (169 :: rest) = some (169, [], rest) := by
      simp [getOp]
    refine ⟨.returnFalse, { m.enter (169 :: rest) with nOpCount := 1 }, ?_⟩
    unfold evalTurn
    rw [Step.get_bind]
    simp only [hop]
    have hcode : opCodeOf 169 = .hash160 := by decide
    simp [require, countOp, countOps, execInstruction, hcode, execOp, hashOp, needs, op16, opPushData4,
      op1Negate, op1, opReserved, ScriptMachine.enter, hm, OpCode.isDisabled]
  obtain ⟨f, s', hturn⟩ := hturn
  refine ⟨f, ⟨s'.stack, s'.nCheckSigs⟩, ?_⟩
  have hloop : evalLoop checkSig 23 (169 :: rest) (m.enter (169 :: rest)) = (.error f, s') := by
    rw [evalLoop]
    exact Step.bind_of_error hturn
  have hbody : evalBody checkSig (169 :: rest) (m.enter (169 :: rest)) = (.error f, s') := by
    unfold evalBody
    rw [hlen, require, if_pos (by norm_num), Step.pure_bind_apply]
    exact Step.bind_of_error hloop
  unfold evalScript
  rw [Step.zoom_apply, hbody]

variable {scriptSig scriptPubKey : CScript} {fValidate : Bool} {stackCopy : List (List UInt8)}

/-- A failure that is no access out of range. -/
abbrev FailsInRange (f : ScriptFailure) (_ : ScriptMachine) : Prop := f = .returnFalse ∨ f = .overflow

theorem evalScript_inRange :
    Triple (Rests L) (evalScript checkSig script) (fun _ => Rests L) FailsInRange :=
  evalScript_fine.imp (fun _ h => h) (fun _ _ h => h) fun _ _ h => h.kind

omit P D in
theorem endsTrue_inRange : Triple (Rests L) endsTrue (fun _ => Rests L) FailsInRange := by
  unfold endsTrue
  refine .get_bind fun t ht => ?_
  have hfail : Triple (· = t) (Step.fail .returnFalse : Step ScriptMachine ScriptFailure Unit)
      (fun _ => Rests L) FailsInRange := Triple.fail.pre fun _ _ => .inl rfl
  rcases t.stack with _ | ⟨vch, _⟩
  · exact hfail
  · refine .ite (fun _ => ?_) fun _ => hfail
    exact (Triple.pure (Q := fun _ => Rests L)).pre fun s hs => hs ▸ ht

theorem evalSubscript_inRange (hcopy : stackCopy ≠ []) (hrest : Rests L ⟨stackCopy, n⟩) :
    Triple (Rests L) (evalSubscript checkSig scriptSig stackCopy) (fun _ => Rests L) FailsInRange := by
  unfold evalSubscript
  refine .ite (fun _ => Triple.fail.pre fun _ _ => .inl rfl) fun _ => ?_
  rcases stackCopy with _ | ⟨pubKeySerialized, stackCopy⟩
  · exact absurd rfl hcopy
  have htail : ∀ s : ScriptMachine, Rests L { s with stack := stackCopy } := fun s =>
    ⟨(Nat.le_succ _).trans hrest.size, fun vch hv => hrest.short vch (List.mem_cons_of_mem _ hv)⟩
  refine Triple.bind (Q := fun _ => Rests L) (Triple.modify.pre fun s _ => htail s) fun _ => ?_
  exact evalScript_inRange.bind fun _ => endsTrue_inRange

/-- **`VerifyScript` is safe**: where it takes the top off the copied stack,
there is one. -/
theorem verifySteps_inRange :
    Triple (Rests L) (verifySteps checkSig scriptSig scriptPubKey fValidate) (fun _ => Rests L)
      FailsInRange := by
  unfold verifySteps
  refine evalScript_inRange.bind fun _ => .get_bind fun t ht => ?_
  -- a pay-to-script-hash output has been evaluated on what the copy holds
  have hcopy : Triple (· = t) (evalScript checkSig scriptPubKey)
      (fun _ m => (isPayToScriptHash scriptPubKey = true → t.stack ≠ []) ∧ Rests L m) FailsInRange := by
    rintro s rfl
    have heval : Triple (Rests L) (evalScript checkSig scriptPubKey) _ _ := evalScript_inRange
    obtain ⟨hok, herr⟩ := heval s ht
    refine ⟨fun a m' h => ⟨fun hp2sh hnil => ?_, hok a m' h⟩, herr⟩
    obtain ⟨f, m'', hfail⟩ : ∃ f m', evalScript checkSig scriptPubKey s = (.error f, m') :=
      evalScript_scriptHash_nil hp2sh hnil
    rw [hfail] at h
    exact absurd (congrArg Prod.fst h) (by simp)
  refine hcopy.bind fun _ => .and_pre fun hne => endsTrue_inRange.bind fun _ => ?_
  refine .ite (fun hp2sh => ?_) fun _ => Triple.pure (Q := fun _ => Rests L)
  exact evalSubscript_inRange (n := t.nCheckSigs) (hne (Bool.and_eq_true_iff.1 hp2sh).2) ht

/-! ## Between two turns -/

/-- The operations a turn executes that push no value, a multisignature's
keys among them. -/
def executedOps (pc : CScript) (s : ScriptState) : ℕ :=
  match getOp pc with
  | none => 0
  | some (opcode, _, _) =>
    if Executes opcode (s.vfExec.all id) then 1 + opKeys (opCodeOf opcode) s else 0

/-- **The states an evaluation goes through**, turn by turn, with the
operations executed so far. -/
inductive EvalRun (checkSig : SigChecker) (script : CScript) (m : ScriptMachine) :
    CScript → ScriptState → ℕ → Prop
  | start : EvalRun checkSig script m script (m.enter script) 0
  | turn {pc pc' : CScript} {s s' : ScriptState} {ops : ℕ} (h : EvalRun checkSig script m pc s ops)
      (hpc : pc ≠ []) (hrun : evalTurn checkSig pc s = (.ok pc', s')) :
      EvalRun checkSig script m pc' s' (ops + executedOps pc s)

/-- The loop's last state is the last of its run. -/
theorem EvalRun.of_evalLoop {fuel ops : ℕ} (hrun : EvalRun checkSig script m pc s ops)
    (h : evalLoop checkSig fuel pc s = (.ok (), s')) : ∃ ops', EvalRun checkSig script m [] s' ops' := by
  induction fuel generalizing pc s ops with
  | zero =>
    cases pc with
    | nil =>
      rw [evalLoop] at h
      obtain ⟨-, rfl⟩ := Prod.mk.inj h
      exact ⟨ops, hrun⟩
    | cons b pc => exact absurd (congrArg Prod.fst h) (by simp [evalLoop])
  | succ fuel ih =>
    cases pc with
    | nil =>
      rw [evalLoop] at h
      obtain ⟨-, rfl⟩ := Prod.mk.inj h
      exact ⟨ops, hrun⟩
    | cons b pc =>
      rw [evalLoop] at h
      obtain ⟨pc', s₁, hturn, h⟩ := Step.bind_eq_ok.1 h
      exact ih (hrun.turn (by simp) hturn) h

/-- **Along a run the limits hold**, and every operation executed has been
counted. -/
theorem EvalRun.between {ops : ℕ} (hm : Rests L m) (h : EvalRun checkSig script m pc s ops) :
    ∃ k c, Between L k c s ∧ ops ≤ k := by
  induction h with
  | start => exact ⟨0, _, hm.enter, le_rfl⟩
  | @turn pc pc' s s' ops _ _ hrun ih =>
    obtain ⟨k, c, hs, hops⟩ := ih
    obtain ⟨opcode, data, hop, hs'⟩ := (evalTurn_spec hs).of_ok rfl hrun
    refine ⟨_, _, hs', Nat.add_le_add hops ?_⟩
    rw [executedOps, hop, turnOps, instructionKeys]
    simp only
    split_ifs with hex hlow
    · exact le_rfl
    · exact absurd hex.1 hlow
    all_goals exact Nat.zero_le _

/-- **The script interpreter is safe on every input.** An evaluation fails
by the code's own choice or on a number too long, and in no other way; the
limits hold between any two turns; and `VerifyScript` fails in no other way
either. -/
theorem evalScript_safe (checkSig : SigChecker) (script : CScript) (m : ScriptMachine)
    (hm : m.stack.length ≤ 1000) :
    (∀ f, (evalScript checkSig script m).1 = .error f → f = .returnFalse ∨ f = .overflow) ∧
      (∀ pc s ops, EvalRun checkSig script m pc s ops →
        s.stack.length + s.altstack.length ≤ 1000 ∧ ops ≤ 201) ∧
      ∀ (scriptSig scriptPubKey : CScript) (fValidate : Bool) (f : ScriptFailure),
        (verifySteps checkSig scriptSig scriptPubKey fValidate ⟨[], 0⟩).1 = .error f →
          f = .returnFalse ∨ f = .overflow := by
  -- the elements there are at the start are bounded by something
  have hrest : Rests (m.stack.map List.length).sum m := by
    refine ⟨hm, fun vch hv => le_trans ?_ (le_max_right _ _)⟩
    exact List.le_sum_of_mem (List.mem_map_of_mem hv)
  refine ⟨fun f hf => ?_, fun pc s ops h => ?_, fun scriptSig scriptPubKey fValidate f hf => ?_⟩
  · exact (evalScript_fine.of_error hrest (Prod.ext hf rfl)).kind
  · obtain ⟨k, c, hs, hops⟩ := h.between hrest
    exact ⟨hs.size, hops.trans hs.few⟩
  · have hempty : Rests 0 ⟨[], 0⟩ := ⟨by simp, by simp⟩
    exact verifySteps_inRange.of_error hempty (Prod.ext hf rfl)

omit P D in
/-- Adding a number to one of five bytes. -/
theorem evalScript_safe_add :
    (evalScript (P := Platform.toy) (D := Digests.toy) (fun _ _ _ => true) [147]
      ⟨[[1], [2, 0, 0, 0, 0]], 0⟩).1 = .error .overflow ∧
    ∀ f, (evalScript (P := Platform.toy) (D := Digests.toy) (fun _ _ _ => true) [147]
      ⟨[[1], [2, 0, 0, 0, 0]], 0⟩).1 = .error f → f = .returnFalse ∨ f = .overflow :=
  ⟨by rfl, (evalScript_safe (P := Platform.toy) (D := Digests.toy) (fun _ _ _ => true) [147]
    ⟨[[1], [2, 0, 0, 0, 0]], 0⟩ (by decide)).1⟩

end CryptoBullion
