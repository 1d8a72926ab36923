import CryptoBullion.Model.Connect
import CryptoBullion.Scripts.Pushes
/-!
# Signature operations are counted before they are made

`GetSigOpCount` scans a script without running it. Run or not, an
instruction is the same, so the scan is compared with the evaluation turn
by turn. The one thing the scan knows of the stack is the number that the
last instruction pushed, and it uses it only for `OP_CHECKMULTISIG`; where
it knows nothing it counts twenty keys, the most there may be.
-/

namespace CryptoBullion

open Step (Triple)
open ScriptStep

/-! ## The scan -/

/-- What the scan counts for an instruction. -/
def opSigOps (fAccurate : Bool) (lastOpcode opcode : ℕ) : ℕ :=
  if opcode = 172 ∨ opcode = 173 then 1
  else if opcode = 174 ∨ opcode = 175 then
    if fAccurate && op1 ≤ lastOpcode && lastOpcode ≤ op16 then lastOpcode - (op1 - 1) else 20
  else 0

section
variable {fAccurate : Bool} {fuel n lastOpcode opcode : ℕ} {pc pc' : CScript} {data : List UInt8}

/-- The scan adds up what it counts. -/
theorem sigOpLoop_eq : sigOpLoop fAccurate (fuel + 1) n lastOpcode pc =
    match getOp pc with
    | none => n
    | some (opcode, _, rest) =>
      sigOpLoop fAccurate fuel (n + opSigOps fAccurate lastOpcode opcode) opcode rest := rfl

theorem sigOpLoop_add :
    sigOpLoop fAccurate fuel n lastOpcode pc = n + sigOpLoop fAccurate fuel 0 lastOpcode pc := by
  induction fuel generalizing n lastOpcode pc with
  | zero => rfl
  | succ fuel ih =>
    rw [sigOpLoop_eq, sigOpLoop_eq]
    rcases getOp pc with _ | ⟨opcode, _, rest⟩
    · rfl
    · simp only
      rw [ih, ih (n := 0 + _)]
      omega

theorem sigOpLoop_of_getOp (hop : getOp pc = some (opcode, data, pc')) :
    sigOpLoop fAccurate (fuel + 1) 0 lastOpcode pc =
      opSigOps fAccurate lastOpcode opcode + sigOpLoop fAccurate fuel 0 opcode pc' := by
  rw [sigOpLoop_eq, hop]
  simp only
  rw [sigOpLoop_add, Nat.zero_add]

/-- A number pushed is at most sixteen. -/
theorem opSigOps_le : opSigOps true lastOpcode opcode ≤ opSigOps false lastOpcode opcode := by
  have hnumber : (if (true && op1 ≤ lastOpcode && lastOpcode ≤ op16) = true then
      lastOpcode - (op1 - 1) else 20) ≤ 20 := by
    split_ifs with hlast
    · simp only [Bool.true_and, Bool.and_eq_true, decide_eq_true_eq] at hlast
      have hle : lastOpcode ≤ 96 := hlast.2
      unfold op1
      omega
    · exact le_rfl
  unfold opSigOps
  by_cases hsig : opcode = 172 ∨ opcode = 173
  · rw [if_pos hsig, if_pos hsig]
  rw [if_neg hsig, if_neg hsig]
  by_cases hmulti : opcode = 174 ∨ opcode = 175
  · rw [if_pos hmulti, if_pos hmulti]
    exact hnumber
  · rw [if_neg hmulti, if_neg hmulti]

/-- **Counting accurately counts no more.** -/
theorem sigOpCount_le (script : CScript) : sigOpCount script true ≤ sigOpCount script false := by
  unfold sigOpCount
  generalize opInvalid = lastOpcode
  generalize script.length = fuel
  induction fuel generalizing lastOpcode script with
  | zero => exact le_rfl
  | succ fuel ih =>
    rcases hop : getOp script with _ | ⟨opcode, data, rest⟩
    · rw [sigOpLoop_eq, sigOpLoop_eq, hop]
    · rw [sigOpLoop_of_getOp hop, sigOpLoop_of_getOp hop]
      exact Nat.add_le_add opSigOps_le (ih rest opcode)

end

/-! ## The scan against the evaluation -/

section
variable [P : Platform] [D : Digests]
variable {checkSig : SigChecker} {script pc pc' : CScript} {s s' : ScriptState} {L k c : ℕ}
variable {fuel lastOpcode opcode : ℕ} {data vch : List UInt8} {m m' : ScriptMachine}

/-- **What the scan knows of the stack**: where the last instruction was a
number and anything is executed, the number is on top. -/
def Announces (lastOpcode : ℕ) (s : ScriptState) : Prop :=
  op1 ≤ lastOpcode → lastOpcode ≤ op16 → s.vfExec.all id = true →
    ∃ stack, s.stack = getVch ((lastOpcode : ℤ) - (op1 - 1)) :: stack

omit P D in
/-- The number `OP_CHECKMULTISIG` reads is the one the scan read. -/
theorem getInt_getVch : ∀ lastOpcode ≤ op16, op1 ≤ lastOpcode →
    (getInt (bnOfVch (getVch ((lastOpcode : ℤ) - (op1 - 1))))).toNat = lastOpcode - (op1 - 1) := by
  decide

omit P D in
/-- Only four opcodes look at signatures. -/
theorem opCalls_eq_zero
    (h : ¬ (opcode = 172 ∨ opcode = 173 ∨ opcode = 174 ∨ opcode = 175)) :
    opCalls (opCodeOf opcode) s = 0 := by
  have hcode : ∀ i < 89, ¬ (i = 75 ∨ i = 76 ∨ i = 77 ∨ i = 78) →
      opCodes.getD i .invalid ∉ [.checkSig, .checkSigVerify, .checkMultiSig, .checkMultiSigVerify] := by
    decide
  have hmem : opCodeOf opcode ∉ [.checkSig, .checkSigVerify, .checkMultiSig, .checkMultiSigVerify] := by
    unfold opCodeOf opNop
    by_cases hlt : opcode - 97 < 89
    · exact hcode _ hlt (by omega)
    · rw [List.getD_eq_default _ _ (by simp only [opCodes, List.length_cons, List.length_nil]; omega)]
      decide
  unfold opCalls
  split <;> simp_all

omit P D in
/-- **The scan counts every call an instruction may make.** -/
theorem instructionCalls_le (hs : Announces lastOpcode s) :
    instructionCalls opcode s ≤ opSigOps true lastOpcode opcode := by
  unfold instructionCalls
  by_cases hex : Executes opcode (s.vfExec.all id)
  swap
  · rw [if_neg hex]
    exact Nat.zero_le _
  rw [if_pos hex]
  by_cases hcall : opcode = 172 ∨ opcode = 173 ∨ opcode = 174 ∨ opcode = 175
  swap
  · rw [opCalls_eq_zero hcall]
    exact Nat.zero_le _
  -- such an opcode is executed only where everything is
  have hexec : s.vfExec.all id = true := by
    refine hex.2.resolve_right fun h => ?_
    simp only [opIf, opEndIf] at h
    omega
  have hmulti : min (multiSigKeys s) 20 ≤
      if (true && op1 ≤ lastOpcode && lastOpcode ≤ op16) = true then lastOpcode - (op1 - 1) else 20 := by
    split_ifs with hlast
    · simp only [Bool.true_and, Bool.and_eq_true, decide_eq_true_eq] at hlast
      obtain ⟨stack, hstack⟩ := hs hlast.1 hlast.2 hexec
      refine (Nat.min_le_left _ _).trans (le_of_eq ?_)
      rw [multiSigKeys, hstack]
      exact getInt_getVch lastOpcode hlast.2 hlast.1
    · exact Nat.min_le_right _ _
  rcases hcall with rfl | rfl | rfl | rfl
  · exact le_rfl
  · exact le_rfl
  · exact hmulti
  · exact hmulti

/-- A turn keeps what the scan knows. -/
theorem announces_of_evalTurn (hop : getOp pc = some (opcode, data, pc'))
    {pc'' : CScript} (h : evalTurn checkSig pc s = (.ok pc'', s')) : Announces opcode s' := by
  intro hle₁ hle hexec'
  by_cases hexec : s.vfExec.all id = true
  · obtain ⟨-, rfl⟩ := of_evalTurn_push hop hle hexec h
    refine ⟨s.stack, ?_⟩
    rw [pushedValue, if_neg]
    simp only [opPushData4, op1] at *
    omega
  · obtain rfl := of_evalTurn_skip hop hle (by simpa using hexec) h
    exact absurd hexec' hexec

/-- **A whole evaluation calls `CheckSig` no more often than the scan
counts.** -/
theorem evalLoop_calls (hs : Between L k c s) (hlast : Announces lastOpcode s) :
    (evalLoop checkSig fuel pc s).2.nCheckSigs ≤ c + sigOpLoop true fuel 0 lastOpcode pc := by
  induction fuel generalizing pc s lastOpcode k c with
  | zero =>
    cases pc with
    | nil => exact hs.nCheckSigs
    | cons b pc => exact hs.nCheckSigs
  | succ fuel ih =>
    cases pc with
    | nil => exact hs.nCheckSigs.trans (Nat.le_add_right _ _)
    | cons b pc =>
      rw [evalLoop]
      rcases hturn : evalTurn checkSig (b :: pc) s with ⟨f | pc', s'⟩
      · rw [Step.bind_of_error hturn]
        rcases (evalTurn_spec hs).of_error rfl hturn with ⟨opcode, data, pc', hop, hstop⟩ | ⟨-, hstop⟩
        · rw [sigOpLoop_of_getOp hop]
          have hcalls : instructionCalls opcode s ≤ _ := instructionCalls_le hlast
          have := hstop.nCheckSigs
          show s'.nCheckSigs ≤ _
          omega
        · exact hstop.nCheckSigs.trans (Nat.le_add_right _ _)
      · rw [Step.bind_of_ok hturn]
        obtain ⟨opcode, data, hop, hs'⟩ := (evalTurn_spec hs).of_ok rfl hturn
        have hcalls : instructionCalls opcode s ≤ _ := instructionCalls_le hlast
        have hrest : (evalLoop checkSig fuel pc' s').2.nCheckSigs ≤ _ :=
          ih hs' (announces_of_evalTurn hop hturn)
        rw [sigOpLoop_of_getOp hop]
        omega

theorem evalScript_calls {r : Except ScriptFailure Unit} (hm : Rests L m)
    (h : evalScript checkSig script m = (r, m')) :
    m'.nCheckSigs ≤ m.nCheckSigs + sigOpCount script true := by
  have hannounces : Announces opInvalid (m.enter script) := fun _ h => absurd h (by decide)
  have hloop : (evalLoop checkSig script.length script (m.enter script)).2.nCheckSigs ≤ _ :=
    evalLoop_calls hm.enter hannounces
  unfold evalScript at h
  rw [Step.zoom_apply] at h
  obtain ⟨-, rfl⟩ := Prod.mk.inj h
  show (evalBody checkSig script (m.enter script)).2.nCheckSigs ≤ _
  unfold evalBody
  by_cases hlen : script.length ≤ 10000
  swap
  · rw [Step.bind_of_error (require_of_not hlen)]
    exact Nat.le_add_right _ _
  rw [Step.bind_of_ok (require_of hlen)]
  rcases hrun : evalLoop checkSig script.length script (m.enter script) with ⟨f | u, s'⟩
  · rw [Step.bind_of_error hrun]
    rwa [hrun] at hloop
  · rw [Step.bind_of_ok hrun, Step.get_bind, require]
    rw [hrun] at hloop
    split_ifs <;> exact hloop

/-! ## Pay to script hash -/

variable {scriptSig scriptPubKey : CScript} {stackCopy : List (List UInt8)}

/-- The top of the stack, read as a script, has no more in it than `data`. -/
def TopWithin (data : List UInt8) (stack : List (List UInt8)) : Prop :=
  ∀ vch rest, stack = vch :: rest → sigOpCount vch true ≤ sigOpCount data true

omit P D in
/-- A number pushed is no script. -/
theorem sigOpCount_pushedValue (hle : opcode ≤ op16) :
    sigOpCount (pushedValue opcode data) true ≤ sigOpCount data true := by
  unfold pushedValue
  split_ifs with hdata
  · exact le_rfl
  · have hnumber : ∀ i : ℕ, i ≤ 17 → sigOpCount (getVch ((i : ℤ) + 79 - (op1 - 1))) true = 0 := by decide
    have hi := hnumber (opcode - 79) (by simp only [op16] at hle; omega)
    have hcast : ((opcode - 79 : ℕ) : ℤ) + 79 = opcode := by
      simp only [opPushData4] at hdata
      omega
    rw [hcast] at hi
    rw [hi]
    exact Nat.zero_le _

/-- **What a push-only script leaves on top** is what the scan finds. -/
theorem topWithin_of_evalLoop {data' : List UInt8} (hexec : s.vfExec = [])
    (htop : TopWithin data s.stack) (hscan : lastPush fuel data pc = some data')
    (h : evalLoop checkSig fuel pc s = (.ok (), s')) : TopWithin data' s'.stack := by
  induction fuel generalizing pc s data with
  | zero =>
    cases pc with
    | nil =>
      obtain ⟨-, rfl⟩ := Prod.mk.inj h
      obtain rfl := Option.some.inj hscan
      exact htop
    | cons b pc => exact absurd (congrArg Prod.fst h) (by simp [evalLoop])
  | succ fuel ih =>
    cases pc with
    | nil =>
      obtain ⟨-, rfl⟩ := Prod.mk.inj h
      obtain rfl := Option.some.inj hscan
      exact htop
    | cons b pc =>
      rw [evalLoop] at h
      obtain ⟨pc', s₁, hturn, h⟩ := Step.bind_eq_ok.1 h
      rw [lastPush, List.isEmpty_cons, if_neg (by simp)] at hscan
      rcases hop : getOp (b :: pc) with _ | ⟨opcode, operand, rest⟩
      · simp [hop] at hscan
      · simp only [hop] at hscan
        split_ifs at hscan with hle
        obtain ⟨rfl, rfl⟩ := of_evalTurn_push hop (Nat.not_lt.1 hle) (by simp [hexec]) hturn
        have hexec' : ScriptState.vfExec { s with
          stack := pushedValue opcode operand :: s.stack } = [] := hexec
        refine ih hexec' (fun vch stack hstack => ?_) hscan h
        obtain ⟨rfl, -⟩ := List.cons.inj hstack
        exact sigOpCount_pushedValue (Nat.not_lt.1 hle)

/-- The script evaluated in the end is within what was counted for it. -/
theorem topWithin_of_evalScript (hpush : isPushOnly scriptSig = true)
    (hp2sh : isPayToScriptHash scriptPubKey = true)
    (h : evalScript checkSig scriptSig ⟨[], 0⟩ = (.ok (), m)) :
    ∀ vch rest, m.stack = vch :: rest →
      sigOpCount vch true ≤ p2shSigOpCount scriptPubKey scriptSig := by
  rw [isPushOnly, Option.isSome_iff_exists] at hpush
  obtain ⟨data, hscan⟩ := hpush
  unfold evalScript at h
  rw [Step.zoom_apply] at h
  obtain ⟨h₁, rfl⟩ := Prod.mk.inj h
  have hbody := Step.eq_of_fst_eq h₁
  unfold evalBody at hbody
  obtain ⟨_, s₁, hreq, hbody⟩ := Step.bind_eq_ok.1 hbody
  obtain ⟨_, s₂, hloop, hbody⟩ := Step.bind_eq_ok.1 hbody
  have hs₁ : s₁ = ScriptMachine.enter ⟨[], 0⟩ scriptSig := by
    rw [require] at hreq
    split_ifs at hreq
    · exact (Prod.mk.inj hreq).2.symm
    · exact absurd (congrArg Prod.fst hreq) (by simp)
  have hs₂ : (evalBody checkSig scriptSig (ScriptMachine.enter ⟨[], 0⟩ scriptSig)).2 = s₂ := by
    rw [Step.get_bind, require] at hbody
    split_ifs at hbody
    · exact (Prod.mk.inj hbody).2.symm
    · exact absurd (congrArg Prod.fst hbody) (by simp)
  subst hs₁
  rw [hs₂]
  have hstart : TopWithin [] (ScriptMachine.enter ⟨[], 0⟩ scriptSig).stack :=
    fun _ _ h => absurd h (by simp [ScriptMachine.enter])
  have htop := topWithin_of_evalLoop rfl hstart hscan hloop
  intro vch rest hstack
  rw [p2shSigOpCount, hp2sh]
  simp only [Bool.not_true, Bool.false_eq_true, if_false, hscan]
  exact htop vch rest hstack

/-- **The scans bound what `VerifyScript` does.** -/
theorem verifySteps_calls {fValidate : Bool} :
    (verifySteps checkSig scriptSig scriptPubKey fValidate ⟨[], 0⟩).2.nCheckSigs ≤
      sigOpCount scriptSig true + sigOpCount scriptPubKey true +
        if isPayToScriptHash scriptPubKey then p2shSigOpCount scriptPubKey scriptSig else 0 := by
  have hempty : Rests 0 ⟨[], 0⟩ := ⟨by simp, by simp⟩
  unfold verifySteps
  rcases h₁ : evalScript checkSig scriptSig ⟨[], 0⟩ with ⟨f | _, m₁⟩
  all_goals
    have hcalls₁ := evalScript_calls hempty h₁
    rw [Nat.zero_add] at hcalls₁
  · rw [Step.bind_of_error h₁]
    exact hcalls₁.trans (by omega)
  rw [Step.bind_of_ok h₁, Step.get_bind]
  have hm₁ : Rests 0 m₁ := evalScript_fine.of_ok hempty h₁
  rcases h₂ : evalScript checkSig scriptPubKey m₁ with ⟨f | _, m₂⟩
  all_goals have hcalls₂ := evalScript_calls hm₁ h₂
  · rw [Step.bind_of_error h₂]
    exact hcalls₂.trans (by omega)
  rw [Step.bind_of_ok h₂]
  have hends : ∀ m, (endsTrue m).2 = m := fun m => by
    unfold endsTrue
    rw [Step.get_bind]
    rcases m.stack with _ | ⟨vch, _⟩
    · rfl
    · simp only
      split_ifs <;> rfl
  have hm₂ := hends m₂
  rcases h₃ : endsTrue m₂ with ⟨f | _, m₃⟩
  · rw [Step.bind_of_error h₃]
    rw [h₃] at hm₂
    obtain rfl : m₃ = m₂ := hm₂
    exact hcalls₂.trans (by omega)
  rw [Step.bind_of_ok h₃]
  rw [h₃] at hm₂
  obtain rfl : m₃ = m₂ := hm₂
  by_cases hp2sh : (fValidate && isPayToScriptHash scriptPubKey) = true
  swap
  · rw [if_neg hp2sh]
    exact hcalls₂.trans (by omega)
  rw [if_pos hp2sh, if_pos (Bool.and_eq_true_iff.1 hp2sh).2]
  unfold evalSubscript
  by_cases hpush : isPushOnly scriptSig = true
  swap
  · rw [if_pos (by simpa using hpush)]
    exact hcalls₂.trans (by omega)
  rw [if_neg (by simpa using hpush)]
  rcases hstack : m₁.stack with _ | ⟨vch, rest⟩
  · exact hcalls₂.trans (by omega)
  simp only
  rw [Step.modify_bind]
  -- the script that was pushed last
  have htop := topWithin_of_evalScript hpush (Bool.and_eq_true_iff.1 hp2sh).2 h₁ vch rest hstack
  have hm₄ : Rests 0 { m₃ with stack := rest } := by
    refine ⟨?_, fun v hv => hm₁.short v (hstack ▸ List.mem_cons_of_mem _ hv)⟩
    have := hm₁.size
    rw [hstack] at this
    exact (Nat.le_succ _).trans this
  rcases h₄ : evalScript checkSig vch { m₃ with stack := rest } with ⟨f | _, m₄⟩
  all_goals
    have hcalls₄ := evalScript_calls hm₄ h₄
    simp only at hcalls₄
  · rw [Step.bind_of_error h₄]
    exact hcalls₄.trans (by omega)
  · rw [Step.bind_of_ok h₄, hends]
    exact hcalls₄.trans (by omega)

/-! ## A block's signature checks -/

/-- What `ConnectBlock` counts of a transaction that spends `txouts`. -/
def CTransaction.countedSigOps (tx : CTransaction) (txouts : List CTxOut) : ℕ :=
  tx.getLegacySigOpCount + ((txouts.zip tx.vin).map fun p =>
    if isPayToScriptHash p.1.scriptPubKey then p2shSigOpCount p.1.scriptPubKey p.2.scriptSig else 0).sum

/-- The calls of `CheckSig` when its inputs are verified, one after
another. -/
def CTransaction.checkSigCalls (checkSig : ℕ → SigChecker) (tx : CTransaction)
    (txouts : List CTxOut) : ℕ :=
  ((txouts.zip tx.vin).zipIdx.map fun p =>
    verifyCheckSigs (checkSig p.2) p.1.2.scriptSig p.1.1.scriptPubKey true).sum

/-- The signature operations of outputs that are spent, counted accurately. -/
def spentSigOps (txouts : List CTxOut) : ℕ := (txouts.map fun o => sigOpCount o.scriptPubKey true).sum

variable {checkSigs : ℕ → SigChecker} {tx : CTransaction} {txouts : List CTxOut}
variable {ans : Answer} {pindex : Uint256} {node : NodeState}

theorem verifyCheckSigs_le (checkSig : SigChecker) (scriptSig scriptPubKey : CScript) :
    verifyCheckSigs checkSig scriptSig scriptPubKey true ≤
      sigOpCount scriptSig true + sigOpCount scriptPubKey true +
        if isPayToScriptHash scriptPubKey then p2shSigOpCount scriptPubKey scriptSig else 0 :=
  verifySteps_calls

/-- **What a transaction's inputs call for** is counted, in its own block or
in those of the outputs it spends. -/
theorem checkSigCalls_le :
    tx.checkSigCalls checkSigs txouts ≤ tx.countedSigOps txouts + spentSigOps txouts := by
  have hvin : ∀ (vin : List CTxIn) (txouts : List CTxOut) (n : ℕ),
      (((txouts.zip vin).zipIdx n).map fun p =>
        verifyCheckSigs (checkSigs p.2) p.1.2.scriptSig p.1.1.scriptPubKey true).sum ≤
      (vin.map fun i => sigOpCount i.scriptSig false).sum + spentSigOps txouts +
        ((txouts.zip vin).map fun p => if isPayToScriptHash p.1.scriptPubKey then
          p2shSigOpCount p.1.scriptPubKey p.2.scriptSig else 0).sum := by
    intro vin
    induction vin with
    | nil =>
      intro txouts n
      rw [List.zip_nil_right]
      exact Nat.zero_le _
    | cons txin vin ih =>
      intro txouts n
      cases txouts with
      | nil =>
        rw [List.zip_nil_left]
        exact Nat.zero_le _
      | cons txout txouts =>
        have hrest := ih txouts (n + 1)
        have hfirst := verifyCheckSigs_le (checkSigs n) txin.scriptSig txout.scriptPubKey
        have hsig := sigOpCount_le txin.scriptSig
        simp only [List.zip_cons_cons, List.zipIdx_cons, List.map_cons, List.sum_cons,
          spentSigOps] at hrest ⊢
        omega
  have h := hvin tx.vin txouts 0
  unfold CTransaction.checkSigCalls CTransaction.countedSigOps CTransaction.getLegacySigOpCount
  omega

/-- The outputs a transaction of a block spends, as `ConnectBlock` finds
them. -/
def SpendsOutputs (node : NodeState) (ans : Answer) (tx : CTransaction) (txouts : List CTxOut) : Prop :=
  if tx.isCoinBase then txouts = []
  else ∃ mapQueuedChanges mapInputs,
    tx.fetchInputs node ans mapQueuedChanges true false = .ok mapInputs ∧
      outputsFor mapInputs tx.vin = .ok txouts

omit D in
/-- **A turn of `ConnectBlock`'s loop counts** the transaction, and keeps to
the limit. -/
theorem nSigOps_of_tallyTx {t t' : Tally} (h : tallyTx node ans pindex t tx = .ok t') :
    ∃ txouts, SpendsOutputs node ans tx txouts ∧ t'.nSigOps = t.nSigOps + tx.countedSigOps txouts ∧
      t'.nSigOps ≤ maxBlockSigops := by
  unfold tallyTx at h
  simp only [except_bind_eq_ok, reject_eq_ok, exists_const] at h
  obtain ⟨-, hlegacy, h⟩ := h
  unfold SpendsOutputs
  by_cases hcb : tx.isCoinBase = true
  · simp only [hcb, if_true] at h ⊢
    obtain ⟨t₁, h₁, h⟩ := except_bind_eq_ok.1 h
    rw [tallyCoinBase, except_bind_eq_ok] at h₁
    obtain ⟨nTxValueOut, -, h₁⟩ := h₁
    obtain rfl := Except.ok.inj h₁
    obtain rfl := Except.ok.inj h
    refine ⟨[], rfl, ?_, Nat.not_lt.1 hlegacy⟩
    rw [CTransaction.countedSigOps, List.zip_nil_left]
    rfl
  · simp only [hcb, Bool.false_eq_true, if_false] at h ⊢
    obtain ⟨t₁, h₁, h⟩ := except_bind_eq_ok.1 h
    obtain rfl := Except.ok.inj h
    simp only [tallySpend, except_bind_eq_ok, onFalse_eq_ok, reject_eq_ok, exists_const] at h₁
    obtain ⟨mapInputs, hfetch, nP2SH, hp2sh, hlimit, nTxValueIn, -, nTxValueOut, -, q', -, h₁⟩ := h₁
    obtain rfl := Except.ok.inj h₁
    rw [CTransaction.getP2SHSigOpCount, if_neg hcb, except_bind_eq_ok] at hp2sh
    obtain ⟨txouts, houts, hp2sh⟩ := hp2sh
    obtain rfl := Except.ok.inj hp2sh
    refine ⟨txouts, ⟨_, mapInputs, hfetch, houts⟩, ?_, Nat.not_lt.1 hlimit⟩
    rw [CTransaction.countedSigOps]
    exact Nat.add_assoc _ _ _

omit D in
/-- **The whole loop.** -/
theorem nSigOps_of_tallyTxs {vtx : List CTransaction} {t t' : Tally}
    (h : tallyTxs node ans pindex t vtx = .ok t') (ht : t.nSigOps ≤ maxBlockSigops) :
    ∃ spent, List.Forall₂ (SpendsOutputs node ans) vtx spent ∧
      t'.nSigOps = t.nSigOps + ((vtx.zip spent).map fun p => p.1.countedSigOps p.2).sum ∧
        t'.nSigOps ≤ maxBlockSigops := by
  induction vtx generalizing t with
  | nil =>
    obtain rfl := Except.ok.inj h
    exact ⟨[], .nil, rfl, ht⟩
  | cons tx vtx ih =>
    rw [tallyTxs, except_bind_eq_ok] at h
    obtain ⟨t₁, h₁, h⟩ := h
    obtain ⟨txouts, hspends, hcount, hle⟩ := nSigOps_of_tallyTx h₁
    obtain ⟨spent, hspent, hrest, hmax⟩ := ih h hle
    refine ⟨txouts :: spent, .cons hspends hspent, ?_, hmax⟩
    rw [List.zip_cons_cons, List.map_cons, List.sum_cons, hrest, hcount, Nat.add_assoc]

/-- **The signature checks of a block are bounded** by `MAX_BLOCK_SIGOPS` and
the signature operations of the outputs it spends, which were counted in
the blocks that created them. Script by script, what `VerifyScript` does is
within what is counted, and counting accurately counts no more. -/
theorem block_checkSigCalls_le :
    (∀ (checkSig : SigChecker) (scriptSig scriptPubKey : CScript),
      verifyCheckSigs checkSig scriptSig scriptPubKey true ≤
        sigOpCount scriptSig true + sigOpCount scriptPubKey true +
          if isPayToScriptHash scriptPubKey then p2shSigOpCount scriptPubKey scriptSig else 0) ∧
      (∀ script : CScript, sigOpCount script true ≤ sigOpCount script false) ∧
      ∀ (checkSig : CTransaction → ℕ → SigChecker) (node : NodeState) (ans : Answer) (pindex : Uint256)
        (nTxPos : ℕ) (vtx : List CTransaction) (t : Tally),
        tallyTxs node ans pindex (Tally.start nTxPos) vtx = .ok t →
          ∃ spent, List.Forall₂ (SpendsOutputs node ans) vtx spent ∧
            ((vtx.zip spent).map fun p => p.1.checkSigCalls (checkSig p.1) p.2).sum ≤
              maxBlockSigops + (spent.map spentSigOps).sum := by
  refine ⟨verifyCheckSigs_le, sigOpCount_le, fun checkSig node ans pindex nTxPos vtx t h => ?_⟩
  obtain ⟨spent, hspent, hcount, hmax⟩ := nSigOps_of_tallyTxs h (Nat.zero_le _)
  refine ⟨spent, hspent, ?_⟩
  have hsum : ∀ {vtx : List CTransaction} {spent : List (List CTxOut)},
      ((vtx.zip spent).map fun p => p.1.checkSigCalls (checkSig p.1) p.2).sum ≤
        ((vtx.zip spent).map fun p => p.1.countedSigOps p.2).sum + (spent.map spentSigOps).sum := by
    intro vtx
    induction vtx with
    | nil =>
      intro spent
      rw [List.zip_nil_left]
      exact Nat.zero_le _
    | cons tx vtx ih =>
      intro spent
      cases spent with
      | nil =>
        rw [List.zip_nil_right]
        exact Nat.zero_le _
      | cons txouts spent =>
        have hfirst : tx.checkSigCalls (checkSig tx) txouts ≤ _ := checkSigCalls_le
        have hrest := @ih spent
        simp only [List.zip_cons_cons, List.map_cons, List.sum_cons]
        omega
  have hstart : (Tally.start nTxPos).nSigOps = 0 := rfl
  rw [hstart, Nat.zero_add] at hcount
  have hall := @hsum vtx spent
  omega

/-- A coinbase that pays to a signature check. -/
def paysCheckSig : CTransaction := ⟨1, 0, [⟨COutPoint.null, [81, 81], uintMax⟩], [⟨coin, [172]⟩], 0⟩

omit P D in
theorem block_checkSigCalls_le_coinBase :
    ∃ t, tallyTxs (P := Platform.toy) (NodeState.blank fun _ => ⟨0, true, fun _ _ => true⟩)
        ⟨0, true, fun _ _ => true⟩ 0 (Tally.start 0) [paysCheckSig] = .ok t ∧
      ∃ spent, List.Forall₂ (SpendsOutputs
          (NodeState.blank fun _ => ⟨0, true, fun _ _ => true⟩) ⟨0, true, fun _ _ => true⟩)
          [paysCheckSig] spent ∧
        (([paysCheckSig].zip spent).map fun p => p.1.checkSigCalls (P := Platform.toy)
          (D := Digests.toy) (fun _ _ _ _ => true) p.2).sum ≤
            maxBlockSigops + (spent.map spentSigOps).sum := by
  rcases hrun : tallyTxs (P := Platform.toy) (NodeState.blank fun _ => ⟨0, true, fun _ _ => true⟩)
    ⟨0, true, fun _ _ => true⟩ 0 (Tally.start 0) [paysCheckSig] with f | t
  · have hok : (tallyTxs (P := Platform.toy) (NodeState.blank fun _ => ⟨0, true, fun _ _ => true⟩)
        ⟨0, true, fun _ _ => true⟩ 0 (Tally.start 0) [paysCheckSig]).toBool = true := by
      decide
    rw [hrun] at hok
    exact absurd hok Bool.false_ne_true
  · exact ⟨t, rfl, (block_checkSigCalls_le (P := Platform.toy) (D := Digests.toy)).2.2
      (fun _ _ _ _ _ => true) _ _ _ _ _ t hrun⟩

end

/-! ## A transaction that is cheap to count

Outputs of two earlier transactions, each with the script
`0 0 CHECKSIG NOT`, are spent at once. Their signature operations were
counted when they were created, half of them in either block. -/

namespace Sweep

/-- The input that spends the `n`-th output. -/
def txin (n : ℕ) : CTxIn := ⟨⟨if n < 10001 then 1 else 2, n % 10001⟩, [], uintMax⟩

/-- The first `k` outputs at once. -/
def sweep (k : ℕ) : CTransaction := ⟨1, 0, (List.range k).map txin, [⟨coin, [81]⟩], 0⟩

/-- What it spends. -/
def swept (k : ℕ) : List CTxOut := List.replicate k ⟨coin, [0, 0, 172, 145]⟩

variable {n k : ℕ}

theorem isNull_txin : (txin n).prevout.isNull = false := by
  have hmod : n % 10001 < 10001 := Nat.mod_lt _ (by norm_num)
  have hne : (txin n).prevout.n ≠ uintMax := by
    unfold txin uintMax
    exact ne_of_lt (hmod.trans (by norm_num))
  rw [COutPoint.isNull, decide_eq_false hne, Bool.and_false]

theorem length_vin : (sweep k).vin.length = k := by
  rw [sweep, List.length_map, List.length_range]

theorem isCoinBase_sweep : (sweep k).isCoinBase = false := by
  unfold CTransaction.isCoinBase
  split
  · rename_i txin' heq
    have hmem : txin' ∈ (sweep k).vin := by rw [heq]; exact List.mem_singleton_self _
    obtain ⟨n, -, rfl⟩ := List.mem_map.1 hmem
    rw [isNull_txin]
    rfl
  · rfl

/-- No output is spent twice. -/
theorem nodup_prevout (hk : k ≤ 20002) : ((sweep k).vin.map (·.prevout)).Nodup := by
  unfold sweep
  rw [List.map_map]
  refine List.Nodup.map_on (fun a ha b hb h => ?_) List.nodup_range
  have hhash := congrArg COutPoint.hash h
  have hn := congrArg COutPoint.n h
  simp only [Function.comp_apply, txin] at hhash hn
  rw [List.mem_range] at ha hb
  split_ifs at hhash <;> first | omega | exact absurd hhash (by decide)

theorem getSerializeSize_sweep : (sweep k).getSerializeSize ≤ 41 * k + 40 := by
  have hbytes : ∀ n, ((txin n).serialize).length = 41 := fun n => by
    simp only [CTxIn.serialize, serializeHash, serializeBytes, txin, List.length_append, length_leBytes]
    rfl
  have hvin : ((sweep k).vin.flatMap CTxIn.serialize).length = 41 * k := by
    unfold sweep
    rw [List.flatMap_map, List.length_flatMap, List.map_congr_left fun n _ => hbytes n, List.map_const',
      List.sum_replicate, List.length_range, smul_eq_mul, Nat.mul_comm]
  have hvout : (writeCompactSize (sweep k).vout.length).length +
      ((sweep k).vout.flatMap CTxOut.serialize).length = 11 := rfl
  have hsize : (writeCompactSize (sweep k).vin.length).length ≤ 9 := by
    rw [length_writeCompactSize, getSizeOfCompactSize]
    split_ifs <;> omega
  simp only [CTransaction.getSerializeSize, CTransaction.serialize, serializeVector, List.length_append,
    length_leBytes, length_leInt]
  omega

/-- It is a transaction like any other. -/
theorem checkTransaction_sweep (hpos : 0 < k) (hk : k ≤ 20002) :
    (sweep k).checkTransaction = .ok () := by
  have hvin : (sweep k).vin ≠ [] := by
    rw [ne_eq, ← List.length_eq_zero_iff, length_vin]
    omega
  have hsize : ¬ maxBlockSize < (sweep k).getSerializeSize := by
    have := getSerializeSize_sweep (k := k)
    unfold maxBlockSize
    omega
  have hnull : ((sweep k).vin.any (·.prevout.isNull)) = false := by
    unfold sweep
    rw [List.any_map, List.any_eq_false]
    intro n _
    rw [Function.comp_apply, isNull_txin]
    exact Bool.false_ne_true
  have hvout : CTransaction.checkOutputs (sweep k) 0 (sweep k).vout = .ok () := by
    rfl
  simp only [CTransaction.checkTransaction, except_bind_eq_ok, reject_eq_ok, exists_const, not_not,
    isCoinBase_sweep, Bool.false_eq_true, if_false, hnull]
  exact ⟨hvin, List.cons_ne_nil _ _, hsize, (), hvout, nodup_prevout hk, not_false⟩

/-- Nothing is counted for it. -/
theorem countedSigOps_sweep : (sweep k).countedSigOps (swept k) = 0 := by
  have hvin : ((sweep k).vin.map fun i => sigOpCount i.scriptSig false).sum = 0 := by
    have hzero : ∀ n ∈ List.range k, ((fun i : CTxIn => sigOpCount i.scriptSig false) ∘ txin) n = 0 :=
      fun n _ => rfl
    unfold sweep
    rw [List.map_map, List.map_congr_left hzero, List.map_const', List.sum_replicate, smul_zero]
  have hp2sh : (((swept k).zip (sweep k).vin).map fun p => if isPayToScriptHash p.1.scriptPubKey then
      p2shSigOpCount p.1.scriptPubKey p.2.scriptSig else 0).sum = 0 := by
    rw [List.map_congr_left (g := fun _ => 0) fun p hp => ?_, List.map_const', List.sum_replicate, smul_zero]
    have houts := List.eq_of_mem_replicate (List.of_mem_zip hp).1
    rw [houts]
    rfl
  have hvout : ((sweep k).vout.map fun o => sigOpCount o.scriptPubKey false).sum = 0 := rfl
  rw [CTransaction.countedSigOps, CTransaction.getLegacySigOpCount, hvin, hvout, hp2sh]

/-- Each input calls for a check. -/
theorem checkSigCalls_sweep :
    (sweep k).checkSigCalls (P := Platform.toy) (D := Digests.toy) (fun _ _ _ _ => false) (swept k) = k := by
  have hrun : verifyCheckSigs (P := Platform.toy) (D := Digests.toy) (fun _ _ _ => false) []
      [0, 0, 172, 145] true = 1 := by decide
  have hone : ∀ p ∈ ((swept k).zip (sweep k).vin).zipIdx,
      verifyCheckSigs (P := Platform.toy) (D := Digests.toy) (fun _ _ _ => false) p.1.2.scriptSig
        p.1.1.scriptPubKey true = 1 := by
    intro p hp
    obtain ⟨houts, hins⟩ := List.of_mem_zip (List.fst_mem_of_mem_zipIdx hp)
    obtain ⟨n, -, hn⟩ := List.mem_map.1 hins
    rw [List.eq_of_mem_replicate houts, ← hn]
    exact hrun
  unfold CTransaction.checkSigCalls
  rw [List.map_congr_left hone, List.map_const', List.sum_replicate, List.length_zipIdx,
    List.length_zip, swept, List.length_replicate, length_vin, Nat.min_self, smul_eq_mul, Nat.mul_one]

theorem verifyScript_sweep :
    ∀ p ∈ (swept k).zip (sweep k).vin, verifyScript (P := Platform.toy) (D := Digests.toy)
      (fun _ _ _ => false) p.2.scriptSig p.1.scriptPubKey true = true := by
  have hrun : verifyScript (P := Platform.toy) (D := Digests.toy) (fun _ _ _ => false) []
      [0, 0, 172, 145] true = true := by decide
  intro p hp
  obtain ⟨houts, hins⟩ := List.of_mem_zip hp
  obtain ⟨n, -, hn⟩ := List.mem_map.1 hins
  rw [List.eq_of_mem_replicate houts, ← hn]
  exact hrun

/-- **More checks than `MAX_BLOCK_SIGOPS`** in a transaction that counts for
none, all of whose inputs are verified. -/
theorem checkSigCalls_gt :
    (sweep 20001).checkTransaction = .ok () ∧
      (∀ p ∈ (swept 20001).zip (sweep 20001).vin, verifyScript (P := Platform.toy) (D := Digests.toy)
        (fun _ _ _ => false) p.2.scriptSig p.1.scriptPubKey true = true) ∧
      (sweep 20001).countedSigOps (swept 20001) ≤ maxBlockSigops ∧
        maxBlockSigops < (sweep 20001).checkSigCalls (P := Platform.toy) (D := Digests.toy)
          (fun _ _ _ _ => false) (swept 20001) := by
  refine ⟨checkTransaction_sweep (by norm_num) (by norm_num), verifyScript_sweep, ?_, ?_⟩
  · rw [countedSigOps_sweep]
    exact Nat.zero_le _
  · rw [checkSigCalls_sweep]
    decide

end Sweep

end CryptoBullion
