import CryptoBullion.Model.Combine
import CryptoBullion.Scripts.MultiSig
import CryptoBullion.Scripts.Pushes
import CryptoBullion.Scripts.Solver
/-!
# Combining signatures completes them

Where each valid signature is valid for one key only, trying them all
against all keys finds one for every key that has any, in whatever order
they are tried. Put in the order of the keys, enough of them are what
`OP_CHECKMULTISIG` takes. What it checks is the script itself, since no
valid signature is an operand of it.
-/

namespace CryptoBullion

open Matching (InOrder greedy)
open ScriptStep
open Step (Triple)

variable {pc pc' rest script : CScript} {is : List Instruction} {b : List UInt8} {n : ℕ}
variable {keys sigs values : List (List UInt8)} {sig key : List UInt8}

/-! ## What is not pushed is not deleted -/

/-- What begins with pushed bytes is read as their push. -/
theorem not_isPrefixOf_of_getOp {i : Instruction} (hlen : b.length < 2 ^ 32)
    (hop : getOp pc = some (i.1, i.2, pc')) (hne : i ≠ (pushOpcode b, b)) :
    (pushBytes b).isPrefixOf pc = false := by
  by_contra h
  obtain ⟨behind, rfl⟩ := List.isPrefixOf_iff_prefix.1 (Bool.not_eq_false _ ▸ h)
  rw [getOp_pushBytes hlen] at hop
  simp only [Option.some.injEq, Prod.mk.injEq] at hop
  exact hne (Prod.ext hop.1.symm hop.2.1.symm)

theorem deleteHere_of_not {fuel : ℕ} (h : b.isPrefixOf pc = false) : deleteHere b fuel pc = pc := by
  cases fuel with
  | zero => rfl
  | succ fuel => rw [deleteHere, if_neg (by simp [h])]

/-- **A script that does not push the bytes stays as it is.** -/
theorem findAndDelete_of_reads (hlen : b.length < 2 ^ 32) (h : Reads script is [])
    (hne : ∀ i ∈ is, i ≠ (pushOpcode b, b)) : findAndDelete (pushBytes b) script = script := by
  have hnil : (pushBytes b).isPrefixOf [] = false := by
    unfold pushBytes
    split_ifs <;> rfl
  have hloop : ∀ {fuel : ℕ} {pc : CScript} {is : List Instruction}, Reads pc is [] →
      (∀ i ∈ is, i ≠ (pushOpcode b, b)) → findAndDeleteLoop (pushBytes b) fuel pc = pc := by
    intro fuel
    induction fuel with
    | zero => exact fun _ _ => rfl
    | succ fuel ih =>
      intro pc is h hne
      rw [findAndDeleteLoop]
      cases is with
      | nil =>
        obtain rfl : pc = [] := h
        rw [deleteHere_of_not hnil]
        simp
      | cons i is =>
        obtain ⟨hi, hne⟩ := List.forall_mem_cons.1 hne
        obtain ⟨pc', hop, h⟩ := h
        rw [deleteHere_of_not (not_isPrefixOf_of_getOp hlen hop hi)]
        simp only [hop]
        obtain ⟨front, rfl⟩ := suffix_of_getOp hop
        rw [ih h hne, List.length_append, Nat.add_sub_cancel, List.take_left]
  unfold findAndDelete
  split_ifs
  · rfl
  · exact hloop h hne

/-- So signatures that are no operands leave nothing to drop. -/
theorem withoutSigs_of_reads (h : Reads script is [])
    (hsigs : ∀ sig ∈ sigs, sig.length < 2 ^ 32 ∧ ∀ i ∈ is, i ≠ (pushOpcode sig, sig)) :
    withoutSigs sigs script = script := by
  unfold withoutSigs
  induction sigs with
  | nil => rfl
  | cons sig sigs ih =>
    obtain ⟨⟨hlen, hne⟩, hsigs⟩ := List.forall_mem_cons.1 hsigs
    rw [List.foldl_cons, findAndDelete_of_reads hlen h hne]
    exact ih hsigs

/-! ## Running a script of pushes -/

section
variable [P : Platform] [D : Digests] {checkSig : SigChecker} {s s' : ScriptState} {fuel : ℕ}

/-- Instructions that push a value within the limit. -/
def Pushes (is : List Instruction) : Prop :=
  ∀ i ∈ is, i.1 ≤ op16 ∧ i.1 ≠ opReserved ∧ i.2.length ≤ 520

/-- What instructions leave on a stack, the last on top. -/
def pushedValues (is : List Instruction) : List (List UInt8) :=
  (is.map fun i => pushedValue i.1 i.2).reverse

omit P D in
theorem pushedValues_cons {i : Instruction} :
    pushedValues (i :: is) = pushedValues is ++ [pushedValue i.1 i.2] := by
  unfold pushedValues
  rw [List.map_cons, List.reverse_cons]

/-- **The loop pushes one value after the other.** -/
theorem evalLoop_of_pushes (checkSig : SigChecker) (h : Reads pc is rest) (his : Pushes is) (hexec : s.vfExec.all id = true)
    (hsize : s.stack.length + s.altstack.length + is.length ≤ 1000) (hfuel : pc.length ≤ fuel) :
    ∃ fuel', rest.length ≤ fuel' ∧ evalLoop checkSig fuel pc s =
      evalLoop checkSig fuel' rest { s with stack := pushedValues is ++ s.stack } := by
  induction is generalizing pc s fuel with
  | nil =>
    obtain rfl : pc = rest := h
    exact ⟨fuel, hfuel, rfl⟩
  | cons i is ih =>
    obtain ⟨pc', hop, h⟩ := h
    obtain ⟨⟨hle, hres, hdata⟩, his⟩ := List.forall_mem_cons.1 his
    have hlen := length_of_getOp hop
    rw [List.length_cons] at hsize
    cases pc with
    | nil => exact absurd hop (by simp)
    | cons op pc =>
      cases fuel with
      | zero => exact absurd hfuel (by simp)
      | succ fuel =>
        have hturn : evalTurn checkSig (op :: pc) s =
            (.ok pc', { s with stack := pushedValue i.1 i.2 :: s.stack }) := by
          rw [evalTurn_push hop hle hexec, if_neg (by omega), if_pos (by omega)]
        obtain ⟨fuel', hfuel', hrun⟩ := ih (s := { s with stack := pushedValue i.1 i.2 :: s.stack })
          h his hexec (by simp only [List.length_cons]; omega)
          (show pc'.length ≤ fuel by simp only [List.length_cons] at hlen hfuel; omega)
        refine ⟨fuel', hfuel', ?_⟩
        rw [evalLoop, Step.bind_of_ok hturn, hrun, pushedValues_cons, List.append_assoc]
        rfl

/-- A turn with an opcode that is executed. -/
theorem evalTurn_op {opcode : ℕ} (hop : getOp pc = some (opcode, [], pc')) (hlt : op16 < opcode)
    (hable : (opCodeOf opcode).isDisabled = false) (hexec : s.vfExec.all id = true)
    (hcount : s.nOpCount + 1 ≤ 201)
    (hrun : execOp checkSig (opCodeOf opcode) true pc' { s with nOpCount := s.nOpCount + 1 } =
      (.ok (), s'))
    (hsize : s'.stack.length + s'.altstack.length ≤ 1000) :
    evalTurn checkSig pc s = (.ok pc', s') := by
  have hexecuted : execInstruction checkSig opcode [] true pc' { s with nOpCount := s.nOpCount + 1 } =
      (.ok (), s') := by
    have hdata : ¬ opcode ≤ opPushData4 := by
      simp only [op16, opPushData4] at hlt ⊢
      omega
    have hnumber : ¬ (opcode = op1Negate ∨ (op1 ≤ opcode ∧ opcode ≤ op16)) := by
      simp only [op16, op1Negate, op1] at hlt ⊢
      omega
    have hres : opcode ≠ opReserved := by
      simp only [op16, opReserved] at hlt ⊢
      omega
    unfold execInstruction
    rw [if_neg (fun h => hdata h.2), if_pos (.inl rfl), if_neg hnumber, if_neg hres]
    exact hrun
  unfold evalTurn
  rw [Step.get_bind]
  simp only [hop, hexec]
  rw [Step.bind_of_ok (require_of (by simp)), countOp, if_pos hlt,
    Step.bind_of_ok (countOps_of_le hcount), Step.bind_of_ok (require_of (by simp [hable])),
    Step.bind_of_ok hexecuted]
  have hlimit : sizeLimit s' = (.ok (), s') := by
    unfold sizeLimit
    rw [Step.get_bind]
    exact require_of hsize
  rw [Step.bind_of_ok hlimit]
  rfl

/-- An evaluation whose loop ends, outside every conditional. -/
theorem evalScript_of_loop {m : ScriptMachine} (hlen : script.length ≤ 10000)
    (hloop : evalLoop checkSig script.length script (m.enter script) = (.ok (), s))
    (hexec : s.vfExec = []) : evalScript checkSig script m = (.ok (), ⟨s.stack, s.nCheckSigs⟩) := by
  have hbody : evalBody checkSig script (m.enter script) = (.ok (), s) := by
    rw [evalBody, Step.bind_of_ok (require_of hlen), Step.bind_of_ok hloop, Step.get_bind]
    exact require_of hexec
  unfold evalScript
  rw [Step.zoom_apply, hbody]

omit P D in
theorem pushBytes_nil : pushBytes [] = [0] := rfl

omit P D in
theorem length_pushBytes_le : (pushBytes b).length ≤ b.length + 5 := by
  unfold pushBytes
  split_ifs
  all_goals
    simp only [List.length_cons, List.length_append, length_leBytes]
    omega

omit P D in
theorem length_pushAll_le (h : ∀ v ∈ values, v.length ≤ 520) :
    (pushAll values).length ≤ 525 * values.length := by
  unfold pushAll
  induction values with
  | nil => exact le_rfl
  | cons v values ih =>
    obtain ⟨hv, h⟩ := List.forall_mem_cons.1 h
    have hle := length_pushBytes_le (b := v)
    have hih := ih h
    rw [List.flatMap_cons, List.length_append, List.length_cons]
    omega

/-- **Pushing values leaves them on the stack**, for any `CheckSig`. -/
theorem evalScript_pushAll (h : ∀ v ∈ values, v.length ≤ 520) (hfew : values.length ≤ 19) :
    evalScript checkSig (pushAll values) ⟨[], n⟩ = (.ok (), ⟨values.reverse, n⟩) := by
  have hreads : Reads (pushAll values) (values.map fun b => (pushOpcode b, b)) [] := by
    have hall : Reads (values.flatMap pushBytes ++ []) _ [] := reads_flatMap_pushBytes fun b hb => by
      have := h b hb
      omega
    rwa [List.append_nil] at hall
  have hvalues : pushedValues (values.map fun b => (pushOpcode b, b)) = values.reverse := by
    unfold pushedValues
    rw [List.map_map]
    congr 1
    refine (List.map_congr_left fun b _ => ?_).trans (List.map_id values)
    exact if_pos pushOpcode_le
  have hpushes : Pushes (values.map fun b => (pushOpcode b, b)) := by
    intro i hi
    obtain ⟨b, hb, rfl⟩ := List.mem_map.1 hi
    have hle := pushOpcode_le (b := b)
    simp only [opPushData4] at hle
    refine ⟨?_, ?_, h b hb⟩
    · simp only [op16]
      omega
    · simp only [opReserved]
      omega
  have hlen := length_pushAll_le h
  obtain ⟨fuel', -, hloop⟩ := evalLoop_of_pushes checkSig
    (s := ScriptMachine.enter ⟨[], n⟩ (pushAll values)) hreads hpushes rfl
    (by simp only [ScriptMachine.enter, List.length_nil, List.length_map]; omega) le_rfl
  have hend : evalLoop checkSig fuel' [] = pure () := by cases fuel' <;> rfl
  have hrun : evalLoop checkSig (pushAll values).length (pushAll values)
      (ScriptMachine.enter ⟨[], n⟩ (pushAll values)) =
        (.ok (), { ScriptMachine.enter ⟨[], n⟩ (pushAll values) with stack := values.reverse }) := by
    rw [hloop, hend, hvalues, Step.pure_apply]
    simp only [ScriptMachine.enter, List.append_nil]
  exact evalScript_of_loop (by omega) hrun rfl

/-! ## Running a multisignature script -/

omit P D in
/-- A small number is read off the stack as it was pushed there. -/
theorem encodes_pushedValue (hpos : 1 ≤ n) (hn : n ≤ 16) : Encodes (pushedValue (80 + n) []) n := by
  have hall : ∀ k : ℕ, k < 17 → (getVch (k : ℤ)).length ≤ nMaxNumSize ∧ bnOfVch (getVch (k : ℤ)) = k := by
    decide
  have hvalue : pushedValue (80 + n) [] = getVch (n : ℤ) := by
    unfold pushedValue
    rw [if_neg (by simp only [opPushData4]; omega)]
    congr 1
    simp only [op1]
    omega
  rw [hvalue]
  obtain ⟨hlen, hbn⟩ := hall n (by omega)
  exact ⟨hlen, hbn⟩

/-- A script that asks for signatures of `m` of some keys. -/
structure MultiSigScript (script : CScript) (m : ℕ) (keys : List Instruction) : Prop where
  pos : 1 ≤ m
  le : m ≤ keys.length
  few : keys.length ≤ 16
  sizes : ∀ k ∈ keys, 33 ≤ k.2.length ∧ k.2.length ≤ 120
  reads : Reads script ([(80 + m, [])] ++ keys ++ [(80 + keys.length, []), (174, [])]) []

section
variable {m : ℕ} {ops : List Instruction}

omit P D in
/-- The keys are pushed. -/
theorem MultiSigScript.opcode_le (h : MultiSigScript script m ops) : ∀ k ∈ ops, k.1 ≤ opPushData4 := by
  intro k hk
  obtain ⟨hmin, -⟩ := h.sizes k hk
  refine h.reads.opcode_le k (by simp [hk]) ?_
  rintro heq
  rw [heq] at hmin
  simp at hmin

omit P D in
/-- Its instructions up to the last push a value each. -/
theorem MultiSigScript.pushes (h : MultiSigScript script m ops) :
    Pushes ([(80 + m, [])] ++ ops ++ [(80 + ops.length, [])]) := by
  have hpos := h.pos
  have hle := h.le
  have hfew := h.few
  have hsmall : ∀ k, 1 ≤ k → k ≤ 16 → 80 + k ≤ op16 ∧ 80 + k ≠ opReserved := by
    intro k h₁ h₂
    simp only [op16, opReserved]
    omega
  intro i hi
  rw [List.append_assoc, List.singleton_append, List.mem_cons, List.mem_append,
    List.mem_singleton] at hi
  rcases hi with rfl | hi | rfl
  · exact ⟨(hsmall m hpos (by omega)).1, (hsmall m hpos (by omega)).2, Nat.zero_le _⟩
  · have hmax := (h.sizes i hi).2
    have hop := h.opcode_le i hi
    simp only [opPushData4] at hop
    simp only [op16, opReserved]
    omega
  · exact ⟨(hsmall _ (by omega) hfew).1, (hsmall _ (by omega) hfew).2, Nat.zero_le _⟩

omit P D in
/-- They leave the keys between their two numbers. -/
theorem MultiSigScript.pushedValues_eq (h : MultiSigScript script m ops) :
    pushedValues ([(80 + m, [])] ++ ops ++ [(80 + ops.length, [])]) =
      pushedValue (80 + ops.length) [] :: ((ops.map Prod.snd).reverse ++ [pushedValue (80 + m) []]) := by
  have hops : ops.map (fun i => pushedValue i.1 i.2) = ops.map Prod.snd :=
    List.map_congr_left fun i hi => if_pos (h.opcode_le i hi)
  unfold pushedValues
  rw [List.map_append, List.map_append, hops, List.reverse_append, List.reverse_append]
  simp only [List.map_cons, List.map_nil, List.reverse_singleton, List.singleton_append]

omit P D in
theorem MultiSigScript.length_le (h : MultiSigScript script m ops) : script.length ≤ 10000 := by
  have hfew := h.few
  have hlen := h.reads.length_le (L := 120) fun i hi => by
    simp only [List.mem_append, List.mem_cons, List.not_mem_nil, or_false] at hi
    rcases hi with (rfl | hi) | rfl | rfl
    · simp
    · exact (h.sizes i hi).2
    · simp
    · simp
  have hcount : ([(80 + m, [])] ++ ops ++ [(80 + ops.length, []), ((174 : ℕ), ([] : List UInt8))]).length =
      ops.length + 3 := by
    simp only [List.length_append, List.length_cons, List.length_nil]
    omega
  rw [hcount, List.length_nil, Nat.zero_add] at hlen
  exact hlen.trans ((Nat.mul_le_mul_left 125 (show ops.length + 3 ≤ 19 by omega)).trans (by norm_num))

/-- **The script takes the signatures off the stack** and leaves whether
they match its keys in order. -/
theorem MultiSigScript.evalScript_eq (h : MultiSigScript script m ops) (checkSig : SigChecker) (n : ℕ) (hm : sigs.length = m)
    (hkept : withoutSigs sigs.reverse script = script) :
    ∃ n', evalScript checkSig script ⟨sigs.reverse ++ [[]], n⟩ =
      (.ok (), ⟨[vchBool (greedy (fun vchSig vchPubKey => checkSig vchSig vchPubKey script)
        sigs.reverse (ops.map Prod.snd).reverse)], n'⟩) := by
  have hfew := h.few
  have hle := h.le
  have hpos := h.pos
  have hsplit : [(80 + m, [])] ++ ops ++ [(80 + ops.length, []), (174, [])] =
      ([(80 + m, [])] ++ ops ++ [(80 + ops.length, [])]) ++ [((174 : ℕ), ([] : List UInt8))] := by
    rw [List.append_assoc _ [_] [_]]
    rfl
  obtain ⟨mid, hreads, end', hop, hend⟩ := reads_append.1 (hsplit ▸ h.reads)
  obtain rfl : end' = [] := hend
  set s₀ : ScriptState := ScriptMachine.enter ⟨sigs.reverse ++ [[]], n⟩ script with hs₀
  obtain ⟨fuel, hfuel, hloop⟩ := evalLoop_of_pushes checkSig (s := s₀) hreads h.pushes rfl
    (by simp only [hs₀, ScriptMachine.enter, List.length_append, List.length_reverse,
          List.length_cons, List.length_nil]
        omega) le_rfl
  set s₁ : ScriptState := { s₀ with
    stack := pushedValues ([(80 + m, [])] ++ ops ++ [(80 + ops.length, [])]) ++
      s₀.stack } with hs₁
  have hstack : MultiSigStack s₁.stack (ops.map Prod.snd) sigs [] := by
    refine ⟨⟨pushedValue (80 + ops.length) [], pushedValue (80 + m) [], [], ?_, ?_, ?_⟩, ?_, ?_⟩
    · rw [List.length_map]
      exact encodes_pushedValue (by omega) hfew
    · rw [hm]
      exact encodes_pushedValue hpos (by omega)
    · have hback : s₁.stack = pushedValues ([(80 + m, [])] ++ ops ++ [(80 + ops.length, [])]) ++
          (sigs.reverse ++ [[]]) := rfl
      rw [hback, h.pushedValues_eq]
      simp only [List.cons_append, List.append_assoc, List.nil_append]
    · rw [List.length_map]
      omega
    · rw [List.length_map]
      omega
  obtain ⟨calls, -, hrun⟩ := checkMultiSigOp_of_le checkSig
    (s := { s₁ with nOpCount := s₁.nOpCount + 1 }) hstack (by
      simp only [hs₁, hs₀, ScriptMachine.enter, List.length_map]
      omega)
  have hcode : s₁.pbegincodehash = script := rfl
  simp only [hcode, hkept] at hrun
  have hturn : evalTurn checkSig mid s₁ = _ := evalTurn_op hop (by decide) (by decide) rfl
    (by simp only [hs₁, hs₀, ScriptMachine.enter]; omega) hrun (by
      simp only [hs₁, hs₀, ScriptMachine.enter, List.length_cons, List.length_nil]
      omega)
  refine ⟨n + calls, ?_⟩
  cases mid with
  | nil => exact absurd hop (by simp)
  | cons op mid =>
    cases fuel with
    | zero => exact absurd hfuel (by simp)
    | succ fuel =>
      have hend : ∀ s, evalLoop checkSig fuel [] s = (.ok (), s) := fun s => by cases fuel <;> rfl
      rw [evalLoop, Step.bind_of_ok hturn, hend] at hloop
      exact evalScript_of_loop h.length_le hloop rfl

/-- **Signatures in the order of the keys**, pushed over the element that
is taken off as well, verify. -/
theorem MultiSigScript.verifyScript_eq (h : MultiSigScript script m ops) (hm : sigs.length = m)
    (hshort : ∀ sig ∈ sigs, sig.length ≤ 520) (hkeys : ∀ sig ∈ sigs, sig ∉ ops.map Prod.snd)
    (hmatch : InOrder (fun vchSig vchPubKey => checkSig vchSig vchPubKey script = true) sigs
      (ops.map Prod.snd)) (hne : ∀ sig ∈ sigs, sig ≠ []) (fValidate : Bool) :
    verifyScript checkSig (pushAll ([] :: sigs)) script fValidate = true := by
  have hle := h.le
  have hfew := h.few
  have hpushed : evalScript checkSig (pushAll ([] :: sigs)) ⟨[], 0⟩ =
      (.ok (), ⟨sigs.reverse ++ [[]], 0⟩) := by
    rw [evalScript_pushAll (List.forall_mem_cons.2 ⟨Nat.zero_le _, hshort⟩)
      (by rw [List.length_cons]; omega), List.reverse_cons]
  have hkept : withoutSigs sigs.reverse script = script := by
    refine withoutSigs_of_reads h.reads fun sig hsig => ?_
    rw [List.mem_reverse] at hsig
    refine ⟨(hshort sig hsig).trans_lt (by norm_num), fun i hi heq => ?_⟩
    simp only [List.mem_append, List.mem_cons, List.not_mem_nil, or_false] at hi
    rcases hi with (rfl | hi) | rfl | rfl
    · exact hne sig hsig (Prod.mk.inj heq).2.symm
    · exact hkeys sig hsig (List.mem_map.2 ⟨i, hi, by rw [heq]⟩)
    · exact hne sig hsig (Prod.mk.inj heq).2.symm
    · exact hne sig hsig (Prod.mk.inj heq).2.symm
  obtain ⟨n', hrun⟩ := h.evalScript_eq checkSig 0 hm hkept
  rw [Matching.greedy_iff.2 (Matching.inOrder_reverse.2 hmatch)] at hrun
  have hp2sh : isPayToScriptHash script = false := by
    have hreads := h.reads
    rw [List.append_assoc, List.singleton_append] at hreads
    refine isPayToScriptHash_of_reads hreads fun heq => ?_
    have := congrArg Prod.fst heq
    simp only at this
    omega
  have hend : endsTrue ⟨[vchBool true], n'⟩ = (.ok (), ⟨[vchBool true], n'⟩) := rfl
  unfold verifyScript verifySteps
  rw [Step.bind_of_ok hpushed, Step.get_bind, Step.bind_of_ok hrun, Step.bind_of_ok hend, hp2sh,
    Bool.and_false, if_neg Bool.false_ne_true]
  rfl

end

end

/-! ## Matching signatures to keys -/

section
variable {check : List UInt8 → List UInt8 → Bool} {m : ℕ} {found : List (List UInt8 × List UInt8)}
variable {tried sigs1 sigs2 : List (List UInt8)}

/-- The map of keys to signatures after some have been tried: it holds
valid ones, and one for each key that had any. -/
structure Placed (check : List UInt8 → List UInt8 → Bool) (keys tried : List (List UInt8))
    (found : List (List UInt8 × List UInt8)) : Prop where
  valid : ∀ key sig, found.lookup key = some sig → sig ∈ tried ∧ check sig key = true
  complete : ∀ key ∈ keys, ∀ sig ∈ tried, check sig key = true → (found.lookup key).isSome = true

/-- **A signature that is valid for one key only gets its place**, unless
the key has one. -/
theorem Placed.placeSig (h : Placed check keys tried found)
    (honce : ∀ key ∈ keys, ∀ key' ∈ keys, check sig key = true → check sig key' = true → key = key') :
    Placed check keys (sig :: tried) (placeSig check keys found sig) := by
  unfold CryptoBullion.placeSig
  rcases hfind : keys.find? fun pubkey => (found.lookup pubkey).isNone && check sig pubkey with _ | pubkey
  · refine ⟨fun key v hv => ?_, fun key hkey v hv hcheck => ?_⟩
    · obtain ⟨htried, hcheck⟩ := h.valid key v hv
      exact ⟨List.mem_cons_of_mem _ htried, hcheck⟩
    · rcases List.mem_cons.1 hv with rfl | hv
      · -- no key without a signature is one of this
        have hnone := List.find?_eq_none.1 hfind key hkey
        rw [hcheck, Bool.and_true, Bool.not_eq_true, Option.isNone_eq_false_iff] at hnone
        exact hnone
      · exact h.complete key hkey v hv hcheck
  · have hfound := List.find?_some hfind
    rw [Bool.and_eq_true] at hfound
    have hmem := List.mem_of_find?_eq_some hfind
    refine ⟨fun key v hv => ?_, fun key hkey v hv hcheck => ?_⟩
    · rw [List.lookup_cons] at hv
      split at hv
      · rename_i heq
        obtain rfl : key = pubkey := by simpa using heq
        obtain rfl := Option.some.inj hv
        exact ⟨List.mem_cons_self, hfound.2⟩
      · obtain ⟨htried, hcheck⟩ := h.valid key v hv
        exact ⟨List.mem_cons_of_mem _ htried, hcheck⟩
    · rw [List.lookup_cons]
      split
      · rfl
      · rename_i hneq
        rcases List.mem_cons.1 hv with rfl | hv
        · obtain rfl := honce key hkey pubkey hmem hcheck hfound.2
          exact absurd hneq (by simp)
        · exact h.complete key hkey v hv hcheck

theorem placed_matchSigs (honce : ∀ sig ∈ sigs, ∀ key ∈ keys, ∀ key' ∈ keys,
    check sig key = true → check sig key' = true → key = key') :
    Placed check keys sigs (matchSigs check keys sigs) := by
  have hfold : ∀ {sigs tried : List (List UInt8)} {found : List (List UInt8 × List UInt8)},
      (∀ sig ∈ sigs, ∀ key ∈ keys, ∀ key' ∈ keys,
        check sig key = true → check sig key' = true → key = key') → Placed check keys tried found →
      Placed check keys (sigs.reverse ++ tried) (sigs.foldl (placeSig check keys) found) := by
    intro sigs
    induction sigs with
    | nil => exact fun _ h => h
    | cons sig sigs ih =>
      intro tried found honce h
      obtain ⟨hsig, honce⟩ := List.forall_mem_cons.1 honce
      rw [List.foldl_cons, List.reverse_cons, List.append_assoc]
      exact ih honce (h.placeSig hsig)
  have hstart : Placed check keys [] [] :=
    ⟨fun _ _ hv => absurd hv (by simp), fun _ _ _ hv => absurd hv List.not_mem_nil⟩
  have h := hfold honce hstart
  rw [List.append_nil] at h
  exact ⟨fun key sig hsig => by simpa using h.valid key sig hsig,
    fun key hkey sig hsig => h.complete key hkey sig (List.mem_reverse.2 hsig)⟩

/-- What is combined: the signatures there are, valid or not, of which each
valid one is valid for one key only and is no key itself, and together they
cover as many keys as are asked for. -/
structure Completes (check : List UInt8 → List UInt8 → Bool) (m : ℕ)
    (keys sigs : List (List UInt8)) : Prop where
  once : ∀ sig ∈ sigs, ∀ key ∈ keys, ∀ key' ∈ keys,
    check sig key = true → check sig key' = true → key = key'
  apart : ∀ sig ∈ sigs, ∀ key ∈ keys, check sig key = true → sig ∉ keys
  enough : m ≤ keys.countP fun key => ∃ sig ∈ sigs, check sig key = true

/-- What the merged script consists of. -/
structure Chosen (check : List UInt8 → List UInt8 → Bool) (m : ℕ)
    (keys sigs chosen : List (List UInt8)) : Prop where
  length : chosen.length = m
  mem : ∀ sig ∈ chosen, sig ∈ sigs ∧ ∃ key ∈ keys, check sig key = true
  inOrder : InOrder (fun sig key => check sig key = true) chosen keys

theorem mem_allSigs : sig ∈ allSigs sigs1 sigs2 ↔ sig ∈ sigs1 ++ sigs2 ∧ sig ≠ [] := by
  unfold allSigs
  rw [Finset.mem_sort, List.mem_toFinset, List.mem_filter]
  cases sig <;> simp

/-- **The order of the two does not matter.** -/
theorem allSigs_comm : allSigs sigs1 sigs2 = allSigs sigs2 sigs1 := by
  unfold allSigs
  congr 1
  ext sig
  simp only [List.mem_toFinset, List.mem_filter, List.mem_append]
  tauto

/-- **Enough signatures are chosen**, whatever the order they are tried
in. -/
theorem Completes.exists_chosen (h : Completes check m keys (sigs1 ++ sigs2))
    (hnil : ∀ key, check [] key = false) :
    ∃ chosen, Chosen check m keys (sigs1 ++ sigs2) chosen ∧
      mergeSigs m keys (matchSigs check keys (allSigs sigs1 sigs2)) = pushAll ([] :: chosen) := by
  have hplaced : Placed check keys (allSigs sigs1 sigs2) (matchSigs check keys (allSigs sigs1 sigs2)) :=
    placed_matchSigs fun sig hsig => h.once sig (mem_allSigs.1 hsig).1
  set found := matchSigs check keys (allSigs sigs1 sigs2) with hfound
  -- a key has a signature exactly if there is one for it
  have hcount : (keys.filterMap fun pubkey => found.lookup pubkey).length =
      keys.countP fun key => ∃ sig ∈ sigs1 ++ sigs2, check sig key = true := by
    rw [List.length_filterMap_eq_countP]
    refine List.countP_congr fun key hkey => ?_
    rw [decide_eq_true_eq]
    constructor
    · intro hsome
      obtain ⟨sig, hsig⟩ := Option.isSome_iff_exists.1 hsome
      obtain ⟨hmem, hcheck⟩ := hplaced.valid key sig hsig
      exact ⟨sig, (mem_allSigs.1 hmem).1, hcheck⟩
    · rintro ⟨sig, hsig, hcheck⟩
      refine hplaced.complete key hkey sig (mem_allSigs.2 ⟨hsig, ?_⟩) hcheck
      rintro rfl
      rw [hnil] at hcheck
      exact absurd hcheck (by simp)
  have henough := h.enough
  rw [← hcount] at henough
  have hlen : ((keys.filterMap fun pubkey => found.lookup pubkey).take m).length = m := by
    rw [List.length_take, min_eq_left henough]
  refine ⟨(keys.filterMap fun pubkey => found.lookup pubkey).take m, ⟨hlen, fun sig hsig => ?_, ?_⟩, ?_⟩
  · obtain ⟨key, hkey, hlookup⟩ := List.mem_filterMap.1 (List.mem_of_mem_take hsig)
    obtain ⟨hmem, hcheck⟩ := hplaced.valid key sig hlookup
    exact ⟨(mem_allSigs.1 hmem).1, key, hkey, hcheck⟩
  · exact (Matching.inOrder_filterMap fun key _ sig hsig => (hplaced.valid key sig hsig).2).take m
  · unfold mergeSigs
    simp only [hlen, Nat.sub_self, List.replicate_zero, List.append_nil]
    rfl

/-- **What has been chosen can be combined again**, with anything there
was. -/
theorem Chosen.completes {chosen others : List (List UInt8)} (hc : Chosen check m keys sigs chosen)
    (h : Completes check m keys sigs) (hothers : ∀ sig ∈ others, sig ∈ sigs)
    (hnil : ∀ key, check [] key = false) : Completes check m keys (([] :: chosen) ++ others) := by
  have hold : ∀ sig ∈ ([] :: chosen) ++ others, ∀ key, check sig key = true → sig ∈ sigs := by
    intro sig hsig key hcheck
    rw [List.cons_append, List.mem_cons, List.mem_append] at hsig
    rcases hsig with rfl | hsig | hsig
    · rw [hnil] at hcheck
      exact absurd hcheck (by simp)
    · exact (hc.mem sig hsig).1
    · exact hothers sig hsig
  refine ⟨fun sig hsig key hkey key' hkey' hcheck => ?_, fun sig hsig key hkey hcheck => ?_, ?_⟩
  · exact h.once sig (hold sig hsig key hcheck) key hkey key' hkey' hcheck
  · exact h.apart sig (hold sig hsig key hcheck) key hkey hcheck
  · calc m = chosen.length := hc.length.symm
      _ ≤ keys.countP fun key => ∃ sig ∈ chosen, check sig key = true := hc.inOrder.length_le_countP
      _ ≤ _ := List.countP_mono_left fun key _ hkey => by
        simp only [decide_eq_true_eq] at hkey ⊢
        obtain ⟨sig, hsig, hcheck⟩ := hkey
        exact ⟨sig, by simp [hsig], hcheck⟩

theorem Completes.symm (h : Completes check m keys (sigs1 ++ sigs2)) :
    Completes check m keys (sigs2 ++ sigs1) := by
  have hmem : ∀ sig, sig ∈ sigs2 ++ sigs1 ↔ sig ∈ sigs1 ++ sigs2 := fun sig => by
    rw [List.mem_append, List.mem_append, or_comm]
  refine ⟨fun sig hsig => h.once sig ((hmem sig).1 hsig), fun sig hsig => h.apart sig ((hmem sig).1 hsig), ?_⟩
  simpa only [hmem] using h.enough

end

/-! ## Combining -/

section
variable [P : Platform] [D : Digests] {txTo : CTransaction} {nIn : ℕ} {m n : UInt8}
variable {scriptPubKey scriptSig scriptSig1 scriptSig2 : CScript}

omit D in
/-- Nothing is no signature. -/
theorem checkSig_nil {nHashType : ℤ} {scriptCode : CScript} :
    checkSig txTo nIn nHashType [] key scriptCode = false := rfl

/-- Nothing on a stack is longer than a script may push. -/
theorem length_of_mem_stackOf (h : sig ∈ stackOf scriptSig) : sig.length ≤ 520 := by
  have hrests : Rests 0 (⟨[], 0⟩ : ScriptMachine) := ⟨by simp, fun _ hv => absurd hv List.not_mem_nil⟩
  have hlongest : longest 0 = 520 := rfl
  have heval : Triple (Rests 0) (evalScript (checkSig default 0 0) scriptSig) _ _ := evalScript_fine
  have hfine := heval _ hrests
  unfold stackOf at h
  rw [List.mem_reverse] at h
  rcases hrun : evalScript (checkSig default 0 0) scriptSig ⟨[], 0⟩ with ⟨_ | _, machine⟩
  · rw [hrun] at h
    exact hlongest ▸ (hfine.2 _ _ hrun).short sig h
  · rw [hrun] at h
    exact hlongest ▸ (hfine.1 _ _ hrun).short sig h

/-- For a multisignature script all signatures are merged. -/
theorem combineSignatures_multiSig
    (hsolver : solver scriptPubKey = (true, .multiSig, [[m]] ++ keys ++ [[n]])) :
    combineSignatures scriptPubKey txTo nIn scriptSig1 scriptSig2 =
      mergeSigs m.toNat keys (matchSigs (fun sig pubkey => checkSig txTo nIn 0 sig pubkey scriptPubKey)
        keys (allSigs (stackOf scriptSig1) (stackOf scriptSig2))) := by
  have hkeys : (([[m]] ++ keys ++ [[n]]).drop 1).take (([[m]] ++ keys ++ [[n]]).length - 2) = keys := by
    have hlen : ([[m]] ++ keys ++ [[n]]).length - 2 = keys.length := by
      simp only [List.length_append, List.length_singleton]
      omega
    rw [hlen, List.append_assoc, List.singleton_append, List.drop_succ_cons, List.drop_zero, List.take_left]
  unfold combineSignatures
  simp only [hsolver]
  rw [combineStacks, combineMultisig]
  simp only [hkeys]
  rfl

omit P D in
/-- The script asks for signatures of its keys. -/
theorem multiSigScript_of_solver
    (hsolver : solver scriptPubKey = (true, .multiSig, [[m]] ++ keys ++ [[n]])) :
    ∃ ops : List Instruction, ops.map Prod.snd = keys ∧ MultiSigScript scriptPubKey m.toNat ops := by
  have hstd := solver_eq_true_iff.1 hsolver
  generalize hsols : [[m]] ++ keys ++ [[n]] = sols at hstd
  cases hstd with
  | @multiSig m' ops hm hmn hn hkeys hreads =>
    obtain ⟨hfront, hlast⟩ := List.append_inj' hsols rfl
    obtain ⟨hm', hops⟩ := List.append_inj hfront rfl
    have hbyte : m.toNat = m' := by
      obtain rfl : m = UInt8.ofNat m' := (List.cons.inj (List.cons.inj hm').1).1
      exact Nat.mod_eq_of_lt (show m' < 256 by omega)
    rw [hbyte]
    exact ⟨ops, hops.symm, hm, hmn, hn, hkeys, hreads⟩

/-- Pushed values are what is on the stack. -/
theorem stackOf_pushAll (h : ∀ v ∈ values, v.length ≤ 520) (hfew : values.length ≤ 19) :
    stackOf (pushAll values) = values := by
  unfold stackOf
  rw [evalScript_pushAll h hfew, List.reverse_reverse]

/-- The signatures on both stacks complete the script. -/
def Complete (txTo : CTransaction) (nIn : ℕ) (scriptPubKey : CScript) (m : UInt8)
    (keys : List (List UInt8)) (scriptSig1 scriptSig2 : CScript) : Prop :=
  Completes (fun sig key => checkSig txTo nIn 0 sig key scriptPubKey) m.toNat keys
    (stackOf scriptSig1 ++ stackOf scriptSig2)

/-- Combining completes, and leaves a script that completes again. -/
theorem Complete.combine
    (hsolver : solver scriptPubKey = (true, .multiSig, [[m]] ++ keys ++ [[n]]))
    (h : Complete txTo nIn scriptPubKey m keys scriptSig1 scriptSig2) :
    (∀ fValidate, verifyScript (checkSig txTo nIn 0)
      (combineSignatures scriptPubKey txTo nIn scriptSig1 scriptSig2) scriptPubKey fValidate = true) ∧
    ∀ other, (∀ sig ∈ stackOf other, sig ∈ stackOf scriptSig1 ++ stackOf scriptSig2) →
      Complete txTo nIn scriptPubKey m keys
        (combineSignatures scriptPubKey txTo nIn scriptSig1 scriptSig2) other := by
  obtain ⟨ops, rfl, hscript⟩ := multiSigScript_of_solver hsolver
  obtain ⟨chosen, hchosen, hmerge⟩ := Completes.exists_chosen h fun _ => checkSig_nil
  have hcombined : combineSignatures scriptPubKey txTo nIn scriptSig1 scriptSig2 = pushAll ([] :: chosen) :=
    (combineSignatures_multiSig hsolver).trans hmerge
  have hshort : ∀ sig ∈ chosen, sig.length ≤ 520 := by
    intro sig hsig
    rcases List.mem_append.1 (hchosen.mem sig hsig).1 with hsig | hsig
    · exact length_of_mem_stackOf hsig
    · exact length_of_mem_stackOf hsig
  have hne : ∀ sig ∈ chosen, sig ≠ [] := by
    rintro sig hsig rfl
    obtain ⟨-, key, -, hcheck⟩ := hchosen.mem [] hsig
    rw [checkSig_nil] at hcheck
    exact absurd hcheck (by simp)
  have hapart : ∀ sig ∈ chosen, sig ∉ ops.map Prod.snd := by
    intro sig hsig
    obtain ⟨hmem, key, hkey, hcheck⟩ := hchosen.mem sig hsig
    exact h.apart sig hmem key hkey hcheck
  constructor
  · intro fValidate
    rw [hcombined]
    exact hscript.verifyScript_eq hchosen.length hshort hapart hchosen.inOrder hne fValidate
  · intro other hother
    have hstack : stackOf (combineSignatures scriptPubKey txTo nIn scriptSig1 scriptSig2) = [] :: chosen := by
      have hfew : ([] :: chosen).length ≤ 19 := by
        have hle := hscript.le
        have hmax := hscript.few
        rw [List.length_cons, hchosen.length]
        omega
      rw [hcombined, stackOf_pushAll (List.forall_mem_cons.2 ⟨Nat.zero_le _, hshort⟩) hfew]
    unfold Complete
    rw [hstack]
    exact hchosen.completes h hother fun _ => checkSig_nil

/-- **Combining partial multisignatures completes them.** For every
multisignature script, input and pair of scripts: where the valid
signatures on both stacks, each valid for one key only and none of them a
key itself, cover as many keys as are asked for, what is combined verifies;
it is the same the other way round; and it verifies still when it is
combined with either of the two again, in either order. -/
theorem combineSignatures_completes (txTo : CTransaction) (nIn : ℕ)
    (scriptPubKey scriptSig1 scriptSig2 : CScript) (m n : UInt8) (keys : List (List UInt8))
    (hsolver : solver scriptPubKey = (true, .multiSig, [[m]] ++ keys ++ [[n]]))
    (h : Complete txTo nIn scriptPubKey m keys scriptSig1 scriptSig2) :
    (∀ fValidate, verifyScript (checkSig txTo nIn 0)
      (combineSignatures scriptPubKey txTo nIn scriptSig1 scriptSig2) scriptPubKey fValidate = true) ∧
    combineSignatures scriptPubKey txTo nIn scriptSig2 scriptSig1 =
      combineSignatures scriptPubKey txTo nIn scriptSig1 scriptSig2 ∧
    ∀ other ∈ [scriptSig1, scriptSig2], ∀ fValidate,
      verifyScript (checkSig txTo nIn 0) (combineSignatures scriptPubKey txTo nIn
        (combineSignatures scriptPubKey txTo nIn scriptSig1 scriptSig2) other) scriptPubKey
          fValidate = true ∧
      verifyScript (checkSig txTo nIn 0) (combineSignatures scriptPubKey txTo nIn other
        (combineSignatures scriptPubKey txTo nIn scriptSig1 scriptSig2)) scriptPubKey
          fValidate = true := by
  obtain ⟨hverify, hagain⟩ := h.combine hsolver
  have hswap : ∀ scriptSig1 scriptSig2, combineSignatures scriptPubKey txTo nIn scriptSig2 scriptSig1 =
      combineSignatures scriptPubKey txTo nIn scriptSig1 scriptSig2 := by
    intro scriptSig1 scriptSig2
    rw [combineSignatures_multiSig hsolver, combineSignatures_multiSig hsolver, allSigs_comm]
  refine ⟨hverify, hswap scriptSig1 scriptSig2, fun other hother fValidate => ?_⟩
  have hsub : ∀ sig ∈ stackOf other, sig ∈ stackOf scriptSig1 ++ stackOf scriptSig2 := by
    intro sig hsig
    simp only [List.mem_cons, List.not_mem_nil, or_false] at hother
    rcases hother with rfl | rfl
    · exact List.mem_append_left _ hsig
    · exact List.mem_append_right _ hsig
  have hother := ((hagain other hsub).combine hsolver).1 fValidate
  exact ⟨hother, by rw [hswap]; exact hother⟩

end

namespace CombineExample

/-- A signature is of the key that begins with the same byte. -/
@[reducible] def platform : Platform :=
  { Platform.toy with verify := fun pubKey _ vchSig => pubKey.head? = vchSig.head? }

/-- Two of three keys. -/
def threeKeys : List (List UInt8) := [List.replicate 33 1, List.replicate 33 2, List.replicate 33 3]

/-- A placeholder, a signature of the third key and an invalid one. -/
def scriptSig1 : CScript := pushAll [[], [3, 1], [9, 1]]

/-- A signature of the first key and a placeholder. -/
def scriptSig2 : CScript := pushAll [[1, 1], []]

end CombineExample

open CombineExample in
/-- Two signatures out of order, in two scripts, verify together. -/
theorem combineSignatures_completes_twoOfThree :
    verifyScript (P := platform) (D := .toy) (checkSig (P := platform) default 0 0)
      (combineSignatures (P := platform) (D := .toy) (setMultisig 2 threeKeys) default 0 scriptSig1 scriptSig2)
      (setMultisig 2 threeKeys) true = true := by
  have hsolver : solver (setMultisig 2 threeKeys) = (true, .multiSig, [[2]] ++ threeKeys ++ [[3]]) :=
    solver_eq_true_iff.2 (@standard_setMultisig 2 threeKeys (by decide) (by decide) (by decide) (by decide))
  have hstack₁ : stackOf (P := platform) (D := .toy) scriptSig1 = [[], [3, 1], [9, 1]] :=
    stackOf_pushAll (P := platform) (D := .toy) (by decide) (by decide)
  have hstack₂ : stackOf (P := platform) (D := .toy) scriptSig2 = [[1, 1], []] :=
    stackOf_pushAll (P := platform) (D := .toy) (by decide) (by decide)
  refine (combineSignatures_completes (P := platform) (D := .toy) default 0 (setMultisig 2 threeKeys)
    scriptSig1 scriptSig2 2 3 threeKeys hsolver ?_).1 true
  unfold Complete
  rw [hstack₁, hstack₂]
  exact ⟨by decide, by decide, by decide⟩

end CryptoBullion
