import CryptoBullion.Model.Solver
import CryptoBullion.Scripts.Instructions
/-!
# What the solver recognises

The comparison with a template is a loop over two scripts at once. Turn by
turn it says what the script's next instruction has to be, so a template
describes the scripts that are read as certain instructions, and nothing is
left of the loop but that description. Since a script is read in one way
only, no script fits two templates, and the order in which they are tried
does not matter.
-/

namespace CryptoBullion

variable {script pc pc' pc1 pc2 rest rest2 : CScript} {opcode opcode2 fuel m n : ℕ}
variable {data vch vch2 key : List UInt8} {v v' sols : List (List UInt8)} {keys : List Instruction}
variable {cursor : ScriptCursor} {last : Instruction}

/-! ## The comparison, turn by turn -/

theorem matchLoop_nil : matchLoop (fuel + 1) pc1 [] v = some sols ↔ pc1 = [] ∧ v = sols := by
  rw [matchLoop]
  cases pc1 with
  | nil => simp
  | cons op pc1 =>
    simp only [List.isEmpty_cons, Bool.false_and, Bool.false_eq_true, if_false, getOp_nil]
    cases getOp (op :: pc1) <;> simp

/-- **An instruction of the template** that is not `OP_PUBKEYS` stands for one
of the script. -/
theorem matchLoop_cons (ht : getOp pc2 = some (opcode2, vch2, rest2)) (hkeys : opcode2 ≠ opPubKeys) :
    matchLoop (fuel + 1) pc1 pc2 v = some sols ↔
      ∃ opcode1 vch1 rest1 v', getOp pc1 = some (opcode1, vch1, rest1) ∧
        matchOp opcode1 opcode2 vch1 vch2 v = some v' ∧ matchLoop fuel rest1 rest2 v' = some sols := by
  have hne : pc2.isEmpty = false := by
    cases pc2 with
    | nil => exact absurd ht (by simp)
    | cons _ _ => rfl
  rw [matchLoop, hne, Bool.and_false, if_neg Bool.false_ne_true, ht]
  rcases hop : getOp pc1 with _ | ⟨opcode1, vch1, rest1⟩
  · simp
  · simp only [if_neg hkeys, Option.bind_eq_some_iff, Option.some.injEq, Prod.mk.injEq]
    constructor
    · rintro ⟨v', hv', h⟩
      exact ⟨opcode1, vch1, rest1, v', ⟨rfl, rfl, rfl⟩, hv', h⟩
    · rintro ⟨_, _, _, v', ⟨rfl, rfl, rfl⟩, hv', h⟩
      exact ⟨v', hv', h⟩

/-! ## The loop over the keys -/

/-- What the loop has taken when it stops at an instruction. -/
theorem of_pubKeysLoop (hfuel : pc'.length < fuel) (hop : getOp pc = some (opcode, vch, pc'))
    (h : pubKeysLoop fuel ⟨opcode, vch, pc'⟩ v = (cursor, v')) (hlast : cursor.opcode ≠ opInvalid) :
    ∃ keys : List Instruction, (∀ k ∈ keys, isKeySize k.2 = true) ∧ v' = v ++ keys.map Prod.snd ∧
      Reads pc (keys ++ [(cursor.opcode, cursor.vch)]) cursor.pc := by
  induction fuel generalizing pc opcode vch pc' v with
  | zero => exact absurd hfuel (Nat.not_lt_zero _)
  | succ fuel ih =>
    rw [pubKeysLoop] at h
    by_cases hkey : isKeySize vch = true
    swap
    · rw [if_neg hkey] at h
      obtain ⟨rfl, rfl⟩ := Prod.mk.inj h
      exact ⟨[], by simp, by simp, pc', hop, rfl⟩
    rw [if_pos hkey] at h
    rcases hnext : getOp pc' with _ | ⟨opcode', vch', pc''⟩
    · simp only [hnext] at h
      obtain ⟨rfl, -⟩ := Prod.mk.inj h
      exact absurd rfl hlast
    · simp only [hnext] at h
      have hlen := length_of_getOp hnext
      obtain ⟨keys, hkeys, rfl, hreads⟩ := ih (by omega) hnext h
      refine ⟨(opcode, vch) :: keys, List.forall_mem_cons.2 ⟨hkey, hkeys⟩, ?_, pc', hop, hreads⟩
      rw [List.append_assoc]
      rfl

/-- **The loop takes the keys there are.** -/
theorem pubKeysLoop_of_reads (hfuel : pc'.length < fuel) (hop : getOp pc = some (opcode, vch, pc'))
    (hkeys : ∀ k ∈ keys, isKeySize k.2 = true) (hlast : isKeySize last.2 = false)
    (h : Reads pc (keys ++ [last]) rest) :
    pubKeysLoop fuel ⟨opcode, vch, pc'⟩ v = (⟨last.1, last.2, rest⟩, v ++ keys.map Prod.snd) := by
  induction keys generalizing pc opcode vch pc' v fuel with
  | nil =>
    obtain ⟨rest', hop', rfl⟩ := h
    rw [hop] at hop'
    simp only [Option.some.injEq, Prod.mk.injEq] at hop'
    obtain ⟨rfl, rfl, rfl⟩ := hop'
    cases fuel with
    | zero => exact absurd hfuel (Nat.not_lt_zero _)
    | succ fuel => simp [pubKeysLoop, hlast]
  | cons k keys ih =>
    obtain ⟨rest', hop', h⟩ := h
    rw [hop] at hop'
    simp only [Option.some.injEq, Prod.mk.injEq] at hop'
    obtain ⟨rfl, rfl, rfl⟩ := hop'
    obtain ⟨hkey, hkeys⟩ := List.forall_mem_cons.1 hkeys
    -- there is an instruction behind every key
    obtain ⟨opcode', vch', pc'', hnext⟩ : ∃ opcode' vch' pc'', getOp pc' = some (opcode', vch', pc'') := by
      cases keys with
      | nil => exact ⟨_, _, _, h.choose_spec.1⟩
      | cons k' keys => exact ⟨_, _, _, h.choose_spec.1⟩
    cases fuel with
    | zero => exact absurd hfuel (Nat.not_lt_zero _)
    | succ fuel =>
      have hlen := length_of_getOp hnext
      rw [pubKeysLoop, if_pos hkey]
      simp only [hnext]
      rw [ih (by omega) hnext hkeys h, List.append_assoc]
      rfl

/-! ## The holes -/

theorem isKeySize_iff : isKeySize vch = true ↔ 33 ≤ vch.length ∧ vch.length ≤ 120 := by
  simp [isKeySize]

theorem matchOp_pubKey {opcode1 : ℕ} {vch1 : List UInt8} :
    matchOp opcode1 opPubKey vch1 vch2 v = some v' ↔ isKeySize vch1 = true ∧ v' = v ++ [vch1] := by
  rw [matchOp, if_pos rfl]
  split_ifs with h <;> simp [h, eq_comm]

theorem matchOp_pubKeyHash {opcode1 : ℕ} {vch1 : List UInt8} :
    matchOp opcode1 opPubKeyHash vch1 vch2 v = some v' ↔ vch1.length = 20 ∧ v' = v ++ [vch1] := by
  rw [matchOp, if_neg (by decide), if_pos rfl]
  split_ifs with h <;> simp [h, eq_comm]

/-- An opcode that pushes a small number. -/
def IsSmallInteger (opcode : ℕ) : Prop := opcode = 0 ∨ (op1 ≤ opcode ∧ opcode ≤ op16)

theorem matchOp_smallInteger {opcode1 : ℕ} {vch1 : List UInt8} :
    matchOp opcode1 opSmallInteger vch1 vch2 v = some v' ↔
      IsSmallInteger opcode1 ∧ v' = v ++ [[UInt8.ofNat (decodeOpN opcode1)]] := by
  rw [matchOp, if_neg (by decide), if_neg (by decide), if_pos rfl]
  split_ifs with h
  · simp [IsSmallInteger, h, eq_comm]
  · simp [IsSmallInteger, h]

/-- "Others must match exactly" -/
theorem matchOp_exact {opcode1 : ℕ} {vch1 : List UInt8} (h₁ : opcode2 ≠ opPubKey)
    (h₂ : opcode2 ≠ opPubKeyHash) (h₃ : opcode2 ≠ opSmallInteger) :
    matchOp opcode1 opcode2 vch1 vch2 v = some v' ↔ (opcode1 = opcode2 ∧ vch1 = vch2) ∧ v' = v := by
  rw [matchOp, if_neg h₁, if_neg h₂, if_neg h₃]
  split_ifs with h
  · simp [h, eq_comm]
  · exact ⟨fun hv => absurd hv (by simp), fun hv => absurd hv.1 h⟩

/-! ## The templates -/

theorem matchLoop_pubKey : matchLoop 3 script [254, 172] [] = some sols ↔
    ∃ opcode key, (33 ≤ key.length ∧ key.length ≤ 120) ∧
      Reads script [(opcode, key), (172, [])] [] ∧ sols = [key] := by
  have hhole : getOp [254, 172] = some (254, [], [172]) := rfl
  have hsig : getOp [172] = some (172, [], []) := rfl
  rw [matchLoop_cons hhole (by decide)]
  constructor
  · rintro ⟨opcode, key, rest, v, hop, hmatch, h⟩
    obtain ⟨hkey, rfl⟩ := matchOp_pubKey.1 hmatch
    rw [matchLoop_cons hsig (by decide)] at h
    obtain ⟨_, _, rest', v, hop', hmatch, h⟩ := h
    obtain ⟨⟨rfl, rfl⟩, rfl⟩ := (matchOp_exact (by decide) (by decide) (by decide)).1 hmatch
    obtain ⟨rfl, rfl⟩ := matchLoop_nil.1 h
    exact ⟨opcode, key, isKeySize_iff.1 hkey, ⟨rest, hop, _, hop', rfl⟩, rfl⟩
  · rintro ⟨opcode, key, hkey, ⟨rest, hop, _, hop', rfl⟩, rfl⟩
    refine ⟨opcode, key, rest, _, hop, matchOp_pubKey.2 ⟨isKeySize_iff.2 hkey, rfl⟩, ?_⟩
    refine (matchLoop_cons hsig (by decide)).2
      ⟨_, _, _, _, hop', (matchOp_exact (by decide) (by decide) (by decide)).2 ⟨⟨rfl, rfl⟩, rfl⟩, ?_⟩
    exact matchLoop_nil.2 ⟨rfl, rfl⟩

/-- One exact instruction of a template. -/
theorem matchLoop_exact (ht : getOp pc2 = some (opcode2, [], rest2)) (hkeys : opcode2 ≠ opPubKeys)
    (h₁ : opcode2 ≠ opPubKey) (h₂ : opcode2 ≠ opPubKeyHash) (h₃ : opcode2 ≠ opSmallInteger) :
    matchLoop (fuel + 1) pc1 pc2 v = some sols ↔
      ∃ rest1, getOp pc1 = some (opcode2, [], rest1) ∧ matchLoop fuel rest1 rest2 v = some sols := by
  rw [matchLoop_cons ht hkeys]
  constructor
  · rintro ⟨_, _, rest1, _, hop, hmatch, h⟩
    obtain ⟨⟨rfl, rfl⟩, rfl⟩ := (matchOp_exact h₁ h₂ h₃).1 hmatch
    exact ⟨rest1, hop, h⟩
  · rintro ⟨rest1, hop, h⟩
    exact ⟨_, _, rest1, v, hop, (matchOp_exact h₁ h₂ h₃).2 ⟨⟨rfl, rfl⟩, rfl⟩, h⟩

theorem matchLoop_pubKeyHash : matchLoop 6 script [118, 169, 253, 136, 172] [] = some sols ↔
    ∃ opcode hash, hash.length = 20 ∧
      Reads script [(118, []), (169, []), (opcode, hash), (136, []), (172, [])] [] ∧
        sols = [hash] := by
  have hdup : getOp [118, 169, 253, 136, 172] = some (118, [], [169, 253, 136, 172]) := rfl
  have hhash160 : getOp [169, 253, 136, 172] = some (169, [], [253, 136, 172]) := rfl
  have hhole : getOp [253, 136, 172] = some (253, [], [136, 172]) := rfl
  have hequal : getOp [136, 172] = some (136, [], [172]) := rfl
  have hsig : getOp [172] = some (172, [], []) := rfl
  rw [matchLoop_exact hdup (by decide) (by decide) (by decide) (by decide)]
  constructor
  · rintro ⟨pc₁, h₁, h⟩
    rw [matchLoop_exact hhash160 (by decide) (by decide) (by decide) (by decide)] at h
    obtain ⟨pc₂, h₂, h⟩ := h
    rw [matchLoop_cons hhole (by decide)] at h
    obtain ⟨opcode, hash, pc₃, v, h₃, hmatch, h⟩ := h
    obtain ⟨hlen, rfl⟩ := matchOp_pubKeyHash.1 hmatch
    rw [matchLoop_exact hequal (by decide) (by decide) (by decide) (by decide)] at h
    obtain ⟨pc₄, h₄, h⟩ := h
    rw [matchLoop_exact hsig (by decide) (by decide) (by decide) (by decide)] at h
    obtain ⟨pc₅, h₅, h⟩ := h
    obtain ⟨rfl, rfl⟩ := matchLoop_nil.1 h
    exact ⟨opcode, hash, hlen, ⟨pc₁, h₁, pc₂, h₂, pc₃, h₃, pc₄, h₄, _, h₅, rfl⟩, rfl⟩
  · rintro ⟨opcode, hash, hlen, ⟨pc₁, h₁, pc₂, h₂, pc₃, h₃, pc₄, h₄, _, h₅, rfl⟩, rfl⟩
    refine ⟨pc₁, h₁, ?_⟩
    rw [matchLoop_exact hhash160 (by decide) (by decide) (by decide) (by decide)]
    refine ⟨pc₂, h₂, ?_⟩
    rw [matchLoop_cons hhole (by decide)]
    refine ⟨opcode, hash, pc₃, _, h₃, matchOp_pubKeyHash.2 ⟨hlen, rfl⟩, ?_⟩
    rw [matchLoop_exact hequal (by decide) (by decide) (by decide) (by decide)]
    refine ⟨pc₄, h₄, ?_⟩
    rw [matchLoop_exact hsig (by decide) (by decide) (by decide) (by decide)]
    exact ⟨_, h₅, matchLoop_nil.2 ⟨rfl, rfl⟩⟩

/-- **The keys of a template**, and the small number behind them. -/
theorem matchLoop_pubKeys : matchLoop (fuel + 1) pc1 [251, 250, 174] v = some sols ↔
    ∃ (keys : List Instruction) (opcode : ℕ) (rest : CScript),
      (∀ k ∈ keys, 33 ≤ k.2.length ∧ k.2.length ≤ 120) ∧ IsSmallInteger opcode ∧
        Reads pc1 (keys ++ [(opcode, [])]) rest ∧
          matchLoop fuel rest [174] (v ++ keys.map Prod.snd ++ [[UInt8.ofNat (decodeOpN opcode)]]) =
            some sols := by
  have ht : getOp [251, 250, 174] = some (251, [], [250, 174]) := rfl
  have ht' : getOp [250, 174] = some (250, [], [174]) := rfl
  have hpubkeys : 251 = opPubKeys := rfl
  have hsmall : ∀ {opcode : ℕ}, IsSmallInteger opcode → opcode = 0 ∨ opPushData4 < opcode := by
    rintro opcode (h | h)
    · exact .inl h
    · exact .inr (lt_of_lt_of_le (by decide) h.1)
  rw [matchLoop]
  simp only [List.isEmpty_cons, Bool.and_false, Bool.false_eq_true, if_false, ht]
  constructor
  · intro h
    rcases hop : getOp pc1 with _ | ⟨opcode1, vch1, rest1⟩
    · simp [hop] at h
    · simp only [hop] at h
      rw [if_pos hpubkeys] at h
      rcases hloop : pubKeysLoop (rest1.length + 1) ⟨opcode1, vch1, rest1⟩ v with ⟨cursor, v'⟩
      simp only [hloop, ht', Option.bind_eq_some_iff] at h
      obtain ⟨v'', hmatch, h⟩ := h
      obtain ⟨hint, rfl⟩ := matchOp_smallInteger.1 hmatch
      have hvalid : cursor.opcode ≠ opInvalid := by
        rintro heq
        rw [heq] at hint
        exact absurd hint (by unfold IsSmallInteger; decide)
      obtain ⟨keys, hkeys, rfl, hreads⟩ := of_pubKeysLoop (Nat.lt_succ_self _) hop hloop hvalid
      obtain ⟨mid, -, pc', hlast, -⟩ := reads_append.1 hreads
      have hempty : cursor.vch = [] := data_of_getOp hlast (hsmall hint)
      rw [hempty] at hreads
      exact ⟨keys, cursor.opcode, cursor.pc, fun k hk => isKeySize_iff.1 (hkeys k hk), hint, hreads, h⟩
  · rintro ⟨keys, opcode, rest, hkeys, hint, hreads, h⟩
    obtain ⟨opcode1, vch1, rest1, hop⟩ : ∃ opcode1 vch1 rest1, getOp pc1 = some (opcode1, vch1, rest1) := by
      cases keys with
      | nil => exact ⟨_, _, _, hreads.choose_spec.1⟩
      | cons k keys => exact ⟨_, _, _, hreads.choose_spec.1⟩
    have hlast : isKeySize ((opcode, []) : Instruction).2 = false := rfl
    have hloop := pubKeysLoop_of_reads (v := v) (Nat.lt_succ_self _) hop
      (fun k hk => isKeySize_iff.2 (hkeys k hk)) hlast hreads
    simp only [hop]
    rw [if_pos hpubkeys]
    simp only [hloop, ht', Option.bind_eq_some_iff]
    exact ⟨_, matchOp_smallInteger.2 ⟨hint, rfl⟩, h⟩

theorem matchLoop_multiSig : matchLoop 5 script [250, 251, 250, 174] [] = some sols ↔
    ∃ (opm opn : ℕ) (keys : List Instruction), IsSmallInteger opm ∧ IsSmallInteger opn ∧
      (∀ k ∈ keys, 33 ≤ k.2.length ∧ k.2.length ≤ 120) ∧
        Reads script ([(opm, [])] ++ keys ++ [(opn, []), (174, [])]) [] ∧
          sols = [[UInt8.ofNat (decodeOpN opm)]] ++ keys.map Prod.snd ++
            [[UInt8.ofNat (decodeOpN opn)]] := by
  have hdata : ∀ {opcode : ℕ}, IsSmallInteger opcode → opcode = 0 ∨ opPushData4 < opcode := by
    rintro opcode (h | h)
    · exact .inl h
    · exact .inr (lt_of_lt_of_le (by decide) h.1)
  have hhole : getOp [250, 251, 250, 174] = some (250, [], [251, 250, 174]) := rfl
  have hcheck : getOp [174] = some (174, [], []) := rfl
  rw [matchLoop_cons hhole (by decide)]
  simp only [matchLoop_pubKeys, matchLoop_exact hcheck (by decide) (by decide) (by decide) (by decide),
    matchLoop_nil]
  constructor
  · rintro ⟨opm, vch, pc, v, hop, hmatch, keys, opn, rest, hkeys, hn, hreads, _, hlast, rfl, rfl⟩
    obtain ⟨hm, rfl⟩ := matchOp_smallInteger.1 hmatch
    obtain rfl : vch = [] := data_of_getOp hop (hdata hm)
    refine ⟨opm, opn, keys, hm, hn, hkeys, ?_, rfl⟩
    refine ⟨pc, hop, ?_⟩
    have hsplit : keys ++ [(opn, []), ((174 : ℕ), ([] : List UInt8))] =
        (keys ++ [(opn, [])]) ++ [(174, [])] := by rw [List.append_assoc]; rfl
    show Reads pc (keys ++ [(opn, []), (174, [])]) []
    rw [hsplit]
    exact reads_append.2 ⟨rest, hreads, _, hlast, rfl⟩
  · rintro ⟨opm, opn, keys, hm, hn, hkeys, ⟨pc, hop, hreads⟩, rfl⟩
    have hsplit : keys ++ [(opn, []), ((174 : ℕ), ([] : List UInt8))] =
        (keys ++ [(opn, [])]) ++ [(174, [])] := by rw [List.append_assoc]; rfl
    change Reads pc (keys ++ [(opn, []), (174, [])]) [] at hreads
    rw [hsplit] at hreads
    obtain ⟨rest, hreads, _, hlast, rfl⟩ := reads_append.1 hreads
    exact ⟨opm, [], pc, _, hop, matchOp_smallInteger.2 ⟨hm, rfl⟩, keys, opn, rest, hkeys, hn, hreads, _,
      hlast, rfl, rfl⟩

/-! ## Standard scripts -/

/-- **The scripts `Solver` is for**, with their solutions. -/
inductive Standard (script : CScript) : TxnOutType → List (List UInt8) → Prop
  | scriptHash (h : isPayToScriptHash script = true) :
      Standard script .scriptHash [(script.drop 2).take 20]
  | pubKey {opcode : ℕ} {key : List UInt8} (hkey : 33 ≤ key.length ∧ key.length ≤ 120)
      (h : Reads script [(opcode, key), (172, [])] []) : Standard script .pubKey [key]
  | pubKeyHash {opcode : ℕ} {hash : List UInt8} (hlen : hash.length = 20)
      (h : Reads script [(118, []), (169, []), (opcode, hash), (136, []), (172, [])] []) :
      Standard script .pubKeyHash [hash]
  | multiSig {m : ℕ} {keys : List Instruction} (hm : 1 ≤ m) (hmn : m ≤ keys.length)
      (hn : keys.length ≤ 16) (hkeys : ∀ k ∈ keys, 33 ≤ k.2.length ∧ k.2.length ≤ 120)
      (h : Reads script ([(80 + m, [])] ++ keys ++ [(80 + keys.length, []), (174, [])]) []) :
      Standard script .multiSig
        ([[UInt8.ofNat m]] ++ keys.map Prod.snd ++ [[UInt8.ofNat keys.length]])

/-- A pay-to-script-hash script begins with `OP_HASH160`. -/
theorem getOp_of_isPayToScriptHash (h : isPayToScriptHash script = true) :
    ∃ rest, getOp script = some (169, [], rest) := by
  simp only [isPayToScriptHash, Bool.and_eq_true, decide_eq_true_eq] at h
  obtain ⟨⟨⟨-, hhash⟩, -⟩, -⟩ := h
  cases script with
  | nil => exact absurd hhash (by simp)
  | cons op rest =>
    obtain rfl : op = 169 := Option.some.inj hhash
    exact ⟨rest, by simp [getOp]⟩

/-- No other standard script does. -/
theorem isPayToScriptHash_of_reads {i : Instruction} {is : List Instruction} (h : Reads script (i :: is) [])
    (hne : i ≠ (169, [])) : isPayToScriptHash script = false := by
  by_contra hp2sh
  obtain ⟨rest, hop⟩ := getOp_of_isPayToScriptHash (by simpa using hp2sh)
  obtain ⟨pc', hop', -⟩ := h
  rw [hop] at hop'
  simp only [Option.some.injEq, Prod.mk.injEq] at hop'
  exact hne (Prod.ext hop'.1.symm hop'.2.1.symm)

/-- "Additional checks for TX_MULTISIG" -/
theorem badMultiSig_iff (hm : m ≤ 16) (hn : n ≤ 16) :
    badMultiSig ([[UInt8.ofNat m]] ++ v ++ [[UInt8.ofNat n]]) = false ↔
      1 ≤ m ∧ m ≤ n ∧ v.length = n := by
  have hbyte : ∀ {k : ℕ}, k ≤ 16 → (UInt8.ofNat k).toNat = k := fun {k} hk =>
    Nat.mod_eq_of_lt (show k < 256 by omega)
  have hlast : (([[UInt8.ofNat m]] ++ v ++ [[UInt8.ofNat n]]).getLast?.bind List.head?).getD 0 =
      UInt8.ofNat n := by
    rw [List.getLast?_append]
    rfl
  have hhead : (([[UInt8.ofNat m]] ++ v ++ [[UInt8.ofNat n]]).head?.bind List.head?).getD 0 =
      UInt8.ofNat m := rfl
  have hlen : ([[UInt8.ofNat m]] ++ v ++ [[UInt8.ofNat n]]).length - 2 = v.length := by
    simp only [List.length_append, List.length_singleton]
    omega
  unfold badMultiSig
  simp only [hlast, hhead, hlen, hbyte hm, hbyte hn, Bool.or_eq_false_iff, decide_eq_false_iff_not]
  omega

theorem decodeOpN_le (h : IsSmallInteger opcode) : decodeOpN opcode ≤ 16 := by
  unfold IsSmallInteger op1 op16 at h
  unfold decodeOpN op1
  split_ifs <;> omega

/-- A small number that is not zero is its opcode. -/
theorem eq_of_decodeOpN (h : IsSmallInteger opcode) (hpos : 1 ≤ decodeOpN opcode) :
    opcode = 80 + decodeOpN opcode := by
  unfold IsSmallInteger op1 op16 at h
  unfold decodeOpN op1 at hpos ⊢
  split_ifs at hpos ⊢ <;> omega

section
variable {t : TxnOutType} {p : CScript} {ts : List (TxnOutType × CScript)}

/-- A template that does not match is passed over. -/
theorem scanTemplates_of_none (h : matchLoop (p.length + 1) script p [] = none) :
    scanTemplates script ((t, p) :: ts) = scanTemplates script ts := by
  rw [scanTemplates, h]

/-- A template that does is the answer. -/
theorem scanTemplates_of_some (h : matchLoop (p.length + 1) script p [] = some sols) :
    scanTemplates script ((t, p) :: ts) = (!(t = .multiSig && badMultiSig sols), t, sols) := by
  rw [scanTemplates, h]

end

/-- A script of another length pays to no public key. -/
theorem matchLoop_pubKey_eq_none {is : List Instruction} (h : Reads script is []) (hlen : is.length ≠ 2) :
    matchLoop 3 script [254, 172] [] = none := by
  by_contra hne
  obtain ⟨sols, hsols⟩ := Option.ne_none_iff_exists'.1 hne
  obtain ⟨_, _, -, hreads, -⟩ := matchLoop_pubKey.1 hsols
  exact hlen (congrArg List.length (h.unique hreads))

/-- A script that does not begin with `OP_DUP` pays to no hash of one. -/
theorem matchLoop_pubKeyHash_eq_none {i : Instruction} {is : List Instruction}
    (h : Reads script (i :: is) []) (hne : i ≠ (118, [])) :
    matchLoop 6 script [118, 169, 253, 136, 172] [] = none := by
  by_contra hsome
  obtain ⟨sols, hsols⟩ := Option.ne_none_iff_exists'.1 hsome
  obtain ⟨_, _, -, hreads, -⟩ := matchLoop_pubKeyHash.1 hsols
  exact hne (List.cons.inj (h.unique hreads)).1

/-- **`Solver` recognises exactly the standard scripts.** -/
theorem solver_eq_true_iff {t : TxnOutType} :
    solver script = (true, t, sols) ↔ Standard script t sols := by
  constructor
  · intro h
    unfold solver at h
    split_ifs at h with hp2sh
    · obtain ⟨-, h⟩ := Prod.mk.inj h
      obtain ⟨rfl, rfl⟩ := Prod.mk.inj h
      exact .scriptHash hp2sh
    rw [templates] at h
    rcases hkey : matchLoop 3 script [254, 172] [] with _ | sols₁
    swap
    · rw [scanTemplates_of_some hkey] at h
      simp only [Prod.mk.injEq] at h
      obtain ⟨-, rfl, rfl⟩ := h
      obtain ⟨opcode, key, hlen, hreads, rfl⟩ := matchLoop_pubKey.1 hkey
      exact .pubKey hlen hreads
    rw [scanTemplates_of_none hkey] at h
    rcases hhash : matchLoop 6 script [118, 169, 253, 136, 172] [] with _ | sols₂
    swap
    · rw [scanTemplates_of_some hhash] at h
      simp only [Prod.mk.injEq] at h
      obtain ⟨-, rfl, rfl⟩ := h
      obtain ⟨opcode, hash, hlen, hreads, rfl⟩ := matchLoop_pubKeyHash.1 hhash
      exact .pubKeyHash hlen hreads
    rw [scanTemplates_of_none hhash] at h
    rcases hmulti : matchLoop 5 script [250, 251, 250, 174] [] with _ | sols₃
    · rw [scanTemplates_of_none hmulti, scanTemplates] at h
      exact absurd (congrArg Prod.fst h) (by simp)
    rw [scanTemplates_of_some hmulti] at h
    simp only [Prod.mk.injEq] at h
    obtain ⟨hgood, rfl, rfl⟩ := h
    obtain ⟨opm, opn, keys, hm, hn, hkeys, hreads, rfl⟩ := matchLoop_multiSig.1 hmulti
    have hgood' : badMultiSig ([[UInt8.ofNat (decodeOpN opm)]] ++ keys.map Prod.snd ++
        [[UInt8.ofNat (decodeOpN opn)]]) = false := by simpa using hgood
    obtain ⟨hpos, hle, hlen⟩ := (badMultiSig_iff (decodeOpN_le hm) (decodeOpN_le hn)).1 hgood'
    rw [List.length_map] at hlen
    rw [eq_of_decodeOpN hm hpos, eq_of_decodeOpN hn (by omega), ← hlen] at hreads
    rw [← hlen]
    exact .multiSig hpos (by omega) (by have := decodeOpN_le hn; omega) hkeys hreads
  · intro h
    cases h with
    | scriptHash h => rw [solver, if_pos h]
    | @pubKey opcode key hkey h =>
      have hp2sh := isPayToScriptHash_of_reads h (by rintro ⟨⟩; simp at hkey)
      have hmatch := matchLoop_pubKey.2 ⟨opcode, key, hkey, h, rfl⟩
      rw [solver, hp2sh, if_neg Bool.false_ne_true, templates, scanTemplates_of_some hmatch]
      rfl
    | @pubKeyHash opcode hash hlen h =>
      have hp2sh := isPayToScriptHash_of_reads h (by decide)
      have hmatch := matchLoop_pubKeyHash.2 ⟨opcode, hash, hlen, h, rfl⟩
      rw [solver, hp2sh, if_neg Bool.false_ne_true, templates,
        scanTemplates_of_none (matchLoop_pubKey_eq_none h (by simp)), scanTemplates_of_some hmatch]
      rfl
    | @multiSig m keys hm hmn hn hkeys h =>
      have hp2sh := isPayToScriptHash_of_reads h (by
        intro heq
        have := congrArg Prod.fst heq
        simp only at this
        omega)
      have hsmall : ∀ {k : ℕ}, 1 ≤ k → k ≤ 16 → IsSmallInteger (80 + k) ∧ decodeOpN (80 + k) = k := by
        intro k h₁ h₂
        unfold IsSmallInteger decodeOpN op1 op16
        rw [if_neg (by omega)]
        omega
      obtain ⟨hsm, hdm⟩ := hsmall hm (hmn.trans hn)
      obtain ⟨hsn, hdn⟩ := hsmall (hm.trans hmn) hn
      have hmatch := matchLoop_multiSig.2 ⟨80 + m, 80 + keys.length, keys, hsm, hsn, hkeys, h, rfl⟩
      rw [hdm, hdn] at hmatch
      have hdup : (80 + m, ([] : List UInt8)) ≠ (118, []) := by
        intro heq
        have := congrArg Prod.fst heq
        simp only at this
        omega
      have hgood := (badMultiSig_iff (v := keys.map Prod.snd) (hmn.trans hn) hn).2
        ⟨hm, hmn, List.length_map ..⟩
      rw [solver, hp2sh, if_neg Bool.false_ne_true, templates,
        scanTemplates_of_none (matchLoop_pubKey_eq_none h (by simp)),
        scanTemplates_of_none (matchLoop_pubKeyHash_eq_none h hdup), scanTemplates_of_some hmatch, hgood]
      rfl

/-! ## Building standard scripts -/

/-- **The bytes of a `uint160`** stand for it. -/
theorem uint160OfVch_leBytes (b : BitVec 160) : uint160OfVch (leBytes 20 b.toNat) = b := by
  rw [uint160OfVch, if_pos length_leBytes, ofLeBytes_leBytes (b.isLt.trans_le (by norm_num)),
    BitVec.ofNat_toNat, BitVec.setWidth_eq]

/-- A hash is read back as pushed. -/
theorem getOp_pushUint160 (b : BitVec 160) :
    getOp (pushUint160 b ++ rest) = some (20, leBytes 20 b.toNat, rest) := by
  have hlen : (leBytes 20 b.toNat).length = 20 := length_leBytes
  have hpush : pushUint160 b = pushBytes (leBytes 20 b.toNat) := by
    rw [pushBytes, if_pos (by omega), hlen]
    rfl
  have hop : pushOpcode (leBytes 20 b.toNat) = 20 := by
    rw [pushOpcode, if_pos (by omega), hlen]
  rw [hpush, getOp_pushBytes (by omega), hop]

theorem standard_setDestination_keyID (id : BitVec 160) :
    Standard (setDestination (.keyID id)) .pubKeyHash [leBytes 20 id.toNat] := by
  have hdup : getOp (setDestination (.keyID id)) =
      some (118, [], [169] ++ (pushUint160 id ++ [136, 172])) := by
    simp [setDestination, getOp]
  have hhash160 : getOp ([169] ++ (pushUint160 id ++ [136, 172])) =
      some (169, [], pushUint160 id ++ [136, 172]) := by
    simp [getOp]
  have hequal : getOp [136, 172] = some (136, [], [172]) := rfl
  have hsig : getOp [172] = some (172, [], []) := rfl
  exact .pubKeyHash length_leBytes (.cons hdup (.cons hhash160 (.cons (getOp_pushUint160 id)
    (.cons hequal (.cons hsig rfl)))))

theorem isPayToScriptHash_setDestination (id : BitVec 160) :
    isPayToScriptHash (setDestination (.scriptID id)) = true := by
  have hlen : (leBytes 20 id.toNat).length = 20 := length_leBytes
  have hset : setDestination (.scriptID id) = 169 :: 20 :: (leBytes 20 id.toNat ++ [135]) := rfl
  have hlast : (169 :: 20 :: (leBytes 20 id.toNat ++ [135]))[22]? = some 135 := by
    rw [List.getElem?_cons_succ, List.getElem?_cons_succ, List.getElem?_append_right (by omega), hlen]
    rfl
  rw [hset, isPayToScriptHash, hlast]
  simp [hlen]

theorem standard_setDestination_scriptID (id : BitVec 160) :
    Standard (setDestination (.scriptID id)) .scriptHash [leBytes 20 id.toNat] := by
  have hlen : (leBytes 20 id.toNat).length = 20 := length_leBytes
  have hset : setDestination (.scriptID id) = 169 :: 20 :: (leBytes 20 id.toNat ++ [135]) := rfl
  have hbytes : ((setDestination (.scriptID id)).drop 2).take 20 = leBytes 20 id.toNat := by
    rw [hset, List.drop_succ_cons, List.drop_succ_cons, List.drop_zero, List.take_left' hlen]
  rw [← hbytes]
  exact .scriptHash (isPayToScriptHash_setDestination id)

/-- **A destination is extracted from the script that was set to it.** -/
theorem extractDestination_setDestination [P : Platform] (d : CTxDestination) (hd : d ≠ .noDestination) :
    extractDestination (setDestination d) = some d := by
  cases d with
  | noDestination => exact absurd rfl hd
  | keyID id =>
    rw [extractDestination, solver_eq_true_iff.2 (standard_setDestination_keyID id)]
    simp only
    rw [uint160OfVch_leBytes]
  | scriptID id =>
    rw [extractDestination, solver_eq_true_iff.2 (standard_setDestination_scriptID id)]
    simp only
    rw [uint160OfVch_leBytes]

/-- A small number is read back as encoded. -/
theorem getOp_encodeOpN (hpos : 1 ≤ n) (hn : n ≤ 16) :
    getOp (encodeOpN n :: rest) = some (80 + n, [], rest) := by
  have hbyte : (encodeOpN n).toNat = 80 + n := by
    rw [encodeOpN, if_neg (by omega)]
    show (op1 + n - 1) % 256 = 80 + n
    unfold op1
    omega
  have h₁ : ¬ 80 + n < 76 := by omega
  have h₂ : ¬ 80 + n = 76 := by omega
  have h₃ : ¬ 80 + n = 77 := by omega
  have h₄ : ¬ 80 + n = 78 := by omega
  simp only [getOp, hbyte, h₁, h₂, h₃, h₄, if_false, Nat.not_lt_zero, List.take_zero, List.drop_zero]

/-- **A multisignature script is solved** back to what it was built from. -/
theorem standard_setMultisig {keys : List (List UInt8)} (hm : 1 ≤ m) (hmn : m ≤ keys.length)
    (hn : keys.length ≤ 16) (hkeys : ∀ key ∈ keys, 33 ≤ key.length ∧ key.length ≤ 120) :
    Standard (setMultisig m keys) .multiSig
      ([[UInt8.ofNat m]] ++ keys ++ [[UInt8.ofNat keys.length]]) := by
  have hreads : Reads (setMultisig m keys) ([(80 + m, [])] ++ keys.map (fun b => (pushOpcode b, b)) ++
      [(80 + (keys.map fun b => (pushOpcode b, b)).length, []), (174, [])]) [] := by
    unfold setMultisig
    rw [List.length_map, List.append_assoc, List.append_assoc]
    refine .cons (getOp_encodeOpN hm (hmn.trans hn)) ?_
    show Reads (keys.flatMap pushBytes ++ [encodeOpN keys.length, 174])
      (keys.map (fun b => (pushOpcode b, b)) ++ [(80 + keys.length, []), (174, [])]) []
    refine reads_append.2 ⟨_, reads_flatMap_pushBytes ?_, ?_⟩
    · intro b hb
      have := hkeys b hb
      omega
    · have hcheck : getOp [174] = some (174, [], []) := rfl
      exact .cons (getOp_encodeOpN (hm.trans hmn) hn) (.cons hcheck rfl)
  have hsol : keys = (keys.map fun b => (pushOpcode b, b)).map Prod.snd := by
    rw [List.map_map]
    exact (List.map_id keys).symm
  have hlen : keys.length = (keys.map fun b => (pushOpcode b, b)).length := (List.length_map _).symm
  have hstd := Standard.multiSig hm (hlen ▸ hmn) (hlen ▸ hn) (fun k hk => by
    obtain ⟨b, hb, rfl⟩ := List.mem_map.1 hk
    exact hkeys b hb) hreads
  rwa [← hsol, ← hlen] at hstd

/-- **`Solver` recognises exactly its templates and inverts the script
builders.** -/
theorem solver_inverts [P : Platform] (script : CScript) :
    (∀ t sols, solver script = (true, t, sols) ↔ Standard script t sols) ∧
      (∀ d : CTxDestination, d ≠ .noDestination → extractDestination (setDestination d) = some d) ∧
      ∀ (m : ℕ) (keys : List (List UInt8)), 1 ≤ m → m ≤ keys.length → keys.length ≤ 16 →
        (∀ key ∈ keys, key.length = 33 ∨ key.length = 65) →
          solver (setMultisig m keys) =
            (true, .multiSig, [[UInt8.ofNat m]] ++ keys ++ [[UInt8.ofNat keys.length]]) := by
  refine ⟨fun t sols => solver_eq_true_iff, extractDestination_setDestination,
    fun m keys hm hmn hn hkeys => ?_⟩
  refine solver_eq_true_iff.2 (standard_setMultisig hm hmn hn fun key hkey => ?_)
  rcases hkeys key hkey with h | h <;> omega

/-- One of one. -/
theorem solver_inverts_oneOfOne :
    extractDestination (P := Platform.toy) (setDestination (.scriptID 5)) = some (.scriptID 5) ∧
      solver (setMultisig 1 [List.replicate 33 2]) =
        (true, .multiSig, [[1], List.replicate 33 2, [1]]) :=
  ⟨(solver_inverts (P := Platform.toy) []).2.1 (.scriptID 5) (by decide),
    (solver_inverts (P := Platform.toy) []).2.2 1 [List.replicate 33 2] (by decide) (by decide)
      (by decide) (by decide)⟩

end CryptoBullion
