import CryptoBullion.Model.Serialize
import CryptoBullion.Model.SignatureHash
import CryptoBullion.Scripts.Instructions
/-!
# What a signature hash commits to

The copy that is hashed is written without loss, so under an injective hash
two signature hashes are equal exactly where the copies are. What is left
is to say when two copies are equal: input by input, output by output, in
the terms of the transactions they were made of. Deleting
`OP_CODESEPARATOR` by its byte deletes the instructions and nothing else.
-/

namespace CryptoBullion

/-! ## Code separators -/

section
variable {pc pc' : CScript} {opcode : ℕ} {data : List UInt8} {fuel fuel' : ℕ}

/-- The script without its `OP_CODESEPARATOR` instructions; what is behind
the last instruction that can be read stays. -/
def removeCodeSeparators : ℕ → CScript → CScript
  | 0, pc => pc
  | fuel + 1, pc =>
    match getOp pc with
    | none => pc
    | some (opcode, _, rest) =>
      (if opcode = 171 then [] else pc.take (pc.length - rest.length)) ++
        removeCodeSeparators fuel rest

/-- The script without its `OP_CODESEPARATOR` instructions. -/
def withoutCodeSeparators (script : CScript) : CScript := removeCodeSeparators script.length script

theorem removeCodeSeparators_nil : removeCodeSeparators fuel [] = [] := by
  cases fuel <;> rfl

/-- A turn for each byte is enough. -/
theorem removeCodeSeparators_eq (h : pc.length ≤ fuel) (h' : pc.length ≤ fuel') :
    removeCodeSeparators fuel pc = removeCodeSeparators fuel' pc := by
  induction fuel generalizing fuel' pc with
  | zero =>
    obtain rfl := List.length_eq_zero_iff.1 (Nat.le_zero.1 h)
    rw [removeCodeSeparators_nil, removeCodeSeparators_nil]
  | succ fuel ih =>
    cases fuel' with
    | zero =>
      obtain rfl := List.length_eq_zero_iff.1 (Nat.le_zero.1 h')
      rw [removeCodeSeparators_nil, removeCodeSeparators_nil]
    | succ fuel' =>
      rw [removeCodeSeparators, removeCodeSeparators]
      rcases hop : getOp pc with _ | ⟨opcode, data, rest⟩
      · rfl
      · have hlen := length_of_getOp hop
        simp only
        have hrest : removeCodeSeparators fuel rest = removeCodeSeparators fuel' rest :=
          ih (by omega) (by omega)
        rw [hrest]

theorem getOp_codeSeparator : getOp (171 :: pc) = some (171, [], pc) := by
  simp [getOp]

/-- Code separators in front go first. -/
theorem removeCodeSeparators_dropWhile :
    removeCodeSeparators pc.length pc =
      removeCodeSeparators pc.length (pc.dropWhile (· = 171)) := by
  induction pc with
  | nil => rfl
  | cons op pc ih =>
    by_cases hop : op = 171
    · subst hop
      have hle : (pc.dropWhile (· = 171)).length ≤ pc.length := List.length_dropWhile_le _ _
      rw [List.dropWhile_cons_of_pos (by simp), List.length_cons, removeCodeSeparators,
        getOp_codeSeparator]
      simp only [if_true, List.nil_append]
      rw [ih]
      exact removeCodeSeparators_eq hle (by omega)
    · rw [List.dropWhile_cons_of_neg (by simpa using hop)]

theorem deleteHere_codeSeparator : ∀ {fuel : ℕ} {pc : CScript}, pc.length ≤ fuel →
    deleteHere [171] fuel pc = pc.dropWhile (· = 171)
  | 0, pc, h => by
    obtain rfl := List.length_eq_zero_iff.1 (Nat.le_zero.1 h)
    rfl
  | fuel + 1, [], _ => rfl
  | fuel + 1, op :: pc, h => by
    rw [deleteHere]
    by_cases hop : op = 171
    · subst hop
      rw [if_pos (by simp), List.dropWhile_cons_of_pos (by simp)]
      exact deleteHere_codeSeparator (Nat.le_of_succ_le_succ h)
    · rw [if_neg (by simpa [List.isPrefixOf] using fun h => hop h.symm),
        List.dropWhile_cons_of_neg (by simpa using hop)]

/-- **Deleting the byte deletes the instructions.** -/
theorem findAndDelete_codeSeparator (script : CScript) :
    findAndDelete [171] script = withoutCodeSeparators script := by
  have hloop : ∀ {fuel : ℕ} {pc : CScript}, pc.length < fuel →
      findAndDeleteLoop [171] fuel pc = removeCodeSeparators pc.length pc := by
    intro fuel
    induction fuel with
    | zero => exact fun h => absurd h (Nat.not_lt_zero _)
    | succ fuel ih =>
      intro pc hlt
      rw [findAndDeleteLoop, deleteHere_codeSeparator le_rfl, removeCodeSeparators_dropWhile]
      have hle : (pc.dropWhile (· = 171)).length ≤ pc.length := List.length_dropWhile_le _ _
      have hhead : ∀ op rest, pc.dropWhile (· = 171) = op :: rest → op ≠ 171 := by
        intro op rest hdrop hop
        have := List.head?_dropWhile_not (p := fun b : UInt8 => decide (b = 171)) (l := pc)
        rw [hdrop] at this
        simp [hop] at this
      revert hle hhead
      generalize pc.dropWhile (· = 171) = pc'
      intro hle hhead
      rw [removeCodeSeparators_eq hle (Nat.le_succ_of_le hle), removeCodeSeparators]
      rcases hop : getOp pc' with _ | ⟨opcode, data, rest⟩
      · rfl
      · obtain ⟨op, rest', hpc', rfl⟩ := head_of_getOp hop
        have hne : ¬ op.toNat = 171 := fun h => hhead op rest' hpc' (UInt8.toNat_inj.1 h)
        have hlen := length_of_getOp hop
        simp only
        have hfuel : removeCodeSeparators rest.length rest = removeCodeSeparators pc.length rest :=
          removeCodeSeparators_eq le_rfl (by omega)
        rw [if_neg hne, ih (by omega), hfuel]
  rw [findAndDelete, if_neg (by simp), hloop (Nat.lt_succ_self _)]
  rfl

end

/-! ## Writing a transaction loses nothing -/

/-- The fields are in the range of their types; a vector has fewer than
`2 ^ 64` elements. -/
structure CTxIn.InRange (i : CTxIn) : Prop where
  n : i.prevout.n < 2 ^ 32
  scriptSig : i.scriptSig.length < 2 ^ 64
  nSequence : i.nSequence < 2 ^ 32

structure CTxOut.InRange (o : CTxOut) : Prop where
  nValue : -2 ^ 63 ≤ o.nValue ∧ o.nValue < 2 ^ 63
  scriptPubKey : o.scriptPubKey.length < 2 ^ 64

structure CTransaction.InRange (tx : CTransaction) : Prop where
  nVersion : -2 ^ 31 ≤ tx.nVersion ∧ tx.nVersion < 2 ^ 31
  nTime : tx.nTime < 2 ^ 32
  vin : tx.vin.length < 2 ^ 64 ∧ ∀ i ∈ tx.vin, i.InRange
  vout : tx.vout.length < 2 ^ 64 ∧ ∀ o ∈ tx.vout, o.InRange
  nLockTime : tx.nLockTime < 2 ^ 32

/-- A decoder of vectors of any size. -/
def readVector {α : Type} (d : Reader α) : Reader (List α) := readSizeForm >>= d.many

/-- And of bytes. -/
def readByteVector : Reader (List UInt8) := readSizeForm >>= readBytes

theorem codec_readVector {α : Type} {d : Reader α} {enc : α → List UInt8} {ok : α → Prop}
    (hd : Codec d enc ok) :
    Codec (readVector d) (serializeVector enc) (fun v => v.length < 2 ^ 64 ∧ ∀ a ∈ v, ok a) :=
  codec_readSizeForm.counted hd

theorem codec_readByteVector :
    Codec readByteVector serializeBytes (fun v => v.length < 2 ^ 64) :=
  codec_readSizeForm.countedN

/-- Some decoder reads inputs of any size back. -/
theorem exists_codec_txIn : ∃ d : Reader CTxIn, Codec d CTxIn.serialize CTxIn.InRange := by
  have hfields : Codec _ _ CTxIn.InRange := (codec_readHash.pair ((codec_readLe (k := 4)).pair
    (codec_readByteVector.pair (codec_readLe (k := 4))))).map
    (f := fun x => CTxIn.mk ⟨x.1, x.2.1⟩ x.2.2.1 x.2.2.2)
    (g := fun i => (i.prevout.hash, i.prevout.n, i.scriptSig, i.nSequence))
    (fun x hx => ⟨⟨hx.2.1, hx.2.2.1, hx.2.2.2⟩, rfl⟩)
    (fun i hi => ⟨⟨trivial, hi.n, hi.scriptSig, hi.nSequence⟩, rfl⟩)
  have hwrite : CTxIn.serialize = fun i => serializeHash i.prevout.hash ++
      (leBytes 4 i.prevout.n ++ (serializeBytes i.scriptSig ++ leBytes 4 i.nSequence)) := by
    funext i
    simp only [CTxIn.serialize, List.append_assoc]
  rw [hwrite]
  exact ⟨_, hfields⟩

theorem exists_codec_txOut : ∃ d : Reader CTxOut, Codec d CTxOut.serialize CTxOut.InRange := by
  have hfields : Codec _ _ CTxOut.InRange :=
    ((codec_readInt (k := 8) (by omega)).pair codec_readByteVector).map
      (f := fun x => CTxOut.mk x.1 x.2) (g := fun o => (o.nValue, o.scriptPubKey))
      (fun x hx => ⟨⟨hx.1, hx.2⟩, rfl⟩) (fun o ho => ⟨⟨ho.nValue, ho.scriptPubKey⟩, rfl⟩)
  exact ⟨_, hfields⟩

theorem exists_codec_transaction :
    ∃ d : Reader CTransaction, Codec d CTransaction.serialize CTransaction.InRange := by
  obtain ⟨din, hin⟩ := exists_codec_txIn
  obtain ⟨dout, hout⟩ := exists_codec_txOut
  have hfields : Codec _ _ CTransaction.InRange := ((codec_readInt (k := 4) (by omega)).pair
    ((codec_readLe (k := 4)).pair ((codec_readVector hin).pair ((codec_readVector hout).pair
    (codec_readLe (k := 4)))))).map
    (f := fun x => CTransaction.mk x.1 x.2.1 x.2.2.1 x.2.2.2.1 x.2.2.2.2)
    (g := fun tx => (tx.nVersion, tx.nTime, tx.vin, tx.vout, tx.nLockTime))
    (fun x hx => ⟨⟨hx.1, hx.2.1, hx.2.2.1, hx.2.2.2.1, hx.2.2.2.2⟩, rfl⟩)
    (fun tx htx => ⟨⟨htx.nVersion, htx.nTime, htx.vin, htx.vout, htx.nLockTime⟩, rfl⟩)
  have hwrite : CTransaction.serialize = fun tx => leInt 4 tx.nVersion ++ (leBytes 4 tx.nTime ++
      (serializeVector CTxIn.serialize tx.vin ++ (serializeVector CTxOut.serialize tx.vout ++
        leBytes 4 tx.nLockTime))) := by
    funext tx
    simp only [CTransaction.serialize, List.append_assoc]
  rw [hwrite]
  exact ⟨_, hfields⟩

/-- **Two transactions written the same are the same.** -/
theorem CTransaction.InRange.serialize_inj {tx₁ tx₂ : CTransaction} (h₁ : tx₁.InRange)
    (h₂ : tx₂.InRange) : tx₁.serialize = tx₂.serialize ↔ tx₁ = tx₂ := by
  obtain ⟨d, hd⟩ := exists_codec_transaction
  refine ⟨fun h => hd.eq_of_prefix (r := []) h₁ h₂ ?_, congrArg _⟩
  rw [List.append_nil, h]

/-! ## The copy that is signed -/

section
variable {scriptCode scriptCode₁ scriptCode₂ : CScript} {txTo tx₁ tx₂ : CTransaction} {nIn i : ℕ}
variable {nHashType : ℤ}

/-- The hash types under which the other inputs' sequence numbers are
free. -/
def FreesSequences (nHashType : ℤ) : Prop :=
  baseType nHashType = sighashNone ∨ baseType nHashType = sighashSingle

instance : Decidable (FreesSequences nHashType) := inferInstanceAs (Decidable (_ ∨ _))

/-- What is signed of input `i`. -/
def signedInput (scriptCode : CScript) (nIn : ℕ) (nHashType : ℤ) (i : ℕ) (txin : CTxIn) : CTxIn where
  prevout := txin.prevout
  scriptSig := if i = nIn then withoutCodeSeparators scriptCode else []
  nSequence := if FreesSequences nHashType ∧ i ≠ nIn then 0 else txin.nSequence

/-- What is signed of the inputs. -/
def signedInputs (scriptCode : CScript) (txTo : CTransaction) (nIn : ℕ) (nHashType : ℤ) : List CTxIn :=
  if anyoneCanPay nHashType then
    (txTo.vin[nIn]?.map (signedInput scriptCode nIn nHashType nIn)).toList
  else txTo.vin.mapIdx (signedInput scriptCode nIn nHashType)

/-- What is signed of the outputs. -/
def signedOutputs (txTo : CTransaction) (nIn : ℕ) (nHashType : ℤ) : List CTxOut :=
  if baseType nHashType = sighashNone then []
  else if baseType nHashType = sighashSingle then
    List.replicate nIn CTxOut.null ++ txTo.vout[nIn]?.toList
  else txTo.vout

theorem blankScriptSigs_eq :
    (blankScriptSigs scriptCode nIn txTo).vin = txTo.vin.mapIdx fun i txin =>
      { txin with scriptSig := if i = nIn then scriptCode else [] } := by
  refine List.ext_getElem? fun i => ?_
  rw [blankScriptSigs, List.getElem?_modify, List.getElem?_map, List.getElem?_mapIdx]
  rcases txTo.vin[i]? with _ | txin
  · rfl
  · by_cases hi : nIn = i
    · subst hi
      simp
    · simp [hi, Ne.symm hi]

/-- The inputs before any of them goes. -/
theorem freeSequences_eq (hfree : FreesSequences nHashType) :
    freeSequences nIn (blankScriptSigs (withoutCodeSeparators scriptCode) nIn txTo).vin =
      txTo.vin.mapIdx (signedInput scriptCode nIn nHashType) := by
  rw [blankScriptSigs_eq, freeSequences, List.mapIdx_mapIdx]
  refine List.ext_getElem? fun i => ?_
  rw [List.getElem?_mapIdx, List.getElem?_mapIdx]
  rcases txTo.vin[i]? with _ | txin
  · rfl
  · by_cases hi : i = nIn
    · simp [signedInput, hi]
    · simp [signedInput, hi, hfree]

theorem blankScriptSigs_eq_signedInput (hfree : ¬ FreesSequences nHashType) :
    (blankScriptSigs (withoutCodeSeparators scriptCode) nIn txTo).vin =
      txTo.vin.mapIdx (signedInput scriptCode nIn nHashType) := by
  rw [blankScriptSigs_eq]
  refine List.ext_getElem? fun i => ?_
  rw [List.getElem?_mapIdx, List.getElem?_mapIdx]
  rcases txTo.vin[i]? with _ | txin
  · rfl
  · simp [signedInput, hfree]

/-- Outputs before the one that is locked in count only for their number. -/
theorem blankedOutputs_eq (hout : nIn < txTo.vout.length) :
    ((txTo.vout.take (nIn + 1)).mapIdx fun i o => if i < nIn then CTxOut.null else o) =
      List.replicate nIn CTxOut.null ++ txTo.vout[nIn]?.toList := by
  refine List.ext_getElem? fun i => ?_
  rw [List.getElem?_mapIdx, List.getElem?_take]
  rcases Nat.lt_trichotomy i nIn with hlt | rfl | hgt
  · rw [if_pos (by omega), List.getElem?_append_left (by simpa using hlt),
      List.getElem?_replicate_of_lt hlt, List.getElem?_eq_getElem (by omega), Option.map_some,
      if_pos hlt]
  · rw [if_pos (by omega), List.getElem?_append_right (by simp), List.length_replicate, Nat.sub_self,
      List.getElem?_eq_getElem hout, Option.map_some, if_neg (lt_irrefl i)]
    rfl
  · rw [if_neg (by omega), Option.map_none, List.getElem?_append_right (by simp; omega),
      List.getElem?_eq_none]
    rw [List.getElem?_eq_getElem hout, List.length_replicate]
    simp only [Option.toList_some, List.length_singleton]
    omega

/-- The input that is signed is the only one left. -/
theorem blankInputs_eq (txTo : CTransaction) {txTmp : CTransaction} (hin : nIn < txTo.vin.length)
    (hvin : txTmp.vin = txTo.vin.mapIdx (signedInput scriptCode nIn nHashType)) :
    blankInputs nIn nHashType txTmp = { txTmp with vin := signedInputs scriptCode txTo nIn nHashType } := by
  unfold blankInputs signedInputs
  split_ifs with hany
  · have hget : txTmp.vin[nIn]? = some (signedInput scriptCode nIn nHashType nIn txTo.vin[nIn]) := by
      rw [hvin, List.getElem?_mapIdx, List.getElem?_eq_getElem hin]
      rfl
    have hpos : txTmp.vin ≠ [] := fun h => by rw [h] at hget; exact absurd hget (by simp)
    obtain ⟨txin, rest, hcons⟩ := List.exists_cons_of_ne_nil hpos
    rw [hget, List.getElem?_eq_getElem hin]
    simp only [hcons, List.set_cons_zero, List.take_succ_cons, List.take_zero, Option.map_some,
      Option.toList_some]
  · rw [← hvin]

/-- **The copy in one piece.** -/
theorem signedTx_eq (hin : nIn < txTo.vin.length)
    (hout : baseType nHashType = sighashSingle → nIn < txTo.vout.length) :
    signedTx scriptCode txTo nIn nHashType = some { txTo with
      vin := signedInputs scriptCode txTo nIn nHashType
      vout := signedOutputs txTo nIn nHashType } := by
  unfold signedTx blankOutputs signedOutputs
  simp only [if_neg (not_le.2 hin), findAndDelete_codeSeparator]
  by_cases hnone : baseType nHashType = sighashNone
  · rw [if_pos hnone, if_pos hnone, Option.map_some,
      blankInputs_eq txTo hin (freeSequences_eq (.inl hnone))]
    rfl
  rw [if_neg hnone, if_neg hnone]
  by_cases hsingle : baseType nHashType = sighashSingle
  · have hlen : ¬ (blankScriptSigs (withoutCodeSeparators scriptCode) nIn txTo).vout.length ≤ nIn :=
      not_le.2 (hout hsingle)
    rw [if_pos hsingle, if_pos hsingle]
    rw [if_neg hlen, Option.map_some, blankInputs_eq txTo hin (freeSequences_eq (.inr hsingle))]
    have hvout := blankedOutputs_eq (hout hsingle)
    simp only [blankScriptSigs, hvout]
  · rw [if_neg hsingle, if_neg hsingle, Option.map_some, blankInputs_eq txTo hin
      (blankScriptSigs_eq_signedInput (not_or.2 ⟨hnone, hsingle⟩))]
    rfl

/-! ## When two copies are equal -/

/-- **What a signature hash commits to**: two scripts and transactions that
agree on it. -/
structure SameSigned (nIn : ℕ) (nHashType : ℤ) (scriptCode₁ scriptCode₂ : CScript)
    (tx₁ tx₂ : CTransaction) : Prop where
  scriptCode : withoutCodeSeparators scriptCode₁ = withoutCodeSeparators scriptCode₂
  nVersion : tx₁.nVersion = tx₂.nVersion
  nTime : tx₁.nTime = tx₂.nTime
  nLockTime : tx₁.nLockTime = tx₂.nLockTime
  /-- of the input that is signed, where it comes from and its sequence
  number -/
  prevout : tx₁.vin[nIn]?.map (·.prevout) = tx₂.vin[nIn]?.map (·.prevout)
  nSequence : tx₁.vin[nIn]?.map (·.nSequence) = tx₂.vin[nIn]?.map (·.nSequence)
  /-- where all others come from -/
  prevouts : anyoneCanPay nHashType = false → tx₁.vin.map (·.prevout) = tx₂.vin.map (·.prevout)
  /-- and their sequence numbers -/
  nSequences : anyoneCanPay nHashType = false → baseType nHashType ≠ sighashNone →
    baseType nHashType ≠ sighashSingle → tx₁.vin.map (·.nSequence) = tx₂.vin.map (·.nSequence)
  /-- all outputs, or the one -/
  vout : baseType nHashType ≠ sighashNone → baseType nHashType ≠ sighashSingle → tx₁.vout = tx₂.vout
  voutSingle : baseType nHashType = sighashSingle → tx₁.vout[nIn]? = tx₂.vout[nIn]?

theorem signedOutputs_eq_iff (hin₁ : nIn < tx₁.vout.length ∨ baseType nHashType ≠ sighashSingle)
    (hin₂ : nIn < tx₂.vout.length ∨ baseType nHashType ≠ sighashSingle) :
    signedOutputs tx₁ nIn nHashType = signedOutputs tx₂ nIn nHashType ↔
      (baseType nHashType ≠ sighashNone → baseType nHashType ≠ sighashSingle → tx₁.vout = tx₂.vout) ∧
        (baseType nHashType = sighashSingle → tx₁.vout[nIn]? = tx₂.vout[nIn]?) := by
  unfold signedOutputs
  have hdiff : sighashNone ≠ sighashSingle := by decide
  by_cases hnone : baseType nHashType = sighashNone
  · simp [hnone, hdiff]
  by_cases hsingle : baseType nHashType = sighashSingle
  · have h₁ := hin₁.resolve_right (not_not.2 hsingle)
    have h₂ := hin₂.resolve_right (not_not.2 hsingle)
    simp [hsingle, hdiff.symm, List.getElem?_eq_getElem h₁, List.getElem?_eq_getElem h₂]
  · simp [hnone, hsingle]

/-- Of the input that is signed everything is, its script being the one
given. -/
theorem signedInput_self_eq_iff {txin₁ txin₂ : CTxIn} :
    signedInput scriptCode₁ nIn nHashType nIn txin₁ = signedInput scriptCode₂ nIn nHashType nIn txin₂ ↔
      withoutCodeSeparators scriptCode₁ = withoutCodeSeparators scriptCode₂ ∧
        txin₁.prevout = txin₂.prevout ∧ txin₁.nSequence = txin₂.nSequence := by
  simp only [signedInput, CTxIn.mk.injEq, ne_eq, not_true_eq_false, and_false, if_false, if_true]
  tauto

/-- Of another input it is where it comes from, and perhaps its sequence
number. -/
theorem signedInput_eq_iff {txin₁ txin₂ : CTxIn} (hi : i ≠ nIn) :
    signedInput scriptCode₁ nIn nHashType i txin₁ = signedInput scriptCode₂ nIn nHashType i txin₂ ↔
      txin₁.prevout = txin₂.prevout ∧
        (¬ FreesSequences nHashType → txin₁.nSequence = txin₂.nSequence) := by
  by_cases hfree : FreesSequences nHashType
  · simp [signedInput, hi, hfree]
  · simp [signedInput, hi, hfree]

theorem mapIdx_signedInput_eq_iff (h₁ : nIn < tx₁.vin.length) (h₂ : nIn < tx₂.vin.length) :
    tx₁.vin.mapIdx (signedInput scriptCode₁ nIn nHashType) =
        tx₂.vin.mapIdx (signedInput scriptCode₂ nIn nHashType) ↔
      withoutCodeSeparators scriptCode₁ = withoutCodeSeparators scriptCode₂ ∧
        tx₁.vin[nIn]?.map (·.nSequence) = tx₂.vin[nIn]?.map (·.nSequence) ∧
        tx₁.vin.map (·.prevout) = tx₂.vin.map (·.prevout) ∧
        (¬ FreesSequences nHashType → tx₁.vin.map (·.nSequence) = tx₂.vin.map (·.nSequence)) := by
  constructor
  · intro h
    have hget : ∀ i, tx₁.vin[i]?.map (signedInput scriptCode₁ nIn nHashType i) =
        tx₂.vin[i]?.map (signedInput scriptCode₂ nIn nHashType i) := fun i => by
      rw [← List.getElem?_mapIdx, ← List.getElem?_mapIdx, h]
    have hself := hget nIn
    rw [List.getElem?_eq_getElem h₁, List.getElem?_eq_getElem h₂, Option.map_some, Option.map_some,
      Option.some.injEq, signedInput_self_eq_iff] at hself
    refine ⟨hself.1, ?_, List.ext_getElem? fun i => ?_, fun hfree => List.ext_getElem? fun i => ?_⟩
    · rw [List.getElem?_eq_getElem h₁, List.getElem?_eq_getElem h₂, Option.map_some, Option.map_some,
        hself.2.2]
    · have hi := congrArg (Option.map (·.prevout)) (hget i)
      rw [Option.map_map, Option.map_map] at hi
      rw [List.getElem?_map, List.getElem?_map]
      exact hi
    · have hi := congrArg (Option.map (·.nSequence)) (hget i)
      rw [Option.map_map, Option.map_map] at hi
      rw [List.getElem?_map, List.getElem?_map]
      simpa [Function.comp_def, signedInput, hfree] using hi
  · rintro ⟨hcode, hseq, hprev, hseqs⟩
    refine List.ext_getElem? fun i => ?_
    have hp := congrArg (fun l => l[i]?) hprev
    simp only [List.getElem?_map] at hp
    rw [List.getElem?_mapIdx, List.getElem?_mapIdx]
    rcases hv₁ : tx₁.vin[i]? with _ | txin₁
    · rw [hv₁, Option.map_none, eq_comm, Option.map_eq_none_iff] at hp
      rw [hp]
      rfl
    · rcases hv₂ : tx₂.vin[i]? with _ | txin₂
      · rw [hv₁, hv₂] at hp
        exact absurd hp (by simp)
      · rw [hv₁, hv₂, Option.map_some, Option.map_some, Option.some.injEq] at hp
        rw [Option.map_some, Option.map_some, Option.some.injEq]
        by_cases hi : i = nIn
        · subst hi
          rw [hv₁, hv₂, Option.map_some, Option.map_some, Option.some.injEq] at hseq
          exact signedInput_self_eq_iff.2 ⟨hcode, hp, hseq⟩
        · refine (signedInput_eq_iff hi).2 ⟨hp, fun hfree => ?_⟩
          have hs := congrArg (fun l => l[i]?) (hseqs hfree)
          simp only [List.getElem?_map, hv₁, hv₂, Option.map_some, Option.some.injEq] at hs
          exact hs

/-- **When the inputs signed are the same.** -/
theorem signedInputs_eq_iff (h₁ : nIn < tx₁.vin.length) (h₂ : nIn < tx₂.vin.length) :
    signedInputs scriptCode₁ tx₁ nIn nHashType = signedInputs scriptCode₂ tx₂ nIn nHashType ↔
      withoutCodeSeparators scriptCode₁ = withoutCodeSeparators scriptCode₂ ∧
        tx₁.vin[nIn]?.map (·.prevout) = tx₂.vin[nIn]?.map (·.prevout) ∧
        tx₁.vin[nIn]?.map (·.nSequence) = tx₂.vin[nIn]?.map (·.nSequence) ∧
        (anyoneCanPay nHashType = false → tx₁.vin.map (·.prevout) = tx₂.vin.map (·.prevout)) ∧
        (anyoneCanPay nHashType = false → ¬ FreesSequences nHashType →
          tx₁.vin.map (·.nSequence) = tx₂.vin.map (·.nSequence)) := by
  unfold signedInputs
  by_cases hany : anyoneCanPay nHashType = true
  · rw [if_pos hany, if_pos hany]
    simp only [List.getElem?_eq_getElem h₁, List.getElem?_eq_getElem h₂, Option.map_some,
      Option.toList_some, List.cons.injEq, and_true, signedInput_self_eq_iff, Option.some.injEq, hany,
      Bool.true_eq_false, false_implies]
  · rw [if_neg hany, if_neg hany, mapIdx_signedInput_eq_iff h₁ h₂]
    simp only [Bool.not_eq_true] at hany
    simp only [hany, true_implies]
    refine ⟨fun ⟨hcode, hseq, hprev, hseqs⟩ => ⟨hcode, ?_, hseq, hprev, hseqs⟩,
      fun ⟨hcode, _, hseq, hprev, hseqs⟩ => ⟨hcode, hseq, hprev, hseqs⟩⟩
    rw [← List.getElem?_map, hprev, List.getElem?_map]

theorem length_removeCodeSeparators_le {fuel : ℕ} {pc : CScript} :
    (removeCodeSeparators fuel pc).length ≤ pc.length := by
  induction fuel generalizing pc with
  | zero => exact le_rfl
  | succ fuel ih =>
    rw [removeCodeSeparators]
    rcases hop : getOp pc with _ | ⟨opcode, data, rest⟩
    · exact le_rfl
    · have hlen := length_of_getOp hop
      have hrest : (removeCodeSeparators fuel rest).length ≤ rest.length := ih
      simp only
      rw [List.length_append]
      split_ifs
      · rw [List.length_nil]
        omega
      · rw [List.length_take]
        omega

/-- What is signed of an input is in range. -/
theorem inRange_signedInput {txin : CTxIn} (htxin : txin.InRange) (hcode : scriptCode.length < 2 ^ 64) :
    (signedInput scriptCode nIn nHashType i txin).InRange := by
  refine ⟨htxin.n, ?_, ?_⟩
  · show List.length (if i = nIn then withoutCodeSeparators scriptCode else []) < _
    split_ifs
    · exact length_removeCodeSeparators_le.trans_lt hcode
    · exact Nat.two_pow_pos 64
  · show (if FreesSequences nHashType ∧ i ≠ nIn then 0 else txin.nSequence) < _
    split_ifs
    · exact Nat.two_pow_pos 32
    · exact htxin.nSequence

theorem inRange_signedInputs (htx : txTo.InRange) (hcode : scriptCode.length < 2 ^ 64) :
    (signedInputs scriptCode txTo nIn nHashType).length < 2 ^ 64 ∧
      ∀ txin ∈ signedInputs scriptCode txTo nIn nHashType, txin.InRange := by
  unfold signedInputs
  split_ifs
  · refine ⟨?_, fun txin h => ?_⟩
    · rcases txTo.vin[nIn]? with _ | _
      · exact Nat.two_pow_pos 64
      · show 1 < 2 ^ 64
        norm_num
    · rw [Option.mem_toList, Option.map_eq_some_iff] at h
      obtain ⟨txin', hget, rfl⟩ := h
      exact inRange_signedInput (htx.vin.2 _ (List.mem_of_getElem? hget)) hcode
  · rw [List.length_mapIdx]
    refine ⟨htx.vin.1, fun txin h => ?_⟩
    obtain ⟨i, hi, rfl⟩ := List.mem_mapIdx.1 h
    exact inRange_signedInput (htx.vin.2 _ (List.getElem_mem hi)) hcode

theorem inRange_signedOutputs (htx : txTo.InRange) (hin : nIn < txTo.vin.length) :
    (signedOutputs txTo nIn nHashType).length < 2 ^ 64 ∧
      ∀ txout ∈ signedOutputs txTo nIn nHashType, txout.InRange := by
  unfold signedOutputs
  split_ifs
  · exact ⟨Nat.two_pow_pos 64, fun _ h => absurd h List.not_mem_nil⟩
  · refine ⟨?_, fun txout h => ?_⟩
    · have hvin := htx.vin.1
      rw [List.length_append, List.length_replicate]
      rcases txTo.vout[nIn]? with _ | _
      · rw [Option.toList_none, List.length_nil]
        omega
      · rw [Option.toList_some, List.length_singleton]
        omega
    · rcases List.mem_append.1 h with h | h
      · rw [List.eq_of_mem_replicate h]
        exact ⟨by unfold CTxOut.null; norm_num, Nat.two_pow_pos 64⟩
      · exact htx.vout.2 _ (List.mem_of_getElem? (Option.mem_toList.1 h))
  · exact htx.vout

/-- The copies are in range like the transactions. -/
theorem inRange_signed (htx : txTo.InRange) (hcode : scriptCode.length < 2 ^ 64)
    (hin : nIn < txTo.vin.length) :
    CTransaction.InRange { txTo with
      vin := signedInputs scriptCode txTo nIn nHashType
      vout := signedOutputs txTo nIn nHashType } where
  nVersion := htx.nVersion
  nTime := htx.nTime
  vin := inRange_signedInputs htx hcode
  vout := inRange_signedOutputs htx hin
  nLockTime := htx.nLockTime

/-- **`SignatureHash` commits to exactly the intended fields.** Under an
injective hash, two signature hashes of one hash type, for inputs of one
index, are equal exactly where scripts and transactions agree on what is
signed. -/
theorem signatureHash_eq_iff {H : Type} {hash : List UInt8 → H} (hinj : Function.Injective hash) (one : H)
    (hcode₁ : scriptCode₁.length < 2 ^ 64) (hcode₂ : scriptCode₂.length < 2 ^ 64)
    (htx₁ : tx₁.InRange) (htx₂ : tx₂.InRange)
    (hin₁ : nIn < tx₁.vin.length) (hin₂ : nIn < tx₂.vin.length)
    (hout₁ : baseType nHashType = sighashSingle → nIn < tx₁.vout.length)
    (hout₂ : baseType nHashType = sighashSingle → nIn < tx₂.vout.length) :
    signatureHashOf hash one scriptCode₁ tx₁ nIn nHashType =
        signatureHashOf hash one scriptCode₂ tx₂ nIn nHashType ↔
      SameSigned nIn nHashType scriptCode₁ scriptCode₂ tx₁ tx₂ := by
  unfold signatureHashOf
  rw [signedTx_eq hin₁ hout₁, signedTx_eq hin₂ hout₂]
  simp only
  rw [hinj.eq_iff, List.append_left_inj,
    (inRange_signed htx₁ hcode₁ hin₁).serialize_inj (inRange_signed htx₂ hcode₂ hin₂)]
  rw [CTransaction.mk.injEq, signedInputs_eq_iff hin₁ hin₂, signedOutputs_eq_iff]
  · constructor
    · rintro ⟨hversion, htime, ⟨hcode, hprev, hseq, hprevs, hseqs⟩, ⟨hvout, hsingle⟩, hlock⟩
      exact ⟨hcode, hversion, htime, hlock, hprev, hseq, hprevs,
        fun hany h₁ h₂ => hseqs hany (not_or.2 ⟨h₁, h₂⟩), hvout, hsingle⟩
    · rintro ⟨hcode, hversion, htime, hlock, hprev, hseq, hprevs, hseqs, hvout, hsingle⟩
      exact ⟨hversion, htime, ⟨hcode, hprev, hseq, hprevs,
        fun hany h => hseqs hany (not_or.1 h).1 (not_or.1 h).2⟩, ⟨hvout, hsingle⟩, hlock⟩
  · exact or_iff_not_imp_right.2 fun h => hout₁ (not_not.1 h)
  · exact or_iff_not_imp_right.2 fun h => hout₂ (not_not.1 h)

end

/-- Two transactions that differ in another input's script and in an output
that is not locked in. -/
theorem signatureHash_eq_iff_single :
    signatureHashOf id [] [0xab, 0x51] ⟨1, 5, [⟨⟨1, 0⟩, [0x51], 7⟩], [⟨5, []⟩, ⟨6, []⟩], 0⟩ 0 3 =
        signatureHashOf id [] [0x51, 0xab] ⟨1, 5, [⟨⟨1, 0⟩, [], 7⟩], [⟨5, []⟩], 0⟩ 0 3 ↔
      SameSigned 0 3 [0xab, 0x51] [0x51, 0xab] ⟨1, 5, [⟨⟨1, 0⟩, [0x51], 7⟩], [⟨5, []⟩, ⟨6, []⟩], 0⟩
        ⟨1, 5, [⟨⟨1, 0⟩, [], 7⟩], [⟨5, []⟩], 0⟩ := by
  have hin : ∀ script : CScript, script.length < 2 ^ 64 → CTxIn.InRange ⟨⟨1, 0⟩, script, 7⟩ :=
    fun _ h => ⟨by norm_num, h, by norm_num⟩
  have hout : ∀ n : ℤ, -2 ^ 63 ≤ n ∧ n < 2 ^ 63 → CTxOut.InRange ⟨n, []⟩ :=
    fun _ h => ⟨h, by norm_num⟩
  refine signatureHash_eq_iff Function.injective_id [] (by norm_num) (by norm_num) ?_ ?_
    (by decide) (by decide) (by decide) (by decide)
  · exact ⟨by norm_num, by norm_num, ⟨by norm_num, by simpa using hin _ (by norm_num)⟩,
      ⟨by norm_num, by simpa using ⟨hout 5 (by norm_num), hout 6 (by norm_num)⟩⟩, by norm_num⟩
  · exact ⟨by norm_num, by norm_num, ⟨by norm_num, by simpa using hin _ (by norm_num)⟩,
      ⟨by norm_num, by simpa using hout 5 (by norm_num)⟩, by norm_num⟩

end CryptoBullion
