import CryptoBullion.Model.RawTransaction
import CryptoBullion.Scripts.Solver
/-!
# Merging raw transactions

What a signature signs does not depend on the scripts of the inputs, so a
script that verifies when it is written verifies in the transaction that is
handed back. The loop takes an input of each transaction at the index of the
first: where one of them has fewer inputs, it reads beyond their end
(`signRawTransaction_merges`).
-/

namespace CryptoBullion

/-! ## Transactions without their scripts -/

/-- A transaction, its inputs' scripts left out. -/
def CTransaction.unsigned (tx : CTransaction) : CTransaction :=
  { tx with vin := tx.vin.map fun txin => { txin with scriptSig := [] } }

section
variable {tx tx' : CTransaction} {nIn i : ℕ} {scriptSig scriptCode : CScript} {nHashType : ℤ}

theorem getElem?_setScriptSig (j : ℕ) : (tx.setScriptSig i scriptSig).vin[j]? =
    (tx.vin[j]?).map fun txin => if i = j then { txin with scriptSig := scriptSig } else txin := by
  unfold CTransaction.setScriptSig
  rw [List.getElem?_modify]
  rfl

theorem unsigned_setScriptSig : (tx.setScriptSig i scriptSig).unsigned = tx.unsigned := by
  unfold CTransaction.unsigned
  congr 1
  refine List.ext_getElem? fun j => ?_
  rw [List.getElem?_map, List.getElem?_map, getElem?_setScriptSig, Option.map_map]
  congr 1
  funext txin
  show ({ (if i = j then _ else txin) with scriptSig := [] } : CTxIn) = _
  split_ifs <;> rfl

/-- The last script written stays. -/
theorem setScriptSig_setScriptSig {scriptSig' : CScript} :
    (tx.setScriptSig i scriptSig').setScriptSig i scriptSig = tx.setScriptSig i scriptSig := by
  unfold CTransaction.setScriptSig
  congr 1
  exact List.modify_modify_eq _ _ _ _

/-- The outpoint of an input is none of its script. -/
theorem prevout_of_unsigned (h : tx.unsigned = tx'.unsigned) (j : ℕ) :
    (tx.vin[j]?).map (·.prevout) = (tx'.vin[j]?).map (·.prevout) := by
  have hvin := congrArg (fun t => (t.vin[j]?).map (·.prevout)) h
  simpa [CTransaction.unsigned, Function.comp_def] using hvin

theorem length_vin_of_unsigned (h : tx.unsigned = tx'.unsigned) : tx.vin.length = tx'.vin.length := by
  have hvin := congrArg (fun t => t.vin.length) h
  simpa [CTransaction.unsigned] using hvin

/-- A transaction is signed without the scripts of its inputs. -/
theorem signedTx_of_unsigned (h : tx.unsigned = tx'.unsigned) :
    signedTx scriptCode tx nIn nHashType = signedTx scriptCode tx' nIn nHashType := by
  have hblank : ∀ code, blankScriptSigs code nIn tx = blankScriptSigs code nIn tx' := by
    intro code
    have hof : ∀ t : CTransaction, blankScriptSigs code nIn t =
      { t.unsigned with vin := t.unsigned.vin.modify nIn fun txin => { txin with scriptSig := code } } :=
      fun _ => rfl
    rw [hof, hof, h]
  unfold signedTx
  rw [length_vin_of_unsigned h]
  dsimp only
  rw [hblank]

/-- **So is it checked.** -/
theorem checkSig_of_unsigned [P : Platform] (h : tx.unsigned = tx'.unsigned) :
    checkSig tx nIn nHashType = checkSig tx' nIn nHashType := by
  funext vchSig vchPubKey scriptCode
  have hhash : ∀ t, signatureHash scriptCode tx nIn t = signatureHash scriptCode tx' nIn t := by
    intro t
    unfold signatureHash signatureHashOf
    rw [signedTx_of_unsigned h]
  unfold checkSig sigDataOf
  simp only [hhash]

end

/-! ## What the solver hands back -/

/-- The solutions have what is read of them by their type: the first, and of
a multisignature two of them and a byte in the first. -/
def SolutionsInRange : TxnOutType → List (List UInt8) → Prop
  | .nonStandard, _ | .nullData, _ => True
  | .pubKey, vSolutions | .pubKeyHash, vSolutions | .scriptHash, vSolutions => 0 < vSolutions.length
  | .multiSig, vSolutions => 1 < vSolutions.length ∧ ∃ b, vSolutions.head?.bind List.head? = some b

/-- **What is read of the solutions is there**, whatever `Solver` returns. -/
theorem solver_inRange (scriptPubKey : CScript) :
    SolutionsInRange (solver scriptPubKey).2.1 (solver scriptPubKey).2.2 := by
  unfold solver
  split_ifs with hp2sh
  · exact Nat.one_pos
  rw [templates]
  rcases hkey : matchLoop 3 scriptPubKey [254, 172] [] with _ | sols
  swap
  · rw [scanTemplates_of_some hkey]
    obtain ⟨opcode, key, hlen, hreads, rfl⟩ := matchLoop_pubKey.1 hkey
    exact Nat.one_pos
  rw [scanTemplates_of_none hkey]
  rcases hhash : matchLoop 6 scriptPubKey [118, 169, 253, 136, 172] [] with _ | sols
  swap
  · rw [scanTemplates_of_some hhash]
    obtain ⟨opcode, hash, hlen, hreads, rfl⟩ := matchLoop_pubKeyHash.1 hhash
    exact Nat.one_pos
  rw [scanTemplates_of_none hhash]
  rcases hmulti : matchLoop 5 scriptPubKey [250, 251, 250, 174] [] with _ | sols
  · rw [scanTemplates_of_none hmulti, scanTemplates]
    trivial
  · rw [scanTemplates_of_some hmulti]
    obtain ⟨opm, opn, keys, -, -, -, -, rfl⟩ := matchLoop_multiSig.1 hmulti
    refine ⟨?_, _, rfl⟩
    simp

/-! ## The loop -/

section
variable [P : Platform] [D : Digests] (keystore : SigningStore) (nHashType : ℤ)
variable {tx mergedTx : CTransaction} {txVariants : List CTransaction} {prevPubKey : CScript}
variable {mapPrevOut : Map COutPoint CScript} {i : ℕ}

/-- Signing writes one script. -/
theorem exists_of_signSignature (prevPubKey : CScript) (tx : CTransaction) (i : ℕ) : ∃ scriptSig,
    (signSignature keystore prevPubKey tx i nHashType).2 = tx.setScriptSig i scriptSig := by
  unfold signSignature
  dsimp only
  split
  · exact ⟨_, rfl⟩
  · exact ⟨_, rfl⟩
  · exact ⟨_, rfl⟩

/-- So does the loop, which does not always sign. -/
theorem exists_of_signTurn (prevPubKey : CScript) (tx : CTransaction) (i : ℕ) : ∃ scriptSig,
    (if !fHashSingle nHashType || decide (i < (tx.setScriptSig i []).vout.length) then
      (signSignature keystore prevPubKey (tx.setScriptSig i []) i nHashType).2
    else tx.setScriptSig i []) = tx.setScriptSig i scriptSig := by
  split_ifs
  · obtain ⟨sig, hsig⟩ := exists_of_signSignature keystore nHashType prevPubKey (tx.setScriptSig i []) i
    exact ⟨sig, by rw [hsig, setScriptSig_setScriptSig]⟩
  · exact ⟨[], rfl⟩

/-- Merging the others in writes one script, if each of them has the input. -/
theorem mergeVariants_spec (prevPubKey : CScript) (hi : i < tx.vin.length) :
    ∀ {txVariants : List CTransaction} (scriptSig : CScript), (∀ txv ∈ txVariants, i < txv.vin.length) →
    ∃ scriptSig', mergeVariants prevPubKey i txVariants (tx.setScriptSig i scriptSig) =
        .ok (tx.setScriptSig i scriptSig')
  | [], scriptSig, _ => ⟨scriptSig, rfl⟩
  | txv :: txVariants, scriptSig, hlen => by
    obtain ⟨htxv, hrest⟩ := List.forall_mem_cons.1 hlen
    unfold mergeVariants
    rw [getElem?_setScriptSig, List.getElem?_eq_getElem hi, List.getElem?_eq_getElem htxv]
    dsimp only [Option.map_some]
    rw [setScriptSig_setScriptSig]
    exact mergeVariants_spec prevPubKey hi _ hrest

/-- And else reads beyond an end. -/
theorem mergeVariants_error (prevPubKey : CScript) (hi : i < tx.vin.length) :
    ∀ {txVariants : List CTransaction} (scriptSig : CScript),
    (∃ txv ∈ txVariants, txv.vin.length ≤ i) → ∃ what,
      mergeVariants prevPubKey i txVariants (tx.setScriptSig i scriptSig) = .error (.crash what)
  | [], _, ⟨_, hmem, _⟩ => absurd hmem List.not_mem_nil
  | txv :: txVariants, scriptSig, ⟨short, hmem, hshort⟩ => by
    unfold mergeVariants
    rw [getElem?_setScriptSig, List.getElem?_eq_getElem hi]
    rcases htxv : txv.vin[i]? with _ | txin
    · exact ⟨_, rfl⟩
    · have htail : short ∈ txVariants := by
        rcases List.mem_cons.1 hmem with rfl | h
        · exact absurd (List.getElem?_eq_some_iff.1 htxv).1 (Nat.not_lt.2 hshort)
        · exact h
      dsimp only [Option.map_some]
      rw [setScriptSig_setScriptSig]
      exact mergeVariants_error prevPubKey hi _ ⟨short, htail, hshort⟩

/-- An input whose previous output is known, and whose script verifies. -/
def InputComplete (mapPrevOut : Map COutPoint CScript) (tx : CTransaction) (i : ℕ) : Prop :=
  ∃ txin prevPubKey, tx.vin[i]? = some txin ∧ mapPrevOut[txin.prevout]? = some prevPubKey ∧
    verifyScript (checkSig tx i 0) txin.scriptSig prevPubKey true = true

/-- Whether it is depends on no other input's script. -/
theorem inputComplete_congr {tx' : CTransaction} (h : tx.unsigned = tx'.unsigned)
    (hi : tx.vin[i]? = tx'.vin[i]?) : InputComplete mapPrevOut tx i ↔ InputComplete mapPrevOut tx' i := by
  unfold InputComplete
  rw [checkSig_of_unsigned h, hi]

/-- The inputs the loop gets past at an index. -/
def InputShared (mapPrevOut : Map COutPoint CScript) (txVariants : List CTransaction)
    (tx : CTransaction) (i : ℕ) : Prop :=
  ∀ txin, tx.vin[i]? = some txin → txin.prevout ∈ mapPrevOut → ∀ txv ∈ txVariants, i < txv.vin.length

/-- **A turn** writes at most one script, and finds whether it completes the
input. -/
theorem mergeInput_spec (fComplete : Bool) (hi : i < tx.vin.length)
    (hshared : InputShared mapPrevOut txVariants tx i) :
    ∃ tx' fOk, mergeInput keystore txVariants mapPrevOut nHashType (tx, fComplete) i =
        .ok (tx', fComplete && fOk) ∧
      (fOk = true ↔ InputComplete mapPrevOut tx' i) ∧
      tx'.unsigned = tx.unsigned ∧ ∀ j, j ≠ i → tx'.vin[j]? = tx.vin[j]? := by
  have htxin := List.getElem?_eq_getElem hi
  unfold mergeInput
  dsimp only
  rw [htxin]
  dsimp only
  rcases hprev : mapPrevOut[tx.vin[i].prevout]? with _ | prevPubKey
  · refine ⟨tx, false, by simp, ?_, rfl, fun _ _ => rfl⟩
    constructor
    · exact fun h => absurd h Bool.false_ne_true
    · rintro ⟨txin, prevPubKey, h, hsome, -⟩
      obtain rfl := Option.some.inj (htxin.symm.trans h)
      rw [hprev] at hsome
      exact absurd hsome (by simp)
  · have hlen := hshared _ htxin (by
      rw [Std.ExtTreeMap.mem_iff_isSome_getElem?, hprev]
      rfl)
    obtain ⟨sig, hsig⟩ := exists_of_signTurn keystore nHashType prevPubKey tx i
    obtain ⟨sig', hmerge⟩ := mergeVariants_spec prevPubKey hi sig hlen
    dsimp only
    rw [hsig, hmerge]
    refine ⟨tx.setScriptSig i sig', _, rfl, ?_, unsigned_setScriptSig, fun j hj => ?_⟩
    · have hat : (tx.setScriptSig i sig').vin[i]? = some { tx.vin[i] with scriptSig := sig' } := by
        rw [getElem?_setScriptSig, htxin, Option.map_some, if_pos rfl]
      constructor
      · intro h
        refine ⟨_, prevPubKey, hat, hprev, ?_⟩
        rw [hat] at h
        exact h
      · rintro ⟨txin, spk, h, hsome, hverify⟩
        obtain rfl := Option.some.inj (hat.symm.trans h)
        obtain rfl := Option.some.inj (hprev.symm.trans hsome)
        rw [hat]
        exact hverify
    · rw [getElem?_setScriptSig]
      simp [Ne.symm hj]

/-- **A turn** for an input that a transaction lacks reads beyond its end. -/
theorem mergeInput_error (fComplete : Bool) (hi : i < tx.vin.length)
    (hlacks : ¬ InputShared mapPrevOut txVariants tx i) :
    ∃ what, mergeInput keystore txVariants mapPrevOut nHashType (tx, fComplete) i =
      .error (.crash what) := by
  unfold InputShared at hlacks
  push Not at hlacks
  obtain ⟨txin, htxin, hmem, txv, htxv, hshort⟩ := hlacks
  rw [Std.ExtTreeMap.mem_iff_isSome_getElem?, Option.isSome_iff_exists] at hmem
  obtain ⟨prevPubKey, hprev⟩ := hmem
  unfold mergeInput
  dsimp only
  rw [htxin]
  dsimp only
  rw [hprev]
  obtain ⟨sig, hsig⟩ := exists_of_signTurn keystore nHashType prevPubKey tx i
  obtain ⟨what, hmerge⟩ := mergeVariants_error prevPubKey hi sig ⟨txv, htxv, hshort⟩
  dsimp only
  rw [hsig, hmerge]
  exact ⟨what, rfl⟩

/-- Which inputs the loop gets past does not depend on the scripts. -/
theorem inputShared_congr {tx' : CTransaction} (h : tx.unsigned = tx'.unsigned) :
    InputShared mapPrevOut txVariants tx i ↔ InputShared mapPrevOut txVariants tx' i := by
  have hone : ∀ {t t' : CTransaction}, t.unsigned = t'.unsigned →
      InputShared mapPrevOut txVariants t i → InputShared mapPrevOut txVariants t' i := by
    intro t t' heq hshared txin htxin hmem
    have hprevout := prevout_of_unsigned heq i
    rw [htxin] at hprevout
    obtain ⟨txin', htxin', hsame⟩ := Option.map_eq_some_iff.1 hprevout
    exact hshared txin' htxin' (hsame ▸ hmem)
  exact ⟨hone h, hone h.symm⟩

/-- **The loop**, as far as it has come: where each input is shared, it has
written nothing but scripts, and `fComplete` says whether all it has seen are
complete. -/
theorem mergeLoop_spec : ∀ {k : ℕ}, k ≤ tx.vin.length →
    (∀ i < k, InputShared mapPrevOut txVariants tx i) →
    ∃ mergedTx fComplete, (List.range k).foldlM (mergeInput keystore txVariants mapPrevOut nHashType)
        (tx, true) = .ok (mergedTx, fComplete) ∧ mergedTx.unsigned = tx.unsigned ∧
      (fComplete = true ↔ ∀ i < k, InputComplete mapPrevOut mergedTx i)
  | 0, _, _ => ⟨tx, true, rfl, rfl, by simp⟩
  | k + 1, hk, hshared => by
    obtain ⟨mergedTx, fComplete, hrun, hunsigned, hcomplete⟩ :=
      mergeLoop_spec (k := k) (Nat.le_of_succ_le hk) fun i hi => hshared i (Nat.lt_succ_of_lt hi)
    have hlt : k < mergedTx.vin.length := by
      rw [length_vin_of_unsigned hunsigned]
      exact hk
    obtain ⟨tx', fOk, hturn, hfOk, hunsigned', hothers⟩ := mergeInput_spec keystore
      nHashType fComplete hlt ((inputShared_congr hunsigned).2 (hshared k (Nat.lt_succ_self k)))
    refine ⟨tx', fComplete && fOk, ?_, hunsigned'.trans hunsigned, ?_⟩
    · rw [List.range_succ, List.foldlM_append, hrun]
      show List.foldlM (mergeInput keystore txVariants mapPrevOut nHashType) (mergedTx, fComplete)
        [k] = _
      rw [List.foldlM_cons, hturn]
      rfl
    · -- the inputs before this one are as they were
      have hbefore : ∀ i < k, (InputComplete mapPrevOut tx' i ↔ InputComplete mapPrevOut mergedTx i) :=
        fun i hi => inputComplete_congr hunsigned' (hothers i (Nat.ne_of_lt hi))
      rw [Bool.and_eq_true, hcomplete, hfOk]
      constructor
      · rintro ⟨hall, hlast⟩ i hi
        rcases Nat.lt_succ_iff_lt_or_eq.1 hi with hi | rfl
        · exact (hbefore i hi).2 (hall i hi)
        · exact hlast
      · exact fun hall => ⟨fun i hi => (hbefore i hi).1 (hall i (Nat.lt_succ_of_lt hi)),
          hall k (Nat.lt_succ_self k)⟩

/-- Where an input is not shared, the loop does not end well. -/
theorem mergeLoop_error : ∀ {k : ℕ}, k ≤ tx.vin.length →
    (∃ i < k, ¬ InputShared mapPrevOut txVariants tx i) →
    ∃ what, (List.range k).foldlM (mergeInput keystore txVariants mapPrevOut nHashType) (tx, true) =
      .error (.crash what)
  | 0, _, ⟨_, hlt, _⟩ => absurd hlt (Nat.not_lt_zero _)
  | k + 1, hk, ⟨i, hi, hlacks⟩ => by
    rw [List.range_succ, List.foldlM_append]
    by_cases hearlier : ∃ i < k, ¬ InputShared mapPrevOut txVariants tx i
    · obtain ⟨what, herror⟩ := mergeLoop_error (Nat.le_of_succ_le hk) hearlier
      rw [herror]
      exact ⟨what, rfl⟩
    · push Not at hearlier
      obtain rfl : i = k := by
        by_contra hne
        exact hlacks (hearlier i (by omega))
      obtain ⟨mergedTx, fComplete, hrun, hunsigned, -⟩ := mergeLoop_spec keystore
        nHashType (Nat.le_of_succ_le hk) hearlier
      have hlt : i < mergedTx.vin.length := by
        rw [length_vin_of_unsigned hunsigned]
        exact hk
      obtain ⟨what, herror⟩ := mergeInput_error keystore nHashType fComplete hlt fun h => hlacks ((inputShared_congr hunsigned).1 h)
      rw [hrun]
      refine ⟨what, ?_⟩
      show List.foldlM (mergeInput keystore txVariants mapPrevOut nHashType) (mergedTx, fComplete)
        [i] = _
      rw [List.foldlM_cons, herror]
      rfl

/-! ## What is handed back -/

/-- What the call is to do: every read is in range, nothing but scripts
differs from the first transaction, and `complete` is said of complete
transactions alone. -/
structure Merges (tx : CTransaction) (txVariants : List CTransaction)
    (mapPrevOut : Map COutPoint CScript) (nHashType : ℤ) : Prop where
  inRange : ∀ scriptPubKey, SolutionsInRange (solver scriptPubKey).2.1 (solver scriptPubKey).2.2
  merged : ∃ mergedTx fComplete,
    signRawTransaction keystore (tx :: txVariants) mapPrevOut nHashType = .ok (mergedTx, fComplete) ∧
    mergedTx.unsigned = tx.unsigned ∧
    (fComplete = true ↔ ∀ i < mergedTx.vin.length, InputComplete mapPrevOut mergedTx i)

/-- **Raw transactions are merged** as they should where every one has each
input of the first whose previous output is known. -/
theorem signRawTransaction_merges (tx : CTransaction) (txVariants : List CTransaction)
    (mapPrevOut : Map COutPoint CScript) (nHashType : ℤ) :
    Merges keystore tx txVariants mapPrevOut nHashType ↔
      ∀ i txin, tx.vin[i]? = some txin → txin.prevout ∈ mapPrevOut →
        ∀ txv ∈ txVariants, i < txv.vin.length := by
  have hall : (∀ i, InputShared mapPrevOut (tx :: txVariants) tx i) ↔
      ∀ i txin, tx.vin[i]? = some txin → txin.prevout ∈ mapPrevOut →
        ∀ txv ∈ txVariants, i < txv.vin.length := by
    constructor
    · exact fun h i txin htxin hmem txv htxv => h i txin htxin hmem txv (List.mem_cons_of_mem _ htxv)
    · intro h i txin htxin hmem txv htxv
      rcases List.mem_cons.1 htxv with rfl | htxv
      · exact (List.getElem?_eq_some_iff.1 htxin).1
      · exact h i txin htxin hmem txv htxv
  rw [← hall]
  constructor
  · rintro ⟨-, mergedTx, fComplete, hrun, -, -⟩ i
    by_contra hlacks
    have hi : i < tx.vin.length := by
      by_contra hge
      exact hlacks fun txin htxin => absurd (List.getElem?_eq_some_iff.1 htxin).1 hge
    obtain ⟨what, herror⟩ := mergeLoop_error keystore nHashType le_rfl ⟨i, hi, hlacks⟩
    have hsame := hrun.symm.trans herror
    exact absurd hsame (by simp)
  · intro hshared
    obtain ⟨mergedTx, fComplete, hrun, hunsigned, hcomplete⟩ :=
      mergeLoop_spec keystore nHashType le_rfl fun i _ => hshared i
    exact ⟨solver_inRange, mergedTx, fComplete, hrun, hunsigned,
      by rw [hcomplete, length_vin_of_unsigned hunsigned]⟩

omit P D in
/-- **A transaction without inputs** in second place is read beyond its end. -/
theorem signRawTransaction_overruns :
    letI := Platform.toy
    letI := Digests.toy
    let spends : CTransaction := ⟨1, 0, [⟨⟨1, 0⟩, [], uintMax⟩], [⟨coin, [81]⟩], 0⟩
    let bare : CTransaction := ⟨1, 0, [], [⟨coin, [81]⟩], 0⟩
    let mapPrevOut : Map COutPoint CScript := (∅ : Map COutPoint CScript).insert ⟨1, 0⟩ [81]
    ¬ Merges ⟨fun _ _ _ _ => none, fun _ => none, fun _ => none⟩ spends [bare] mapPrevOut 1 := by
  intro spends bare mapPrevOut h
  let := Platform.toy
  let := Digests.toy
  obtain ⟨mergedTx, fComplete, hrun, -⟩ := h.merged
  have hlacks : ¬ InputShared mapPrevOut [spends, bare] spends 0 := fun h =>
    absurd (h _ rfl Std.ExtTreeMap.mem_insert_self bare (by simp)) (by decide)
  obtain ⟨what, herror⟩ := mergeLoop_error ⟨fun _ _ _ _ => none, fun _ => none, fun _ => none⟩ 1
    (le_refl spends.vin.length) ⟨0, Nat.one_pos, hlacks⟩
  exact absurd (hrun.symm.trans herror) (by simp)

end

end CryptoBullion
