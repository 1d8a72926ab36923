import CryptoBullion.Scripts.Combine
/-!
# Scripts the solver does not recognise

For those `Solver` reports no type and no solutions, and combining hands
back one of the two scripts as it is. One exit differs: where a script has
the shape of a multisignature but its numbers do not fit its keys, `Solver`
gives up with the type and the solutions already set, and the signatures
are merged after all. Those are the scripts of which what should hold does
not (`conservative_iff`).
-/

namespace CryptoBullion

variable {script : CScript} {sols values values' : List (List UInt8)} {t : TxnOutType}

/-! ## The exit that differs -/

/-- The shape of a multisignature script, with numbers that do not fit. -/
def Inconsistent (script : CScript) : Prop :=
  ∃ (opm opn : ℕ) (keys : List Instruction), IsSmallInteger opm ∧ IsSmallInteger opn ∧
    (∀ k ∈ keys, 33 ≤ k.2.length ∧ k.2.length ≤ 120) ∧
    Reads script ([(opm, [])] ++ keys ++ [(opn, []), (174, [])]) [] ∧
    ¬ (1 ≤ decodeOpN opm ∧ decodeOpN opm ≤ decodeOpN opn ∧ keys.length = decodeOpN opn)

/-- **An inconsistent script** is not recognised, but its type is reported. -/
theorem solver_of_inconsistent (h : Inconsistent script) :
    ∃ sols, solver script = (false, .multiSig, sols) := by
  obtain ⟨opm, opn, keys, hm, hn, hkeys, hreads, hunfit⟩ := h
  have hmulti := matchLoop_multiSig.2 ⟨opm, opn, keys, hm, hn, hkeys, hreads, rfl⟩
  have hbad : badMultiSig ([[UInt8.ofNat (decodeOpN opm)]] ++ keys.map Prod.snd ++
      [[UInt8.ofNat (decodeOpN opn)]]) = true := by
    by_contra hgood
    have hfit := (badMultiSig_iff (decodeOpN_le hm) (decodeOpN_le hn)).1
      (Bool.eq_false_of_not_eq_true hgood)
    rw [List.length_map] at hfit
    exact hunfit hfit
  have hfirst : opm ≤ 96 := by
    rcases hm with rfl | ⟨-, h⟩
    · exact Nat.zero_le _
    · exact h
  -- the other shapes begin otherwise, or are shorter
  have hp2sh : isPayToScriptHash script = false := isPayToScriptHash_of_reads hreads (by
    rintro ⟨⟩
    omega)
  have hhash : matchLoop 6 script [118, 169, 253, 136, 172] [] = none :=
    matchLoop_pubKeyHash_eq_none hreads (by
      rintro ⟨⟩
      omega)
  have hkey : matchLoop 3 script [254, 172] [] = none := matchLoop_pubKey_eq_none hreads (by
    simp only [List.length_append, List.length_cons, List.length_nil]
    omega)
  rw [solver, hp2sh, if_neg Bool.false_ne_true, templates, scanTemplates_of_none hkey,
    scanTemplates_of_none hhash, scanTemplates_of_some hmulti, hbad]
  exact ⟨_, rfl⟩

/-- **Of any other** that is not recognised nothing is reported. -/
theorem solver_of_not_inconsistent (h : (solver script).1 = false) (hnot : ¬ Inconsistent script) :
    solver script = (false, .nonStandard, []) := by
  unfold solver at h ⊢
  split_ifs at h ⊢ with hp2sh
  rw [templates] at h ⊢
  rcases hkey : matchLoop 3 script [254, 172] [] with _ | sols₁
  swap
  · rw [scanTemplates_of_some hkey] at h
    exact absurd h (by simp)
  rw [scanTemplates_of_none hkey] at h ⊢
  rcases hhash : matchLoop 6 script [118, 169, 253, 136, 172] [] with _ | sols₂
  swap
  · rw [scanTemplates_of_some hhash] at h
    exact absurd h (by simp)
  rw [scanTemplates_of_none hhash] at h ⊢
  rcases hmulti : matchLoop 5 script [250, 251, 250, 174] [] with _ | sols₃
  · rw [scanTemplates_of_none hmulti, scanTemplates]
  · -- the shape matches, so the numbers do not fit
    obtain ⟨opm, opn, keys, hm, hn, hkeys, hreads, rfl⟩ := matchLoop_multiSig.1 hmulti
    rw [scanTemplates_of_some hmulti] at h
    refine absurd ⟨opm, opn, keys, hm, hn, hkeys, hreads, fun hfit => ?_⟩ hnot
    have hgood := (badMultiSig_iff (decodeOpN_le hm) (decodeOpN_le hn)).2
      ⟨hfit.1, hfit.2.1, (List.length_map Prod.snd).trans hfit.2.2⟩
    rw [hgood] at h
    exact absurd h (by simp)

/-! ## What combining hands back -/

/-- Pushes are read back, so they tell what was pushed. -/
theorem pushAll_inj (h : ∀ v ∈ values, v.length ≤ 520) (h' : ∀ v ∈ values', v.length ≤ 520)
    (heq : pushAll values = pushAll values') : values = values' := by
  have hreads : ∀ {vs : List (List UInt8)}, (∀ v ∈ vs, v.length ≤ 520) →
      Reads (pushAll vs) (vs.map fun b => (pushOpcode b, b)) [] := by
    intro vs hvs
    have hall : Reads (vs.flatMap pushBytes ++ []) _ [] := reads_flatMap_pushBytes fun b hb =>
      lt_of_le_of_lt (hvs b hb) (by decide)
    rwa [List.append_nil] at hall
  have hsame := (heq ▸ hreads h).unique (hreads h')
  have hback : ∀ vs : List (List UInt8), (vs.map fun b => (pushOpcode b, b)).map Prod.snd = vs := by
    intro vs
    rw [List.map_map]
    exact List.map_id vs
  rw [← hback values, hsame, hback]

section
variable [P : Platform] [D : Digests]
variable {txTo : CTransaction} {nIn : ℕ} {scriptPubKey scriptSig1 scriptSig2 : CScript}

/-- What is combined are the pushes of one of the two, as they are. -/
def OneOf (txTo : CTransaction) (nIn : ℕ) (scriptPubKey scriptSig1 scriptSig2 : CScript) : Prop :=
  combineSignatures scriptPubKey txTo nIn scriptSig1 scriptSig2 = pushAll (stackOf scriptSig1) ∨
    combineSignatures scriptPubKey txTo nIn scriptSig1 scriptSig2 = pushAll (stackOf scriptSig2)

/-- The script that `scriptSig` redeems: what it pushes last. -/
def Redeems (scriptSig script : CScript) : Prop := (stackOf scriptSig).getLast? = some script

/-- What is to hold of a script that is not recognised: it is reported as
such, and one of two scripts that sign for it is handed back, whether it is
what is paid to or what is redeemed. -/
def Conservative (script : CScript) : Prop :=
  (solver script).2 = (.nonStandard, []) ∧
    (∀ txTo nIn scriptSig1 scriptSig2, OneOf txTo nIn script scriptSig1 scriptSig2) ∧
    ∀ txTo nIn scriptPubKey scriptSig1 scriptSig2, isPayToScriptHash scriptPubKey = true →
      Redeems scriptSig1 script → Redeems scriptSig2 script →
        OneOf txTo nIn scriptPubKey scriptSig1 scriptSig2

theorem oneOf_of_nonStandard (h : (solver script).2 = (.nonStandard, [])) :
    OneOf txTo nIn script scriptSig1 scriptSig2 := by
  unfold OneOf combineSignatures
  rcases hs : solver script with ⟨b, t, sols⟩
  rw [hs] at h
  obtain ⟨rfl, rfl⟩ := Prod.mk.inj h
  dsimp only
  rw [combineStacks]
  split_ifs
  · exact .inl rfl
  · exact .inr rfl

/-- **Below a script hash** the longer of the two is kept, without its
script, and gets the script of the first. -/
theorem combineSignatures_scriptHash {spk₁ spk₂ : List UInt8}
    (hhash : isPayToScriptHash scriptPubKey = true) (h : solver spk₁ = (false, .nonStandard, []))
    (h₁ : Redeems scriptSig1 spk₁) (h₂ : Redeems scriptSig2 spk₂) (hne₁ : spk₁ ≠ []) (hne₂ : spk₂ ≠ []) :
    combineSignatures scriptPubKey txTo nIn scriptSig1 scriptSig2 =
      if (stackOf scriptSig2).length ≤ (stackOf scriptSig1).length then pushAll (stackOf scriptSig1)
      else pushAll ((stackOf scriptSig2).dropLast ++ [spk₁]) := by
  have hsolver : solver scriptPubKey = (true, .scriptHash, [(scriptPubKey.drop 2).take 20]) := by
    rw [solver, if_pos hhash]
  unfold Redeems at h₁ h₂
  have hlast₁ : ((stackOf scriptSig1).getLast?.getD []).isEmpty = false := by
    rw [h₁]
    simpa using hne₁
  have hlast₂ : ((stackOf scriptSig2).getLast?.getD []).isEmpty = false := by
    rw [h₂]
    simpa using hne₂
  obtain ⟨k, hk⟩ : ∃ k, (stackOf scriptSig1).length = k + 1 := by
    rcases hstack : stackOf scriptSig1 with _ | ⟨v, vs⟩
    · rw [hstack] at h₁
      cases h₁
    · exact ⟨vs.length, rfl⟩
  have hpos₂ : 0 < (stackOf scriptSig2).length := by
    rcases hstack : stackOf scriptSig2 with _ | ⟨v, vs⟩
    · rw [hstack] at h₂
      cases h₂
    · exact Nat.zero_lt_succ _
  have happend : ∀ values : List (List UInt8),
      pushAll values ++ pushBytes spk₁ = pushAll (values ++ [spk₁]) := by
    intro values
    rw [pushAll, pushAll, List.flatMap_append, List.flatMap_singleton]
  have hwhole : (stackOf scriptSig1).dropLast ++ [spk₁] = stackOf scriptSig1 :=
    List.dropLast_append_getLast? spk₁ h₁
  have hlen : (stackOf scriptSig2).dropLast.length ≤ (stackOf scriptSig1).dropLast.length ↔
      (stackOf scriptSig2).length ≤ (stackOf scriptSig1).length := by
    rw [List.length_dropLast, List.length_dropLast]
    omega
  unfold combineSignatures
  rw [hsolver]
  dsimp only
  rw [hk, combineStacks, hlast₁, hlast₂, h₁, Option.getD_some, if_neg Bool.false_ne_true,
    if_neg Bool.false_ne_true]
  dsimp only
  rw [h]
  dsimp only
  rw [combineStacks, ← hk]
  by_cases hle : (stackOf scriptSig2).length ≤ (stackOf scriptSig1).length
  · rw [if_pos hle, if_pos (hlen.2 hle), happend, hwhole]
  · rw [if_neg hle, if_neg (fun hl => hle (hlen.1 hl)), happend]

/-- Where one of the two redeems nothing, the other is handed back. -/
theorem oneOf_of_redeems_nil (hhash : isPayToScriptHash scriptPubKey = true)
    (h₁ : Redeems scriptSig1 []) : OneOf txTo nIn scriptPubKey scriptSig1 scriptSig2 := by
  have hsolver : solver scriptPubKey = (true, .scriptHash, [(scriptPubKey.drop 2).take 20]) := by
    rw [solver, if_pos hhash]
  unfold Redeems at h₁
  have hlast : ((stackOf scriptSig1).getLast?.getD []).isEmpty = true := by
    rw [h₁]
    rfl
  unfold OneOf combineSignatures
  rw [hsolver]
  dsimp only
  rw [combineStacks, hlast, if_pos rfl]
  exact .inr rfl

/-- It is one of the two just where both redeem the same script, or the
first is as long as the second. -/
theorem oneOf_scriptHash_iff {spk₂ : List UInt8} (hhash : isPayToScriptHash scriptPubKey = true)
    (h : solver script = (false, .nonStandard, [])) (h₁ : Redeems scriptSig1 script)
    (h₂ : Redeems scriptSig2 spk₂) (hne₁ : script ≠ []) (hne₂ : spk₂ ≠ []) :
    OneOf txTo nIn scriptPubKey scriptSig1 scriptSig2 ↔
      spk₂ = script ∨ (stackOf scriptSig2).length ≤ (stackOf scriptSig1).length := by
  unfold OneOf
  rw [combineSignatures_scriptHash hhash h h₁ h₂ hne₁ hne₂]
  have hwhole : (stackOf scriptSig2).dropLast ++ [spk₂] = stackOf scriptSig2 :=
    List.dropLast_append_getLast? spk₂ h₂
  have hshort₁ : ∀ v ∈ stackOf scriptSig1, v.length ≤ 520 := fun v hv => length_of_mem_stackOf hv
  have hshort₂ : ∀ v ∈ stackOf scriptSig2, v.length ≤ 520 := fun v hv => length_of_mem_stackOf hv
  have hmixed : ∀ v ∈ (stackOf scriptSig2).dropLast ++ [script], v.length ≤ 520 := by
    intro v hv
    rcases List.mem_append.1 hv with hv | hv
    · exact hshort₂ v (List.mem_of_mem_dropLast hv)
    · exact hshort₁ v (List.mem_singleton.1 hv ▸ List.mem_of_getLast? h₁)
  by_cases hle : (stackOf scriptSig2).length ≤ (stackOf scriptSig1).length
  · rw [if_pos hle]
    exact ⟨fun _ => .inr hle, fun _ => .inl rfl⟩
  · rw [if_neg hle]
    constructor
    · rintro (heq | heq)
      · -- the first is shorter than what is handed back
        have hlen := congrArg List.length (pushAll_inj hmixed hshort₁ heq)
        rw [List.length_append, List.length_singleton, List.length_dropLast] at hlen
        omega
      · have hsame := pushAll_inj hmixed hshort₂ heq
        rw [← hwhole, List.dropLast_concat] at hsame
        exact .inl (List.cons.inj (List.append_cancel_left hsame)).1.symm
    · rintro (rfl | hle')
      · exact .inr (by rw [hwhole])
      · exact absurd hle' hle

/-- **Reported and combined as it should be, unless its numbers do not fit.**
For every script that `Solver` does not recognise: it is reported as
nonstandard, without solutions, and combining hands back the pushes of one
of the two scripts for it, whether paid to or redeemed, if and only if it
has not the shape of a multisignature script whose numbers do not fit its
keys. Where two scripts redeem different ones, the first of them such a
script, one of them is handed back just where the first is as long as the
second. -/
theorem conservative_iff (h : (solver script).1 = false) :
    (Conservative script ↔ ¬ Inconsistent script) ∧
      (¬ Inconsistent script → ∀ txTo nIn scriptPubKey scriptSig1 scriptSig2 spk₂,
        isPayToScriptHash scriptPubKey = true → Redeems scriptSig1 script → Redeems scriptSig2 spk₂ →
          script ≠ [] → spk₂ ≠ [] → spk₂ ≠ script →
            (OneOf txTo nIn scriptPubKey scriptSig1 scriptSig2 ↔
              (stackOf scriptSig2).length ≤ (stackOf scriptSig1).length)) := by
  refine ⟨⟨?_, fun hnot => ?_⟩, ?_⟩
  · rintro ⟨hreport, -⟩ hinc
    obtain ⟨sols, hsols⟩ := solver_of_inconsistent hinc
    rw [hsols] at hreport
    cases hreport
  · have hsolver := solver_of_not_inconsistent h hnot
    have hreport : (solver script).2 = (.nonStandard, []) := by rw [hsolver]
    refine ⟨hreport, fun _ _ _ _ => oneOf_of_nonStandard hreport, ?_⟩
    intro txTo nIn scriptPubKey scriptSig1 scriptSig2 hhash h₁ h₂
    by_cases hne : script = []
    · subst hne
      exact oneOf_of_redeems_nil hhash h₁
    · exact (oneOf_scriptHash_iff hhash hsolver h₁ h₂ hne hne).2 (.inl rfl)
  · intro hnot txTo nIn scriptPubKey scriptSig1 scriptSig2 spk₂ hhash h₁ h₂ hne₁ hne₂ hdiff
    rw [oneOf_scriptHash_iff hhash (solver_of_not_inconsistent h hnot) h₁ h₂ hne₁ hne₂]
    exact ⟨fun hor => hor.resolve_left hdiff, .inr⟩

end

/-- `OP_NOP` is not recognised. As a redeem script it is kept with the longer
of two scripts, the other's or not. -/
theorem conservative_iff_nop :
    Conservative (P := Platform.toy) (D := .toy) [97] ∧
      ¬ OneOf (P := Platform.toy) (D := .toy) default 0 ([169, 20] ++ List.replicate 20 0 ++ [135])
        (pushAll [[97]]) (pushAll [[1], [98]]) := by
  letI := Platform.toy
  letI : Digests := .toy
  have hfalse : (solver [97]).1 = false := by decide
  have hnot : ¬ Inconsistent [97] := by
    intro hinc
    obtain ⟨sols, hsols⟩ := solver_of_inconsistent hinc
    have htype : (solver [97]).2.1 = .nonStandard := by decide
    rw [hsols] at htype
    cases htype
  have hstack₁ : stackOf (pushAll [[97]]) = [[97]] := stackOf_pushAll (by decide) (by decide)
  have hstack₂ : stackOf (pushAll [[1], [98]]) = [[1], [98]] := stackOf_pushAll (by decide) (by decide)
  have h := conservative_iff hfalse
  refine ⟨h.1.2 hnot, ?_⟩
  rw [h.2 hnot default 0 ([169, 20] ++ List.replicate 20 0 ++ [135]) (pushAll [[97]])
    (pushAll [[1], [98]]) [98] (by decide) (by rw [Redeems, hstack₁]; rfl)
    (by rw [Redeems, hstack₂]; rfl) (by decide) (by decide) (by decide), hstack₁, hstack₂]
  decide

/-- Two signatures of one key are asked for. -/
def twoOfOne : CScript := [82] ++ pushBytes (List.replicate 33 2) ++ [81, 174]

/-- **A script that is not recognised**, reported as a multisignature. Of two
empty scripts a placeholder for each signature is made, and one more. -/
theorem not_conservative :
    (solver twoOfOne).1 = false ∧ (solver twoOfOne).2.1 = .multiSig ∧
      ¬ OneOf (P := Platform.toy) (D := .toy) default 0 twoOfOne [] [] ∧
      ¬ Conservative (P := Platform.toy) (D := .toy) twoOfOne := by
  have hsolver : solver twoOfOne = (false, .multiSig, [[2], List.replicate 33 2, [1]]) := by
    decide
  have hnot : ¬ OneOf (P := Platform.toy) (D := .toy) default 0 twoOfOne [] [] := by
    letI := Platform.toy
    letI : Digests := .toy
    have hstack : stackOf (pushAll []) = [] := stackOf_pushAll (by decide) (by decide)
    change stackOf [] = [] at hstack
    have hnone : allSigs [] [] = [] := by
      rw [allSigs, List.append_nil, List.filter_nil, List.toFinset_nil, Finset.sort_empty]
    have hcombine : combineSignatures twoOfOne default 0 [] [] = [0, 0, 0] := by
      unfold combineSignatures
      rw [hsolver, hstack]
      dsimp only
      rw [combineStacks, combineMultisig, hnone]
      decide
    unfold OneOf
    rw [hcombine, hstack]
    decide
  exact ⟨congrArg Prod.fst hsolver, congrArg (fun r => r.2.1) hsolver, hnot,
    fun h => hnot (h.2.1 default 0 [] [])⟩

end CryptoBullion
