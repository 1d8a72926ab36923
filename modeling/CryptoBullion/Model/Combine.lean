import CryptoBullion.Model.SignatureHash
import CryptoBullion.Model.Solver
/-!
# Combining signatures

`CombineSignatures` merges two scripts that each sign for a part. Stacks
are vectors here, the top at the end, as the code indexes them. For a
multisignature all signatures are tried against all keys and put in the
order of the keys.
-/

namespace CryptoBullion

/-- Vectors of bytes are ordered byte by byte. -/
def bytesLe (a b : List UInt8) : Prop := a.map UInt8.toNat ≤ b.map UInt8.toNat

instance : DecidableRel bytesLe := fun _ _ => inferInstanceAs (Decidable (_ ≤ _))
instance : IsTrans (List UInt8) bytesLe := ⟨fun _ _ _ h h' => le_trans h h'⟩
instance : Std.Total bytesLe := ⟨fun _ _ => le_total _ _⟩
instance : Std.Antisymm bytesLe :=
  ⟨fun _ _ h h' => List.map_injective_iff.2 (fun _ _ => UInt8.toNat_inj.1) (le_antisymm h h')⟩

/-- `PushAll` -/
def pushAll (values : List (List UInt8)) : CScript := values.flatMap pushBytes

/-! ## CombineMultisig -/

/-- "Combine all the signatures we've got": `allsigs`, in the order of the
set -/
def allSigs (sigs1 sigs2 : List (List UInt8)) : List (List UInt8) :=
  ((sigs1 ++ sigs2).filter fun v => !v.isEmpty).toFinset.sort bytesLe

/-- A signature goes to the first key that has none and that it is good
for. -/
def placeSig (check : List UInt8 → List UInt8 → Bool) (keys : List (List UInt8))
    (sigs : List (List UInt8 × List UInt8)) (sig : List UInt8) : List (List UInt8 × List UInt8) :=
  match keys.find? fun pubkey => (sigs.lookup pubkey).isNone && check sig pubkey with
  | none => sigs
  | some pubkey => (pubkey, sig) :: sigs

/-- "Build a map of pubkey -> signature by matching sigs to pubkeys" -/
def matchSigs (check : List UInt8 → List UInt8 → Bool) (keys sigs : List (List UInt8)) :
    List (List UInt8 × List UInt8) :=
  sigs.foldl (placeSig check keys) []

/-- "Now build a merged CScript", filling any missing with `OP_0` -/
def mergeSigs (nSigsRequired : ℕ) (keys : List (List UInt8)) (sigs : List (List UInt8 × List UInt8)) :
    CScript :=
  let have' := (keys.filterMap fun pubkey => sigs.lookup pubkey).take nSigsRequired
  [0] ++ pushAll have' ++ List.replicate (nSigsRequired - have'.length) 0

/-- `CombineMultisig`, with `CheckSig` against the transaction handed in -/
def combineMultisig (checker : SigChecker) (scriptPubKey : CScript)
    (vSolutions sigs1 sigs2 : List (List UInt8)) : CScript :=
  let nSigsRequired := ((vSolutions.head?.bind List.head?).getD 0).toNat
  let keys := (vSolutions.drop 1).take (vSolutions.length - 2)
  mergeSigs nSigsRequired keys
    (matchSigs (fun sig pubkey => checker sig pubkey scriptPubKey) keys (allSigs sigs1 sigs2))

/-! ## CombineSignatures -/

/-- `CombineSignatures` of stacks. Each recursion takes an element off both,
so their length is fuel enough. -/
def combineStacks (checker : SigChecker) : ℕ → CScript → TxnOutType →
    (vSolutions sigs1 sigs2 : List (List UInt8)) → CScript
  | 0, _, _, _, _, _ => []
  | fuel + 1, scriptPubKey, txType, vSolutions, sigs1, sigs2 =>
    match txType with
    | .nonStandard | .nullData =>
      if sigs2.length ≤ sigs1.length then pushAll sigs1 else pushAll sigs2
    | .pubKey | .pubKeyHash =>
      if (sigs1.head?.getD []).isEmpty then pushAll sigs2 else pushAll sigs1
    | .scriptHash =>
      if (sigs1.getLast?.getD []).isEmpty then pushAll sigs2
      else if (sigs2.getLast?.getD []).isEmpty then pushAll sigs1
      else
        let spk := sigs1.getLast?.getD []
        let (_, txType2, vSolutions2) := solver spk
        combineStacks checker fuel spk txType2 vSolutions2 sigs1.dropLast sigs2.dropLast ++
          pushBytes spk
    | .multiSig => combineMultisig checker scriptPubKey vSolutions sigs1 sigs2

section
variable [P : Platform] [D : Digests]

/-- The stack `EvalScript` leaves, of a transaction without inputs, so that
no signature hash is taken of it. -/
def stackOf (scriptSig : CScript) : List (List UInt8) :=
  (evalScript (checkSig default 0 0) scriptSig ⟨[], 0⟩).2.stack.reverse

/-- `CombineSignatures` -/
def combineSignatures (scriptPubKey : CScript) (txTo : CTransaction) (nIn : ℕ)
    (scriptSig1 scriptSig2 : CScript) : CScript :=
  let (_, txType, vSolutions) := solver scriptPubKey
  let stack1 := stackOf scriptSig1
  let stack2 := stackOf scriptSig2
  combineStacks (checkSig txTo nIn 0) (stack1.length + 1) scriptPubKey txType vSolutions stack1 stack2

end

end CryptoBullion
