import CryptoBullion.Model.Staker
/-!
# Combining stakes

After the kernel, `CreateCoinStake` goes through the selected coins again
to add more inputs of the same key. Its comments state when it stops: with
a hundred inputs or fifty, with enough value, at the reserve limit. The
limit on the inputs is written `vin.size() >= fHardStake ? 100 : 50`, which
is never zero to C++: the loop stops at the first coin it could add, and no
coin is ever added. So it does what it states exactly where that is to add
nothing.
-/

namespace CryptoBullion

variable [P : Platform]

/-! ## What the loop states -/

/-- The coin becomes an input of the draft. -/
def StakeDraft.add (d : StakeDraft) (pcoin : Coin) : StakeDraft where
  txNew := { d.txNew with
    vin := d.txNew.vin ++ [{ prevout := pcoin.prevout, scriptSig := [], nSequence := uintMax }] }
  nCredit := d.nCredit + pcoin.txout.nValue
  vwtxPrev := d.vwtxPrev ++ [pcoin.wtx]

/-- "Only add coins of the same key/address as kernel", from another
transaction -/
def StakeKernel.Matches (kernel : StakeKernel) (pcoin : Coin) : Prop :=
  (pcoin.txout.scriptPubKey = kernel.pcoin.txout.scriptPubKey ∨
      pcoin.txout.scriptPubKey = kernel.scriptPubKeyOut) ∧
    pcoin.wtx.tx.getHash ≠ kernel.pcoin.wtx.tx.getHash

instance (kernel : StakeKernel) : DecidablePred kernel.Matches :=
  fun _ => inferInstanceAs (Decidable ((_ ∨ _) ∧ _))

/-- "Do not add additional significant input", nor one "that is still too
young": the age test, as the loop has it. -/
def Coin.Joins (pcoin : Coin) (nTime : ℕ) : Prop :=
  pcoin.txout.nValue ≤ combineThreshold ∧
    (getStakeMinAge pcoin.wtx.tx.nTime : ℤ) ≤
      (nTime : ℤ) - pcoin.wtx.tx.nTime - getStakeMinAge pcoin.wtx.tx.nTime

instance (pcoin : Coin) (nTime : ℕ) : Decidable (pcoin.Joins nTime) :=
  inferInstanceAs (Decidable (_ ∧ _))

/-- "Stop adding more inputs if already too many inputs" -/
def maxInputs (fHardStake : Bool) : ℕ := if fHardStake then 100 else 50

/-- "Stop adding more inputs if value is already pretty significant", and
"if reached reserve limit" -/
def StakeDraft.Stops (d : StakeDraft) (nLimit : ℤ) (pcoin : Coin) : Prop :=
  combineThreshold < d.nCredit ∨ nLimit < d.nCredit + pcoin.txout.nValue

instance (d : StakeDraft) (nLimit : ℤ) : DecidablePred (d.Stops nLimit) :=
  fun _ => inferInstanceAs (Decidable (_ ∨ _))

/-- The loop as its comments describe it, over the coins that match the
kernel. -/
def combineStated (fHardStake : Bool) (nLimit : ℤ) : List Coin → StakeDraft → StakeDraft
  | [], d => d
  | pcoin :: rest, d =>
    if maxInputs fHardStake ≤ d.txNew.vin.length ∨ d.Stops nLimit pcoin then d
    else if pcoin.Joins d.txNew.nTime then combineStated fHardStake nLimit rest (d.add pcoin)
    else combineStated fHardStake nLimit rest d

/-! ## What it does -/

variable {fHardStake : Bool} {nLimit : ℤ} {scriptPubKeyKernel : CScript} {coins : List Coin}
variable {d : StakeDraft}

/-- **The loop never adds an input.** -/
theorem addInputs_eq_self : addInputs fHardStake nLimit scriptPubKeyKernel coins d = d := by
  induction coins with
  | nil => rfl
  | cons pcoin rest ih =>
    -- the limit is a hundred or fifty, whichever it is
    have hmany : (if (if fHardStake then 1 else 0) ≤ d.txNew.vin.length then 100 else 50) ≠ 0 := by
      split_ifs <;> decide
    unfold addInputs
    dsimp only
    rw [if_pos hmany, ih, ite_self]

/-- The stated loop only ever adds inputs. -/
theorem length_le_combineStated :
    d.txNew.vin.length ≤ (combineStated fHardStake nLimit coins d).txNew.vin.length := by
  induction coins generalizing d with
  | nil => exact le_rfl
  | cons pcoin rest ih =>
    unfold combineStated
    split_ifs
    · exact le_rfl
    · have hadd : d.txNew.vin.length ≤ (d.add pcoin).txNew.vin.length := by
        simp [StakeDraft.add]
      exact hadd.trans ih
    · exact ih

/-- **The stated loop adds nothing** exactly where no coin before its first
stop could join. -/
theorem combineStated_eq_self_iff (hvin : d.txNew.vin.length < maxInputs fHardStake) :
    combineStated fHardStake nLimit coins d = d ↔
      ∀ pcoin ∈ coins.takeWhile fun c => ¬ d.Stops nLimit c, ¬ pcoin.Joins d.txNew.nTime := by
  induction coins with
  | nil => simp [combineStated]
  | cons pcoin rest ih =>
    unfold combineStated
    rw [List.takeWhile_cons]
    by_cases hstop : d.Stops nLimit pcoin
    · rw [if_pos (.inr hstop)]
      simp [hstop]
    · simp only [hvin.not_ge, hstop, or_self, if_false, not_false_eq_true, decide_true, if_true,
        List.forall_mem_cons]
      by_cases hjoin : pcoin.Joins d.txNew.nTime
      · rw [if_pos hjoin]
        refine iff_of_false (fun heq => ?_) fun h => h.1 hjoin
        have hlen : (d.add pcoin).txNew.vin.length ≤
            (combineStated fHardStake nLimit rest (d.add pcoin)).txNew.vin.length :=
          length_le_combineStated
        rw [heq] at hlen
        simp [StakeDraft.add] at hlen
      · rw [if_neg hjoin, ih, and_iff_right hjoin]

/-- **The combining loop does what it states** exactly where no coin of the
kernel's key, up to the first at which it should stop, is old and small
enough to be added. -/
theorem addInputs_eq_combineStated_iff (fHardStake : Bool) (nLimit : ℤ) (kernel : StakeKernel)
    (setCoins : List Coin) :
    addInputs fHardStake nLimit kernel.pcoin.txout.scriptPubKey setCoins (draftCoinStake kernel) =
        combineStated fHardStake nLimit (setCoins.filter kernel.Matches) (draftCoinStake kernel) ↔
      ∀ pcoin ∈ (setCoins.filter kernel.Matches).takeWhile fun c =>
          ¬ (draftCoinStake kernel).Stops nLimit c,
        ¬ pcoin.Joins kernel.nTime := by
  have hvin : (draftCoinStake kernel).txNew.vin.length < maxInputs fHardStake := by
    cases fHardStake <;> simp [draftCoinStake, maxInputs]
  rw [addInputs_eq_self, eq_comm, combineStated_eq_self_iff hvin]
  rfl

/-! ## A coin left out -/

namespace LeftOut

/-- A wallet transaction that pays to a script. -/
def wtx (nTime : ℕ) (nValue : ℤ) : CWalletTx where
  tx :=
    { nVersion := 1
      nTime := nTime
      vin := [{ prevout := ⟨5, 0⟩, scriptSig := [], nSequence := uintMax }]
      vout := [⟨nValue, [81]⟩]
      nLockTime := 0 }
  hashBlock := 0
  vMerkleBranch := []
  nIndex := 0
  fFromMe := false
  vfSpent := []

/-- Ten coins, staked years later. -/
def kernel : StakeKernel where
  pcoin := ⟨wtx 1372352060 (10 * coin), 0⟩
  nTime := 1500000000
  scriptPubKeyOut := [81]
  key := []

/-- Twenty more of the same age and key. -/
def further : Coin := ⟨wtx 1372352070 (20 * coin), 0⟩

end LeftOut

omit [P : Platform] in
/-- **The loop can leave out a coin it should add.** -/
theorem addInputs_ne_combineStated :
    ¬ ∀ (_ : Platform) (fHardStake : Bool) (nLimit : ℤ) (kernel : StakeKernel)
      (setCoins : List Coin),
      addInputs fHardStake nLimit kernel.pcoin.txout.scriptPubKey setCoins (draftCoinStake kernel) =
        combineStated fHardStake nLimit (setCoins.filter kernel.Matches)
          (draftCoinStake kernel) := by
  intro h
  have hvin := congrArg (fun d => d.txNew.vin.length)
    (h Platform.toy false (1000 * coin) LeftOut.kernel [LeftOut.kernel.pcoin, LeftOut.further])
  have hcode : (addInputs (P := Platform.toy) false (1000 * coin)
      LeftOut.kernel.pcoin.txout.scriptPubKey [LeftOut.kernel.pcoin, LeftOut.further]
      (draftCoinStake (P := Platform.toy) LeftOut.kernel)).txNew.vin.length = 1 := by
    decide +kernel
  have hstated : (combineStated (P := Platform.toy) false (1000 * coin)
      ([LeftOut.kernel.pcoin, LeftOut.further].filter (LeftOut.kernel.Matches (P := Platform.toy)))
      (draftCoinStake (P := Platform.toy) LeftOut.kernel)).txNew.vin.length = 2 := by
    decide +kernel
  exact absurd (hcode.symm.trans (hvin.trans hstated)) (by decide)

end CryptoBullion
