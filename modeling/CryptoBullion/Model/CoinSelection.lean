import CryptoBullion.Common.Picking
import CryptoBullion.Model.Staker
/-!
# Coin selection

`SelectCoinsMinConf` looks for coins worth a target value: one that is
worth just that, all the small ones, the smallest of the large ones, or a
subset of the small ones that a thousand random passes come up with, aiming
at the target or at a cent more. What chance decides is a parameter: how the
coins are shuffled, how ties are sorted, and every `rand() % 2`. The answer
of `IsFromMe` is one too. Amounts and their sums are inside an `int64`.
-/

namespace CryptoBullion

deriving instance DecidableEq for Coin

/-- `COutput` -/
structure COutput where
  tx : CWalletTx
  i : ℕ
  nDepth : ℤ
  fSpendable : Bool

/-- `make_pair(out.tx, out.i)` -/
def COutput.coin (output : COutput) : Coin := ⟨output.tx, output.i⟩

/-- `output.tx->vout[output.i].nValue` -/
def COutput.nValue (output : COutput) : ℤ := output.coin.txout.nValue

/-- `std::numeric_limits<int64>::max()` -/
def int64Max : ℤ := 2 ^ 63 - 1

/-- What chance decides in one selection. -/
structure Chance where
  /-- `random_shuffle` -/
  shuffle : List COutput → List COutput
  shuffle_perm : ∀ l, (shuffle l).Perm l
  /-- `sort(vValue.rbegin(), vValue.rend(), CompareValueOnly())`: from the
  largest value down, ties in any order -/
  sort : List (ℤ × Coin) → List (ℤ × Coin)
  sort_perm : ∀ l, (sort l).Perm l
  sort_sorted : ∀ l, (sort l).Pairwise fun a b => b.1 ≤ a.1
  /-- `rand() % 2`, one after the other -/
  rand : ℕ → Bool

/-! ## The subset sum -/

/-- The variables of `ApproximateBestSubset` inside its loops. -/
structure Approx where
  nTotal : ℤ
  vfIncluded : List Bool
  fReachedTarget : Bool
  nBest : ℤ
  vfBest : List Bool
  /-- the random numbers still to come -/
  rand : ℕ → Bool

namespace Approx

/-- Take a coin in. One that reaches the target is noted and left out
again. -/
def takeIn (nTargetValue nValue : ℤ) (i : ℕ) (a : Approx) : Approx :=
  let nTotal := a.nTotal + nValue
  let vfIncluded := a.vfIncluded.set i true
  if nTargetValue ≤ nTotal then
    { a with
      fReachedTarget := true
      nBest := if nTotal < a.nBest then nTotal else a.nBest
      vfBest := if nTotal < a.nBest then vfIncluded else a.vfBest
      nTotal := nTotal - nValue
      vfIncluded := vfIncluded.set i false }
  else { a with nTotal := nTotal, vfIncluded := vfIncluded }

/-- `rand() % 2` -/
def toss (a : Approx) : Bool × Approx := (a.rand 0, { a with rand := fun n => a.rand (n + 1) })

/-- One turn of the innermost loop: by chance in the first pass, all that
are not in yet in the second. -/
def turn (nPass : ℕ) (nTargetValue nValue : ℤ) (i : ℕ) (a : Approx) : Approx :=
  if nPass = 0 then
    if a.toss.1 then a.toss.2.takeIn nTargetValue nValue i else a.toss.2
  else if a.vfIncluded[i]? = some false then a.takeIn nTargetValue nValue i
  else a

/-- `for (unsigned int i = 0; i < vValue.size(); i++)`, from `i` on -/
def pass (nPass : ℕ) (nTargetValue : ℤ) : (i : ℕ) → List (ℤ × Coin) → Approx → Approx
  | _, [], a => a
  | i, coin :: rest, a => pass nPass nTargetValue (i + 1) rest (a.turn nPass nTargetValue coin.1 i)

/-- One repetition: nothing is included, and then there are two passes at
most. -/
def repeatOnce (vValue : List (ℤ × Coin)) (nTargetValue : ℤ) (a : Approx) : Approx :=
  let a := { a with
    nTotal := 0
    vfIncluded := List.replicate vValue.length false
    fReachedTarget := false }
  let a := a.pass 0 nTargetValue 0 vValue
  if a.fReachedTarget then a else a.pass 1 nTargetValue 0 vValue

/-- `for (int nRep = 0; nRep < iterations && nBest != nTargetValue; nRep++)` -/
def loop (vValue : List (ℤ × Coin)) (nTargetValue : ℤ) : (iterations : ℕ) → Approx → Approx
  | 0, a => a
  | iterations + 1, a =>
    if a.nBest = nTargetValue then a
    else loop vValue nTargetValue iterations (a.repeatOnce vValue nTargetValue)

end Approx

/-- `ApproximateBestSubset`: `vfBest` and `nBest`, and the random numbers it
leaves -/
def approximateBestSubset (vValue : List (ℤ × Coin)) (nTotalLower nTargetValue : ℤ)
    (iterations : ℕ) (rand : ℕ → Bool) : Approx :=
  Approx.loop vValue nTargetValue iterations
    { nTotal := 0
      vfIncluded := []
      fReachedTarget := false
      nBest := nTotalLower
      vfBest := List.replicate vValue.length true
      rand := rand }

/-- The calls of `ApproximateBestSubset`: for the target, and where that
was missed for a cent more, if the coins are worth that much. -/
def approximateTargets (vValue : List (ℤ × Coin)) (nTotalLower nTargetValue : ℤ)
    (rand : ℕ → Bool) : Approx :=
  let a := approximateBestSubset vValue nTotalLower nTargetValue 1000 rand
  if a.nBest ≠ nTargetValue ∧ nTargetValue + cent ≤ nTotalLower then
    approximateBestSubset vValue nTotalLower (nTargetValue + cent) 1000 a.rand
  else a

/-! ## The selection -/

/-- Whether the scan looks at a coin: deep enough, and not newer than the
transaction that is to spend it. -/
def COutput.isEligible (isFromMe : CWalletTx → Bool) (nSpendTime : ℕ) (nConfMine nConfTheirs : ℤ)
    (output : COutput) : Bool :=
  !(output.nDepth < if isFromMe output.tx then nConfMine else nConfTheirs) &&
    !(nSpendTime < output.tx.tx.nTime)

/-- The variables of the scan. -/
structure CoinScan where
  /-- a null pointer is `none` -/
  coinLowestLarger : ℤ × Option Coin
  vValue : List (ℤ × Coin)
  nTotalLower : ℤ

/-- The scan over the coins: one that is worth just the target ends it. -/
def scanCoins (fEligible : COutput → Bool) (nTargetValue : ℤ) :
    List COutput → CoinScan → COutput ⊕ CoinScan
  | [], s => .inr s
  | output :: rest, s =>
    if !fEligible output then scanCoins fEligible nTargetValue rest s
    else
      let n := output.nValue
      if n = nTargetValue then .inl output
      else if n < nTargetValue + cent then
        scanCoins fEligible nTargetValue rest { s with
          vValue := s.vValue ++ [(n, output.coin)]
          nTotalLower := s.nTotalLower + n }
      else if n < s.coinLowestLarger.1 then
        scanCoins fEligible nTargetValue rest
          { s with coinLowestLarger := (n, some output.coin) }
      else scanCoins fEligible nTargetValue rest s

/-- `setCoinsRet` and `nValueRet` -/
abbrev SelectedCoins := Finset Coin × ℤ

/-- `setCoinsRet.insert(coin.second); nValueRet += coin.first;` -/
def SelectedCoins.insert (r : SelectedCoins) (coin : ℤ × Coin) : SelectedCoins :=
  (Insert.insert coin.2 r.1, r.2 + coin.1)

/-- `SelectCoinsMinConf`: the coins and their value where it returns
`true`; otherwise it has set them to nothing and zero. -/
def selectCoinsMinConf (chance : Chance) (isFromMe : CWalletTx → Bool) (nTargetValue : ℤ)
    (nSpendTime : ℕ) (nConfMine nConfTheirs : ℤ) (vCoins : List COutput) : Option SelectedCoins :=
  match scanCoins (COutput.isEligible isFromMe nSpendTime nConfMine nConfTheirs) nTargetValue
      (chance.shuffle vCoins)
      { coinLowestLarger := (int64Max, none), vValue := [], nTotalLower := 0 } with
  | .inl output => some (SelectedCoins.insert (∅, 0) (output.nValue, output.coin))
  | .inr s =>
    if s.nTotalLower = nTargetValue then some (s.vValue.foldl SelectedCoins.insert (∅, 0))
    else if s.nTotalLower < nTargetValue then
      match s.coinLowestLarger with
      | (_, none) => none
      | (n, some coin) => some (SelectedCoins.insert (∅, 0) (n, coin))
    else
      let vValue := chance.sort s.vValue
      let a := approximateTargets vValue s.nTotalLower nTargetValue chance.rand
      let small := some ((Picking.picked a.vfBest vValue).foldl SelectedCoins.insert (∅, 0))
      -- a bigger coin, where there is no good solution or it is closer
      match s.coinLowestLarger with
      | (_, none) => small
      | (n, some coin) =>
        if (a.nBest ≠ nTargetValue ∧ a.nBest < nTargetValue + cent) ∨ n ≤ a.nBest then
          some (SelectedCoins.insert (∅, 0) (n, coin))
        else small

end CryptoBullion
