import CryptoBullion.Model.CoinSelection
/-!
# Coin selection is sound and nearly complete

Whatever chance decides, the random passes only ever remember a subset of
the coins with its true value, and one that reaches the target
(`Approx.Good`). The scan before them finds a coin worth just the target,
or splits the eligible coins into small ones and large ones
(`scanCoins_spec`). So the selection succeeds where the eligible coins
suffice, and what it gives is worth the target, or a cent more, unless
there is nothing better.
-/

namespace CryptoBullion

open Picking

variable {vValue rest pre : List (ℤ × Coin)} {nTargetValue nTotalLower nValue : ℤ} {a : Approx}
variable {coin : ℤ × Coin} {i j nPass n : ℕ} {rand : ℕ → Bool}

/-! ## The subset sum -/

/-- What some coins are worth together. -/
def worth (l : List (ℤ × Coin)) : ℤ := (l.map Prod.fst).sum

theorem worth_cons {l : List (ℤ × Coin)} : worth (coin :: l) = coin.1 + worth l := by
  unfold worth
  rw [List.map_cons, List.sum_cons]

theorem worth_perm {l l' : List (ℤ × Coin)} (h : l.Perm l') : worth l = worth l' :=
  (h.map Prod.fst).sum_eq

namespace Approx

/-- The best subset so far is one that reaches the target. -/
structure Best (vValue : List (ℤ × Coin)) (nTargetValue : ℤ) (a : Approx) : Prop where
  length_eq : a.vfBest.length = vValue.length
  nBest : a.nBest = worth (picked a.vfBest vValue)
  le : nTargetValue ≤ a.nBest

/-- And so the current one has its true value. -/
structure Good (vValue : List (ℤ × Coin)) (nTargetValue : ℤ) (a : Approx) : Prop
    extends Best vValue nTargetValue a where
  length_included : a.vfIncluded.length = vValue.length
  nTotal : a.nTotal = worth (picked a.vfIncluded vValue)

/-- **Taking a coin in** that is not in yet. -/
theorem Good.takeIn (hg : a.Good vValue nTargetValue) (hi : a.vfIncluded[i]? = some false)
    (hcoin : vValue[i]? = some coin) : (a.takeIn nTargetValue coin.1 i).Good vValue nTargetValue := by
  have htotal : a.nTotal + coin.1 = worth (picked (a.vfIncluded.set i true) vValue) := by
    rw [worth_perm (picked_set_true hi hcoin), worth_cons, hg.nTotal, add_comm]
  have hlen : (a.vfIncluded.set i true).length = vValue.length := by
    rw [List.length_set, hg.length_included]
  unfold Approx.takeIn
  dsimp only
  by_cases hreached : nTargetValue ≤ a.nTotal + coin.1
  · rw [if_pos hreached]
    have hback : a.nTotal + coin.1 - coin.1 = a.nTotal := by omega
    refine ⟨?_, ?_, ?_⟩
    · by_cases hbetter : a.nTotal + coin.1 < a.nBest
      · simp only [if_pos hbetter]
        exact ⟨hlen, htotal, hreached⟩
      · simp only [if_neg hbetter]
        exact ⟨hg.length_eq, hg.nBest, hg.le⟩
    · show ((a.vfIncluded.set i true).set i false).length = vValue.length
      rw [set_true_set_false hi, hg.length_included]
    · show a.nTotal + coin.1 - coin.1 = worth (picked ((a.vfIncluded.set i true).set i false) vValue)
      rw [set_true_set_false hi, hback, hg.nTotal]
  · rw [if_neg hreached]
    exact ⟨⟨hg.length_eq, hg.nBest, hg.le⟩, hlen, htotal⟩

/-- The other flags stay as they are. -/
theorem vfIncluded_takeIn (hne : i ≠ j) :
    (a.takeIn nTargetValue nValue i).vfIncluded[j]? = a.vfIncluded[j]? := by
  have hset : (a.vfIncluded.set i true)[j]? = a.vfIncluded[j]? := List.getElem?_set_ne hne
  unfold Approx.takeIn
  dsimp only
  by_cases hreached : nTargetValue ≤ a.nTotal + nValue
  · rw [if_pos hreached]
    show ((a.vfIncluded.set i true).set i false)[j]? = _
    rw [List.getElem?_set_ne hne, hset]
  · rw [if_neg hreached]
    exact hset

theorem Good.toss (hg : a.Good vValue nTargetValue) : a.toss.2.Good vValue nTargetValue :=
  ⟨⟨hg.length_eq, hg.nBest, hg.le⟩, hg.length_included, hg.nTotal⟩

/-- A turn of the first pass, at a coin that is not in yet. -/
theorem Good.turn_zero (hg : a.Good vValue nTargetValue) (hi : a.vfIncluded[i]? = some false)
    (hcoin : vValue[i]? = some coin) : (a.turn 0 nTargetValue coin.1 i).Good vValue nTargetValue := by
  unfold Approx.turn
  rw [if_pos rfl]
  split_ifs
  · exact hg.toss.takeIn hi hcoin
  · exact hg.toss

theorem vfIncluded_turn_zero (hne : i ≠ j) :
    (a.turn 0 nTargetValue nValue i).vfIncluded[j]? = a.vfIncluded[j]? := by
  unfold Approx.turn
  rw [if_pos rfl]
  split_ifs
  · exact vfIncluded_takeIn hne
  · rfl

/-- A turn of the second pass, which looks at the flag. -/
theorem Good.turn_one (hg : a.Good vValue nTargetValue) (hcoin : vValue[i]? = some coin) :
    (a.turn 1 nTargetValue coin.1 i).Good vValue nTargetValue := by
  unfold Approx.turn
  rw [if_neg one_ne_zero]
  split_ifs with hi
  · exact hg.takeIn hi hcoin
  · exact hg

/-- **The first pass**, over the coins from `i` on, none of which is in. -/
theorem Good.pass_zero (hv : vValue = pre ++ rest) (hg : a.Good vValue nTargetValue)
    (hnone : ∀ j, pre.length ≤ j → j < vValue.length → a.vfIncluded[j]? = some false) :
    (a.pass 0 nTargetValue pre.length rest).Good vValue nTargetValue := by
  induction rest generalizing a pre with
  | nil => exact hg
  | cons coin rest ih =>
    have hlt : pre.length < vValue.length := by
      rw [hv, List.length_append, List.length_cons]
      omega
    have hcoin : vValue[pre.length]? = some coin := by
      rw [hv, List.getElem?_append_right le_rfl, Nat.sub_self, List.getElem?_cons_zero]
    have hstep := hg.turn_zero (hnone _ le_rfl hlt) hcoin
    have hlen : (pre ++ [coin]).length = pre.length + 1 := by simp
    rw [Approx.pass, ← hlen]
    refine ih (by rw [hv, List.append_assoc, List.singleton_append]) hstep fun j hle hj => ?_
    rw [hlen] at hle
    rw [vfIncluded_turn_zero (by omega)]
    exact hnone j (by omega) hj

/-- **The second pass.** -/
theorem Good.pass_one (hv : vValue = pre ++ rest) (hg : a.Good vValue nTargetValue) :
    (a.pass 1 nTargetValue pre.length rest).Good vValue nTargetValue := by
  induction rest generalizing a pre with
  | nil => exact hg
  | cons coin rest ih =>
    have hcoin : vValue[pre.length]? = some coin := by
      rw [hv, List.getElem?_append_right le_rfl, Nat.sub_self, List.getElem?_cons_zero]
    have hlen : (pre ++ [coin]).length = pre.length + 1 := by simp
    rw [Approx.pass, ← hlen]
    exact ih (by rw [hv, List.append_assoc, List.singleton_append]) (hg.turn_one hcoin)

/-- **A repetition keeps the best subset a subset** with its true value. -/
theorem Best.repeatOnce (hb : a.Best vValue nTargetValue) :
    (a.repeatOnce vValue nTargetValue).Best vValue nTargetValue := by
  unfold Approx.repeatOnce
  dsimp only
  set a₀ : Approx := { a with
    nTotal := 0
    vfIncluded := List.replicate vValue.length false
    fReachedTarget := false } with ha₀
  have hg₀ : a₀.Good vValue nTargetValue := by
    refine ⟨⟨hb.length_eq, hb.nBest, hb.le⟩, List.length_replicate, ?_⟩
    show (0 : ℤ) = worth (picked (List.replicate vValue.length false) vValue)
    rw [picked_replicate_false]
    rfl
  have hg₁ : (a₀.pass 0 nTargetValue 0 vValue).Good vValue nTargetValue :=
    Good.pass_zero (List.nil_append vValue).symm hg₀ fun j _ hj => by
      rw [ha₀]
      simp [hj]
  split_ifs
  · exact hg₁.toBest
  · exact (Good.pass_one (List.nil_append vValue).symm hg₁).toBest

theorem Best.loop (hb : a.Best vValue nTargetValue) :
    (Approx.loop vValue nTargetValue n a).Best vValue nTargetValue := by
  induction n generalizing a with
  | zero => exact hb
  | succ n ih =>
    unfold Approx.loop
    split_ifs
    · exact hb
    · exact ih hb.repeatOnce

end Approx

/-- **`ApproximateBestSubset` gives a subset that reaches its target**, with
its value, where all the coins do. -/
theorem best_approximateBestSubset (n : ℕ) (rand : ℕ → Bool) (hv : nTotalLower = worth vValue)
    (hle : nTargetValue ≤ nTotalLower) :
    (approximateBestSubset vValue nTotalLower nTargetValue n rand).Best vValue nTargetValue := by
  refine Approx.Best.loop ⟨List.length_replicate, ?_, hle⟩
  show nTotalLower = worth (picked (List.replicate vValue.length true) vValue)
  rw [picked_replicate_true, hv]

/-! ## The scan -/

variable {eligible l : List COutput} {s : CoinScan} {fEligible : COutput → Bool} {o : COutput}

/-- What the subset sum is given of a coin. -/
def COutput.valued (output : COutput) : ℤ × Coin := (output.nValue, output.coin)

/-- What these coins are worth together. -/
def totalValue (l : List COutput) : ℤ := (l.map COutput.nValue).sum

/-- The coins below the target and a cent. -/
def smallCoins (nTargetValue : ℤ) (l : List COutput) : List COutput :=
  l.filter fun o => o.nValue < nTargetValue + cent

theorem worth_valued : worth (l.map COutput.valued) = totalValue l := by
  unfold worth totalValue
  rw [List.map_map]
  rfl

/-- What the scan knows of the eligible coins it has seen. -/
structure CoinScan.Covers (nTargetValue : ℤ) (eligible : List COutput) (s : CoinScan) : Prop where
  vValue : s.vValue = (smallCoins nTargetValue eligible).map COutput.valued
  nTotalLower : s.nTotalLower = totalValue (smallCoins nTargetValue eligible)
  ne : ∀ o ∈ eligible, o.nValue ≠ nTargetValue
  larger : (s.coinLowestLarger = (int64Max, none) ∧
      ∀ o ∈ eligible, o.nValue < nTargetValue + cent) ∨
    ∃ o ∈ eligible, nTargetValue + cent ≤ o.nValue ∧
      s.coinLowestLarger = (o.nValue, some o.coin)

/-- A small coin is noted among the small ones. -/
theorem CoinScan.Covers.small (hc : s.Covers nTargetValue eligible) (hne : o.nValue ≠ nTargetValue)
    (hlt : o.nValue < nTargetValue + cent) :
    CoinScan.Covers nTargetValue (eligible ++ [o]) { s with
      vValue := s.vValue ++ [(o.nValue, o.coin)]
      nTotalLower := s.nTotalLower + o.nValue } := by
  have hsmall : smallCoins nTargetValue (eligible ++ [o]) =
      smallCoins nTargetValue eligible ++ [o] := by
    simp [smallCoins, hlt]
  refine ⟨?_, ?_, ?_, ?_⟩
  · rw [hsmall, List.map_append, hc.vValue]
    rfl
  · rw [hsmall, hc.nTotalLower]
    simp [totalValue]
  · intro p hp
    rcases List.mem_append.1 hp with hp | hp
    · exact hc.ne p hp
    · rwa [List.mem_singleton.1 hp]
  · refine hc.larger.imp (fun h => ⟨h.1, fun p hp => ?_⟩) ?_
    · rcases List.mem_append.1 hp with hp | hp
      · exact h.2 p hp
      · rwa [List.mem_singleton.1 hp]
    · rintro ⟨p, hp, h⟩
      exact ⟨p, List.mem_append_left _ hp, h⟩

/-- A large coin is noted where it is the smallest. -/
theorem CoinScan.Covers.large (hc : s.Covers nTargetValue eligible)
    (hge : nTargetValue + cent ≤ o.nValue) (hmax : o.nValue < int64Max) :
    CoinScan.Covers nTargetValue (eligible ++ [o])
      (if o.nValue < s.coinLowestLarger.1 then
        { s with coinLowestLarger := (o.nValue, some o.coin) } else s) := by
  have hcent : (0 : ℤ) < cent := by decide
  have hsmall : smallCoins nTargetValue (eligible ++ [o]) = smallCoins nTargetValue eligible := by
    simp [smallCoins, hge]
  have hne : ∀ p ∈ eligible ++ [o], p.nValue ≠ nTargetValue := by
    intro p hp
    rcases List.mem_append.1 hp with hp | hp
    · exact hc.ne p hp
    · rw [List.mem_singleton.1 hp]
      omega
  split_ifs with hlt
  · exact ⟨by rw [hsmall]; exact hc.vValue, by rw [hsmall]; exact hc.nTotalLower, hne,
      .inr ⟨o, by simp, hge, rfl⟩⟩
  · refine ⟨by rw [hsmall]; exact hc.vValue, by rw [hsmall]; exact hc.nTotalLower, hne, .inr ?_⟩
    rcases hc.larger with ⟨hnone, -⟩ | ⟨p, hp, h⟩
    · -- any coin is below the value the scan starts from
      rw [hnone] at hlt
      exact absurd hmax hlt
    · exact ⟨p, List.mem_append_left _ hp, h⟩

/-- **The scan** finds an eligible coin worth just the target, or has seen
them all. -/
theorem scanCoins_spec (fEligible : COutput → Bool) (hc : s.Covers nTargetValue eligible)
    (hmax : ∀ o ∈ l, o.nValue < int64Max) :
    (∃ o ∈ l.filter fEligible, o.nValue = nTargetValue ∧
      scanCoins fEligible nTargetValue l s = .inl o) ∨
    ∃ s' : CoinScan, scanCoins fEligible nTargetValue l s = .inr s' ∧
      s'.Covers nTargetValue (eligible ++ l.filter fEligible) := by
  induction l generalizing s eligible with
  | nil => exact .inr ⟨s, rfl, by rwa [List.filter_nil, List.append_nil]⟩
  | cons o l ih =>
    have hmax' : ∀ o ∈ l, o.nValue < int64Max := fun p hp => hmax p (List.mem_cons_of_mem _ hp)
    unfold scanCoins
    by_cases he : fEligible o = true
    swap
    · rw [List.filter_cons_of_neg he, if_pos (by simp [he])]
      exact ih hc hmax'
    rw [List.filter_cons_of_pos he, if_neg (by simp [he])]
    -- an eligible coin is seen, and the rest is scanned
    have hrest : ∀ s' : CoinScan, s'.Covers nTargetValue (eligible ++ [o]) →
        (∃ p ∈ o :: l.filter fEligible, p.nValue = nTargetValue ∧
          scanCoins fEligible nTargetValue l s' = .inl p) ∨
        ∃ s'' : CoinScan, scanCoins fEligible nTargetValue l s' = .inr s'' ∧
          s''.Covers nTargetValue (eligible ++ o :: l.filter fEligible) := by
      intro s' hc'
      rcases ih hc' hmax' with ⟨p, hp, h⟩ | ⟨s'', hs, h⟩
      · exact .inl ⟨p, List.mem_cons_of_mem _ hp, h⟩
      · refine .inr ⟨s'', hs, ?_⟩
        rwa [List.append_assoc, List.singleton_append] at h
    dsimp only
    by_cases heq : o.nValue = nTargetValue
    · rw [if_pos heq]
      exact .inl ⟨o, List.mem_cons_self, heq, rfl⟩
    rw [if_neg heq]
    by_cases hlt : o.nValue < nTargetValue + cent
    · rw [if_pos hlt]
      exact hrest _ (hc.small heq hlt)
    · rw [if_neg hlt]
      have hlarge := hc.large (not_lt.1 hlt) (hmax o List.mem_cons_self)
      split_ifs at hlarge ⊢
      · exact hrest _ hlarge
      · exact hrest _ hlarge

/-! ## What is selected -/

/-- Inserting coins one by one adds up their values. -/
theorem foldl_insert {l : List (ℤ × Coin)} {r : SelectedCoins} :
    l.foldl SelectedCoins.insert r = (r.1 ∪ (l.map Prod.snd).toFinset, r.2 + worth l) := by
  induction l generalizing r with
  | nil => simp [worth]
  | cons coin l ih =>
    rw [List.foldl_cons, ih, worth_cons]
    unfold SelectedCoins.insert
    ext1
    · simp [Finset.insert_union]
    · show r.2 + coin.1 + worth l = r.2 + (coin.1 + worth l)
      ring

/-- Some of these coins, each once, with their value. -/
structure SelectedFrom (eligible : List COutput) (r : SelectedCoins) : Prop where
  mem : ∀ coin ∈ r.1, ∃ o ∈ eligible, o.coin = coin
  nValueRet : r.2 = ∑ coin ∈ r.1, coin.txout.nValue

/-- **Distinct coins**, inserted one by one. -/
theorem selectedFrom_foldl {l : List (ℤ × Coin)} (hnodup : (l.map Prod.snd).Nodup)
    (hmem : ∀ coin ∈ l, ∃ o ∈ eligible, o.valued = coin) :
    SelectedFrom eligible (l.foldl SelectedCoins.insert (∅, 0)) ∧
      (l.foldl SelectedCoins.insert (∅, 0)).2 = worth l := by
  have hfold : l.foldl SelectedCoins.insert (∅, 0) = ((l.map Prod.snd).toFinset, worth l) := by
    rw [foldl_insert, Finset.empty_union, zero_add]
  rw [hfold]
  refine ⟨⟨fun coin hcoin => ?_, ?_⟩, rfl⟩
  · obtain ⟨⟨n, c⟩, hc, rfl⟩ := List.mem_map.1 (List.mem_toFinset.1 hcoin)
    obtain ⟨o, ho, heq⟩ := hmem _ hc
    exact ⟨o, ho, congrArg Prod.snd heq⟩
  · show worth l = ∑ coin ∈ (l.map Prod.snd).toFinset, coin.txout.nValue
    rw [List.sum_toFinset _ hnodup, List.map_map, worth]
    refine congrArg List.sum (List.map_congr_left fun coin hcoin => ?_)
    obtain ⟨o, -, rfl⟩ := hmem coin hcoin
    rfl

/-- A selection from these coins that reaches the target, and goes past it
by less than a cent only for want of anything else: a single coin that is
large enough, or small ones that together are. -/
structure SoundSelection (eligible : List COutput) (nTargetValue : ℤ) (r : SelectedCoins) : Prop
    extends SelectedFrom eligible r where
  le : nTargetValue ≤ r.2
  near : nTargetValue < r.2 → r.2 < nTargetValue + cent →
    (∀ o ∈ eligible, o.nValue < nTargetValue + cent) ∧
      totalValue (smallCoins nTargetValue eligible) < nTargetValue + cent

/-- One coin. -/
theorem soundSelection_single (ho : o ∈ eligible)
    (h : o.nValue = nTargetValue ∨ nTargetValue + cent ≤ o.nValue) :
    SoundSelection eligible nTargetValue (SelectedCoins.insert (∅, 0) (o.nValue, o.coin)) := by
  have hcent : (0 : ℤ) < cent := by decide
  have hmem : ∀ coin ∈ [o.valued], ∃ p ∈ eligible, p.valued = coin := fun coin hcoin =>
    ⟨o, ho, (List.mem_singleton.1 hcoin).symm⟩
  have hnodup : ([o.valued].map Prod.snd).Nodup := List.nodup_singleton _
  obtain ⟨hfrom, hvalue⟩ := selectedFrom_foldl hnodup hmem
  have hworth : worth [o.valued] = o.nValue := by
    simp [worth, COutput.valued]
  rw [hworth] at hvalue
  have hvalue' : (SelectedCoins.insert (∅, 0) (o.nValue, o.coin)).2 = o.nValue := hvalue
  refine ⟨hfrom, ?_, fun hlt hgt => ?_⟩ <;> rw [hvalue'] at * <;> omega

/-- Distinct coins of the eligible ones. -/
theorem soundSelection_foldl {l : List (ℤ × Coin)} (hnodup : (l.map Prod.snd).Nodup)
    (hmem : ∀ coin ∈ l, ∃ o ∈ eligible, o.valued = coin) (hle : nTargetValue ≤ worth l)
    (hnear : nTargetValue < worth l → worth l < nTargetValue + cent →
      (∀ o ∈ eligible, o.nValue < nTargetValue + cent) ∧
        totalValue (smallCoins nTargetValue eligible) < nTargetValue + cent) :
    SoundSelection eligible nTargetValue (l.foldl SelectedCoins.insert (∅, 0)) := by
  obtain ⟨hfrom, hvalue⟩ := selectedFrom_foldl hnodup hmem
  exact ⟨hfrom, by rwa [hvalue], by rwa [hvalue]⟩

theorem nValue_le_totalValue (hpos : ∀ o ∈ l, 0 < o.nValue) (ho : o ∈ l) :
    o.nValue ≤ totalValue l := by
  refine List.single_le_sum (fun n hn => ?_) _ (List.mem_map_of_mem ho)
  obtain ⟨p, hp, rfl⟩ := List.mem_map.1 hn
  exact (hpos p hp).le

theorem totalValue_smallCoins_le (nTargetValue : ℤ) (hpos : ∀ o ∈ l, 0 < o.nValue) :
    totalValue (smallCoins nTargetValue l) ≤ totalValue l := by
  refine List.Sublist.sum_le_sum (List.filter_sublist.map _) fun n hn => ?_
  obtain ⟨p, hp, rfl⟩ := List.mem_map.1 hn
  exact (hpos p hp).le

/-- Where no coin is large, all are small. -/
theorem smallCoins_eq_self (h : ∀ o ∈ l, o.nValue < nTargetValue + cent) :
    smallCoins nTargetValue l = l :=
  List.filter_eq_self.2 fun o ho => decide_eq_true (h o ho)

/-! ## The random passes -/

/-- **The subset the random passes end with** has its value, reaches the
target, and goes past it by less than a cent only where the small coins
do. -/
theorem approximateTargets_spec (rand : ℕ → Bool) (hv : nTotalLower = worth vValue)
    (hle : nTargetValue ≤ nTotalLower) :
    (approximateTargets vValue nTotalLower nTargetValue rand).nBest =
        worth (picked (approximateTargets vValue nTotalLower nTargetValue rand).vfBest vValue) ∧
      nTargetValue ≤ (approximateTargets vValue nTotalLower nTargetValue rand).nBest ∧
      (nTargetValue < (approximateTargets vValue nTotalLower nTargetValue rand).nBest →
        (approximateTargets vValue nTotalLower nTargetValue rand).nBest < nTargetValue + cent →
          nTotalLower < nTargetValue + cent) := by
  have hcent : (0 : ℤ) < cent := by decide
  have hb := best_approximateBestSubset 1000 rand hv hle
  unfold approximateTargets
  dsimp only
  split_ifs with hagain
  · have hb' := best_approximateBestSubset 1000
      (approximateBestSubset vValue nTotalLower nTargetValue 1000 rand).rand hv hagain.2
    have hle' := hb'.le
    exact ⟨hb'.nBest, by omega, fun _ hlt => by omega⟩
  · refine ⟨hb.nBest, hb.le, fun hgt _ => ?_⟩
    by_contra hnot
    exact hagain ⟨by omega, by omega⟩

/-! ## The selection -/

section

variable (chance : Chance) (isFromMe : CWalletTx → Bool) (nSpendTime : ℕ)
variable (nConfMine nConfTheirs : ℤ)

/-- What the selection makes of a scan that saw all eligible coins. -/
theorem selectCoinsMinConf_of_scan {vCoins : List COutput}
    (hpos : ∀ o ∈ eligible, 0 < o.nValue) (hnodup : (eligible.map COutput.coin).Nodup)
    (hscan : scanCoins (COutput.isEligible isFromMe nSpendTime nConfMine nConfTheirs) nTargetValue
      (chance.shuffle vCoins)
      { coinLowestLarger := (int64Max, none), vValue := [], nTotalLower := 0 } = .inr s) (hc : s.Covers nTargetValue eligible) :
    ((selectCoinsMinConf chance isFromMe nTargetValue nSpendTime nConfMine nConfTheirs
        vCoins).isSome ↔ nTargetValue ≤ totalValue eligible) ∧
      ∀ r, selectCoinsMinConf chance isFromMe nTargetValue nSpendTime nConfMine nConfTheirs vCoins =
        some r → SoundSelection eligible nTargetValue r := by
  have hcent : (0 : ℤ) < cent := by decide
  have hsmall := totalValue_smallCoins_le nTargetValue hpos
  have hlower := hc.nTotalLower
  have hv : s.nTotalLower = worth s.vValue := by
    rw [hc.vValue, worth_valued, hlower]
  -- coins to insert are distinct coins of the eligible ones
  have hcoins : ∀ {l : List (ℤ × Coin)}, l.Subperm s.vValue → (l.map Prod.snd).Nodup ∧
      ∀ coin ∈ l, ∃ o ∈ eligible, o.valued = coin := by
    intro l hl
    constructor
    · have hall : (s.vValue.map Prod.snd).Nodup := by
        rw [hc.vValue, List.map_map]
        exact hnodup.sublist (List.filter_sublist.map _)
      obtain ⟨l', hperm, hsub⟩ := hl
      exact (hperm.map Prod.snd).nodup_iff.1 (hall.sublist (hsub.map Prod.snd))
    · intro coin hcoin
      have hmem := hl.subset hcoin
      rw [hc.vValue] at hmem
      obtain ⟨o, ho, rfl⟩ := List.mem_map.1 hmem
      exact ⟨o, List.mem_of_mem_filter ho, rfl⟩
  unfold selectCoinsMinConf
  rw [hscan]
  dsimp only
  by_cases heq : s.nTotalLower = nTargetValue
  · -- all the small coins
    rw [if_pos heq]
    refine ⟨by simp; omega, fun r hr => ?_⟩
    obtain rfl := Option.some.inj hr
    obtain ⟨hnd, hmem⟩ := hcoins (List.Subperm.refl s.vValue)
    exact soundSelection_foldl hnd hmem (by omega) (by omega)
  rw [if_neg heq]
  by_cases hlt : s.nTotalLower < nTargetValue
  · rw [if_pos hlt]
    rcases hc.larger with ⟨hnone, hall⟩ | ⟨o, ho, hge, hsome⟩
    · -- nothing but small coins, and they do not suffice
      rw [hnone]
      rw [smallCoins_eq_self hall] at hlower
      exact ⟨by simp; omega, fun r hr => absurd hr (by simp)⟩
    · -- the smallest of the large coins
      rw [hsome]
      have hle := nValue_le_totalValue hpos ho
      refine ⟨by simp; omega, fun r hr => ?_⟩
      obtain rfl := Option.some.inj hr
      exact soundSelection_single ho (.inr hge)
  rw [if_neg hlt]
  -- the subset sum
  have hworth : s.nTotalLower = worth (chance.sort s.vValue) := by
    rw [hv, worth_perm (chance.sort_perm s.vValue)]
  obtain ⟨hbest, hle, hnear⟩ := approximateTargets_spec chance.rand hworth (not_lt.1 hlt)
  set a := approximateTargets (chance.sort s.vValue) s.nTotalLower nTargetValue chance.rand
  have hpicked : (picked a.vfBest (chance.sort s.vValue)).Subperm s.vValue :=
    (picked_sublist.subperm).trans (chance.sort_perm s.vValue).subperm
  obtain ⟨hnd, hmem⟩ := hcoins hpicked
  rcases hc.larger with ⟨hnone, hall⟩ | ⟨o, ho, hge, hsome⟩
  · rw [hnone]
    refine ⟨by simp; omega, fun r hr => ?_⟩
    obtain rfl := Option.some.inj hr
    refine soundSelection_foldl hnd hmem (by omega) fun hgt hlt => ⟨hall, ?_⟩
    rw [← hbest] at hgt hlt
    have := hnear hgt hlt
    omega
  · rw [hsome]
    dsimp only
    have hole := nValue_le_totalValue hpos ho
    by_cases hlarge : (a.nBest ≠ nTargetValue ∧ a.nBest < nTargetValue + cent) ∨ o.nValue ≤ a.nBest
    · -- the large coin is the better choice
      rw [if_pos hlarge]
      refine ⟨by simp; omega, fun r hr => ?_⟩
      obtain rfl := Option.some.inj hr
      exact soundSelection_single ho (.inr hge)
    · rw [if_neg hlarge]
      refine ⟨by simp; omega, fun r hr => ?_⟩
      obtain rfl := Option.some.inj hr
      exact soundSelection_foldl hnd hmem (by omega) fun hgt hlt => absurd hlarge (by
        rw [not_not, hbest]
        exact .inl ⟨by omega, hlt⟩)

/-- **Coin selection is sound and nearly complete**, whatever chance
decides: it succeeds exactly where the eligible coins suffice, and then it
gives distinct eligible coins with their value, which is at least the
target, and past it by less than a cent only for want of anything else.
Coins whose values and target fit into an `int64` together are each worth
less than the largest one, from which the scan starts. -/
theorem selectCoinsMinConf_spec (nTargetValue : ℤ) (vCoins : List COutput)
    (hpos : ∀ o ∈ vCoins, 0 < o.nValue) (hmax : ∀ o ∈ vCoins, o.nValue < int64Max)
    (hnodup : (vCoins.map COutput.coin).Nodup) :
    let eligible := vCoins.filter (COutput.isEligible isFromMe nSpendTime nConfMine nConfTheirs)
    ((selectCoinsMinConf chance isFromMe nTargetValue nSpendTime nConfMine nConfTheirs
        vCoins).isSome ↔ nTargetValue ≤ totalValue eligible) ∧
      ∀ r, selectCoinsMinConf chance isFromMe nTargetValue nSpendTime nConfMine nConfTheirs vCoins =
        some r → SoundSelection eligible nTargetValue r := by
  intro eligible
  set fEligible := COutput.isEligible isFromMe nSpendTime nConfMine nConfTheirs with hf
  have hperm := chance.shuffle_perm vCoins
  -- the shuffled coins have the same eligible ones, in another order
  have hperm' : ((chance.shuffle vCoins).filter fEligible).Perm eligible := hperm.filter fEligible
  have hmem : ∀ {o}, o ∈ (chance.shuffle vCoins).filter fEligible ↔ o ∈ eligible := hperm'.mem_iff
  have htotal : totalValue ((chance.shuffle vCoins).filter fEligible) = totalValue eligible :=
    (hperm'.map _).sum_eq
  have hpos' : ∀ o ∈ eligible, 0 < o.nValue := fun o ho => hpos o (List.mem_of_mem_filter ho)
  have hstart : CoinScan.Covers nTargetValue []
      { coinLowestLarger := (int64Max, none), vValue := [], nTotalLower := 0 } :=
    ⟨rfl, rfl, by simp, .inl ⟨rfl, by simp⟩⟩
  rcases scanCoins_spec fEligible hstart
    (fun o ho => hmax o (hperm.mem_iff.1 ho)) with ⟨o, ho, heq, hscan⟩ | ⟨s, hscan, hc⟩
  · have hle := nValue_le_totalValue hpos' (hmem.1 ho)
    have hselect : selectCoinsMinConf chance isFromMe nTargetValue nSpendTime nConfMine nConfTheirs
        vCoins = some (SelectedCoins.insert (∅, 0) (o.nValue, o.coin)) := by
      unfold selectCoinsMinConf
      rw [hscan]
    rw [hselect]
    refine ⟨by simp; omega, fun r hr => ?_⟩
    obtain rfl := Option.some.inj hr
    exact soundSelection_single (hmem.1 ho) (.inl heq)
  · rw [List.nil_append] at hc
    have hnodup' : (((chance.shuffle vCoins).filter fEligible).map COutput.coin).Nodup :=
      ((hperm.map _).nodup_iff.2 hnodup).sublist (List.filter_sublist.map _)
    obtain ⟨hiff, hsound⟩ := selectCoinsMinConf_of_scan chance isFromMe nSpendTime nConfMine
      nConfTheirs (fun o ho => hpos' o (hmem.1 ho)) hnodup' hscan hc
    rw [htotal] at hiff
    refine ⟨hiff, fun r hr => ?_⟩
    have hr' := hsound r hr
    refine ⟨⟨fun coin hcoin => ?_, hr'.nValueRet⟩, hr'.le, fun hgt hlt => ?_⟩
    · obtain ⟨o, ho, h⟩ := hr'.mem coin hcoin
      exact ⟨o, hmem.1 ho, h⟩
    · obtain ⟨hall, htot⟩ := hr'.near hgt hlt
      have hsmall : totalValue (smallCoins nTargetValue eligible) =
          totalValue (smallCoins nTargetValue ((chance.shuffle vCoins).filter fEligible)) :=
        (((hperm'.filter _).map _).sum_eq).symm
      exact ⟨fun o ho => hall o (hmem.2 ho), by rwa [hsmall]⟩

end

/-! ## One coin -/

namespace OneCoin

/-- Nothing is shuffled, and every coin comes up. -/
def chance : Chance where
  shuffle := id
  shuffle_perm := List.Perm.refl
  sort l := l.mergeSort fun a b => b.1 ≤ a.1
  sort_perm l := List.mergeSort_perm l _
  sort_sorted l := by
    have hsorted : (l.mergeSort fun a b => b.1 ≤ a.1).Pairwise fun a b => decide (b.1 ≤ a.1) :=
      List.pairwise_mergeSort (fun a b c hab hbc => by simp at *; omega) (fun a b => by simp; omega) l
    exact hsorted.imp fun h => of_decide_eq_true h
  rand _ := true

def wtx : CWalletTx where
  tx :=
    { nVersion := 1
      nTime := 1372352060
      vin := [{ prevout := ⟨5, 0⟩, scriptSig := [], nSequence := uintMax }]
      vout := [⟨3 * cent, [81]⟩]
      nLockTime := 0 }
  hashBlock := 0
  vMerkleBranch := []
  nIndex := 0
  fFromMe := false
  vfSpent := []

/-- Three cents, ten blocks deep. -/
def output : COutput := ⟨wtx, 0, 10, true⟩

end OneCoin

/-- Three cents pay one. -/
theorem selectCoinsMinConf_oneCoin :
    ∃ r, selectCoinsMinConf OneCoin.chance (fun _ => false) cent 1372352070 1 6 [OneCoin.output] =
      some r ∧ SoundSelection [OneCoin.output] cent r := by
  obtain ⟨hiff, hsound⟩ := selectCoinsMinConf_spec OneCoin.chance (fun _ => false) 1372352070 1 6
    cent [OneCoin.output] (by decide) (by decide) (by simp)
  obtain ⟨r, hr⟩ := Option.isSome_iff_exists.1 (hiff.2 (by decide))
  exact ⟨r, hr, hsound r hr⟩

end CryptoBullion
