import CryptoBullion.Model.Received
import CryptoBullion.Scripts.Solver
/-!
# The received amounts agree

Behind all four calls is one list, of the outputs of the transactions that
count. The two lists and `getreceivedbyaccount` add up the values in it by
the destination, and agree for every wallet. `getreceivedbyaddress` adds up
by the script: it misses what pays to the address in another form, and
everything if the script is not ours where the address is.
-/

namespace CryptoBullion

namespace Accounting

namespace Received

variable [P : Platform]

section
variable {w : CWallet} {chain : WalletChain} {nMinDepth : ℤ} {fIncludeEmpty : Bool}

/-! ## The outputs that count -/

/-- **The outputs that count**: of final transactions that are deep enough
and not generated. -/
def counted (w : CWallet) (chain : WalletChain) (nMinDepth : ℤ) : List CTxOut :=
  (w.txs.filter fun wtx =>
    !passedOver chain wtx && nMinDepth ≤ wtx.getDepthInMainChain chain).flatMap (·.tx.vout)

/-- What outputs are worth. -/
def total (outs : List CTxOut) : ℤ := (outs.map (·.nValue)).sum

/-- **The outputs that count for an address of ours**. -/
def paid (w : CWallet) (chain : WalletChain) (nMinDepth : ℤ) (address : CTxDestination) :
    List CTxOut :=
  (counted w chain nMinDepth).filter fun txout => ourDestination w txout = some address

theorem total_nil : total [] = 0 := rfl

theorem total_cons (txout : CTxOut) (outs : List CTxOut) :
    total (txout :: outs) = txout.nValue + total outs := by
  unfold total
  rw [List.map_cons, List.sum_cons]

theorem total_append (outs outs' : List CTxOut) :
    total (outs ++ outs') = total outs + total outs' := by
  unfold total
  rw [List.map_append, List.sum_append]

/-- What is worth something is in one of two parts. -/
theorem total_filter_add (p : CTxOut → Bool) (outs : List CTxOut) :
    total (outs.filter p) + total (outs.filter fun txout => !p txout) = total outs := by
  induction outs with
  | nil => rfl
  | cons txout outs ih =>
    by_cases hp : p txout = true
    · rw [List.filter_cons_of_pos hp, List.filter_cons_of_neg (by simp [hp]), total_cons,
        total_cons]
      omega
    · rw [List.filter_cons_of_neg hp, List.filter_cons_of_pos (by simp [hp]), total_cons,
        total_cons]
      omega

/-! ## The loops that add up -/

/-- The loop over the outputs of a transaction. -/
theorem foldl_outs (p : CTxOut → Prop) [DecidablePred p] (deep : Prop) [Decidable deep]
    (outs : List CTxOut) (nAmount : ℤ) :
    outs.foldl (fun nAmount txout =>
      if p txout then if deep then nAmount + txout.nValue else nAmount else nAmount) nAmount =
        nAmount + if deep then total (outs.filter fun txout => p txout) else 0 := by
  induction outs generalizing nAmount with
  | nil => simp [total_nil]
  | cons txout outs ih =>
    rw [List.foldl_cons, ih]
    by_cases hp : p txout
    · rw [List.filter_cons_of_pos (by simpa using hp), total_cons]
      split_ifs <;> omega
    · rw [List.filter_cons_of_neg (by simpa using hp)]
      simp only [hp, if_false]

/-- **A loop that adds up** has the total of the outputs that count and are
let through. -/
theorem foldl_txs (p : CTxOut → Prop) [DecidablePred p] :
    w.txs.foldl (fun nAmount wtx =>
      if passedOver chain wtx then nAmount
      else wtx.tx.vout.foldl (fun nAmount txout =>
        if p txout then
          if nMinDepth ≤ wtx.getDepthInMainChain chain then nAmount + txout.nValue else nAmount
        else nAmount) nAmount) 0 =
      total ((counted w chain nMinDepth).filter fun txout => p txout) := by
  unfold counted
  have hrun : ∀ (txs : List CWalletTx) (nAmount : ℤ),
      txs.foldl (fun nAmount wtx =>
        if passedOver chain wtx then nAmount
        else wtx.tx.vout.foldl (fun nAmount txout =>
          if p txout then
            if nMinDepth ≤ wtx.getDepthInMainChain chain then nAmount + txout.nValue else nAmount
          else nAmount) nAmount) nAmount =
        nAmount + total (((txs.filter fun wtx => !passedOver chain wtx &&
          nMinDepth ≤ wtx.getDepthInMainChain chain).flatMap (·.tx.vout)).filter
            fun txout => p txout) := by
    intro txs
    induction txs with
    | nil => simp [total_nil]
    | cons wtx txs ih =>
      intro nAmount
      rw [List.foldl_cons, ih, foldl_outs]
      by_cases hskip : passedOver chain wtx = true
      · rw [if_pos hskip, List.filter_cons_of_neg (by simp [hskip])]
      · rw [if_neg hskip]
        by_cases hdeep : nMinDepth ≤ wtx.getDepthInMainChain chain
        · rw [if_pos hdeep, List.filter_cons_of_pos (by simp [hskip, hdeep]), List.flatMap_cons,
            List.filter_append, total_append]
          omega
        · rw [if_neg hdeep, List.filter_cons_of_neg (by simp [hdeep])]
          omega
  rw [hrun, zero_add]

/-! ## The tally -/

/-- The amount that a tally has for a key. -/
def amountOf {κ : Type} (m : κ → Option TallyItem) (k : κ) : ℤ := ((m k).getD {}).nAmount

/-- **One output** is added where it belongs, and nowhere else. -/
theorem amountOf_tallyOut (wtx : CWalletTx) (nDepth : ℤ) (m : CTxDestination → Option TallyItem)
    (txout : CTxOut) (address : CTxDestination) :
    amountOf (tallyOut w wtx nDepth m txout) address =
      amountOf m address + if ourDestination w txout = some address then txout.nValue else 0 := by
  unfold tallyOut amountOf
  rcases hdest : ourDestination w txout with _ | address'
  · simp
  · simp only [Option.some.injEq]
    by_cases heq : address' = address
    · subst heq
      simp [Function.update_self]
    · rw [Function.update_of_ne (Ne.symm heq), if_neg heq, add_zero]

/-- The outputs of a transaction. -/
theorem amountOf_foldl_tallyOut (wtx : CWalletTx) (nDepth : ℤ) (address : CTxDestination)
    (outs : List CTxOut) (m : CTxDestination → Option TallyItem) :
    amountOf (outs.foldl (tallyOut w wtx nDepth) m) address = amountOf m address +
      total (outs.filter fun txout => ourDestination w txout = some address) := by
  induction outs generalizing m with
  | nil => simp [total_nil]
  | cons txout outs ih =>
    rw [List.foldl_cons, ih, amountOf_tallyOut]
    by_cases hp : ourDestination w txout = some address
    · rw [if_pos hp, List.filter_cons_of_pos (by simpa using hp), total_cons]
      omega
    · rw [if_neg hp, List.filter_cons_of_neg (by simpa using hp)]
      omega

/-- **The tally has what is paid to an address.** -/
theorem amountOf_mapTally (address : CTxDestination) :
    amountOf (mapTally w chain nMinDepth) address = total (paid w chain nMinDepth address) := by
  unfold mapTally paid counted
  have hrun : ∀ (txs : List CWalletTx) (m : CTxDestination → Option TallyItem),
      amountOf (txs.foldl (fun m wtx =>
        if passedOver chain wtx then m
        else if wtx.getDepthInMainChain chain < nMinDepth then m
        else wtx.tx.vout.foldl (tallyOut w wtx (wtx.getDepthInMainChain chain)) m) m) address =
        amountOf m address + total (((txs.filter fun wtx => !passedOver chain wtx &&
          nMinDepth ≤ wtx.getDepthInMainChain chain).flatMap (·.tx.vout)).filter
            fun txout => ourDestination w txout = some address) := by
    intro txs
    induction txs with
    | nil => simp [total_nil]
    | cons wtx txs ih =>
      intro m
      rw [List.foldl_cons, ih]
      by_cases hskip : passedOver chain wtx = true
      · rw [if_pos hskip, List.filter_cons_of_neg (by simp [hskip])]
      · rw [if_neg hskip]
        by_cases hdeep : wtx.getDepthInMainChain chain < nMinDepth
        · rw [if_pos hdeep, List.filter_cons_of_neg (by simp [not_le.2 hdeep])]
        · rw [if_neg hdeep, List.filter_cons_of_pos (by simp [hskip, not_lt.1 hdeep]),
            List.flatMap_cons, List.filter_append, total_append, amountOf_foldl_tallyOut]
          omega
  rw [hrun]
  show (0 : ℤ) + _ = _
  rw [zero_add]

/-- **What is reported of an entry** of the address book. -/
theorem mem_reported {r : CTxDestination × String × TallyItem}
    (h : r ∈ reported w chain nMinDepth fIncludeEmpty) :
    (r.1, r.2.1) ∈ w.mapAddressBook ∧ r.2.2.nAmount = total (paid w chain nMinDepth r.1) := by
  unfold reported at h
  obtain ⟨item, hitem, h⟩ := List.mem_filterMap.1 h
  rw [← amountOf_mapTally, amountOf]
  rcases htally : mapTally w chain nMinDepth item.1 with _ | tally
  · rw [htally] at h
    cases fIncludeEmpty with
    | false => simp at h
    | true =>
      obtain rfl : (item.1, item.2, {}) = r := Option.some.inj h
      exact ⟨hitem, by rw [htally]; rfl⟩
  · rw [htally] at h
    obtain rfl : (item.1, item.2, tally) = r := Option.some.inj h
    exact ⟨hitem, by rw [htally]; rfl⟩

/-! ## By the account -/

/-- What is reported of an account's addresses. -/
def ofAccount (strAccount : String) (rs : List (CTxDestination × String × TallyItem)) :
    List (CTxDestination × String × TallyItem) :=
  rs.filter fun r => r.2.1 = strAccount

/-- **An account has the sum of its addresses**, and is there if it has one. -/
theorem foldl_tallyAddress (strAccount : String) (rs : List (CTxDestination × String × TallyItem))
    (m : String → Option TallyItem) :
    amountOf (rs.foldl tallyAddress m) strAccount =
        amountOf m strAccount + ((ofAccount strAccount rs).map (·.2.2.nAmount)).sum ∧
      (rs.foldl tallyAddress m strAccount = none ↔
        m strAccount = none ∧ ofAccount strAccount rs = []) := by
  unfold ofAccount
  induction rs generalizing m with
  | nil => simp
  | cons r rs ih =>
    rw [List.foldl_cons]
    obtain ⟨hamount, hnone⟩ := ih (tallyAddress m r)
    rw [hamount, hnone]
    by_cases hr : r.2.1 = strAccount
    · subst hr
      rw [List.filter_cons_of_pos (by simp)]
      constructor
      · rw [List.map_cons, List.sum_cons, amountOf, amountOf, tallyAddress, Function.update_self]
        simp only [Option.getD_some]
        omega
      · simp [tallyAddress]
    · rw [List.filter_cons_of_neg (by simpa using hr)]
      unfold amountOf tallyAddress
      rw [Function.update_of_ne (Ne.symm hr)]
      exact ⟨rfl, Iff.rfl⟩

/-- **What pays to some of distinct addresses** is, in all, what pays to each. -/
theorem sum_paid {addresses : List CTxDestination} (hnodup : addresses.Nodup)
    (outs : List CTxOut) :
    (addresses.map fun address =>
        total (outs.filter fun txout => ourDestination w txout = some address)).sum =
      total (outs.filter fun txout => (ourDestination w txout).any addresses.contains) := by
  induction addresses with
  | nil =>
    have hnone : (outs.filter fun txout =>
        (ourDestination w txout).any ([] : List CTxDestination).contains) = [] := by
      rw [List.filter_eq_nil_iff]
      intro txout _
      cases ourDestination w txout <;> simp
    rw [hnone]
    rfl
  | cons address addresses ih =>
    obtain ⟨hnew, hnodup⟩ := List.nodup_cons.1 hnodup
    rw [List.map_cons, List.sum_cons, ih hnodup]
    -- what pays to the first pays to no other
    rw [← total_filter_add (fun txout => ourDestination w txout = some address)
      (outs.filter fun txout => (ourDestination w txout).any (address :: addresses).contains),
      List.filter_filter, List.filter_filter]
    congr 2
    · refine List.filter_congr fun txout _ => ?_
      by_cases h : ourDestination w txout = some address <;> simp [h]
    · refine List.filter_congr fun txout _ => ?_
      rcases hdest : ourDestination w txout with _ | address'
      · simp
      · by_cases heq : address' = address
        · subst heq
          simpa using hnew
        · simp [heq]

/-- What is not reported has no amount. -/
theorem sum_reported (strAccount : String) :
    ((ofAccount strAccount (reported w chain nMinDepth fIncludeEmpty)).map (·.2.2.nAmount)).sum =
      ((getAccountAddresses w strAccount).map fun address =>
        total (paid w chain nMinDepth address)).sum := by
  unfold ofAccount reported getAccountAddresses
  induction w.mapAddressBook with
  | nil => rfl
  | cons item book ih =>
    rw [List.filterMap_cons]
    have hamount : amountOf (mapTally w chain nMinDepth) item.1 = total (paid w chain nMinDepth item.1) :=
      amountOf_mapTally item.1
    by_cases hitem : item.2 = strAccount
    · rw [List.filter_cons_of_pos (a := item) (by simpa using hitem), List.map_cons, List.map_cons,
        List.sum_cons, ← ih, ← hamount, amountOf]
      rcases mapTally w chain nMinDepth item.1 with _ | tally
      · cases fIncludeEmpty with
        | false => simp
        | true =>
          simp only [if_true]
          rw [List.filter_cons_of_pos (by simpa using hitem), List.map_cons, List.sum_cons]
          rfl
      · simp only
        rw [List.filter_cons_of_pos (by simpa using hitem), List.map_cons, List.sum_cons]
        rfl
    · rw [List.filter_cons_of_neg (a := item) (by simpa using hitem), ← ih]
      rcases mapTally w chain nMinDepth item.1 with _ | tally
      · cases fIncludeEmpty with
        | false => simp
        | true =>
          simp only [if_true]
          rw [List.filter_cons_of_neg (by simpa using hitem)]
      · simp only
        rw [List.filter_cons_of_neg (by simpa using hitem)]

/-! ## By the address -/

/-- **A script of ours is for an address of ours.** -/
theorem isMineDest_of_isMineScript {fuel : ℕ} {address : CTxDestination}
    (hdest : address ≠ .noDestination)
    (h : isMineScript w.keystore fuel (setDestination address) = some true) :
    isMineDest w.keystore address = true := by
  cases fuel with
  | zero => exact absurd h (by simp [isMineScript])
  | succ fuel =>
    rw [isMineScript] at h
    cases address with
    | noDestination => exact absurd rfl hdest
    | keyID id =>
      rw [solver_eq_true_iff.2 (standard_setDestination_keyID id)] at h
      simp only [uint160OfVch_leBytes, Option.some.injEq] at h
      exact h
    | scriptID id =>
      rw [solver_eq_true_iff.2 (standard_setDestination_scriptID id)] at h
      simp only [uint160OfVch_leBytes] at h
      rcases hscript : w.keystore.getCScript id with _ | subscript
      · simp [hscript] at h
      · unfold CKeyStore.getCScript at hscript
        have hid := List.find?_some hscript
        show (w.keystore.redeemScripts.any fun script => P.hash160 script = id) = true
        exact List.any_eq_true.2 ⟨subscript, List.mem_of_find?_eq_some hscript, hid⟩

/-- **Nothing is missed**: what counts for the address, and is in another form
than the script of the address, is worth nothing, and so is everything that
does if that script is not ours. -/
def MissesNothing (w : CWallet) (chain : WalletChain) (fuel : ℕ) (nMinDepth : ℤ)
    (address : CTxDestination) : Prop :=
  ∃ fMine, isMineScript w.keystore fuel (setDestination address) = some fMine ∧
    total ((paid w chain nMinDepth address).filter fun txout =>
      !(fMine && txout.scriptPubKey = setDestination address)) = 0

/-- **One address**: the amount is that of the tally, where nothing is missed
and nowhere else. -/
theorem getreceivedbyaddress_eq_iff {fuel : ℕ} {address : CTxDestination}
    (hdest : address ≠ .noDestination) :
    getreceivedbyaddress w chain fuel address nMinDepth =
        some (.ok (total (paid w chain nMinDepth address))) ↔
      MissesNothing w chain fuel nMinDepth address := by
  unfold getreceivedbyaddress MissesNothing
  rw [if_neg hdest]
  dsimp only
  rcases hmine : isMineScript w.keystore fuel (setDestination address) with _ | _ | _
  · simp
  · simp [eq_comm]
  · -- the outputs with the script are among those for the address
    have hscript : ((counted w chain nMinDepth).filter fun txout =>
        txout.scriptPubKey = setDestination address) =
          (paid w chain nMinDepth address).filter fun txout =>
            txout.scriptPubKey = setDestination address := by
      unfold paid
      rw [List.filter_filter]
      refine List.filter_congr fun txout _ => ?_
      by_cases h : txout.scriptPubKey = setDestination address
      · have hours : ourDestination w txout = some address := by
          rw [ourDestination, h, extractDestination_setDestination address hdest, Option.filter_some,
            isMineDest_of_isMineScript hdest hmine, if_pos rfl]
        simp [h, hours]
      · simp [h]
    have hsplit := total_filter_add (fun txout => txout.scriptPubKey = setDestination address)
      (paid w chain nMinDepth address)
    simp only [foldl_txs, hscript, Option.some.injEq, Except.ok.injEq, exists_eq_left',
      Bool.true_and]
    omega

end

/-! ## All four calls -/

/-- **The received amounts agree**: of every address listed, where nothing is
missed and nowhere else; of every account listed, but for the one whose name
stands for all; and an account has the amounts of its addresses. -/
theorem received_agree (w : CWallet) (chain : WalletChain) (fuel : ℕ) (nMinDepth : ℤ)
    (fIncludeEmpty : Bool) (hbook : (w.mapAddressBook.map (·.1)).Nodup) :
    (∀ obj ∈ listreceivedbyaddress w chain nMinDepth fIncludeEmpty,
      obj.address ≠ .noDestination →
        (getreceivedbyaddress w chain fuel obj.address nMinDepth = some (.ok obj.amount) ↔
          MissesNothing w chain fuel nMinDepth obj.address)) ∧
    (∀ strAccount obj, listreceivedbyaccount w chain nMinDepth fIncludeEmpty strAccount = some obj →
      (getreceivedbyaccount w chain strAccount nMinDepth = .ok obj.amount ↔ strAccount ≠ "*") ∧
      obj.amount = (((listreceivedbyaddress w chain nMinDepth fIncludeEmpty).filter
        fun o => o.account = strAccount).map (·.amount)).sum) ∧
    ∀ strAccount, listreceivedbyaccount w chain nMinDepth fIncludeEmpty strAccount = none ↔
      ∀ o ∈ listreceivedbyaddress w chain nMinDepth fIncludeEmpty, o.account ≠ strAccount := by
  have hrun := fun strAccount => foldl_tallyAddress strAccount
    (reported w chain nMinDepth fIncludeEmpty) fun _ => none
  refine ⟨?_, ?_, ?_⟩
  · intro obj hobj hdest
    obtain ⟨r, hr, rfl⟩ := List.mem_map.1 hobj
    obtain ⟨-, hamount⟩ := mem_reported hr
    rw [← getreceivedbyaddress_eq_iff hdest, ← hamount]
  · intro strAccount obj hobj
    obtain ⟨item, hitem, rfl⟩ := Option.map_eq_some_iff.1 hobj
    have hamount := (hrun strAccount).1
    rw [amountOf, hitem] at hamount
    replace hamount : item.nAmount = ((ofAccount strAccount
        (reported w chain nMinDepth fIncludeEmpty)).map (·.2.2.nAmount)).sum :=
      hamount.trans (zero_add _)
    have hnodup : (getAccountAddresses w strAccount).Nodup :=
      hbook.sublist (List.Sublist.map _ List.filter_sublist)
    constructor
    · unfold getreceivedbyaccount accountFromValue
      by_cases hall : strAccount = "*"
      · rw [if_pos hall]
        exact iff_of_false nofun (not_not_intro hall)
      · rw [if_neg hall]
        refine iff_of_true ?_ hall
        refine congrArg Except.ok ?_
        rw [foldl_txs, hamount, sum_reported]
        unfold paid
        rw [sum_paid hnodup]
        simp
    · show item.nAmount = _
      rw [hamount]
      unfold listreceivedbyaddress ofAccount
      rw [List.filter_map, List.map_map]
      rfl
  · intro strAccount
    unfold listreceivedbyaccount listreceivedbyaddress
    rw [Option.map_eq_none_iff, (hrun strAccount).2, ofAccount, List.filter_eq_nil_iff]
    simp only [true_and, decide_eq_true_eq, List.forall_mem_map]

namespace ToPubKey

/-- A key, and an output that pays to it. -/
def vchPubKey : List UInt8 := List.replicate 33 2

def wallet : CWallet where
  mapWallet := (∅ : Map Uint256 CWalletTx).insert 1
    { tx := ⟨1, 1, [⟨⟨7, 0⟩, [], 0⟩], [⟨5000, 33 :: vchPubKey ++ [172]⟩], 0⟩
      vfSpent := []
      fFromMe := false
      hashBlock := 1
      vMerkleBranch := []
      nIndex := 0
      vtxPrev := []
      strFromAccount := "" }
  keystore := ⟨[vchPubKey], []⟩
  mapAddressBook := [(.keyID 0, "a")]
  laccentries := []

def chain : WalletChain := ⟨100, 1000, fun _ => 3, fun _ => by decide⟩

omit P in
/-- **An output to the key itself**: it is listed for the address of the key,
which has received nothing. -/
theorem not_received_agree :
    letI := Platform.toy
    (wallet.mapAddressBook.map (·.1)).Nodup ∧
    (∃ obj ∈ listreceivedbyaddress wallet chain 1 false,
      obj.address = .keyID 0 ∧ obj.amount = 5000) ∧
    getreceivedbyaddress wallet chain 1 (.keyID 0) 1 = some (.ok 0) := by
  decide

omit P in
/-- The account of the address has received it. -/
theorem received_agree_account :
    letI := Platform.toy
    getreceivedbyaccount wallet chain "a" 1 = .ok 5000 :=
  letI := Platform.toy
  ((received_agree wallet chain 1 1 false (by decide)).2.1 "a" ⟨5000, 3⟩
    (by decide)).1.2 (by decide)

end ToPubKey

end Received

end Accounting

end CryptoBullion
