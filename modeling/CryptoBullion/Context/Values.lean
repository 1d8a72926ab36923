import CryptoBullion.Model.Values
import CryptoBullion.Chain.Trust
import CryptoBullion.Chain.TxIndex
import CryptoBullion.Context.CheckBlock
import CryptoBullion.Scripts.SigOps
import CryptoBullion.Targets.Reward
import CryptoBullion.Text.Money
/-!
# The sums of a block do not overflow

An output is worth `MAX_MONEY` at most, and a transaction's outputs
together are. An input takes a byte of the block at least, and so does a
transaction. So every sum over a block is within `MAX_MONEY` times the size
of a block, which is well within 64 bits.
-/

namespace CryptoBullion

variable [P : Platform]

variable {s s' : NodeState} {ans : Answer} {pindex : Uint256} {tx : CTransaction} {t t' : Tally}
variable {inputs inputs' : MapPrevTx} {vin : List CTxIn} {pos : CDiskTxPos}

/-! ## What the index leads to -/

/-- **A place the index has**, or one inside the block that is connected. -/
def Indexed (s : NodeState) (pindex : Uint256) (pos : CDiskTxPos) : Prop :=
  (∃ hash txindex, s.txdb.readTxIndex hash = some txindex ∧ txindex.pos = pos) ∨
    pos.nFile = (s.entry pindex).nFile ∧ pos.nBlockPos = (s.entry pindex).nBlockPos

/-- **Every transaction the index leads to** has passed `CheckTransaction`,
whether it is on disk or in the pool. -/
structure IndexChecked (s : NodeState) (ans : Answer) (pindex : Uint256) : Prop where
  disk : ∀ pos tx, Indexed s pindex pos → readTx s.blockFiles ans pos = .ok tx →
    tx.checkTransaction = .ok ()
  pool : Indexed s pindex CDiskTxPos.inMemPool → ∀ (hash : Uint256) (tx : CTransaction),
    s.mempool.mapTx[hash]? = some tx → tx.checkTransaction = .ok ()

/-- What was fetched has its place in the index, and is worth what an
output may be. -/
structure FetchedChecked (s : NodeState) (pindex : Uint256) (inputs : MapPrevTx) : Prop where
  indexed : ∀ (hash : Uint256) (p : CTxIndex × CTransaction), inputs[hash]? = some p →
    Indexed s pindex p.1.pos
  inRange : ∀ (hash : Uint256) (p : CTxIndex × CTransaction), inputs[hash]? = some p →
    ∀ txout ∈ p.2.vout, moneyRange txout.nValue = true

/-- The queued changes keep to those places. -/
def QueueIndexed (s : NodeState) (pindex : Uint256) (mapTestPool : Map Uint256 CTxIndex) : Prop :=
  ∀ (hash : Uint256) (txindex : CTxIndex), mapTestPool[hash]? = some txindex →
    Indexed s pindex txindex.pos

omit P in
theorem inRange_of_checkTransaction (h : tx.checkTransaction = .ok ()) :
    ∀ txout ∈ tx.vout, moneyRange txout.nValue = true := fun _ ho =>
  CTransaction.moneyRange_of_checkOutputs (CTransaction.of_checkTransaction h).2.2.1 ho

omit P in
/-- **A transaction that is fetched** is one the index leads to. -/
theorem of_fetchPrev_eq_ok (hindex : IndexChecked s ans pindex) {q : Map Uint256 CTxIndex}
    (hq : QueueIndexed s pindex q) {hash : Uint256} {p : CTxIndex × CTransaction}
    (h : fetchPrev s ans q true false hash = .ok p) :
    Indexed s pindex p.1.pos ∧ ∀ txout ∈ p.2.vout, moneyRange txout.nValue = true := by
  unfold fetchPrev at h
  dsimp only at h
  rcases hfound : (if (true || false) && q.contains hash then q[hash]? else s.txdb.readTxIndex hash)
    with _ | txindex
  · rw [hfound] at h
    simp at h
  · rw [hfound] at h
    dsimp only at h
    have hplace : Indexed s pindex txindex.pos := by
      split_ifs at hfound
      · exact hq hash txindex hfound
      · exact .inl ⟨hash, txindex, hfound, rfl⟩
    split_ifs at h with hpool
    · obtain ⟨txPrev, hprev, h⟩ := except_bind_eq_ok.1 h
      obtain rfl := Except.ok.inj h
      refine ⟨hplace, inRange_of_checkTransaction ?_⟩
      unfold poolTx at hprev
      split at hprev
      · exact absurd hprev (by simp)
      · rename_i tx htx
        obtain rfl := Except.ok.inj hprev
        exact hindex.pool (hpool ▸ hplace) hash _ htx
    · obtain ⟨txPrev, hprev, h⟩ := except_bind_eq_ok.1 h
      obtain rfl := Except.ok.inj h
      exact ⟨hplace, inRange_of_checkTransaction (hindex.disk _ _ hplace (onFalse_eq_ok.1 hprev))⟩

omit P in
theorem fetchedChecked_of_fetchLoop (hindex : IndexChecked s ans pindex) {q : Map Uint256 CTxIndex}
    (hq : QueueIndexed s pindex q) (h : fetchLoop s ans q true false vin inputs = .ok inputs')
    (hin : FetchedChecked s pindex inputs) : FetchedChecked s pindex inputs' := by
  induction vin generalizing inputs with
  | nil =>
    obtain rfl := Except.ok.inj h
    exact hin
  | cons txin vin ih =>
    rw [fetchLoop] at h
    split_ifs at h with hc
    · exact ih h hin
    · obtain ⟨prev, hprev, h⟩ := except_bind_eq_ok.1 h
      obtain ⟨hplace, hrange⟩ := of_fetchPrev_eq_ok hindex hq hprev
      refine ih h ⟨fun hash p hp => ?_, fun hash p hp => ?_⟩
      · rw [Std.ExtTreeMap.getElem?_insert] at hp
        split_ifs at hp with heq
        · rw [← Option.some.inj hp]
          exact hplace
        · exact hin.indexed hash p hp
      · rw [Std.ExtTreeMap.getElem?_insert] at hp
        split_ifs at hp with heq
        · rw [← Option.some.inj hp]
          exact hrange
        · exact hin.inRange hash p hp

/-- **What `FetchInputs` fetches** is what the index leads to. -/
theorem fetchedChecked_of_fetchInputs (hindex : IndexChecked s ans pindex) {q : Map Uint256 CTxIndex}
    (hq : QueueIndexed s pindex q) (hcb : tx.isCoinBase = false)
    (h : tx.fetchInputs s ans q true false = .ok inputs) : FetchedChecked s pindex inputs := by
  rw [CTransaction.fetchInputs, hcb, if_neg Bool.false_ne_true] at h
  obtain ⟨inputs', hloop, h⟩ := except_bind_eq_ok.1 h
  obtain ⟨-, h⟩ := except_unit_bind_eq_ok.1 h
  obtain rfl := Except.ok.inj h
  exact fetchedChecked_of_fetchLoop hindex hq hloop ⟨by simp, by simp⟩

/-- Spending keeps to the places. -/
theorem queueIndexed_of_connectSpends {q q' : Map Uint256 CTxIndex} {k : ℕ} {fStrict : Bool}
    (h : connectSpends s tx pos true false fStrict k vin inputs q = .ok q')
    (hin : ∀ (hash : Uint256) (p : CTxIndex × CTransaction), inputs[hash]? = some p →
      Indexed s pindex p.1.pos)
    (hq : QueueIndexed s pindex q) : QueueIndexed s pindex q' := by
  induction vin generalizing k inputs q with
  | nil =>
    obtain rfl := Except.ok.inj h
    exact hq
  | cons txin vin ih =>
    rw [connectSpends] at h
    rcases hh : inputs[txin.prevout.hash]? with _ | ⟨txindex, txPrev⟩
    · simp [hh] at h
    simp only [hh] at h
    obtain ⟨-, h⟩ := except_unit_bind_eq_ok.1 h
    obtain ⟨-, h⟩ := except_unit_bind_eq_ok.1 h
    have hplace := hin _ _ hh
    refine ih h (fun hash p hp => ?_) fun hash i hi => ?_
    · rw [Std.ExtTreeMap.getElem?_insert] at hp
      split_ifs at hp with heq
      · rw [← Option.some.inj hp]
        exact hplace
      · exact hin hash p hp
    · simp only [Bool.or_false, if_true] at hi
      rw [Std.ExtTreeMap.getElem?_insert] at hi
      split_ifs at hi with heq
      · rw [← Option.some.inj hi]
        exact hplace
      · exact hq hash i hi

/-! ## The sums of a transaction -/

omit P in
/-- A check that is passed decides what follows. -/
theorem except_bind_congr {α β : Type} {r : Except Failure α} {f g : α → Except Failure β}
    (h : ∀ a, r = .ok a → f a = g a) : (r >>= f) = r >>= g := by
  rcases r with e | a
  · rfl
  · exact h a rfl

omit P in
/-- `GetValueOut` adds what is in range to what is in range. -/
theorem valueOutLoop64_eq : ∀ {l : List CTxOut} {n : ℤ},
    (∀ txout ∈ l, moneyRange txout.nValue = true) → 0 ≤ n → n ≤ maxMoney →
      valueOutLoop64 n l = CTransaction.valueOutLoop n l
  | [], n, _, _, _ => rfl
  | txout :: l, n, hrange, hpos, hle => by
    have hmoney : maxMoney = 2000000000000 := rfl
    have hvalue := moneyRange_iff.1 (hrange txout List.mem_cons_self)
    unfold valueOutLoop64 CTransaction.valueOutLoop
    rw [int64_eq_ok (by omega)]
    show (if _ then _ else valueOutLoop64 (n + txout.nValue) l) = _
    split_ifs with hout
    · rfl
    · simp only [Bool.or_eq_true, Bool.not_eq_true', not_or, Bool.not_eq_false] at hout
      exact valueOutLoop64_eq (fun o ho => hrange o (List.mem_cons_of_mem _ ho))
        (moneyRange_iff.1 hout.2).1 (moneyRange_iff.1 hout.2).2

omit P in
/-- The sum is in range where there is one. -/
theorem valueOut_mem {n : ℤ} (h : tx.getValueOut = .ok n) : 0 ≤ n ∧ n ≤ maxMoney := by
  have hall : ∀ {l : List CTxOut} {n m : ℤ}, CTransaction.valueOutLoop n l = .ok m → 0 ≤ n →
      n ≤ maxMoney → 0 ≤ m ∧ m ≤ maxMoney := by
    intro l
    induction l with
    | nil =>
      intro n m h hpos hle
      obtain rfl := Except.ok.inj h
      exact ⟨hpos, hle⟩
    | cons txout l ih =>
      intro n m h hpos hle
      rw [CTransaction.valueOutLoop] at h
      split_ifs at h with hout
      simp only [Bool.or_eq_true, Bool.not_eq_true', not_or, Bool.not_eq_false] at hout
      exact ih h (moneyRange_iff.1 hout.2).1 (moneyRange_iff.1 hout.2).2
  exact hall h le_rfl (by decide)

omit P in
/-- An output that is found is one of a transaction that was fetched. -/
theorem moneyRange_of_getOutputFor (hin : FetchedChecked s pindex inputs) {txin : CTxIn}
    {txout : CTxOut} (h : getOutputFor inputs txin = .ok txout) : moneyRange txout.nValue = true := by
  unfold getOutputFor at h
  rcases hp : inputs[txin.prevout.hash]? with _ | ⟨txindex, txPrev⟩
  · rw [hp] at h
    exact absurd h (by simp)
  · rw [hp] at h
    dsimp only at h
    rcases hout : txPrev.vout[txin.prevout.n]? with _ | o
    · rw [hout] at h
      exact absurd h (by simp)
    · rw [hout] at h
      obtain rfl := Except.ok.inj h
      exact hin.inRange _ _ hp _ (List.mem_of_getElem? hout)

omit P in
/-- **`GetValueIn` adds an output for each input**, and the sum stays within
`MAX_MONEY` times their number. -/
theorem valueInLoop64_eq (hin : FetchedChecked s pindex inputs) : ∀ (vin : List CTxIn) {n : ℤ} {k : ℕ},
    0 ≤ n → n ≤ maxMoney * k → k + vin.length ≤ maxBlockSize →
      (valueInLoop64 inputs n vin = do
        let txouts ← outputsFor inputs vin
        .ok (n + (txouts.map (·.nValue)).sum)) ∧
      ∀ txouts, outputsFor inputs vin = .ok txouts → 0 ≤ (txouts.map (·.nValue)).sum ∧
        (txouts.map (·.nValue)).sum ≤ maxMoney * vin.length
  | [], n, k, hpos, hle, hk => by
    refine ⟨?_, fun txouts h => ?_⟩
    · show Except.ok n = Except.ok (n + 0)
      rw [add_zero]
    · obtain rfl := Except.ok.inj h
      simp
  | txin :: vin, n, k, hpos, hle, hk => by
    have hmoney : maxMoney = 2000000000000 := rfl
    have hsize : maxBlockSize = 1000000 := rfl
    rw [List.length_cons] at hk
    rw [hmoney] at hle
    unfold valueInLoop64 outputsFor
    rcases hout : getOutputFor inputs txin with e | txout
    · exact ⟨rfl, fun txouts h => absurd h (by simp [bind, Except.bind])⟩
    · have hvalue := moneyRange_iff.1 (moneyRange_of_getOutputFor hin hout)
      rw [hmoney] at hvalue
      have hsum : n + txout.nValue ≤ maxMoney * (k + 1 : ℕ) := by
        rw [hmoney]
        push_cast
        omega
      have hpos' : 0 ≤ n + txout.nValue := by omega
      obtain ⟨hloop, hbound⟩ := valueInLoop64_eq hin vin hpos' hsum (by omega)
      constructor
      · show (int64 (n + txout.nValue) >>= fun n => valueInLoop64 inputs n vin) = _
        rw [int64_eq_ok (by omega)]
        show valueInLoop64 inputs (n + txout.nValue) vin = _
        rw [hloop]
        rcases outputsFor inputs vin with e | txouts
        · rfl
        · show Except.ok _ = Except.ok (n + ((txout :: txouts).map (·.nValue)).sum)
          rw [List.map_cons, List.sum_cons, add_assoc]
      · intro txouts h
        change (outputsFor inputs vin >>= fun rest => .ok (txout :: rest)) = .ok txouts at h
        obtain ⟨rest, hrest, h⟩ := except_bind_eq_ok.1 h
        obtain rfl := Except.ok.inj h
        have hrest := hbound rest hrest
        rw [List.map_cons, List.sum_cons, List.length_cons, hmoney]
        rw [hmoney] at hrest
        push_cast
        omega

/-! ## The sums of a block -/

/-- **The running totals** after transactions of `nSize` bytes. -/
structure Tally.Bounded (t : Tally) (nSize : ℕ) : Prop where
  nValueIn : 0 ≤ t.nValueIn ∧ t.nValueIn ≤ maxMoney * nSize
  nValueOut : 0 ≤ t.nValueOut ∧ t.nValueOut ≤ maxMoney * nSize
  nFees : -(maxMoney * nSize) ≤ t.nFees ∧ t.nFees ≤ maxMoney * nSize

omit P in
/-- A transaction takes more than a byte. -/
theorem getSerializeSize_pos (tx : CTransaction) : 0 < tx.getSerializeSize := by
  unfold CTransaction.getSerializeSize CTransaction.serialize
  simp only [List.length_append, length_leBytes]
  omega

omit P in
/-- What the first output is counted from does not matter here. -/
theorem getValueOut64_eq (h : tx.checkTransaction = .ok ()) : tx.getValueOut64 = tx.getValueOut :=
  valueOutLoop64_eq (inRange_of_checkTransaction h) le_rfl (by decide)

omit P in
theorem getValueIn64_eq (tx : CTransaction) (hin : FetchedChecked s pindex inputs) (hsize : tx.vin.length ≤ maxBlockSize) :
    tx.getValueIn64 inputs = tx.getValueIn inputs ∧ ∀ n, tx.getValueIn inputs = .ok n →
      0 ≤ n ∧ n ≤ maxMoney * tx.vin.length := by
  unfold CTransaction.getValueIn64 CTransaction.getValueIn
  split_ifs with hcb
  · refine ⟨rfl, fun n h => ?_⟩
    obtain rfl := Except.ok.inj h
    exact ⟨le_rfl, mul_nonneg (by decide) (by positivity)⟩
  · obtain ⟨hloop, hbound⟩ := valueInLoop64_eq hin tx.vin (n := 0) (k := 0) le_rfl (by simp)
      (by omega)
    refine ⟨?_, fun n h => ?_⟩
    · rw [hloop]
      simp only [zero_add]
    · obtain ⟨txouts, htxouts, h⟩ := except_bind_eq_ok.1 h
      obtain rfl := Except.ok.inj h
      exact hbound txouts htxouts

omit P in
/-- A coinbase. -/
theorem tallyCoinBase64_eq {nSize : ℕ} (h : t.Bounded nSize) (hcheck : tx.checkTransaction = .ok ())
    (hsize : nSize + tx.getSerializeSize ≤ maxBlockSize) :
    tallyCoinBase64 t tx = tallyCoinBase t tx ∧
      ∀ t', tallyCoinBase t tx = .ok t' → t'.Bounded (nSize + tx.getSerializeSize) := by
  have hmoney : maxMoney = 2000000000000 := rfl
  have hmax : maxBlockSize = 1000000 := rfl
  have hpos := getSerializeSize_pos tx
  obtain ⟨hin, hout, hfees⟩ := h
  rw [hmoney] at hin hout hfees
  constructor
  · unfold tallyCoinBase64 tallyCoinBase
    rw [getValueOut64_eq hcheck]
    refine except_bind_congr fun n hn => ?_
    have hvalue := valueOut_mem hn
    rw [hmoney] at hvalue
    rw [int64_eq_ok (by omega)]
    rfl
  · intro t' ht'
    obtain ⟨n, hn, ht'⟩ := except_bind_eq_ok.1 ht'
    obtain rfl := Except.ok.inj ht'
    have hvalue := valueOut_mem hn
    rw [hmoney] at hvalue
    constructor
    all_goals
      dsimp only
      rw [hmoney]
      push_cast
      omega

/-- **Any other transaction.** -/
theorem tallySpend64_eq {nSize : ℕ} (pos : CDiskTxPos) (hindex : IndexChecked s ans pindex)
    (hq : QueueIndexed s pindex t.mapQueuedChanges) (hcb : tx.isCoinBase = false)
    (h : t.Bounded nSize) (hcheck : tx.checkTransaction = .ok ())
    (hsize : nSize + tx.getSerializeSize ≤ maxBlockSize) :
    tallySpend64 s ans pindex pos t tx = tallySpend s ans pindex pos t tx ∧
      ∀ t', tallySpend s ans pindex pos t tx = .ok t' →
        t'.Bounded (nSize + tx.getSerializeSize) ∧ QueueIndexed s pindex t'.mapQueuedChanges := by
  have hmoney : maxMoney = 2000000000000 := rfl
  have hmax : maxBlockSize = 1000000 := rfl
  have hpos := getSerializeSize_pos tx
  have hvin : tx.vin.length ≤ tx.getSerializeSize := length_vin_le
  obtain ⟨hin, hout, hfees⟩ := h
  rw [hmoney] at hin hout hfees
  constructor
  · unfold tallySpend64 tallySpend
    refine except_bind_congr fun inputs hfetch => except_bind_congr fun nP2SH _ =>
      except_bind_congr fun _ _ => ?_
    have hfetched := fetchedChecked_of_fetchInputs hindex hq hcb (onFalse_eq_ok.1 hfetch)
    obtain ⟨heq, hbound⟩ := getValueIn64_eq tx hfetched (by omega)
    rw [heq, getValueOut64_eq hcheck]
    refine except_bind_congr fun nTxValueIn hvalueIn => except_bind_congr fun nTxValueOut hvalueOut => ?_
    have hvalueIn := hbound _ hvalueIn
    have hvalueOut := valueOut_mem hvalueOut
    rw [hmoney] at hvalueIn hvalueOut
    rw [int64_eq_ok (x := t.nValueIn + nTxValueIn) (by omega),
      int64_eq_ok (x := t.nValueOut + nTxValueOut) (by omega),
      int64_eq_ok (x := nTxValueIn - nTxValueOut) (by omega),
      int64_eq_ok (x := nTxValueOut - nTxValueIn) (by omega)]
    rcases hstake : tx.isCoinStake
    · show (int64 (t.nFees + (nTxValueIn - nTxValueOut)) >>= _) = _
      rw [int64_eq_ok (by omega)]
      rfl
    · rfl
  · intro t' ht'
    obtain ⟨inputs, q', nP2SH, nTxValueIn, nTxValueOut, hfetch, -, hvalueIn, hvalueOut, hconn, rfl⟩ :=
      of_tallySpend_eq_ok ht'
    have hfetched := fetchedChecked_of_fetchInputs hindex hq hcb hfetch
    have hvalueIn := (getValueIn64_eq tx hfetched (by omega)).2 _ hvalueIn
    have hvalueOut := valueOut_mem hvalueOut
    obtain ⟨_, -, hspend, -⟩ := of_connectInputs_eq_ok hcb hconn
    refine ⟨?_, queueIndexed_of_connectSpends hspend hfetched.indexed hq⟩
    rw [hmoney] at hvalueIn hvalueOut
    constructor
    · dsimp only
      rw [hmoney]
      push_cast
      omega
    · dsimp only
      rw [hmoney]
      push_cast
      omega
    · dsimp only
      rw [hmoney]
      push_cast
      split_ifs <;> omega

/-- **One turn of the loop.** -/
theorem tallyTx64_eq {nSize : ℕ} (hindex : IndexChecked s ans pindex)
    (hq : QueueIndexed s pindex t.mapQueuedChanges) (h : t.Bounded nSize)
    (hcheck : tx.checkTransaction = .ok ()) (hsize : nSize + tx.getSerializeSize ≤ maxBlockSize) :
    tallyTx64 s ans pindex t tx = tallyTx s ans pindex t tx ∧
      ∀ t', tallyTx s ans pindex t tx = .ok t' →
        t'.Bounded (nSize + tx.getSerializeSize) ∧ QueueIndexed s pindex t'.mapQueuedChanges := by
  have hcounted : (t.counted tx).Bounded nSize := ⟨h.nValueIn, h.nValueOut, h.nFees⟩
  have hcoinBase := tallyCoinBase64_eq hcounted hcheck hsize
  have hspend := fun pos (hcb : tx.isCoinBase = false) =>
    tallySpend64_eq pos hindex (t := t.counted tx) hq hcb hcounted hcheck hsize
  constructor
  · unfold tallyTx64 tallyTx
    refine except_bind_congr fun _ _ => except_bind_congr fun _ _ => ?_
    rcases hcb : tx.isCoinBase
    · show (tallySpend64 s ans pindex _ (t.counted tx) tx >>= _) = tallySpend s ans pindex _ _ tx >>= _
      rw [(hspend _ hcb).1]
      rfl
    · show (tallyCoinBase64 (t.counted tx) tx >>= _) = tallyCoinBase _ tx >>= _
      rw [hcoinBase.1]
      rfl
  · intro t' ht'
    obtain ⟨-, t₁, ht₁, rfl⟩ := of_tallyTx_eq_ok ht'
    have hstep : t₁.Bounded (nSize + tx.getSerializeSize) ∧
        QueueIndexed s pindex t₁.mapQueuedChanges := by
      rcases hcb : tx.isCoinBase
      · rw [hcb] at ht₁
        exact (hspend _ hcb).2 t₁ ht₁
      · rw [hcb] at ht₁
        refine ⟨hcoinBase.2 t₁ ht₁, ?_⟩
        obtain ⟨n, -, ht₁⟩ := except_bind_eq_ok.1 ht₁
        obtain rfl := Except.ok.inj ht₁
        exact hq
    refine ⟨⟨hstep.1.nValueIn, hstep.1.nValueOut, hstep.1.nFees⟩, fun hash i hi => ?_⟩
    rw [Std.ExtTreeMap.getElem?_insert] at hi
    split_ifs at hi with heq
    · rw [← Option.some.inj hi]
      exact .inr ⟨rfl, rfl⟩
    · exact hstep.2 hash i hi

/-- **The whole loop.** -/
theorem tallyTxs64_eq (hindex : IndexChecked s ans pindex) : ∀ (vtx : List CTransaction) {t : Tally}
    {nSize : ℕ}, QueueIndexed s pindex t.mapQueuedChanges → t.Bounded nSize →
    (∀ tx ∈ vtx, tx.checkTransaction = .ok ()) →
    nSize + (vtx.map CTransaction.getSerializeSize).sum ≤ maxBlockSize →
      tallyTxs64 s ans pindex t vtx = tallyTxs s ans pindex t vtx ∧
        ∀ t', tallyTxs s ans pindex t vtx = .ok t' → t'.Bounded maxBlockSize
  | [], t, nSize, hq, h, _, hsize => by
    refine ⟨rfl, fun t' ht' => ?_⟩
    obtain rfl := Except.ok.inj ht'
    have hmoney : maxMoney = 2000000000000 := rfl
    have hle : (nSize : ℤ) ≤ (maxBlockSize : ℕ) := by
      rw [List.map_nil, List.sum_nil] at hsize
      exact_mod_cast hsize
    obtain ⟨hin, hout, hfees⟩ := h
    rw [hmoney] at hin hout hfees
    constructor
    all_goals
      rw [hmoney]
      omega
  | tx :: vtx, t, nSize, hq, h, hcheck, hsize => by
    rw [List.map_cons, List.sum_cons] at hsize
    obtain ⟨heq, hstep⟩ := tallyTx64_eq hindex hq h (hcheck tx List.mem_cons_self) (by omega)
    have hrest : ∀ t₁, tallyTx s ans pindex t tx = .ok t₁ →
        tallyTxs64 s ans pindex t₁ vtx = tallyTxs s ans pindex t₁ vtx ∧
          ∀ t', tallyTxs s ans pindex t₁ vtx = .ok t' → t'.Bounded maxBlockSize := fun t₁ ht₁ =>
      tallyTxs64_eq hindex vtx (hstep t₁ ht₁).2 (hstep t₁ ht₁).1
        (fun tx' h' => hcheck tx' (List.mem_cons_of_mem _ h')) (by omega)
    constructor
    · unfold tallyTxs64 tallyTxs
      rw [heq]
      exact except_bind_congr fun t₁ ht₁ => (hrest t₁ ht₁).1
    · intro t' ht'
      obtain ⟨t₁, ht₁, ht'⟩ := except_bind_eq_ok.1 ht'
      exact (hrest t₁ ht₁).2 t' ht'

omit P in
/-- A block is longer than its transactions. -/
theorem sum_getSerializeSize_le (block : CBlock) :
    (block.vtx.map CTransaction.getSerializeSize).sum ≤ block.getSerializeSize := by
  have hbytes : (block.vtx.map CTransaction.getSerializeSize).sum =
      (block.vtx.flatMap CTransaction.serialize).length := by
    rw [List.length_flatMap]
    rfl
  unfold CBlock.getSerializeSize CBlock.serialize serializeVector
  simp only [List.length_append]
  omega

/-- **What a block that passes `CheckBlock`** is known to be. -/
theorem of_checkBlock {block : CBlock} {nAdjustedTime : ℤ} {nBestHeight : Option ℤ}
    {fPOW fRoot fSig : Bool} (h : block.checkBlock nAdjustedTime nBestHeight fPOW fRoot fSig = .ok ()) :
    block.getSerializeSize ≤ maxBlockSize ∧ ∀ tx ∈ block.vtx, tx.checkTransaction = .ok () := by
  unfold CBlock.checkBlock at h
  obtain ⟨hshape, h⟩ := except_unit_bind_eq_ok.1 h
  obtain ⟨-, hcontents⟩ := except_unit_bind_eq_ok.1 h
  constructor
  · unfold checkShape at hshape
    obtain ⟨hsize, -⟩ := except_unit_bind_eq_ok.1 hshape
    rw [reject_eq_ok, not_or, not_or, not_lt] at hsize
    exact not_lt.1 hsize.2.2
  · unfold checkContents at hcontents
    obtain ⟨htxs, -⟩ := except_unit_bind_eq_ok.1 hcontents
    exact fun tx => checkTransaction_of_checkTransactions htxs

/-! ## The mint -/

/-- **What a transaction mints**, given the outputs it spends: a coinbase all
it pays, a coinstake what it pays more than it spends. -/
def CTransaction.minted (tx : CTransaction) (spent : List CTxOut) : ℤ :=
  if tx.isCoinBase then tx.valueOut
  else if tx.isCoinStake then tx.valueOut - (spent.map (·.nValue)).sum
  else 0

/-- `nValueOut - nValueIn + nFees` -/
def Tally.nMint (t : Tally) : ℤ := t.nValueOut - t.nValueIn + t.nFees

theorem nMint_of_tallyTx (h : tallyTx s ans pindex t tx = .ok t') :
    ∃ spent, SpendsOutputs s ans tx spent ∧ t'.nMint = t.nMint + tx.minted spent := by
  obtain ⟨-, t₁, h₁, rfl⟩ := of_tallyTx_eq_ok h
  unfold SpendsOutputs CTransaction.minted
  rcases hcb : tx.isCoinBase
  · rw [hcb] at h₁
    obtain ⟨inputs, q', nP2SH, nTxValueIn, nTxValueOut, hfetch, -, hin, hout, -, rfl⟩ :=
      of_tallySpend_eq_ok h₁
    unfold CTransaction.getValueIn at hin
    rw [hcb] at hin
    obtain ⟨spent, hspent, hin⟩ := except_bind_eq_ok.1 hin
    obtain rfl := Except.ok.inj hin
    refine ⟨spent, ⟨_, inputs, hfetch, hspent⟩, ?_⟩
    rw [← CTransaction.eq_valueOut_of_getValueOut hout]
    unfold Tally.nMint Tally.counted
    simp only [Bool.false_eq_true, if_false]
    split_ifs <;> ring
  · rw [hcb] at h₁
    obtain ⟨n, hout, h₁⟩ := except_bind_eq_ok.1 h₁
    obtain rfl := Except.ok.inj h₁
    refine ⟨[], rfl, ?_⟩
    rw [← CTransaction.eq_valueOut_of_getValueOut hout, if_pos rfl]
    unfold Tally.nMint Tally.counted
    ring

/-- **The mint of a block** is what its transactions mint. -/
theorem nMint_of_tallyTxs {vtx : List CTransaction} (h : tallyTxs s ans pindex t vtx = .ok t') :
    ∃ spent, List.Forall₂ (SpendsOutputs s ans) vtx spent ∧
      t'.nMint = t.nMint + ((vtx.zip spent).map fun p => p.1.minted p.2).sum := by
  induction vtx generalizing t with
  | nil =>
    obtain rfl := Except.ok.inj h
    exact ⟨[], .nil, by simp⟩
  | cons tx vtx ih =>
    obtain ⟨t₁, h₁, h⟩ := except_bind_eq_ok.1 h
    obtain ⟨spent, hspent, hstep⟩ := nMint_of_tallyTx h₁
    obtain ⟨rest, hrest, hall⟩ := ih h
    refine ⟨spent :: rest, .cons hspent hrest, ?_⟩
    rw [hall, hstep, List.zip_cons_cons, List.map_cons, List.sum_cons, add_assoc]

/-- **The sums of a block stay in 64 bits.** Whatever the block is, as long
as every transaction the index leads to has passed `CheckTransaction`: with
every sum and difference an `int64`, `ConnectBlock` counts what it counts in
the integers. And the mint it records is what the transactions of the block
mint, given the outputs they spend. -/
theorem connectBlock_exact (s : NodeState) (block : CBlock) (pindex : Uint256)
    (hindex : IndexChecked s.ask.2 s.ask.1 pindex)
    (hmem : s.mapBlockIndex.contains pindex = true) :
    (mintBlock64 s.ask.2 s.ask.1 block pindex = do
      let t ← tallyBlock s.ask.2 s.ask.1 block pindex
      .ok (t, t.nMint)) ∧
    ∀ s', connectBlock block pindex s = (.ok (), s') →
      ∃ t, mintBlock64 s.ask.2 s.ask.1 block pindex = .ok (t, (s'.entry pindex).nMint) ∧
        ∃ spent, List.Forall₂ (SpendsOutputs s.ask.2 s.ask.1) block.vtx spent ∧
          (s'.entry pindex).nMint = ((block.vtx.zip spent).map fun p => p.1.minted p.2).sum := by
  have hmoney : maxMoney = 2000000000000 := rfl
  have hmax : maxBlockSize = 1000000 := rfl
  have hexact : (mintBlock64 s.ask.2 s.ask.1 block pindex = do
      let t ← tallyBlock s.ask.2 s.ask.1 block pindex
      .ok (t, t.nMint)) := by
    unfold mintBlock64 tallyBlock
    rw [bind_assoc]
    refine except_bind_congr fun _ hblock => ?_
    obtain ⟨hsize, hcheck⟩ := of_checkBlock (onFalse_eq_ok.1 hblock)
    have hsum := sum_getSerializeSize_le block
    have hstart : (Tally.start ((s.ask.2.entry pindex).nBlockPos + block.firstTxOffset)).Bounded 0 := by
      constructor <;> simp [Tally.start]
    obtain ⟨heq, hbound⟩ := tallyTxs64_eq hindex block.vtx (by simp [QueueIndexed, Tally.start]) hstart
      hcheck (by omega)
    rw [heq, bind_assoc]
    refine except_bind_congr fun t ht => ?_
    rw [bind_assoc]
    refine except_bind_congr fun _ _ => ?_
    obtain ⟨hin, hout, hfees⟩ := hbound t ht
    rw [hmoney, hmax] at hin hout hfees
    unfold Tally.nMint64
    rw [int64_eq_ok (by push_cast at hin hout; omega)]
    show (int64 (t.nValueOut - t.nValueIn + t.nFees) >>= _) = _
    rw [int64_eq_ok (by push_cast at hin hout hfees; omega)]
    rfl
  refine ⟨hexact, fun s' hconnect => ?_⟩
  obtain ⟨t, s₁, htally, rfl, hs'⟩ := of_connectBlock_eq_ok hconnect
  have hmint : (s'.entry pindex).nMint = t.nMint := by
    rw [hs']
    show ((s.ask.2.setEntry pindex (recordSupply s.ask.2 pindex t)).entry pindex).nMint = _
    rw [NodeState.entry_setEntry, if_pos ⟨rfl, hmem⟩]
    rfl
  obtain ⟨-, hloop, -⟩ := of_tallyBlock_eq_ok htally
  obtain ⟨spent, hspent, hsum⟩ := nMint_of_tallyTxs hloop
  refine ⟨t, ?_, spent, hspent, ?_⟩
  · rw [hexact, htally, hmint]
    rfl
  · rw [hmint, hsum]
    simp [Tally.nMint, Tally.start]

/-! ## A block that spends -/

omit P in
/-- Where all blocks that are stored pass and the pool is empty, so does
what the index leads to. -/
theorem indexChecked_of_files
    (hfiles : ∀ b ∈ s.blockFiles, ∀ p ∈ b.txs, p.2.checkTransaction = .ok ())
    (hpool : s.mempool.mapTx.isEmpty = true) : IndexChecked s ans pindex where
  disk pos tx _ h := by
    unfold readTx at h
    obtain ⟨-, h⟩ := except_unit_bind_eq_ok.1 h
    split at h
    · exact absurd h (by simp)
    · rename_i p hp
      obtain rfl := Except.ok.inj h
      obtain ⟨b, hb, hmem⟩ := List.mem_flatMap.1 (List.mem_of_find?_eq_some hp)
      exact hfiles b (List.mem_filter.1 hb).1 p hmem
  pool _ hash tx h := by
    rw [Std.ExtTreeMap.isEmpty_iff.1 hpool] at h
    exact absurd h (by simp)

namespace Twice

/-- The sixth block, which spends the coinbase of the first. -/
def spending : StoredBlock := ⟨1, 6000, blockOn 6 5 0 [coinBase 1372352060, spend]⟩

/-- It is stored and indexed, and not connected yet. -/
def beforeSpending : NodeState :=
  (indexBlock (P := Platform.toy) spending.block 1 6000 (written (grown s₀ (trunk.take 5)) spending)).2

omit P in
/-- It mints its coinbase, and the fee is not part of it. -/
theorem connectBlock_exact_spending :
    ∃ t, mintBlock64 (P := Platform.toy) beforeSpending.ask.2 beforeSpending.ask.1 spending.block 6 =
      .ok (t, 9 * coin) := by
  let := Platform.toy
  have hok : (connectBlock spending.block 6 beforeSpending).1 = .ok () := by decide +kernel
  have hmint : ((connectBlock spending.block 6 beforeSpending).2.entry 6).nMint = 9 * coin := by
    decide +kernel
  have hfiles : ∀ b ∈ beforeSpending.ask.2.blockFiles, ∀ p ∈ b.txs,
      p.2.checkTransaction = .ok () := by
    decide +kernel
  have hpool : beforeSpending.ask.2.mempool.mapTx.isEmpty = true := by decide +kernel
  have hindex : IndexChecked beforeSpending.ask.2 beforeSpending.ask.1 6 :=
    indexChecked_of_files hfiles hpool
  obtain ⟨-, hexact⟩ := connectBlock_exact beforeSpending spending.block 6 hindex (by decide +kernel)
  generalize connectBlock spending.block 6 beforeSpending = r at hok hmint hexact
  obtain ⟨e, s'⟩ := r
  obtain ⟨t, ht, -⟩ := hexact s' (Prod.ext hok rfl)
  rw [hmint] at ht
  exact ⟨t, ht⟩

end Twice

end CryptoBullion
