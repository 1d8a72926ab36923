import CryptoBullion.Model.Answers
import CryptoBullion.Model.Miner
/-!
# What the scan of the pool leaves

A turn of the scan looks at one transaction's inputs up to the first that
is neither on disk nor in the pool. It enters the transaction's node under
every pooled parent it meets on the way, and puts the node on the list at
the end, unless an input was missing: then the entries stay behind without
it.
-/

namespace CryptoBullion

variable [P : Platform]

/-! ## Inputs -/

section Inputs

variable {s : NodeState} {ans : Answer} {tx : CTransaction} {inputs : MapPrevTx}
variable {mapTestPool : Map Uint256 CTxIndex} {fBlock fMiner : Bool}

omit [P : Platform] in
theorem answers_poolTx {hash : Uint256} : Answers (poolTx s hash) := by
  unfold poolTx
  split
  · exact answers_error_iff.2 rfl
  · exact answers_ok

omit [P : Platform] in
theorem answers_readTx {files : List StoredBlock} {pos : CDiskTxPos} :
    Answers (readTx files ans pos) := by
  unfold readTx
  refine (answers_reject rfl).bind fun _ _ => ?_
  split
  · exact answers_error_iff.2 rfl
  · exact answers_ok

omit [P : Platform] in
theorem answers_fetchPrev {hash : Uint256} :
    Answers (fetchPrev s ans mapTestPool fBlock fMiner hash) := by
  unfold fetchPrev
  dsimp only
  split
  · split_ifs
    · exact answers_error_iff.2 rfl
    · exact answers_error_iff.2 rfl
    · exact answers_poolTx.bind fun _ _ => answers_ok
  · split_ifs
    · exact answers_poolTx.bind fun _ _ => answers_ok
    · exact (answers_readTx.onFalse rfl).bind fun _ _ => answers_ok

omit [P : Platform] in
theorem answers_fetchLoop : ∀ {l : List CTxIn} {m : MapPrevTx},
    Answers (fetchLoop s ans mapTestPool fBlock fMiner l m)
  | [], m => answers_ok
  | txin :: l, m => by
    rw [fetchLoop]
    split_ifs
    · exact answers_fetchLoop
    · exact answers_fetchPrev.bind fun _ _ => answers_fetchLoop

omit [P : Platform] in
/-- The first loop of `FetchInputs` keeps what it has and finds the rest. -/
theorem contains_fetchLoop : ∀ {l : List CTxIn} {m m' : MapPrevTx},
    fetchLoop s ans mapTestPool fBlock fMiner l m = .ok m' → ∀ {hash : Uint256},
      m.contains hash = true ∨ hash ∈ l.map (·.prevout.hash) → m'.contains hash = true
  | [], m, m', h, hash, hh => by
    obtain rfl := Except.ok.inj h
    simpa using hh
  | txin :: l, m, m', h, hash, hh => by
    rw [fetchLoop] at h
    rw [List.map_cons, List.mem_cons] at hh
    split_ifs at h with hc
    · refine contains_fetchLoop h ?_
      rcases hh with hh | rfl | hh
      · exact .inl hh
      · exact .inl hc
      · exact .inr hh
    · obtain ⟨prev, -, h⟩ := except_bind_eq_ok.1 h
      refine contains_fetchLoop h ?_
      rw [Std.ExtTreeMap.contains_insert]
      rcases hh with hh | rfl | hh
      · exact .inl (by simp [hh])
      · exact .inl (by simp)
      · exact .inr hh

omit [P : Platform] in
theorem answers_fetchRange : ∀ {l : List CTxIn},
    (∀ txin ∈ l, inputs.contains txin.prevout.hash = true) → Answers (fetchRange inputs l)
  | [], _ => answers_ok
  | txin :: l, h => by
    have hhead := h txin List.mem_cons_self
    rw [Std.ExtTreeMap.contains_eq_isSome_getElem?, Option.isSome_iff_exists] at hhead
    obtain ⟨⟨txindex, txPrev⟩, hget⟩ := hhead
    rw [fetchRange, hget]
    exact (answers_reject rfl).bind fun _ _ =>
      answers_fetchRange fun t ht => h t (List.mem_cons_of_mem _ ht)

omit [P : Platform] in
/-- **`FetchInputs` comes back** from any transaction. -/
theorem answers_fetchInputs : Answers (tx.fetchInputs s ans mapTestPool fBlock fMiner) := by
  unfold CTransaction.fetchInputs
  split_ifs
  · exact answers_ok
  · refine answers_fetchLoop.bind fun m hm => ?_
    refine (answers_fetchRange fun txin hin => ?_).bind fun _ _ => answers_ok
    exact contains_fetchLoop hm (.inr (List.mem_map_of_mem hin))

/-- An input has its previous transaction and output among the inputs. -/
def Fetched (inputs : MapPrevTx) (txin : CTxIn) : Prop :=
  ∃ txindex txPrev txout, inputs[txin.prevout.hash]? = some (txindex, txPrev) ∧
    txPrev.vout[txin.prevout.n]? = some txout

omit [P : Platform] in
theorem fetched_of_fetchRange : ∀ {l : List CTxIn}, fetchRange inputs l = .ok () →
    ∀ txin ∈ l, Fetched inputs txin
  | [], _, txin, hin => absurd hin List.not_mem_nil
  | t :: l, h, txin, hin => by
    rw [fetchRange] at h
    cases hget : inputs[t.prevout.hash]? with
    | none =>
      rw [hget] at h
      exact absurd h (by simp)
    | some prev =>
      rw [hget] at h
      simp only [except_bind_eq_ok, reject_eq_ok, exists_const, not_or, not_le] at h
      rcases List.mem_cons.1 hin with rfl | hin
      · exact ⟨prev.1, prev.2, _, hget, List.getElem?_eq_getElem h.1.1⟩
      · exact fetched_of_fetchRange h.2 txin hin

omit [P : Platform] in
/-- **What `FetchInputs` returns has every output asked for.** -/
theorem fetched_of_fetchInputs (hcb : tx.isCoinBase = false)
    (h : tx.fetchInputs s ans mapTestPool fBlock fMiner = .ok inputs) :
    ∀ txin ∈ tx.vin, Fetched inputs txin := by
  rw [CTransaction.fetchInputs, hcb, if_neg Bool.false_ne_true] at h
  simp only [except_bind_eq_ok] at h
  obtain ⟨m, -, _, hrange, h⟩ := h
  obtain rfl := Except.ok.inj h
  exact fetched_of_fetchRange hrange

omit [P : Platform] in
theorem exists_outputsFor : ∀ {l : List CTxIn}, (∀ txin ∈ l, Fetched inputs txin) →
    ∃ txouts, outputsFor inputs l = .ok txouts
  | [], _ => ⟨[], rfl⟩
  | txin :: l, h => by
    obtain ⟨txindex, txPrev, txout, hget, hout⟩ := h txin List.mem_cons_self
    have hhead : getOutputFor inputs txin = .ok txout := by
      rw [getOutputFor, hget]
      dsimp only
      rw [hout]
    obtain ⟨txouts, hrest⟩ := exists_outputsFor fun t ht => h t (List.mem_cons_of_mem _ ht)
    exact ⟨txout :: txouts, by rw [outputsFor, hhead, except_ok_bind, hrest, except_ok_bind]⟩

theorem answers_checkSignature {txPrev : CTransaction} {nIn : ℕ} {fStrict : Bool}
    (hn : nIn < tx.vin.length) : Answers (checkSignature s tx txPrev nIn fBlock fStrict) := by
  have hverify : ∀ f, Answers (verifySignature txPrev tx nIn f 0) := by
    intro f
    unfold verifySignature
    rw [List.getElem?_eq_getElem hn]
    dsimp only
    split
    · exact answers_ok
    · split_ifs
      · exact answers_ok
      · exact answers_ok
  unfold checkSignature
  split_ifs
  · refine (hverify _).bind fun fOk _ => ?_
    split_ifs
    · exact answers_ok
    · refine (hverify _).bind fun fOld _ => ?_
      split_ifs
      · exact answers_error_iff.2 rfl
      · exact answers_error_iff.2 rfl
  · refine (hverify _).bind fun fOk _ => ?_
    split_ifs
    · exact answers_ok
    · exact answers_error_iff.2 rfl
  · exact answers_ok

omit [P : Platform] in
theorem answers_connectChecks {pindexBlock : Uint256} : ∀ {l : List CTxIn} {nValueIn : ℤ},
    (∀ txin ∈ l, Fetched inputs txin) → Answers (connectChecks s tx inputs pindexBlock nValueIn l)
  | [], _, _ => answers_ok
  | txin :: l, nValueIn, h => by
    obtain ⟨txindex, txPrev, txout, hget, hout⟩ := h txin List.mem_cons_self
    rw [connectChecks, hget]
    dsimp only
    rw [hout]
    dsimp only
    refine (answers_reject rfl).bind fun _ _ => ?_
    refine (answers_reject (by split_ifs <;> rfl)).bind fun _ _ => ?_
    iterate 2 refine (answers_reject rfl).bind fun _ _ => ?_
    exact answers_connectChecks fun t ht => h t (List.mem_cons_of_mem _ ht)

/-- The second loop, over the inputs from the `i`-th on. -/
theorem answers_connectSpends {posThisTx : CDiskTxPos} {fStrict : Bool} :
    ∀ {l : List CTxIn} {i : ℕ} {inputs : MapPrevTx} {mapTestPool : Map Uint256 CTxIndex},
      i + l.length ≤ tx.vin.length →
        (∀ txin ∈ l, inputs.contains txin.prevout.hash = true) →
          Answers (connectSpends s tx posThisTx fBlock fMiner fStrict i l inputs mapTestPool)
  | [], _, _, _, _, _ => answers_ok
  | txin :: l, i, inputs, mapTestPool, hi, h => by
    have hhead := h txin List.mem_cons_self
    rw [Std.ExtTreeMap.contains_eq_isSome_getElem?, Option.isSome_iff_exists] at hhead
    obtain ⟨⟨txindex, txPrev⟩, hget⟩ := hhead
    rw [List.length_cons] at hi
    rw [connectSpends, hget]
    dsimp only
    refine (answers_reject (by split_ifs <;> rfl)).bind fun _ _ => ?_
    refine (answers_checkSignature (by omega)).bind fun _ _ => ?_
    refine answers_connectSpends (by omega) fun t ht => ?_
    rw [Std.ExtTreeMap.contains_insert, h t (List.mem_cons_of_mem _ ht), Bool.or_true]

/-- **`ConnectInputs` comes back** where its inputs were fetched and its
outputs can be summed. -/
theorem answers_connectInputs {posThisTx : CDiskTxPos} {pindexBlock : Uint256} {fStrict : Bool}
    (hin : ∀ txin ∈ tx.vin, Fetched inputs txin) (hout : Answers tx.getValueOut) :
    Answers (tx.connectInputs s inputs mapTestPool posThisTx pindexBlock fBlock fMiner fStrict) := by
  have hcontains : ∀ txin ∈ tx.vin, inputs.contains txin.prevout.hash = true := by
    intro txin hmem
    obtain ⟨txindex, txPrev, -, hget, -⟩ := hin txin hmem
    rw [Std.ExtTreeMap.contains_eq_isSome_getElem?, hget]
    rfl
  have hfees : ∀ nValueIn, Answers (connectFees tx nValueIn fBlock) := by
    intro nValueIn
    unfold connectFees
    split_ifs
    · exact answers_ok
    · refine hout.bind fun _ _ => ?_
      iterate 2 refine (answers_reject rfl).bind fun _ _ => ?_
      exact (answers_reject rfl).bind fun _ _ => answers_reject rfl
    · refine hout.bind fun _ _ => ?_
      iterate 2 refine (answers_reject rfl).bind fun _ _ => ?_
      exact (answers_reject rfl).bind fun _ _ => answers_reject rfl
  unfold CTransaction.connectInputs
  split_ifs
  · exact answers_ok
  · refine (answers_connectChecks hin).bind fun nValueIn _ => ?_
    refine (answers_connectSpends (by omega) hcontains).bind fun _ _ => ?_
    exact (hfees nValueIn).bind fun _ _ => answers_ok

end Inputs

/-! ## Candidates -/

/-- The checks of a candidate against what has been taken come back: it
is taken, or skipped. -/
theorem exists_tryConnect (c : MinerContext) (sel : Selection) {tx : CTransaction} (nMinFee : ℤ)
    (hcb : tx.isCoinBase = false) (hout : ∃ n, tx.getValueOut = .ok n) :
    ∃ r, tryConnect c sel tx nMinFee = .ok r := by
  have hskip : ∀ {α : Type} {r : Except Failure α}, Answers r → ∃ o, orSkip r = .ok o := by
    intro α r hr
    cases r with
    | ok a => exact ⟨some a, rfl⟩
    | error f => exact ⟨none, by rw [orSkip, if_pos (hr f rfl)]⟩
  obtain ⟨nValueOut, hout⟩ := hout
  have hfetch : Answers (tx.fetchInputs c.s c.ans sel.mapTestPool false true) := answers_fetchInputs
  unfold tryConnect
  cases hf : tx.fetchInputs c.s c.ans sel.mapTestPool false true with
  | error f => exact ⟨none, by rw [orSkip, if_pos (hfetch f hf), except_ok_bind]⟩
  | ok mapInputs =>
    have hin := fetched_of_fetchInputs hcb hf
    obtain ⟨txouts, houts⟩ := exists_outputsFor hin
    have hvalue : tx.getValueIn mapInputs = .ok (txouts.map (·.nValue)).sum := by
      rw [CTransaction.getValueIn, hcb, if_neg Bool.false_ne_true, houts, except_ok_bind]
    have hP2SH : ∃ n, tx.getP2SHSigOpCount mapInputs = .ok n :=
      ⟨_, by rw [CTransaction.getP2SHSigOpCount, hcb, if_neg Bool.false_ne_true, houts,
        except_ok_bind]⟩
    obtain ⟨nP2SH, hP2SH⟩ := hP2SH
    have hconnect : Answers (tx.connectInputs c.s mapInputs sel.mapTestPool CDiskTxPos.inMemPool
        c.pindexPrev false true true) :=
      answers_connectInputs hin fun f h => absurd h (by rw [hout]; simp)
    obtain ⟨o, ho⟩ := hskip hconnect
    rw [orSkip, except_ok_bind]
    dsimp only
    rw [hvalue, except_ok_bind, hout, except_ok_bind]
    split_ifs
    · exact ⟨none, rfl⟩
    · rw [hP2SH, except_ok_bind]
      split_ifs
      · exact ⟨none, rfl⟩
      · rw [ho, except_ok_bind]
        cases o with
        | none => exact ⟨none, rfl⟩
        | some m => exact ⟨_, rfl⟩

/-! ## One turn of the scan -/

section Scan

variable (s : NodeState) (ans : Answer)

/-- The previous transaction of an input can be read from disk. -/
def isOnDisk (txin : CTxIn) : Bool := (readPrevTx s.txdb s.blockFiles ans txin.prevout).isSome

/-- An input that waits for a transaction of the pool. -/
def isWaiting (txin : CTxIn) : Bool :=
  !isOnDisk s ans txin && s.mempool.mapTx.contains txin.prevout.hash

/-- An input that is nowhere. -/
def isMissing (txin : CTxIn) : Bool :=
  !isOnDisk s ans txin && !s.mempool.mapTx.contains txin.prevout.hash

/-- A transaction the scan does not leave out at once. -/
def isScanned (tx : CTransaction) : Bool :=
  !(tx.isCoinBase || tx.isCoinStake || !tx.isFinal s.nBestHeight ans.nAdjustedTime 0 0)

/-- The parents a turn enters its node under: those of the waiting inputs
before the first that is missing. -/
def waitsFor (l : List CTxIn) : List Uint256 :=
  ((l.takeWhile fun txin => !isMissing s ans txin).filter (isWaiting s ans)).map (·.prevout.hash)

/-- `mapDependers[hash]` -/
def Scanned.dependers (sc : Scanned) (hash : Uint256) : List ℕ := (sc.mapDependers[hash]?).getD []

variable {s ans}

/-- **What a turn gathers**, its node once it has one being `address`. -/
theorem gatherInputs_spec (address : ℕ) : ∀ {l : List CTxIn} {sc : Scanned} {g : Gathered},
    (g.porphan = none → address = sc.nextAddress) → (∀ a, g.porphan = some a → a = address) →
    ∀ {sc' : Scanned} {g' : Gathered}, gatherInputs s ans l sc g = (sc', g') →
      sc'.vOrphan = sc.vOrphan ∧ sc'.vecPriority = sc.vecPriority ∧
      g'.candidate.tx = g.candidate.tx ∧
      (g'.fMissingInputs = true ↔ g.fMissingInputs = true ∨ ∃ txin ∈ l, isMissing s ans txin = true) ∧
      (∀ a, g'.porphan = some a ↔ a = address ∧ (g.porphan = some address ∨ waitsFor s ans l ≠ [])) ∧
      g'.setDependsOn = g.setDependsOn ∪ (waitsFor s ans l).toFinset ∧
      (∀ hash a, a ∈ sc'.dependers hash ↔
        a ∈ sc.dependers hash ∨ a = address ∧ hash ∈ waitsFor s ans l) ∧
      sc'.nextAddress = if g.porphan = none ∧ waitsFor s ans l ≠ [] then sc.nextAddress + 1
        else sc.nextAddress
  | [], sc, g, hnone, hsome, sc', g', h => by
    obtain ⟨rfl, rfl⟩ := Prod.mk.inj h
    refine ⟨rfl, rfl, rfl, by simp, fun a => ?_, by simp [waitsFor], by simp [waitsFor],
      by simp [waitsFor]⟩
    constructor
    · intro ha
      obtain rfl := hsome a ha
      exact ⟨rfl, .inl ha⟩
    · rintro ⟨rfl, ha | ha⟩
      · exact ha
      · exact absurd rfl ha
  | txin :: l, sc, g, hnone, hsome, sc', g', h => by
    rw [gatherInputs] at h
    cases hd : readPrevTx s.txdb s.blockFiles ans txin.prevout with
    | some prev =>
      have hdisk : isOnDisk s ans txin = true := by rw [isOnDisk, hd]; rfl
      have hmissing : isMissing s ans txin = false := by simp [isMissing, hdisk]
      have hwaits : waitsFor s ans (txin :: l) = waitsFor s ans l := by
        simp [waitsFor, hmissing, isWaiting, hdisk]
      rw [hd] at h
      have ih := gatherInputs_spec address (by exact hnone) (by exact hsome) h
      rw [hwaits]
      simpa [hmissing] using ih
    | none =>
      have hdisk : isOnDisk s ans txin = false := by rw [isOnDisk, hd]; rfl
      rw [hd] at h
      cases hp : s.mempool.mapTx[txin.prevout.hash]? with
      | none =>
        have hpool : s.mempool.mapTx.contains txin.prevout.hash = false := by
          rw [Std.ExtTreeMap.contains_eq_isSome_getElem?, hp]; rfl
        have hmissing : isMissing s ans txin = true := by simp [isMissing, hdisk, hpool]
        have hwaits : waitsFor s ans (txin :: l) = [] := by
          simp [waitsFor, hmissing]
        rw [hp] at h
        obtain ⟨rfl, rfl⟩ := Prod.mk.inj h
        rw [hwaits]
        refine ⟨rfl, rfl, rfl, by simp [hmissing], fun a => ?_, by simp, by simp, by simp⟩
        constructor
        · intro ha
          obtain rfl := hsome a ha
          exact ⟨rfl, .inl ha⟩
        · rintro ⟨rfl, ha | ha⟩
          · exact ha
          · exact absurd rfl ha
      | some txPrev =>
        have hpool : s.mempool.mapTx.contains txin.prevout.hash = true := by
          rw [Std.ExtTreeMap.contains_eq_isSome_getElem?, hp]; rfl
        have hmissing : isMissing s ans txin = false := by simp [isMissing, hpool]
        have hwaits : waitsFor s ans (txin :: l) = txin.prevout.hash :: waitsFor s ans l := by
          simp [waitsFor, hmissing, isWaiting, hdisk, hpool]
        rw [hp] at h
        have haddr : g.porphan.getD sc.nextAddress = address := by
          cases hg : g.porphan with
          | none => exact (hnone hg).symm
          | some a => exact hsome a hg
        dsimp only at h
        rw [haddr] at h
        obtain ⟨h₁, h₂, h₃, h₄, h₅, h₆, h₇, h₈⟩ := gatherInputs_spec address
          (by simp) (by rintro a ha; exact (Option.some.inj ha).symm) h
        rw [hwaits]
        refine ⟨h₁, h₂, h₃, ?_, ?_, ?_, ?_, ?_⟩
        · simpa [hmissing] using h₄
        · intro a
          rw [h₅]
          simp
        · rw [h₆]
          ext x
          simp
        · intro hash a
          rw [h₇]
          simp only [Scanned.dependers, Std.ExtTreeMap.getElem?_insert, Std.compare_eq_iff_eq]
          by_cases hh : txin.prevout.hash = hash
          · subst hh
            simp only [if_true, Option.getD_some, List.mem_append, List.mem_cons, true_or, and_true]
            tauto
          · simp only [hh, if_false, List.mem_cons, Ne.symm hh, false_or]
        · rw [h₈]
          cases hg : g.porphan with
          | none => simp
          | some a => simp

/-! ## The whole scan -/

variable (s ans) in
/-- All a transaction draws on is on disk. -/
def IsReady (tx : CTransaction) : Prop :=
  isScanned s ans tx = true ∧ ∀ txin ∈ tx.vin, isOnDisk s ans txin = true

variable (s ans) in
/-- A transaction that is entered under `hash` and then found to miss an
input. -/
def LeavesStale (tx : CTransaction) (hash : Uint256) : Prop :=
  isScanned s ans tx = true ∧ (∃ txin ∈ tx.vin, isMissing s ans txin = true) ∧
    hash ∈ waitsFor s ans tx.vin

/-- A candidate is no coinbase, and its outputs can be summed. -/
def Summable (tx : CTransaction) : Prop := tx.isCoinBase = false ∧ ∃ n, tx.getValueOut = .ok n

omit [P : Platform] in
/-- Inputs that are all there are on disk, or something is waited for. -/
theorem isOnDisk_of_waitsFor {l : List CTxIn} (hmissing : ¬ ∃ txin ∈ l, isMissing s ans txin = true) :
    waitsFor s ans l = [] ↔ ∀ txin ∈ l, isOnDisk s ans txin = true := by
  have htake : l.takeWhile (fun txin => !isMissing s ans txin) = l := by
    rw [List.takeWhile_eq_self_iff]
    intro txin hin
    by_contra hm
    exact hmissing ⟨txin, hin, by simpa using hm⟩
  rw [waitsFor, htake, List.map_eq_nil_iff, List.filter_eq_nil_iff]
  refine forall₂_congr fun txin hin => ?_
  have hm : isMissing s ans txin = false := by
    by_contra hm
    exact hmissing ⟨txin, hin, by simpa using hm⟩
  rw [isMissing] at hm
  rw [isWaiting]
  cases hd : isOnDisk s ans txin <;> simp_all

variable (s ans) in
/-- **What the scan leaves**, after the transactions `done`: the queue has
those that are ready, the list the nodes of those that wait, and an entry
without its node is one a transaction with a missing input left. -/
structure ScanInv (done : List CTransaction) (sc : Scanned) : Prop where
  entered : ∀ (hash : Uint256) (a : ℕ), a ∈ sc.dependers hash → a < sc.nextAddress
  listed : ∀ a : ℕ, sc.vOrphan.contains a = true → a < sc.nextAddress
  stale : ∀ hash : Uint256, (∃ a ∈ sc.dependers hash, sc.vOrphan.contains a = false) ↔
    ∃ tx ∈ done, LeavesStale s ans tx hash
  waiting : ∀ (a : ℕ) (o : COrphan), sc.vOrphan[a]? = some o → Summable o.candidate.tx
  queued : ∀ p ∈ sc.vecPriority, p.tx ∈ done ∧ IsReady s ans p.tx ∧ Summable p.tx
  ready : ∀ tx ∈ done, IsReady s ans tx → ∃ p ∈ sc.vecPriority, p.tx = tx
  count : sc.vecPriority.length + sc.vOrphan.size ≤ done.length

omit [P : Platform] in
/-- A turn that leaves a transaction out, or takes it off the list again. -/
theorem ScanInv.skip {done : List CTransaction} {sc sc' : Scanned} {tx : CTransaction}
    (hi : ScanInv s ans done sc) (hnext : sc.nextAddress ≤ sc'.nextAddress)
    (horphan : sc'.vOrphan = sc.vOrphan) (hqueue : sc'.vecPriority = sc.vecPriority)
    (hdep : ∀ hash a, a ∈ sc'.dependers hash ↔
      a ∈ sc.dependers hash ∨ a = sc.nextAddress ∧ LeavesStale s ans tx hash)
    (hfresh : ∀ hash, LeavesStale s ans tx hash → sc.nextAddress < sc'.nextAddress)
    (hready : ¬ IsReady s ans tx) : ScanInv s ans (done ++ [tx]) sc' := by
  refine ⟨?_, ?_, ?_, ?_, ?_, ?_, ?_⟩
  · intro hash a ha
    rcases (hdep hash a).1 ha with ha | ⟨rfl, hstale⟩
    · exact (hi.entered hash a ha).trans_le hnext
    · exact hfresh hash hstale
  · intro a ha
    rw [horphan] at ha
    exact (hi.listed a ha).trans_le hnext
  · intro hash
    rw [horphan]
    constructor
    · rintro ⟨a, ha, hnot⟩
      rcases (hdep hash a).1 ha with ha | ⟨rfl, hstale⟩
      · obtain ⟨t, ht, hstale⟩ := (hi.stale hash).1 ⟨a, ha, hnot⟩
        exact ⟨t, List.mem_append_left _ ht, hstale⟩
      · exact ⟨tx, List.mem_append_right _ (List.mem_singleton.2 rfl), hstale⟩
    · rintro ⟨t, ht, hstale⟩
      rcases List.mem_append.1 ht with ht | ht
      · obtain ⟨a, ha, hnot⟩ := (hi.stale hash).2 ⟨t, ht, hstale⟩
        exact ⟨a, (hdep hash a).2 (.inl ha), hnot⟩
      · obtain rfl := List.mem_singleton.1 ht
        refine ⟨sc.nextAddress, (hdep hash _).2 (.inr ⟨rfl, hstale⟩), ?_⟩
        by_contra hc
        exact lt_irrefl _ (hi.listed _ (by simpa using hc))
  · rw [horphan]
    exact hi.waiting
  · intro p hp
    rw [hqueue] at hp
    obtain ⟨h₁, h₂⟩ := hi.queued p hp
    exact ⟨List.mem_append_left _ h₁, h₂⟩
  · intro t ht ht'
    rw [hqueue]
    rcases List.mem_append.1 ht with ht | ht
    · exact hi.ready t ht ht'
    · obtain rfl := List.mem_singleton.1 ht
      exact absurd ht' hready
  · rw [hqueue, horphan, List.length_append]
    exact hi.count.trans (Nat.le_add_right _ _)

omit [P : Platform] in
/-- A turn that puts a transaction's node on the list. -/
theorem ScanInv.wait {done : List CTransaction} {sc sc' : Scanned} {tx : CTransaction} {o : COrphan}
    (hi : ScanInv s ans done sc) (hnext : sc'.nextAddress = sc.nextAddress + 1)
    (horphan : sc'.vOrphan = sc.vOrphan.insert sc.nextAddress o)
    (hqueue : sc'.vecPriority = sc.vecPriority)
    (hdep : ∀ hash a, a ∈ sc'.dependers hash → a ∈ sc.dependers hash ∨ a = sc.nextAddress)
    (hkeep : ∀ hash a, a ∈ sc.dependers hash → a ∈ sc'.dependers hash)
    (hsum : Summable o.candidate.tx) (hready : ¬ IsReady s ans tx)
    (hstale : ∀ hash, ¬ LeavesStale s ans tx hash) : ScanInv s ans (done ++ [tx]) sc' := by
  have hcontains : ∀ a, sc'.vOrphan.contains a = true ↔
      a = sc.nextAddress ∨ sc.vOrphan.contains a = true := by
    intro a
    rw [horphan, Std.ExtTreeMap.contains_insert]
    simp only [Bool.or_eq_true, beq_iff_eq, Std.compare_eq_iff_eq]
    exact or_congr_left eq_comm
  refine ⟨?_, ?_, ?_, ?_, ?_, ?_, ?_⟩
  · intro hash a ha
    rw [hnext]
    rcases hdep hash a ha with ha | rfl
    · exact Nat.lt_succ_of_lt (hi.entered hash a ha)
    · exact Nat.lt_succ_self _
  · intro a ha
    rw [hnext]
    rcases (hcontains a).1 ha with rfl | ha
    · exact Nat.lt_succ_self _
    · exact Nat.lt_succ_of_lt (hi.listed a ha)
  · intro hash
    constructor
    · rintro ⟨a, ha, hnot⟩
      have hne : ¬ (a = sc.nextAddress ∨ sc.vOrphan.contains a = true) := by
        rw [← hcontains, hnot]
        exact Bool.false_ne_true
      rw [not_or] at hne
      have ha' := (hdep hash a ha).resolve_right hne.1
      obtain ⟨t, ht, hs⟩ := (hi.stale hash).1 ⟨a, ha', Bool.eq_false_iff.2 hne.2⟩
      exact ⟨t, List.mem_append_left _ ht, hs⟩
    · rintro ⟨t, ht, hs⟩
      rcases List.mem_append.1 ht with ht | ht
      · obtain ⟨a, ha, hnot⟩ := (hi.stale hash).2 ⟨t, ht, hs⟩
        refine ⟨a, hkeep hash a ha, ?_⟩
        by_contra hc
        rcases (hcontains a).1 (by simpa using hc) with rfl | hc
        · exact lt_irrefl _ (hi.entered hash _ ha)
        · exact absurd hc (by simp [hnot])
      · obtain rfl := List.mem_singleton.1 ht
        exact absurd hs (hstale hash)
  · intro a o' ho'
    rw [horphan, Std.ExtTreeMap.getElem?_insert] at ho'
    split_ifs at ho'
    · obtain rfl := Option.some.inj ho'
      exact hsum
    · exact hi.waiting a o' ho'
  · intro p hp
    rw [hqueue] at hp
    obtain ⟨h₁, h₂⟩ := hi.queued p hp
    exact ⟨List.mem_append_left _ h₁, h₂⟩
  · intro t ht ht'
    rw [hqueue]
    rcases List.mem_append.1 ht with ht | ht
    · exact hi.ready t ht ht'
    · obtain rfl := List.mem_singleton.1 ht
      exact absurd ht' hready
  · have hsize := Std.ExtTreeMap.size_insert_le (t := sc.vOrphan) (k := sc.nextAddress) (v := o)
    have := hi.count
    rw [hqueue, horphan, List.length_append, List.length_singleton]
    omega

omit [P : Platform] in
/-- A turn that puts a transaction on the queue. -/
theorem ScanInv.enqueue {done : List CTransaction} {sc sc' : Scanned} {p : TxPriority}
    (hi : ScanInv s ans done sc) (hnext : sc'.nextAddress = sc.nextAddress)
    (horphan : sc'.vOrphan = sc.vOrphan) (hqueue : sc'.vecPriority = sc.vecPriority ++ [p])
    (hdep : ∀ hash a, a ∈ sc'.dependers hash ↔ a ∈ sc.dependers hash)
    (hready : IsReady s ans p.tx) (hsum : Summable p.tx)
    (hstale : ∀ hash, ¬ LeavesStale s ans p.tx hash) : ScanInv s ans (done ++ [p.tx]) sc' := by
  refine ⟨?_, ?_, ?_, ?_, ?_, ?_, ?_⟩
  · intro hash a ha
    rw [hnext]
    exact hi.entered hash a ((hdep hash a).1 ha)
  · intro a ha
    rw [hnext]
    exact hi.listed a (horphan ▸ ha)
  · intro hash
    simp only [horphan, hdep, hi.stale hash, List.mem_append, List.mem_singleton]
    constructor
    · rintro ⟨t, ht, hs⟩
      exact ⟨t, .inl ht, hs⟩
    · rintro ⟨t, ht | rfl, hs⟩
      · exact ⟨t, ht, hs⟩
      · exact absurd hs (hstale hash)
  · rw [horphan]
    exact hi.waiting
  · intro q hq
    rw [hqueue] at hq
    rcases List.mem_append.1 hq with hq | hq
    · obtain ⟨h₁, h₂⟩ := hi.queued q hq
      exact ⟨List.mem_append_left _ h₁, h₂⟩
    · obtain rfl := List.mem_singleton.1 hq
      exact ⟨List.mem_append_right _ (List.mem_singleton.2 rfl), hready, hsum⟩
  · intro t ht ht'
    rw [hqueue]
    rcases List.mem_append.1 ht with ht | ht
    · obtain ⟨q, hq, hqt⟩ := hi.ready t ht ht'
      exact ⟨q, List.mem_append_left _ hq, hqt⟩
    · obtain rfl := List.mem_singleton.1 ht
      exact ⟨p, List.mem_append_right _ (List.mem_singleton.2 rfl), rfl⟩
  · have := hi.count
    rw [hqueue, horphan, List.length_append, List.length_append, List.length_singleton,
      List.length_singleton]
    omega

/-- **One turn of the scan.** -/
theorem scanInv_scanTx {done : List CTransaction} {sc sc' : Scanned} {tx : CTransaction}
    (hi : ScanInv s ans done sc) (h : scanTx s ans sc tx = .ok sc') :
    ScanInv s ans (done ++ [tx]) sc' := by
  rw [scanTx] at h
  cases hscan : isScanned s ans tx with
  | false =>
    have hcond := hscan
    rw [isScanned, Bool.not_eq_false'] at hcond
    rw [if_pos hcond] at h
    obtain rfl := Except.ok.inj h
    exact hi.skip le_rfl rfl rfl (by simp [LeavesStale, hscan]) (by simp [LeavesStale, hscan])
      (by simp [IsReady, hscan])
  | true =>
    have hcond := hscan
    rw [isScanned, Bool.not_eq_true'] at hcond
    rw [if_neg (by rw [hcond]; exact Bool.false_ne_true)] at h
    rcases hg : gatherInputs s ans tx.vin sc ⟨⟨tx, 0, 0⟩, none, ∅, false⟩ with ⟨sc₁, g⟩
    obtain ⟨horphan, hqueue, htx, hmissing, hporphan, -, hdep, hnext⟩ :=
      gatherInputs_spec sc.nextAddress (by simp) (by simp) hg
    simp only [hg] at h
    simp only [Bool.false_eq_true, false_or, true_and] at hmissing hnext
    have hstale : ∀ hash, LeavesStale s ans tx hash ↔
        g.fMissingInputs = true ∧ hash ∈ waitsFor s ans tx.vin := by
      intro hash
      rw [LeavesStale, hmissing]
      simp [hscan]
    have hle : sc.nextAddress ≤ sc₁.nextAddress := by
      rw [hnext]
      split_ifs <;> omega
    cases hm : g.fMissingInputs with
    | true =>
      rw [hm, if_pos rfl] at h
      obtain rfl := Except.ok.inj h
      refine hi.skip hle horphan hqueue ?_ ?_ ?_
      · intro hash a
        rw [hdep, hstale, hm]
        simp
      · intro hash hs
        have hne := List.ne_nil_of_mem ((hstale hash).1 hs).2
        rw [hnext, if_pos hne]
        exact Nat.lt_succ_self _
      · rintro ⟨-, hdisk⟩
        obtain ⟨txin, hin, hmiss⟩ := hmissing.1 hm
        exact absurd hmiss (by simp [isMissing, hdisk txin hin])
    | false =>
      rw [hm, if_neg Bool.false_ne_true] at h
      obtain ⟨nValueOut, hout, h⟩ := except_bind_eq_ok.1 h
      have hnone : ¬ ∃ txin ∈ tx.vin, isMissing s ans txin = true := by
        rw [← hmissing, hm]
        exact Bool.false_ne_true
      have hsum : Summable g.candidate.tx := by
        rw [htx]
        refine ⟨?_, nValueOut, hout⟩
        by_contra hcb
        rw [Bool.not_eq_false] at hcb
        rw [hcb] at hcond
        exact absurd hcond (by simp)
      have hnostale : ∀ hash, ¬ LeavesStale s ans tx hash := by
        intro hash hs
        exact absurd ((hstale hash).1 hs).1 (by simp [hm])
      cases hp : g.porphan with
      | some address =>
        obtain ⟨rfl, hwait⟩ := (hporphan address).1 hp
        have hwait : waitsFor s ans tx.vin ≠ [] := by simpa using hwait
        rw [hp] at h
        obtain rfl := Except.ok.inj h
        refine hi.wait ?_ (by rw [horphan]) hqueue ?_ ?_ hsum ?_ hnostale
        · show sc₁.nextAddress = _
          rw [hnext, if_pos hwait]
        · intro hash a ha
          exact ((hdep hash a).1 ha).imp_right And.left
        · exact fun hash a ha => (hdep hash a).2 (.inl ha)
        · rintro ⟨-, hdisk⟩
          exact hwait ((isOnDisk_of_waitsFor hnone).2 hdisk)
      | none =>
        have hwait : waitsFor s ans tx.vin = [] := by
          by_contra hne
          have := (hporphan sc.nextAddress).2 ⟨rfl, .inr hne⟩
          rw [hp] at this
          exact absurd this (by simp)
        rw [hp] at h
        obtain rfl := Except.ok.inj h
        have hnew : ScanInv s ans (done ++ [g.candidate.tx])
            { sc₁ with vecPriority := sc₁.vecPriority ++ [g.candidate] } := by
          refine hi.enqueue (by simp [hnext, hwait]) horphan (by rw [hqueue]) ?_ ?_ hsum ?_
          · intro hash a
            exact (hdep hash a).trans (by simp [hwait])
          · rw [htx]
            exact ⟨hscan, (isOnDisk_of_waitsFor hnone).1 hwait⟩
          · rw [htx]
            exact hnostale
        rwa [htx] at hnew

/-- **The scan**, over all it is given. -/
theorem scanInv_scanTxs : ∀ {txs done : List CTransaction} {sc sc' : Scanned},
    ScanInv s ans done sc → scanTxs s ans sc txs = .ok sc' → ScanInv s ans (done ++ txs) sc'
  | [], done, sc, sc', hi, h => by
    obtain rfl := Except.ok.inj h
    rwa [List.append_nil]
  | tx :: txs, done, sc, sc', hi, h => by
    rw [scanTxs] at h
    obtain ⟨sc₁, h₁, h⟩ := except_bind_eq_ok.1 h
    have := scanInv_scanTxs (scanInv_scanTx hi h₁) h
    rwa [List.append_assoc, List.singleton_append] at this

omit [P : Platform] in
theorem scanInv_empty : ScanInv s ans [] ⟨0, ∅, ∅, []⟩ where
  entered hash a ha := absurd ha (by simp [Scanned.dependers])
  listed a ha := absurd ha (by simp)
  stale hash := by simp [Scanned.dependers]
  waiting a o ho := absurd ho (by simp)
  queued p hp := absurd hp (by simp)
  ready tx ht := absurd ht (by simp)
  count := by simp

end Scan

end CryptoBullion
