import CryptoBullion.Model.Database
/-!
# Looking through a batch

A batch stands for the map it will turn the database into, and `Read`
answers from that map: it returns the last value put, or nothing after a
deletion. `Exists` does not. Where the last entry under a key is a
deletion it goes on to the database, which still has the key until the
batch is committed.
-/

namespace CryptoBullion

/-! ## The scanner -/

/-- A write or an erasure of a typed key, as a transaction makes them. -/
inductive DbCall (K : Type)
  | write (key : K) (ssValue : Bytes)
  | erase (key : K)

variable {K T : Type} {serialize : K → Bytes} {unserialize : Bytes → Option T}

/-- The entry a call queues. -/
def DbCall.entry (serialize : K → Bytes) : DbCall K → Write Bytes Bytes
  | .write key ssValue => (serialize key, some ssValue)
  | .erase key => (serialize key, none)

/-- A call, made. -/
def DbCall.perform (serialize : K → Bytes) (txdb : RawTxDB) : DbCall K → RawTxDB
  | .write key ssValue => txdb.write serialize key ssValue
  | .erase key => txdb.erase serialize key

/-- What the scanner makes of the last entry under its key. -/
def CBatchScanner.agrees (scanner : CBatchScanner) : Option (Option Bytes) → Prop
  | none => scanner.foundEntry = false ∧ scanner.deleted = false
  | some none => scanner.foundEntry = true ∧ scanner.deleted = true
  | some (some value) =>
    scanner.foundEntry = true ∧ scanner.deleted = false ∧ scanner.foundValue = value

/-- **The scanner ends with the last entry under its key**, by the entries
of the batch from its front. -/
theorem agrees_scanBatch (key value : Bytes) (batch : List (Write Bytes Bytes)) :
    (scanBatch batch key value).agrees (Store.scan key batch) := by
  induction batch using List.reverseRecOn with
  | nil => exact ⟨rfl, rfl⟩
  | append_singleton batch entry ih =>
    rw [Store.scan_concat, scanBatch, List.foldl_append, ← scanBatch]
    obtain ⟨k, v⟩ := entry
    by_cases hk : k = key
    · rw [if_pos hk]
      cases v with
      | none => simp [CBatchScanner.handle, CBatchScanner.agrees, hk]
      | some v => simp [CBatchScanner.handle, CBatchScanner.agrees, hk]
    · rw [if_neg hk]
      cases v with
      | none => simpa [CBatchScanner.handle, hk] using ih
      | some v => simpa [CBatchScanner.handle, hk] using ih

/-- **`Read` answers from the batch's map.** -/
theorem RawTxDB.read_eq {txdb : RawTxDB} {key : K} :
    txdb.read serialize unserialize key = (Store.read txdb (serialize key)).bind unserialize := by
  unfold RawTxDB.read Store.read
  cases hb : txdb.activeBatch with
  | none => rfl
  | some batch =>
    have hscan := agrees_scanBatch (serialize key) [] batch
    dsimp only
    rcases hs : Store.scan (serialize key) batch with _ | _ | v
    · rw [hs] at hscan
      simp [hscan.1, hscan.2]
    · rw [hs] at hscan
      simp [hscan.2]
    · rw [hs] at hscan
      simp [hscan.1, hscan.2.1, hscan.2.2]

/-! ## Existence -/

/-- `Exists` sees what a batch puts, and goes on to the database past what
it deletes. -/
theorem RawTxDB.exists?_eq {txdb : RawTxDB} {batch : List (Write Bytes Bytes)} {key : K}
    (hb : txdb.activeBatch = some batch) :
    txdb.exists? serialize key =
      match Store.scan (serialize key) batch with
      | some (some _) => true
      | _ => txdb.committed.contains (serialize key) := by
  have hscan := agrees_scanBatch (serialize key) [] batch
  unfold RawTxDB.exists?
  rw [hb]
  dsimp only
  rcases hs : Store.scan (serialize key) batch with _ | _ | v
  · rw [hs] at hscan
    simp [hscan.1]
  · rw [hs] at hscan
    simp [hscan.2]
  · rw [hs] at hscan
    simp [hscan.1, hscan.2.1]

/-! ## A transaction -/

/-- `TxnBegin` on a database with the content `m`, then the calls. -/
def inBatch (serialize : K → Bytes) (m : Map Bytes Bytes) (calls : List (DbCall K)) : RawTxDB :=
  calls.foldl (DbCall.perform serialize) (Store.begin { committed := m, activeBatch := none })

variable {m : Map Bytes Bytes} {calls : List (DbCall K)} {key : K}

/-- The calls are queued in order, and reach nothing committed. -/
theorem inBatch_eq :
    inBatch serialize m calls =
      { committed := m, activeBatch := some (calls.map (DbCall.entry serialize)) } := by
  induction calls using List.reverseRecOn with
  | nil => rfl
  | append_singleton calls call ih =>
    rw [inBatch, List.foldl_append, ← inBatch, ih, List.map_append]
    cases call with
    | write k v => rfl
    | erase k => rfl

/-- The last call on a key, by its bytes, is an erasure. -/
def ErasedLast (serialize : K → Bytes) (calls : List (DbCall K)) (key : K) : Prop :=
  ∃ pre post k, calls = pre ++ .erase k :: post ∧ serialize k = serialize key ∧
    ∀ call ∈ post, (call.entry serialize).1 ≠ serialize key

theorem scan_eq_erased_iff :
    Store.scan (serialize key) (calls.map (DbCall.entry serialize)) = some none ↔
      ErasedLast serialize calls key := by
  rw [Store.scan_eq_some_iff]
  constructor
  · rintro ⟨pre, post, heq, hpost⟩
    obtain ⟨pre', rest, rfl, -, hrest⟩ := List.map_eq_append_iff.1 heq
    obtain ⟨call, post', rfl, hcall, rfl⟩ := List.map_eq_cons_iff.1 hrest
    cases call with
    | write k v => exact absurd (congrArg Prod.snd hcall) (by simp [DbCall.entry])
    | erase k =>
      refine ⟨pre', post', k, rfl, congrArg Prod.fst hcall, fun call hc => ?_⟩
      exact hpost _ (List.mem_map_of_mem hc)
  · rintro ⟨pre, post, k, rfl, hk, hpost⟩
    refine ⟨pre.map (DbCall.entry serialize), post.map (DbCall.entry serialize), ?_, ?_⟩
    · rw [List.map_append, List.map_cons, DbCall.entry, hk]
    · intro w hw
      obtain ⟨call, hc, rfl⟩ := List.mem_map.1 hw
      exact hpost call hc

/-- What a transaction owes a key: `Read` and `Exists` answer from the map
the commit leaves, and after an abort from the one it found. -/
structure Transparent (serialize : K → Bytes) (m : Map Bytes Bytes) (calls : List (DbCall K))
    (key : K) : Prop where
  read : ∀ (T : Type) (unserialize : Bytes → Option T),
    (inBatch serialize m calls).read serialize unserialize key =
      RawTxDB.read serialize unserialize (inBatch serialize m calls).commit key
  exists? : (inBatch serialize m calls).exists? serialize key = true ↔
    serialize key ∈ (inBatch serialize m calls).commit.committed
  read_abort : ∀ (T : Type) (unserialize : Bytes → Option T),
    RawTxDB.read serialize unserialize (inBatch serialize m calls).abort key =
      m[serialize key]?.bind unserialize
  exists_abort : RawTxDB.exists? serialize (inBatch serialize m calls).abort key = true ↔
    serialize key ∈ m

/-- **`Read` answers from the map to come.** -/
theorem read_inBatch :
    (inBatch serialize m calls).read serialize unserialize key =
      RawTxDB.read serialize unserialize (inBatch serialize m calls).commit key := by
  rw [RawTxDB.read_eq, RawTxDB.read_eq, Store.read_eq_committed Store.commit_activeBatch,
    Store.committed_commit]

/-- **`Exists` answers from the map to come** unless its last word on a key
of the database is a deletion. -/
theorem exists_inBatch_iff :
    ((inBatch serialize m calls).exists? serialize key = true ↔
        serialize key ∈ (inBatch serialize m calls).commit.committed) ↔
      ¬ (ErasedLast serialize calls key ∧ serialize key ∈ m) := by
  have hbatch : (inBatch serialize m calls).activeBatch =
      some (calls.map (DbCall.entry serialize)) := by
    rw [inBatch_eq]
  have hm : (inBatch serialize m calls).committed = m := by
    rw [inBatch_eq]
  rw [RawTxDB.exists?_eq hbatch, Std.ExtTreeMap.mem_iff_isSome_getElem?, Store.committed_commit,
    Store.read, hbatch, hm, ← scan_eq_erased_iff, Std.ExtTreeMap.mem_iff_contains]
  dsimp only
  rcases Store.scan (serialize key) (calls.map (DbCall.entry serialize)) with _ | _ | v
  · simp
  · simp
  · simp

/-- **A batch is as good as the map it makes**, for `Read` always and for
`Exists` exactly where the last call on the key is not the erasure of a
key the database has. -/
theorem transparent_iff :
    Transparent serialize m calls key ↔ ¬ (ErasedLast serialize calls key ∧ serialize key ∈ m) := by
  constructor
  · exact fun h => exists_inBatch_iff.1 h.exists?
  · intro h
    refine ⟨fun _ _ => read_inBatch, exists_inBatch_iff.2 h, ?_, ?_⟩
    · intro T unserialize
      rw [RawTxDB.read_eq, Store.read_abort, inBatch_eq]
    · rw [inBatch_eq]
      exact Std.ExtTreeMap.mem_iff_contains.symm

/-- **An erased key still exists** until the commit. -/
theorem not_transparent :
    ¬ ∀ (serialize : Bytes → Bytes) (m : Map Bytes Bytes) (calls : List (DbCall Bytes))
        (key : Bytes), Transparent serialize m calls key := by
  intro h
  have hexists := (h id (Std.ExtTreeMap.insert ∅ [1] [2]) [.erase [1]] [1]).exists?
  revert hexists
  decide +kernel

end CryptoBullion
