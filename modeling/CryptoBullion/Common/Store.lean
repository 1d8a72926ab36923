import Mathlib
/-!
# A key-value store with one pending batch

A store commits whole batches of writes. While a batch is open, writes
are queued in it and reads look through it first, so a reader inside the
batch sees its own writes and nobody else does; committing replays the
batch over the committed map, aborting forgets it. Nothing here knows
what the keys or values are.

The one fact everything else rests on is `getElem?_replay`: replaying a
batch and reading is the same as scanning the batch and falling back on
the committed map. Reads are therefore unchanged by a commit
(`read_commit`), and after an abort they are what they were before the
batch was opened (`read_abort`).
-/

namespace CryptoBullion

/-- One queued write: a value to put under the key, or `none` to delete. -/
abbrev Write (κ α : Type) := κ × Option α

/-- A committed map and, while a transaction is open, its queued writes
in the order they were made. -/
structure Store (κ α : Type) [Ord κ] where
  committed : Std.ExtTreeMap κ α compare
  activeBatch : Option (List (Write κ α))

namespace Store

variable {κ α : Type}

/-! ## Scanning a batch -/

section Scan

variable [DecidableEq κ]

/-- The last queued write under `k`, where the batch has one. -/
def scan (k : κ) : List (Write κ α) → Option (Option α)
  | [] => none
  | w :: ws => (scan k ws).or (if w.1 = k then some w.2 else none)

@[simp] theorem scan_nil {k : κ} : scan k ([] : List (Write κ α)) = none := rfl

/-- **The last write wins.** -/
@[simp] theorem scan_concat {k : κ} {w : Write κ α} :
    ∀ {ws : List (Write κ α)},
      scan k (ws ++ [w]) = if w.1 = k then some w.2 else scan k ws
  | [] => by simp [scan]
  | v :: vs => by
    rw [List.cons_append, scan, scan_concat, scan]
    split <;> simp

/-- Where the batch is silent, nothing is queued under the key. -/
theorem scan_eq_none_iff {k : κ} : ∀ {ws : List (Write κ α)},
    scan k ws = none ↔ ∀ w ∈ ws, w.1 ≠ k
  | [] => by simp
  | w :: ws => by
    rw [scan, Option.or_eq_none_iff, scan_eq_none_iff, List.forall_mem_cons, and_comm]
    simp

/-- Where it speaks, it gives an entry no later one follows. -/
theorem scan_eq_some_iff {k : κ} {v : Option α} : ∀ {ws : List (Write κ α)},
    scan k ws = some v ↔ ∃ pre post, ws = pre ++ (k, v) :: post ∧ ∀ w ∈ post, w.1 ≠ k
  | [] => by simp
  | w :: ws => by
    rw [scan, Option.or_eq_some_iff, scan_eq_some_iff, scan_eq_none_iff]
    constructor
    · rintro (⟨pre, post, rfl, hpost⟩ | ⟨hsilent, hw⟩)
      · exact ⟨w :: pre, post, rfl, hpost⟩
      · obtain ⟨hk, hv⟩ : w.1 = k ∧ w.2 = v := by simpa using hw
        exact ⟨[], ws, by rw [List.nil_append, ← hk, ← hv], hsilent⟩
    · rintro ⟨_ | ⟨u, pre⟩, post, heq, hpost⟩
      · obtain ⟨rfl, rfl⟩ := List.cons.inj heq
        exact .inr ⟨hpost, by simp⟩
      · obtain ⟨rfl, rfl⟩ := List.cons.inj heq
        exact .inl ⟨pre, post, rfl, hpost⟩

end Scan

variable [Ord κ]

/-! ## Opening, queueing, committing -/

/-- Open an empty batch. -/
def begin (s : Store κ α) : Store κ α := { s with activeBatch := some [] }

/-- Forget the open batch. -/
def abort (s : Store κ α) : Store κ α := { s with activeBatch := none }

@[simp] theorem begin_committed {s : Store κ α} : s.begin.committed = s.committed := rfl
@[simp] theorem begin_activeBatch {s : Store κ α} : s.begin.activeBatch = some [] := rfl
@[simp] theorem abort_committed {s : Store κ α} : s.abort.committed = s.committed := rfl
@[simp] theorem abort_activeBatch {s : Store κ α} : s.abort.activeBatch = none := rfl

section Apply

variable [Std.TransOrd κ]

/-- One queued write, carried out. -/
def apply (m : Std.ExtTreeMap κ α compare) : Write κ α → Std.ExtTreeMap κ α compare
  | (k, some v) => m.insert k v
  | (k, none) => m.erase k

/-- A whole batch, carried out in order. -/
def replay (m : Std.ExtTreeMap κ α compare) (ws : List (Write κ α)) :
    Std.ExtTreeMap κ α compare :=
  ws.foldl apply m

/-- Carry the open batch out, all of it at once. -/
def commit (s : Store κ α) : Store κ α :=
  { committed := replay s.committed (s.activeBatch.getD []), activeBatch := none }

/-- A write: queued while a batch is open, carried out at once otherwise. -/
def write (s : Store κ α) (w : Write κ α) : Store κ α :=
  match s.activeBatch with
  | none => { s with committed := apply s.committed w }
  | some ws => { s with activeBatch := some (ws ++ [w]) }

@[simp] theorem commit_activeBatch {s : Store κ α} : s.commit.activeBatch = none := rfl

/-- A write leaves a batch open exactly when one was. -/
@[simp] theorem write_activeBatch_isSome {s : Store κ α} {w : Write κ α} :
    (s.write w).activeBatch.isSome = s.activeBatch.isSome := by
  rw [write]
  split <;> simp_all

/-- **While a batch is open, writes reach nothing committed.** -/
theorem write_committed {s : Store κ α} {w : Write κ α} (h : s.activeBatch.isSome) :
    (s.write w).committed = s.committed := by
  rw [write]
  split
  · simp_all
  · rfl

/-- With no batch open, a write is carried out at once. -/
theorem write_direct {s : Store κ α} {w : Write κ α} (h : s.activeBatch = none) :
    s.write w = { committed := apply s.committed w, activeBatch := none } := by
  rw [write, h]

end Apply

/-! ## Reading -/

section Read

variable [DecidableEq κ] [Std.TransOrd κ]

/-- A read: the open batch first, the committed map where the batch is
silent. -/
def read (s : Store κ α) (k : κ) : Option α :=
  match s.activeBatch with
  | none => s.committed[k]?
  | some ws => (scan k ws).getD s.committed[k]?

theorem read_eq_committed {s : Store κ α} (h : s.activeBatch = none) {k : κ} :
    s.read k = s.committed[k]? := by
  rw [read, h]

/-- Opening a batch hides nothing. -/
@[simp] theorem read_begin {s : Store κ α} {k : κ} : s.begin.read k = s.committed[k]? := rfl

/-- **Reads after an abort are the committed ones.** -/
@[simp] theorem read_abort {s : Store κ α} {k : κ} : s.abort.read k = s.committed[k]? := rfl

variable [Std.LawfulEqOrd κ]

theorem getElem?_apply {m : Std.ExtTreeMap κ α compare} {w : Write κ α} {k : κ} :
    (apply m w)[k]? = if w.1 = k then w.2 else m[k]? := by
  obtain ⟨j, _ | v⟩ := w
  · simp only [apply, Std.ExtTreeMap.getElem?_erase, Std.compare_eq_iff_eq]
  · simp only [apply, Std.ExtTreeMap.getElem?_insert, Std.compare_eq_iff_eq]

/-- **Replaying a batch is reading through it.** -/
theorem getElem?_replay {k : κ} :
    ∀ {ws : List (Write κ α)} {m : Std.ExtTreeMap κ α compare},
      (replay m ws)[k]? = (scan k ws).getD m[k]?
  | [], m => rfl
  | w :: ws, m => by
    rw [replay, List.foldl_cons, ← replay, getElem?_replay, getElem?_apply, scan]
    rcases scan k ws with _ | v
    · split <;> simp
    · rfl

/-- **A read after a write**, in or out of a batch. -/
theorem read_write {s : Store κ α} {w : Write κ α} {k : κ} :
    (s.write w).read k = if w.1 = k then w.2 else s.read k := by
  rw [write, read, read]
  rcases s.activeBatch with _ | ws
  · exact getElem?_apply
  · simp only [scan_concat]
    split <;> simp

theorem read_write_self {s : Store κ α} {w : Write κ α} : (s.write w).read w.1 = w.2 := by
  rw [read_write, if_pos rfl]

theorem read_write_of_ne {s : Store κ α} {w : Write κ α} {k : κ} (h : w.1 ≠ k) :
    (s.write w).read k = s.read k := by
  rw [read_write, if_neg h]

/-- **Reads survive a commit unchanged.** -/
theorem committed_commit {s : Store κ α} {k : κ} : s.commit.committed[k]? = s.read k := by
  simp only [commit, read]
  rcases s.activeBatch with _ | ws
  · rfl
  · exact getElem?_replay

end Read

end Store

end CryptoBullion
