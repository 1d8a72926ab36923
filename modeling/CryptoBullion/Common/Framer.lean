import Mathlib
/-!
# Cutting messages out of a stream

A framer looks at the bytes it has so far and either takes something off
their front or waits for more, keeping what it may still need. What makes
it independent of how the stream arrives are two facts about one turn: a
turn that takes something takes the same with more bytes behind it, and
what a waiting turn keeps stands for all it had. `run_append` is the
consequence for a whole run; `receive_flatten` is that of a reader who is
fed pieces and may hang up after any message.
-/

namespace CryptoBullion

/-- One turn on a buffer: wait for more, drop something, or take a message
off. -/
inductive FramerTurn (σ μ : Type)
  | wait (rest : σ)
  | skip (rest : σ)
  | message (m : μ) (rest : σ)
  deriving DecidableEq, Repr

namespace FramerTurn

variable {σ τ μ : Type}

/-- The same turn, the buffer seen otherwise. -/
def map (f : σ → τ) : FramerTurn σ μ → FramerTurn τ μ
  | .wait r => .wait (f r)
  | .skip r => .skip (f r)
  | .message m r => .message m (f r)

variable {f : σ → τ} {t : FramerTurn σ μ} {m : μ} {r : τ}

theorem map_eq_wait : t.map f = .wait r ↔ ∃ s, t = .wait s ∧ f s = r := by
  cases t <;> simp [map]

theorem map_eq_skip : t.map f = .skip r ↔ ∃ s, t = .skip s ∧ f s = r := by
  cases t <;> simp [map]

theorem map_eq_message : t.map f = .message m r ↔ ∃ s, t = .message m s ∧ f s = r := by
  cases t <;> simp [map]

end FramerTurn

/-- A turn on lists that more input does not change. -/
structure Framer (β μ : Type) where
  turn : List β → FramerTurn (List β) μ
  skip_lt : ∀ {b r : List β}, turn b = .skip r → r.length < b.length
  message_lt : ∀ {b r : List β} {m : μ}, turn b = .message m r → r.length < b.length
  skip_append : ∀ {b r : List β} (c : List β), turn b = .skip r → turn (b ++ c) = .skip (r ++ c)
  message_append : ∀ {b r : List β} {m : μ} (c : List β), turn b = .message m r →
    turn (b ++ c) = .message m (r ++ c)
  wait_append : ∀ {b r : List β} (c : List β), turn b = .wait r → turn (b ++ c) = turn (r ++ c)

namespace Framer

variable {β μ : Type} (F : Framer β μ)

/-- FramerTurn after turn until one waits: the messages, and what is kept. -/
def run (b : List β) : List μ × List β :=
  match _h : F.turn b with
  | .wait r => ([], r)
  | .skip r => run r
  | .message m r => (m :: (run r).1, (run r).2)
termination_by b.length
decreasing_by
  · exact F.skip_lt _h
  · exact F.message_lt _h

variable {F} {b c r : List β} {m : μ}

theorem run_wait (h : F.turn b = .wait r) : F.run b = ([], r) := by
  rw [run]
  split <;> simp_all

theorem run_skip (h : F.turn b = .skip r) : F.run b = F.run r := by
  rw [run]
  split <;> simp_all

theorem run_message (h : F.turn b = .message m r) :
    F.run b = (m :: (F.run r).1, (F.run r).2) := by
  rw [run]
  split <;> simp_all

/-- A run depends on the first turn alone. -/
theorem run_congr (h : F.turn b = F.turn c) : F.run b = F.run c := by
  rw [run, run.eq_def F c]
  split <;> rename_i hb <;> rw [h] at hb <;> split <;> simp_all

/-- **Running on more input** is running on what was kept and on the
rest. -/
theorem run_append (b c : List β) :
    F.run (b ++ c) = ((F.run b).1 ++ (F.run ((F.run b).2 ++ c)).1, (F.run ((F.run b).2 ++ c)).2) := by
  induction hn : b.length using Nat.strongRecOn generalizing b with
  | ind n ih =>
    cases ht : F.turn b with
    | wait r =>
      rw [run_wait ht, run_congr (F.wait_append c ht), List.nil_append]
    | skip r =>
      rw [run_skip ht, run_skip (F.skip_append c ht), ih r.length (hn ▸ F.skip_lt ht) r rfl]
    | message m r =>
      rw [run_message ht, run_message (F.message_append c ht),
        ih r.length (hn ▸ F.message_lt ht) r rfl, List.cons_append]

/-- What is kept yields nothing by itself. -/
theorem run_run_fst (b : List β) : (F.run (F.run b).2).1 = [] := by
  have h := congrArg (fun x => x.1.length) (F.run_append b [])
  simp only [List.append_nil, List.length_append] at h
  exact List.length_eq_zero_iff.1 (by omega)

/-! ## A reader who may hang up -/

/-- Messages handed over one by one, until `closes` says of those handed
over so far that the reader hung up. Whether the line is still open. -/
def consume (closes : List μ → Bool) : List μ → List μ → List μ × Bool
  | done, [] => (done, true)
  | done, m :: ms =>
    if closes (done ++ [m]) then (done ++ [m], false) else consume closes (done ++ [m]) ms

variable {closes : List μ → Bool}

theorem consume_append : ∀ {l l' done : List μ},
    consume closes done (l ++ l') =
      if (consume closes done l).2 then consume closes (consume closes done l).1 l'
      else consume closes done l
  | [], l', done => by rw [List.nil_append, consume, if_pos rfl]
  | m :: l, l', done => by
    rw [List.cons_append, consume, consume]
    split
    · rfl
    · exact consume_append

/-- What is handed over is what there is, as far as the reader stays. -/
theorem prefix_consume : ∀ {l done : List μ}, (consume closes done l).1 <+: done ++ l
  | [], done => by rw [consume, List.append_nil]
  | m :: l, done => by
    unfold consume
    split
    · exact ⟨l, by simp⟩
    · have hrest : (consume closes (done ++ [m]) l).1 <+: done ++ [m] ++ l := prefix_consume
      rwa [List.append_assoc] at hrest

/-- All of it, where nobody hangs up. -/
theorem consume_of_open (h : ∀ done, closes done = false) :
    ∀ {l done : List μ}, consume closes done l = (done ++ l, true)
  | [], done => by rw [consume, List.append_nil]
  | m :: l, done => by
    rw [consume, if_neg (by rw [h]; decide), consume_of_open h, List.append_assoc]
    rfl

/-- A reader: the messages it has had, the bytes it keeps, and whether it
still listens. -/
structure Reader (β μ : Type) where
  done : List μ
  kept : List β
  listens : Bool

/-- Take a piece of the stream. One who hung up hears nothing. -/
def receive (F : Framer β μ) (closes : List μ → Bool) (s : Framer.Reader β μ) (piece : List β) :
    Framer.Reader β μ :=
  if s.listens then
    let out := F.run (s.kept ++ piece)
    let end_ := consume closes s.done out.1
    ⟨end_.1, if end_.2 then out.2 else [], end_.2⟩
  else s

variable {s : Framer.Reader β μ}

/-- **Two pieces are one.** -/
theorem receive_receive (x y : List β) :
    receive F closes (receive F closes s x) y = receive F closes s (x ++ y) := by
  unfold receive
  by_cases hs : s.listens = true
  · rw [if_pos hs, ← List.append_assoc, F.run_append (s.kept ++ x) y]
    simp only [hs, if_true, consume_append]
    by_cases hopen : (consume closes s.done (F.run (s.kept ++ x)).1).2 = true
    · simp only [hopen, if_true]
    · simp only [hopen, Bool.false_eq_true, if_false]
  · simp only [hs, Bool.false_eq_true, if_false]

/-- **A stream in pieces is the stream**, however it is cut. -/
theorem receive_flatten : ∀ (x : List β) (xs : List (List β)) {s : Framer.Reader β μ},
    (x :: xs).foldl (receive F closes) s = receive F closes s (x :: xs).flatten
  | x, [], s => by
    rw [List.flatten_cons, List.flatten_nil, List.append_nil]
    rfl
  | x, y :: ys, s => by
    rw [List.foldl_cons, receive_flatten y ys, receive_receive, List.flatten_cons (l := x)]

end Framer

end CryptoBullion
