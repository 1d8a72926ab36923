import Mathlib.Data.Finset.Basic
/-!
# A set of the most recent elements

`mruset` of `mruset.h`: a set, and a queue of its elements in the order in
which they came.
-/

namespace CryptoBullion

/-- `mruset` -/
structure Mruset (T : Type) where
  set : Finset T
  queue : List T
  nMaxSize : ℕ

namespace Mruset

variable {T : Type} [DecidableEq T]

/-- `mruset(nMaxSizeIn)` -/
def new (nMaxSizeIn : ℕ) : Mruset T := ⟨∅, [], nMaxSizeIn⟩

/-- `set.erase(queue.front()); queue.pop_front()` -/
def popFront (m : Mruset T) : Mruset T :=
  match m.queue with
  | [] => m
  | x :: queue => { m with set := m.set.erase x, queue := queue }

/-- `insert`, whose iterator is at the element in either case -/
def insert (m : Mruset T) (x : T) : Bool × Mruset T :=
  if x ∈ m.set then (false, m)
  else
    let m := { m with set := Insert.insert x m.set }
    let m := if m.nMaxSize ≠ 0 ∧ m.queue.length = m.nMaxSize then m.popFront else m
    (true, { m with queue := m.queue ++ [x] })

/-- `while (queue.size() > s)`, a turn for each element at most -/
def popLoop (s : ℕ) : ℕ → Mruset T → Mruset T
  | 0, m => m
  | fuel + 1, m => if s < m.queue.length then popLoop s fuel m.popFront else m

/-- `max_size(s)` -/
def maxSize (m : Mruset T) (s : ℕ) : Mruset T :=
  let m := if s ≠ 0 then popLoop s m.queue.length m else m
  { m with nMaxSize := s }

end Mruset

end CryptoBullion
