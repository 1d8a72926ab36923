import CryptoBullion.Model.Mruset
/-!
# What an `mruset` remembers

The set and the queue are kept in step: at every point of every run the
queue lists the set's elements once each, and they are the elements that
came last, oldest first.
-/

namespace CryptoBullion

namespace Mruset

variable {T : Type} [DecidableEq T] {m : Mruset T} {x : T} {s n : ℕ} {accepted : List T}

/-- **Set and queue are in step**, and the limit is kept. -/
structure Consistent (m : Mruset T) : Prop where
  set_eq : m.set = m.queue.toFinset
  nodup : m.queue.Nodup
  le_limit : m.nMaxSize ≠ 0 → m.queue.length ≤ m.nMaxSize

/-- The queue after the oldest elements beyond a size are dropped. -/
def keepLast (s : ℕ) (queue : List T) : List T := queue.drop (queue.length - s)

omit [DecidableEq T] in
theorem keepLast_of_le {queue : List T} (h : queue.length ≤ s) : keepLast s queue = queue := by
  rw [keepLast, Nat.sub_eq_zero_of_le h, List.drop_zero]

omit [DecidableEq T] in
theorem length_keepLast_le (queue : List T) : (keepLast s queue).length ≤ s := by
  rw [keepLast, List.length_drop]
  omega

omit [DecidableEq T] in
/-- Dropping the oldest first changes nothing. -/
theorem keepLast_cons {queue : List T} (h : s ≤ queue.length) :
    keepLast s (x :: queue) = keepLast s queue := by
  rw [keepLast, keepLast, List.length_cons, Nat.sub_add_comm h, List.drop_succ_cons]

/-! ## One operation -/

/-- What is in step without its limit stays so when the oldest is popped. -/
theorem popFront_eq {queue : List T} (hset : m.set = m.queue.toFinset) (hnodup : m.queue.Nodup)
    (hq : m.queue = x :: queue) :
    m.popFront = { m with set := queue.toFinset, queue := queue } := by
  unfold popFront
  rw [hq] at hset hnodup ⊢
  have hx : x ∉ queue.toFinset := by
    rw [List.mem_toFinset]
    exact (List.nodup_cons.1 hnodup).1
  simp only [hset, List.toFinset_cons, Finset.erase_insert hx]

/-- **The loop drops the oldest**, one by one. -/
theorem popLoop_eq (hset : m.set = m.queue.toFinset) (hnodup : m.queue.Nodup) {fuel : ℕ}
    (hfuel : m.queue.length ≤ fuel + s) : popLoop s fuel m =
      { m with set := (keepLast s m.queue).toFinset, queue := keepLast s m.queue } := by
  induction fuel generalizing m with
  | zero =>
    rw [keepLast_of_le (by omega), ← hset]
    rfl
  | succ fuel ih =>
    rw [popLoop]
    split_ifs with h
    · rcases hq : m.queue with _ | ⟨x, queue⟩
      · rw [hq] at h
        exact absurd h (Nat.not_lt_zero s)
      · rw [popFront_eq hset hnodup hq]
        rw [hq, List.length_cons] at h hfuel
        rw [hq] at hnodup
        have hlen : queue.length ≤ fuel + s := by omega
        rw [ih rfl (List.nodup_cons.1 hnodup).2 hlen, keepLast_cons (by omega)]
    · rw [keepLast_of_le (not_lt.1 h), ← hset]

/-- A present element changes nothing. -/
theorem insert_of_mem (h : x ∈ m.set) : m.insert x = (false, m) := by
  rw [insert, if_pos h]

/-- The queue with room for one more: the oldest goes where the limit was
reached. -/
def room (m : Mruset T) : List T :=
  if m.nMaxSize ≠ 0 ∧ m.queue.length = m.nMaxSize then m.queue.tail else m.queue

omit [DecidableEq T] in
theorem room_suffix : m.room <:+ m.queue := by
  unfold room
  split_ifs
  · exact List.tail_suffix _
  · exact List.suffix_rfl

/-- **A new element goes behind the others**, and the oldest goes where the
limit was reached. -/
theorem insert_of_not_mem (hm : m.Consistent) (h : x ∉ m.set) : m.insert x =
    (true, { m with set := (m.room ++ [x]).toFinset, queue := m.room ++ [x] }) := by
  rw [insert, if_neg h]
  have hset : ∀ queue : List T, (queue ++ [x]).toFinset = Insert.insert x queue.toFinset := by
    intro queue
    ext y
    simp [or_comm]
  unfold room
  dsimp only
  by_cases hfull : m.nMaxSize ≠ 0 ∧ m.queue.length = m.nMaxSize
  · rw [if_pos hfull, if_pos hfull]
    rcases hq : m.queue with _ | ⟨y, queue⟩
    · -- an empty queue is not at a positive limit
      rw [hq] at hfull
      exact absurd hfull.2.symm hfull.1
    · have hnodup := hm.nodup
      rw [hm.set_eq, hq] at h
      rw [hq] at hnodup
      have hy : y ∉ queue := (List.nodup_cons.1 hnodup).1
      have hxy : y ≠ x := by
        rintro rfl
        simp at h
      have herase : (Insert.insert x m.set).erase y = Insert.insert x queue.toFinset := by
        rw [hm.set_eq, hq, List.toFinset_cons, Finset.erase_insert_of_ne hxy.symm,
          Finset.erase_insert (by simpa using hy)]
      simp only [popFront, hq, herase, List.tail_cons, hset]
  · rw [if_neg hfull, if_neg hfull, hset, ← hm.set_eq]

/-- `max_size` keeps the newest. -/
theorem maxSize_eq (hm : m.Consistent) : m.maxSize s =
    { set := (if s = 0 then m.queue else keepLast s m.queue).toFinset
      queue := if s = 0 then m.queue else keepLast s m.queue
      nMaxSize := s } := by
  unfold maxSize
  by_cases hs : s = 0
  · simp only [hs, ne_eq, not_true_eq_false, if_false, if_true, ← hm.set_eq]
  · simp only [ne_eq, hs, not_false_eq_true, if_true, if_false]
    rw [popLoop_eq hm.set_eq hm.nodup (Nat.le_add_right _ _)]

namespace Consistent

theorem new : (Mruset.new n : Mruset T).Consistent := ⟨rfl, List.nodup_nil, fun _ => Nat.zero_le _⟩

theorem insert (hm : m.Consistent) : (m.insert x).2.Consistent := by
  by_cases h : x ∈ m.set
  · rwa [insert_of_mem h]
  rw [insert_of_not_mem hm h]
  have hx : x ∉ m.room := fun hx => h (by
    rw [hm.set_eq, List.mem_toFinset]
    exact room_suffix.subset hx)
  refine ⟨rfl, ?_, fun hlim => ?_⟩
  · rw [List.nodup_append]
    refine ⟨hm.nodup.sublist room_suffix.sublist, List.nodup_singleton x, ?_⟩
    intro a ha b hb
    rw [List.mem_singleton.1 hb]
    rintro rfl
    exact hx ha
  · have hle := hm.le_limit hlim
    show (m.room ++ [x]).length ≤ m.nMaxSize
    rw [List.length_append, List.length_singleton]
    unfold room
    split_ifs with hfull
    · rw [List.length_tail]
      omega
    · have hne : m.queue.length ≠ m.nMaxSize := fun heq => hfull ⟨hlim, heq⟩
      omega

theorem maxSize (hm : m.Consistent) : (m.maxSize s).Consistent := by
  rw [maxSize_eq hm]
  refine ⟨rfl, ?_, fun hs => ?_⟩
  · show (if s = 0 then m.queue else keepLast s m.queue).Nodup
    split_ifs
    · exact hm.nodup
    · exact hm.nodup.sublist (List.drop_sublist _ _)
  · show (if s = 0 then m.queue else keepLast s m.queue).length ≤ s
    rw [if_neg hs]
    exact length_keepLast_le m.queue

end Consistent

/-! ## Runs -/

/-- **A sequence of calls**, with the elements whose insertion was told
`true`, oldest first. -/
inductive Run : Mruset T → List T → Prop
  | new (n : ℕ) : Run (Mruset.new n) []
  | insert {m : Mruset T} {accepted : List T} (x : T) (h : Run m accepted) :
      Run (m.insert x).2 (if (m.insert x).1 then accepted ++ [x] else accepted)
  | maxSize {m : Mruset T} {accepted : List T} (s : ℕ) (h : Run m accepted) :
      Run (m.maxSize s) accepted

/-- **Along a run set and queue stay in step**, and the queue holds the
last of what was accepted. -/
theorem consistent_of_run (h : Run m accepted) : m.Consistent ∧ m.queue <:+ accepted := by
  induction h with
  | new n => exact ⟨.new, List.suffix_rfl⟩
  | @insert m accepted x _ ih =>
    refine ⟨ih.1.insert, ?_⟩
    by_cases hx : x ∈ m.set
    · rw [insert_of_mem hx]
      exact ih.2
    · rw [insert_of_not_mem ih.1 hx]
      obtain ⟨old, hold⟩ := room_suffix.trans ih.2
      exact ⟨old, by rw [← List.append_assoc, hold]; rfl⟩
  | @maxSize m accepted s _ ih =>
    refine ⟨ih.1.maxSize, ?_⟩
    rw [maxSize_eq ih.1]
    show (if s = 0 then m.queue else keepLast s m.queue) <:+ accepted
    split_ifs
    · exact ih.2
    · exact (List.drop_suffix _ _).trans ih.2

/-- **An `mruset` remembers exactly the most recent elements.** -/
theorem remembers_recent (h : Run m accepted) :
    (m.set = m.queue.toFinset ∧ m.queue.Nodup ∧ m.queue <:+ accepted ∧
      (m.nMaxSize ≠ 0 → m.queue.length ≤ m.nMaxSize)) ∧
    (∀ x ∈ m.set, m.insert x = (false, m)) ∧
    (∀ x ∉ m.set, (m.insert x).1 = true ∧ (m.insert x).2.nMaxSize = m.nMaxSize ∧
      (m.insert x).2.queue =
        (if m.nMaxSize ≠ 0 ∧ m.queue.length = m.nMaxSize then m.queue.tail else m.queue) ++ [x]) ∧
    (∀ s, (m.maxSize s).nMaxSize = s ∧
      (m.maxSize s).queue =
        if s = 0 then m.queue else m.queue.drop (m.queue.length - s)) := by
  obtain ⟨hm, hsuf⟩ := consistent_of_run h
  refine ⟨⟨hm.set_eq, hm.nodup, hsuf, hm.le_limit⟩, fun x => insert_of_mem, fun x hx => ?_,
    fun s => ?_⟩
  · rw [insert_of_not_mem hm hx]
    exact ⟨rfl, rfl, rfl⟩
  · rw [maxSize_eq hm]
    exact ⟨rfl, rfl⟩

theorem remembers_recent_pair :
    ((((new 1).insert 4).2.insert 7).2 : Mruset ℕ).queue <:+ [4, 7] :=
  (remembers_recent (Run.insert 7 (Run.insert 4 (Run.new 1)))).1.2.2.1

end Mruset

end CryptoBullion
