import CryptoBullion.Model.DataStream
/-!
# A stream is a byte queue

Bytes that are read stay in the buffer until an operation reaches its end
or drops them, and where they are decides which case an operation takes. A
queue of bytes knows none of this. Each operation does to what is unread
what it says it does to a list, wherever it leaves the read position.
-/

namespace CryptoBullion

namespace DataStream

/-! ## The queue -/

/-- A queue of bytes, with the error state of a stream. -/
structure ByteQueue where
  bytes : List UInt8
  state : ℕ
  exceptmask : ℕ
  deriving DecidableEq, Repr

namespace ByteQueue

variable (q : ByteQueue)

/-- What becomes of a queue, and what is delivered, where more is asked for
than there is: an exception, with the bytes unchanged, or the fail bit and
an empty queue. -/
def runOut (what : String) (delivered : List UInt8) : ByteQueue × Except Failure (List UInt8) :=
  let state := q.state ||| failbit
  if state &&& q.exceptmask ≠ 0 then ({ q with state := state }, .error (.exception what))
  else ({ q with bytes := [], state := state }, .ok delivered)

/-- Each operation, as one on a list. -/
def step : StreamOp → ByteQueue → ByteQueue × Except Failure (List UInt8)
  | .write pch, q => ({ q with bytes := q.bytes ++ pch }, .ok [])
  | .read nSize, q =>
    if nSize ≤ q.bytes.length then
      ({ q with bytes := q.bytes.drop nSize }, .ok (q.bytes.take nSize))
    else
      q.runOut "CDataStream::read() : end of data"
        (q.bytes ++ List.replicate (nSize - q.bytes.length) 0)
  | .ignore nSize, q =>
    if nSize ≤ q.bytes.length then ({ q with bytes := q.bytes.drop nSize }, .ok [])
    else q.runOut "CDataStream::ignore() : end of data" []
  | .insert it range, q => ({ q with bytes := q.bytes.take it ++ range ++ q.bytes.drop it }, .ok [])
  | .erase it, q => ({ q with bytes := q.bytes.eraseIdx it }, .ok [])
  | .eraseRange first last, q => ({ q with bytes := q.bytes.take first ++ q.bytes.drop last }, .ok [])
  | .resize n c, q =>
    ({ q with bytes := q.bytes.take n ++ List.replicate (n - q.bytes.length) c }, .ok [])
  | .compact, q => (q, .ok [])
  | .clear, q => ({ q with bytes := [] }, .ok [])

/-- Several of them, and what each delivers. -/
def run : List StreamOp → ByteQueue → ByteQueue × List (Except Failure (List UInt8))
  | [], q => (q, [])
  | op :: ops, q =>
    let (q, out) := step op q
    let (q, outs) := run ops q
    (q, out :: outs)

end ByteQueue

/-- What is observable of a stream. -/
def CDataStream.queue (s : CDataStream) : ByteQueue := ⟨s.contents, s.state, s.exceptmask⟩

/-- An operation whose iterators are between `begin()` and `end()` and whose
sizes are below `2 ^ 31`. -/
def StreamOp.Fits : StreamOp → CDataStream → Prop
  | .write pch, _ => pch.length < 2 ^ 31
  | .read nSize, _ => nSize < 2 ^ 31
  | .ignore nSize, _ => nSize < 2 ^ 31
  | .insert it range, s => it ≤ s.size ∧ range.length < 2 ^ 31
  | .erase it, s => it < s.size
  | .eraseRange first last, s => first ≤ last ∧ last ≤ s.size
  | .resize n _, _ => n < 2 ^ 31
  | .compact, _ => True
  | .clear, _ => True

instance : ∀ (op : StreamOp) (s : CDataStream), Decidable (op.Fits s)
  | .write _, _ | .read _, _ | .ignore _, _ | .erase _, _ | .resize _ _, _ =>
    inferInstanceAs (Decidable (_ < _))
  | .insert _ _, _ | .eraseRange _ _, _ => inferInstanceAs (Decidable (_ ∧ _))
  | .compact, _ | .clear, _ => inferInstanceAs (Decidable True)

/-- A run of such operations, on buffers smaller than `2 ^ 31` bytes. -/
def Fits : List StreamOp → CDataStream → Prop
  | [], _ => True
  | op :: ops, s => s.vch.length < 2 ^ 31 ∧ op.Fits s ∧ Fits ops (op.step s).1

/-! ## One operation -/

namespace CDataStream

variable {s : CDataStream} {n it first last : ℕ} {c : UInt8} {range pch dead rest : List UInt8}

/-- The read position is in the buffer. -/
def Sound (s : CDataStream) : Prop := s.nReadPos ≤ s.vch.length

/-- A buffer of bytes that are read, and bytes that are not. -/
def of (dead rest : List UInt8) (state exceptmask : ℕ) : CDataStream :=
  ⟨dead ++ rest, dead.length, state, exceptmask⟩

variable {state exceptmask : ℕ}

/-- Every sound stream is such. -/
theorem exists_of (hs : s.Sound) : ∃ dead, s = of dead s.contents s.state s.exceptmask := by
  refine ⟨s.vch.take s.nReadPos, ?_⟩
  unfold of contents
  rw [List.take_append_drop, List.length_take, Nat.min_eq_left hs]

@[simp] theorem sound_of : (of dead rest state exceptmask).Sound := by
  show dead.length ≤ (dead ++ rest).length
  simp

@[simp] theorem queue_of : (of dead rest state exceptmask).queue = ⟨rest, state, exceptmask⟩ := by
  unfold queue contents of
  rw [List.drop_left]

@[simp] theorem size_of : (of dead rest state exceptmask).size = rest.length := by
  show (dead ++ rest).length - dead.length = rest.length
  simp

theorem length_vch_of : (of dead rest state exceptmask).vch.length = dead.length + rest.length :=
  List.length_append

theorem clear_of : (of dead rest state exceptmask).clear = of [] [] state exceptmask := rfl

/-- Bytes are written behind those there are. -/
theorem write_of : (of dead rest state exceptmask).write pch = of dead (rest ++ pch) state exceptmask := by
  unfold write of
  rw [List.append_assoc]

theorem resize_of : (of dead rest state exceptmask).resize n c =
    of dead (rest.take n ++ List.replicate (n - rest.length) c) state exceptmask := by
  unfold resize of
  dsimp only
  rw [Nat.add_comm n, List.take_length_add_append, List.length_append, Nat.add_sub_add_left,
    List.append_assoc]

/-- **A range at the front** goes over bytes that are read, where there are
enough, and else between the two. -/
theorem insert_of (it : ℕ) (rest : List UInt8) (state exceptmask : ℕ) (hlen : dead.length < 2 ^ 31) (hrange : range.length < 2 ^ 31) :
    ∃ dead', (of dead rest state exceptmask).insert it range =
      of dead' (rest.take it ++ range ++ rest.drop it) state exceptmask := by
  have hword : toUint range.length = range.length := toUint_of_lt (by omega)
  unfold insert of
  dsimp only
  rw [hword]
  split_ifs with hfront
  · obtain ⟨h0, hroom⟩ := hfront
    obtain rfl : it = 0 := by omega
    have hpos : toUint (dead.length + 2 ^ 32 - range.length) = dead.length - range.length := by
      unfold toUint
      omega
    have hdrop : dead.length - range.length + range.length = dead.length := Nat.sub_add_cancel hroom
    refine ⟨dead.take (dead.length - range.length), ?_⟩
    rw [hpos, hdrop, List.drop_left, List.take_append_of_le_length (Nat.sub_le _ _),
      List.length_take, Nat.min_eq_left (Nat.sub_le _ _), List.take_zero, List.drop_zero,
      List.nil_append, List.append_assoc]
  · refine ⟨dead, ?_⟩
    rw [List.take_length_add_append, List.drop_length_add_append, List.append_assoc, List.append_assoc,
      List.append_assoc]

/-- One byte from the front is one more that is read. -/
theorem erase_of (state exceptmask : ℕ) (hlen : dead.length + rest.length < 2 ^ 31) (hit : it < rest.length) :
    ∃ dead', (of dead rest state exceptmask).erase it = of dead' (rest.eraseIdx it) state exceptmask := by
  have hword : toUint (dead.length + 1) = dead.length + 1 := toUint_of_lt (by omega)
  unfold erase
  show ∃ dead', (if dead.length + it = dead.length then
    if (dead ++ rest).length ≤ toUint (dead.length + 1) then _ else _ else _) = _
  rw [hword, List.length_append]
  split_ifs with hfront hend
  · obtain rfl : it = 0 := by omega
    obtain ⟨b, rfl⟩ := List.length_eq_one_iff.1 (show rest.length = 1 by omega)
    exact ⟨[], rfl⟩
  · obtain rfl : it = 0 := by omega
    rcases rest with _ | ⟨b, rest⟩
    · exact absurd hit (by simp)
    · refine ⟨dead ++ [b], ?_⟩
      unfold of
      simp [hword]
  · refine ⟨dead, ?_⟩
    unfold of
    dsimp only
    rw [List.eraseIdx_append_of_length_le (Nat.le_add_right _ _), Nat.add_sub_cancel_left]

/-- So are those of a range from the front. -/
theorem eraseRange_of (state exceptmask : ℕ) (hlen : dead.length + rest.length < 2 ^ 31) (hle : first ≤ last)
    (hlast : last ≤ rest.length) : ∃ dead', (of dead rest state exceptmask).eraseRange first last =
      of dead' (rest.take first ++ rest.drop last) state exceptmask := by
  have hword : toUint (dead.length + last) = dead.length + last := toUint_of_lt (by omega)
  unfold eraseRange
  show ∃ dead', (if dead.length + first = dead.length then
    if dead.length + last = (dead ++ rest).length then _ else _ else _) = _
  rw [List.length_append]
  split_ifs with hfront hend
  · obtain rfl : first = 0 := by omega
    refine ⟨[], ?_⟩
    rw [clear_of, List.take_zero, List.nil_append, List.drop_eq_nil_of_le (by omega)]
  · obtain rfl : first = 0 := by omega
    refine ⟨dead ++ rest.take last, ?_⟩
    unfold of
    dsimp only
    rw [hword, List.take_zero, List.nil_append, List.append_assoc, List.take_append_drop,
      List.length_append, List.length_take, Nat.min_eq_left hlast]
  · refine ⟨dead, ?_⟩
    unfold of
    dsimp only
    rw [List.take_length_add_append, List.drop_length_add_append, List.append_assoc]

theorem compact_of : (of dead rest state exceptmask).compact = of [] rest state exceptmask := by
  unfold compact of
  dsimp only
  rw [List.drop_left]
  rfl

/-- Moving the read position on, short of the end. -/
theorem advance_of (hn : n ≤ rest.length) :
    ({ of dead rest state exceptmask with nReadPos := dead.length + n } : CDataStream) =
      of (dead ++ rest.take n) (rest.drop n) state exceptmask := by
  unfold of
  rw [List.append_assoc, List.take_append_drop, List.length_append, List.length_take,
    Nat.min_eq_left hn]

/-- **Reading** delivers what is in front, or runs out. -/
theorem read_of (state exceptmask : ℕ) (hlen : dead.length + rest.length < 2 ^ 31) (hn : n < 2 ^ 31) :
    ∃ s' out, (of dead rest state exceptmask).read n = (s', out) ∧ s'.Sound ∧
      (s'.queue, out) = ByteQueue.step (.read n) ⟨rest, state, exceptmask⟩ := by
  have hword : toUint (dead.length + n) = dead.length + n := toUint_of_lt (by omega)
  have hdead : (of dead rest state exceptmask).nReadPos = dead.length := rfl
  have hstate : (of dead rest state exceptmask).state = state := rfl
  have hmask : (of dead rest state exceptmask).exceptmask = exceptmask := rfl
  have hdrop : (of dead rest state exceptmask).vch.drop dead.length = rest := List.drop_left
  unfold read ByteQueue.step ByteQueue.runOut setstate
  dsimp only
  rw [hdead, hword, hdrop, length_vch_of, Nat.add_sub_cancel_left]
  by_cases hle : n ≤ rest.length
  · rw [if_pos hle]
    by_cases heq : n = rest.length
    · rw [if_pos (by omega), if_neg (by omega), clear_of]
      refine ⟨_, _, rfl, sound_of, ?_⟩
      rw [queue_of, heq, List.drop_length]
    · rw [if_neg (by omega), advance_of hle]
      exact ⟨_, _, rfl, sound_of, by rw [queue_of]⟩
  · rw [if_neg hle, if_pos (by omega), if_pos (by omega)]
    -- more than there is: the exception, or zeros
    by_cases hthrow : (state ||| failbit) &&& exceptmask ≠ 0
    · rw [hstate, hmask, if_pos (decide_eq_true hthrow), if_pos hthrow]
      exact ⟨_, _, rfl, (sound_of : (of dead rest _ _).Sound), Prod.ext queue_of rfl⟩
    · rw [hstate, hmask, if_neg (fun h => hthrow (of_decide_eq_true h)), if_neg hthrow, List.take_length]
      exact ⟨_, _, rfl, (sound_of : (of [] [] _ _).Sound), rfl⟩

/-- So does **ignoring**, but for what is delivered. -/
theorem ignore_of (state exceptmask : ℕ) (hlen : dead.length + rest.length < 2 ^ 31) (hn : n < 2 ^ 31) :
    ∃ s' out, (of dead rest state exceptmask).ignore n = (s', out) ∧ s'.Sound ∧
      (s'.queue, out) = ByteQueue.step (.ignore n) ⟨rest, state, exceptmask⟩ := by
  have hword : toUint (dead.length + n) = dead.length + n := toUint_of_lt (by omega)
  have hdead : (of dead rest state exceptmask).nReadPos = dead.length := rfl
  have hstate : (of dead rest state exceptmask).state = state := rfl
  have hmask : (of dead rest state exceptmask).exceptmask = exceptmask := rfl
  unfold ignore ByteQueue.step ByteQueue.runOut setstate
  dsimp only
  rw [hdead, hword, length_vch_of]
  by_cases hle : n ≤ rest.length
  · rw [if_pos hle]
    by_cases heq : n = rest.length
    · rw [if_pos (by omega), if_neg (by omega), clear_of]
      refine ⟨_, _, rfl, sound_of, ?_⟩
      rw [queue_of, heq, List.drop_length]
    · rw [if_neg (by omega), advance_of hle]
      exact ⟨_, _, rfl, sound_of, by rw [queue_of]⟩
  · rw [if_neg hle, if_pos (by omega), if_pos (by omega)]
    by_cases hthrow : (state ||| failbit) &&& exceptmask ≠ 0
    · rw [hstate, hmask, if_pos (decide_eq_true hthrow), if_pos hthrow]
      exact ⟨_, _, rfl, (sound_of : (of dead rest _ _).Sound), Prod.ext queue_of rfl⟩
    · rw [hstate, hmask, if_neg (fun h => hthrow (of_decide_eq_true h)), if_neg hthrow]
      exact ⟨_, _, rfl, (sound_of : (of [] [] _ _).Sound), rfl⟩

/-- **Every operation** is that of the queue, and keeps the read position in
the buffer. -/
theorem step_spec (op : StreamOp) (hs : s.Sound) (hlen : s.vch.length < 2 ^ 31)
    (hfits : op.Fits s) :
    (op.step s).1.Sound ∧ ((op.step s).1.queue, (op.step s).2) = ByteQueue.step op s.queue := by
  obtain ⟨dead, hof⟩ := exists_of hs
  revert hlen hfits
  rw [hof, length_vch_of, queue_of]
  generalize s.contents = rest
  generalize s.state = state
  generalize s.exceptmask = exceptmask
  intro hlen hfits
  cases op with
  | write pch =>
    dsimp only [StreamOp.step]
    rw [write_of]
    exact ⟨sound_of, by rw [queue_of]; rfl⟩
  | read nSize =>
    obtain ⟨s', out, hread, hsound, hstep⟩ := read_of state exceptmask hlen hfits
    rw [← hstep]
    dsimp only [StreamOp.step]
    rw [hread]
    exact ⟨hsound, rfl⟩
  | ignore nSize =>
    obtain ⟨s', out, hignore, hsound, hstep⟩ := ignore_of state exceptmask hlen hfits
    rw [← hstep]
    dsimp only [StreamOp.step]
    rw [hignore]
    exact ⟨hsound, rfl⟩
  | insert it range =>
    obtain ⟨dead', h⟩ := insert_of it rest state exceptmask
      (show dead.length < 2 ^ 31 by omega) hfits.2
    dsimp only [StreamOp.step]
    rw [h]
    exact ⟨sound_of, by rw [queue_of]; rfl⟩
  | erase it =>
    have hit : it < rest.length := by simpa [StreamOp.Fits] using hfits
    obtain ⟨dead', h⟩ := erase_of state exceptmask hlen hit
    dsimp only [StreamOp.step]
    rw [h]
    exact ⟨sound_of, by rw [queue_of]; rfl⟩
  | eraseRange first last =>
    have hlast : last ≤ rest.length := by simpa [StreamOp.Fits] using hfits.2
    obtain ⟨dead', h⟩ := eraseRange_of state exceptmask hlen hfits.1 hlast
    dsimp only [StreamOp.step]
    rw [h]
    exact ⟨sound_of, by rw [queue_of]; rfl⟩
  | resize n c =>
    dsimp only [StreamOp.step]
    rw [resize_of]
    exact ⟨sound_of, by rw [queue_of]; rfl⟩
  | compact =>
    dsimp only [StreamOp.step]
    rw [compact_of]
    exact ⟨sound_of, by rw [queue_of]; rfl⟩
  | clear =>
    dsimp only [StreamOp.step]
    rw [clear_of]
    exact ⟨sound_of, by rw [queue_of]; rfl⟩

/-- Whether the fail bit is one to throw on. -/
def Throws (s : CDataStream) : Prop := (s.state ||| failbit) &&& s.exceptmask ≠ 0

instance : Decidable s.Throws := inferInstanceAs (Decidable (_ ≠ _))

/-- What happens where more is asked for than there is: what is thrown, with
the contents as they were, or the fail bit, the rest with zeros behind it, and
nothing left. -/
structure RunsOut (s : CDataStream) (n : ℕ) : Prop where
  read_throws : s.Throws → (s.read n).1.contents = s.contents ∧
    (s.read n).2 = .error (.exception "CDataStream::read() : end of data")
  ignore_throws : s.Throws → (s.ignore n).1.contents = s.contents ∧
    (s.ignore n).2 = .error (.exception "CDataStream::ignore() : end of data")
  read_ends : ¬ s.Throws → (s.read n).1.contents = [] ∧ (s.read n).1.state = s.state ||| failbit ∧
    (s.read n).2 = .ok (s.contents ++ List.replicate (n - s.size) 0)
  ignore_ends : ¬ s.Throws → (s.ignore n).1.contents = [] ∧
    (s.ignore n).1.state = s.state ||| failbit ∧ (s.ignore n).2 = .ok []

theorem size_eq_length_contents : s.size = s.contents.length := by
  unfold size contents
  rw [List.length_drop]

theorem runsOut (hs : s.Sound) (hlen : s.vch.length < 2 ^ 31) (hn : n < 2 ^ 31) (hmore : s.size < n) :
    s.RunsOut n := by
  have hread := (step_spec (.read n) hs hlen hn).2
  have hignore := (step_spec (.ignore n) hs hlen hn).2
  have hnot : ¬ n ≤ s.queue.bytes.length := by
    show ¬ n ≤ s.contents.length
    rw [← size_eq_length_contents]
    exact Nat.not_le.2 hmore
  dsimp only [ByteQueue.step, ByteQueue.runOut] at hread hignore
  rw [if_neg hnot] at hread hignore
  refine ⟨fun h => ?_, fun h => ?_, fun h => ?_, fun h => ?_⟩
  · rw [if_pos (show (s.queue.state ||| failbit) &&& s.queue.exceptmask ≠ 0 from h)] at hread
    exact ⟨congrArg (fun r => r.1.bytes) hread, congrArg Prod.snd hread⟩
  · rw [if_pos (show (s.queue.state ||| failbit) &&& s.queue.exceptmask ≠ 0 from h)] at hignore
    exact ⟨congrArg (fun r => r.1.bytes) hignore, congrArg Prod.snd hignore⟩
  · rw [if_neg (show ¬ (s.queue.state ||| failbit) &&& s.queue.exceptmask ≠ 0 from h)] at hread
    refine ⟨congrArg (fun r => r.1.bytes) hread, congrArg (fun r => r.1.state) hread, ?_⟩
    rw [size_eq_length_contents]
    exact congrArg Prod.snd hread
  · rw [if_neg (show ¬ (s.queue.state ||| failbit) &&& s.queue.exceptmask ≠ 0 from h)] at hignore
    exact ⟨congrArg (fun r => r.1.bytes) hignore, congrArg (fun r => r.1.state) hignore,
      congrArg Prod.snd hignore⟩

end CDataStream

/-! ## Runs -/

/-- Every run is one of the queue. -/
theorem run_spec (ops : List StreamOp) : ∀ (s : CDataStream), s.Sound → Fits ops s →
    (run ops s).1.Sound ∧ ((run ops s).1.queue, (run ops s).2) = ByteQueue.run ops s.queue := by
  induction ops with
  | nil => exact fun s hs _ => ⟨hs, rfl⟩
  | cons op ops ih =>
    intro s hs hfits
    obtain ⟨hlen, hop, hrest⟩ := hfits
    obtain ⟨hsound, hstep⟩ := CDataStream.step_spec _ hs hlen hop
    obtain ⟨hsound', hrun⟩ := ih (op.step s).1 hsound hrest
    refine ⟨hsound', ?_⟩
    have hqueue := congrArg Prod.fst hstep
    have hout := congrArg Prod.snd hstep
    unfold ByteQueue.run
    rw [← hstep]
    dsimp only
    rw [← hrun]
    rfl

/-- **A stream is a byte queue**, after any operations on it: what it holds
and what it has delivered are those of a list of bytes that has gone through
the same, and so does what comes beyond its end. -/
theorem dataStream_isByteQueue (ops : List StreamOp) (s : CDataStream)
    (hpos : s.nReadPos ≤ s.vch.length) (hfits : Fits ops s) :
    ((run ops s).1.queue, (run ops s).2) = ByteQueue.run ops s.queue ∧
    (run ops s).1.size = (ByteQueue.run ops s.queue).1.bytes.length ∧
    ∀ n, (run ops s).1.vch.length < 2 ^ 31 → n < 2 ^ 31 → (run ops s).1.size < n →
      (run ops s).1.RunsOut n := by
  obtain ⟨hsound, hrun⟩ := run_spec ops s hpos hfits
  refine ⟨hrun, ?_, fun n hlen hn hmore => CDataStream.runsOut hsound hlen hn hmore⟩
  rw [← hrun, CDataStream.size_eq_length_contents]
  rfl

/-- A range that goes over bytes that are read, and a read beyond the end. -/
theorem dataStream_isByteQueue_front :
    let s : CDataStream := ⟨[0, 0, 1], 2, 0, 0⟩
    let ops : List StreamOp := [.insert 0 [7, 8], .erase 0, .insert 1 [9], .read 5]
    (run ops s).2 = [.ok [], .ok [], .ok [], .ok [8, 9, 1, 0, 0]] ∧
      ((run ops s).1.queue, (run ops s).2) = ByteQueue.run ops s.queue :=
  ⟨by decide, (dataStream_isByteQueue [.insert 0 [7, 8], .erase 0, .insert 1 [9], .read 5]
    ⟨[0, 0, 1], 2, 0, 0⟩ (by decide)
    ⟨by decide, by decide, by decide, by decide, by decide, by decide, by decide, by decide,
      trivial⟩).1⟩

end DataStream

end CryptoBullion
