import CryptoBullion.Model.Answers
import CryptoBullion.Model.Messages
/-!
# Message framing does not depend on how the stream is cut

`frameTurn` is a turn of the loop on the bytes that are unread, without
read positions, exceptions or headers put back. It is a framer: a message
start found with a whole header behind it is found again with more bytes
behind it, and of a buffer without one the last header's length of bytes
is all that matters. `processTurn` refines it, so `ProcessMessages` is the
reader of the library, and the messages of a stream are those of its
pieces.
-/

namespace CryptoBullion

/-! ## The buffer -/

namespace CDataStream

variable {v : CDataStream} {k : ℕ} {xs : List UInt8} {e : Failure}

@[simp] theorem unread_clear : clear.unread = [] := rfl

@[simp] theorem unread_ofBytes : (ofBytes xs).unread = xs := rfl

@[simp] theorem unread_compact : v.compact.unread = v.unread := rfl

theorem size_eq : v.size = v.unread.length := by
  rw [size, unread, List.length_drop]

theorem unread_append : (v.append xs).unread = v.unread ++ xs := by
  simp only [unread, append]
  exact List.drop_append_of_le_length v.nReadPos_le

theorem unread_eraseFront : (v.eraseFront k).unread = v.unread.drop k := by
  unfold eraseFront
  split
  · simp only [unread, List.drop_drop]
  · rename_i h
    rw [unread_clear, unread, List.drop_drop, List.drop_eq_nil_of_le (by omega)]

/-- **Putting bytes back** puts them in front, whether there is room or
not. -/
theorem unread_insertFront : (v.insertFront xs).unread = xs ++ v.unread := by
  have := v.nReadPos_le
  unfold insertFront
  split
  · simp only [unread]
    rw [List.drop_left']
    rw [List.length_take]
    omega
  · simp only [unread]
    rw [List.drop_left']
    rw [List.length_take]
    omega

theorem advance_eq_ok (hk : k ≤ v.size) :
    ∃ v', v.advance k e = .ok v' ∧ v'.unread = v.unread.drop k := by
  have := v.nReadPos_le
  unfold size at hk
  unfold advance
  split
  · rw [if_neg (by omega)]
    refine ⟨clear, rfl, ?_⟩
    rw [unread_clear, unread, List.drop_drop, List.drop_eq_nil_of_le (by omega)]
  · refine ⟨_, rfl, ?_⟩
    simp only [unread, List.drop_drop]

theorem read_eq_ok (hk : k ≤ v.size) :
    ∃ v', v.read k = .ok (v.unread.take k, v') ∧ v'.unread = v.unread.drop k := by
  obtain ⟨v', h, hv'⟩ := advance_eq_ok (e := .exception "CDataStream::read() : end of data") hk
  refine ⟨v', ?_, hv'⟩
  unfold read
  rw [h]
  rfl

end CDataStream

/-! ## Where a message starts -/

section Search

variable {pat l m : List UInt8} {d i : ℕ}

theorem search_le : search pat l ≤ l.length := by
  induction l with
  | nil => exact le_rfl
  | cons b bs ih =>
    unfold search
    split
    · omega
    · rw [List.length_cons]
      omega

/-- Before it, the pattern does not begin. -/
theorem not_isPrefix_of_lt_search (hi : i < search pat l) : ¬ pat <+: l.drop i := by
  induction l generalizing i with
  | nil => exact absurd hi (Nat.not_lt_zero i)
  | cons b bs ih =>
    unfold search at hi
    split at hi
    · omega
    · rename_i hb
      cases i with
      | zero => exact fun h => hb (List.isPrefixOf_iff_prefix.2 h)
      | succ i => exact ih (by omega)

/-- Where it is found, it begins. -/
theorem isPrefix_search (h : search pat l < l.length) : pat <+: l.drop (search pat l) := by
  induction l with
  | nil => exact absurd h (Nat.not_lt_zero _)
  | cons b bs ih =>
    unfold search at h ⊢
    split
    · rename_i hb
      exact List.isPrefixOf_iff_prefix.1 hb
    · rename_i hb
      rw [if_neg hb, List.length_cons] at h
      exact ih (by omega)

theorem search_eq_zero (h : pat <+: l) : search pat l = 0 := by
  cases l with
  | nil => rfl
  | cons b bs =>
    unfold search
    rw [if_pos (List.isPrefixOf_iff_prefix.2 h)]

/-- **A stretch in which the pattern does not begin** can be left out of
the search. -/
theorem search_drop (hd : ∀ i < d, ¬ pat <+: l.drop i) (hl : d ≤ l.length) :
    search pat l = d + search pat (l.drop d) := by
  induction d generalizing l with
  | zero => rw [Nat.zero_add, List.drop_zero]
  | succ d ih =>
    cases l with
    | nil => simp at hl
    | cons b bs =>
      have hb : ¬ pat.isPrefixOf (b :: bs) = true := fun h =>
        hd 0 (Nat.succ_pos d) (List.isPrefixOf_iff_prefix.1 h)
      have := ih (l := bs) (fun i hi => hd (i + 1) (by omega)) (by simpa using hl)
      rw [search, if_neg hb, this, List.drop_succ_cons]
      omega

/-- What begins with room to spare begins in the longer list as well. -/
theorem isPrefix_drop_append (hi : pat.length + i ≤ l.length) :
    pat <+: (l ++ m).drop i ↔ pat <+: l.drop i := by
  rw [List.drop_append_of_le_length (by omega)]
  constructor
  · intro h
    exact List.prefix_of_prefix_length_le h (List.prefix_append _ _) (by
      rw [List.length_drop]
      omega)
  · exact fun h => h.trans (List.prefix_append _ _)

/-- **What was found is found again** with more bytes behind. -/
theorem search_append (h : pat.length + search pat l ≤ l.length) (hpat : pat ≠ []) :
    search pat (l ++ m) = search pat l := by
  have hlt : search pat l < l.length := by
    have := List.length_pos_iff.2 hpat
    omega
  have hfound := (isPrefix_drop_append (m := m) h).2 (isPrefix_search hlt)
  have hbefore : ∀ i < search pat l, ¬ pat <+: (l ++ m).drop i := by
    intro i hi
    rw [isPrefix_drop_append (by omega)]
    exact not_isPrefix_of_lt_search hi
  rw [search_drop hbefore (by rw [List.length_append]; omega), search_eq_zero hfound, Nat.add_zero]

end Search

/-! ## A turn on the unread bytes -/

/-- The header in front of `b`. -/
def headerOf (b : List UInt8) : CMessageHeader :=
  ⟨b.take 4, (b.drop 4).take 12, ofLeBytes ((b.drop 16).take 4), ofLeBytes ((b.drop 20).take 4)⟩

variable [P : Platform]

/-- What becomes of bytes that begin with a header. -/
def takeMessage (b : List UInt8) : FramerTurn (List UInt8) Message :=
  let hdr := headerOf b
  let rest := b.drop nHeaderSize
  if !hdr.isValid then .skip rest
  else if maxSize < hdr.nMessageSize then .skip rest
  else if rest.length < hdr.nMessageSize then .wait b
  else
    let payload := rest.take hdr.nMessageSize
    if payloadChecksum payload ≠ hdr.nChecksum then .skip rest
    else .message ⟨hdr.getCommand, payload⟩ (rest.drop hdr.nMessageSize)

/-- One turn. Without a whole header, the last `nHeaderSize` bytes are
kept. -/
def frameTurn (b : List UInt8) : FramerTurn (List UInt8) Message :=
  let start := search messageStart b
  if b.length - start < nHeaderSize then .wait (b.drop (b.length - nHeaderSize))
  else takeMessage (b.drop start)

variable {b c r : List UInt8} {m : Message}

theorem length_messageStart : (messageStart : List UInt8).length = 4 := by
  unfold messageStart
  split <;> rfl

theorem messageStart_ne_nil : (messageStart : List UInt8) ≠ [] := by
  intro h
  simpa [h] using length_messageStart

omit [P : Platform] in
/-- More bytes do not change a header. -/
theorem headerOf_append (hb : nHeaderSize ≤ b.length) : headerOf (b ++ c) = headerOf b := by
  unfold nHeaderSize at hb
  have hfield : ∀ i k, i + k ≤ 24 → ((b ++ c).drop i).take k = (b.drop i).take k := by
    intro i k hik
    rw [List.drop_append_of_le_length (by omega),
      List.take_append_of_le_length (by rw [List.length_drop]; omega)]
  unfold headerOf
  rw [hfield 4 12 (by omega), hfield 16 4 (by omega), hfield 20 4 (by omega),
    List.take_append_of_le_length (by omega)]

/-- **What a header and its message make of the bytes** they make of more
bytes, if the message is there. -/
theorem takeMessage_append (hb : nHeaderSize ≤ b.length)
    (hthere : takeMessage b ≠ .wait b) :
    takeMessage (b ++ c) = match takeMessage b with
      | .wait r => .wait r
      | .skip r => .skip (r ++ c)
      | .message m r => .message m (r ++ c) := by
  have hrest : (b ++ c).drop nHeaderSize = b.drop nHeaderSize ++ c :=
    List.drop_append_of_le_length hb
  unfold takeMessage at hthere ⊢
  dsimp only at hthere ⊢
  rw [headerOf_append hb, hrest]
  by_cases hvalid : (!(headerOf b).isValid) = true
  · rw [if_pos hvalid, if_pos hvalid]
  by_cases hmax : maxSize < (headerOf b).nMessageSize
  · rw [if_neg hvalid, if_neg hvalid, if_pos hmax, if_pos hmax]
  by_cases hshort : (b.drop nHeaderSize).length < (headerOf b).nMessageSize
  · rw [if_neg hvalid, if_neg hmax, if_pos hshort] at hthere
    exact absurd rfl hthere
  have hlong : ¬ (b.drop nHeaderSize ++ c).length < (headerOf b).nMessageSize := by
    rw [List.length_append]
    omega
  simp only [if_neg hvalid, if_neg hmax, if_neg hshort, if_neg hlong]
  rw [List.take_append_of_le_length (by omega), List.drop_append_of_le_length (by omega)]
  split <;> rfl

/-- A header is consumed, whatever follows. -/
theorem length_of_takeMessage (hb : nHeaderSize ≤ b.length) :
    (∀ r, takeMessage b = .skip r → r.length + nHeaderSize ≤ b.length) ∧
      ∀ m r, takeMessage b = .message m r → r.length + nHeaderSize ≤ b.length := by
  have hdrop : (b.drop nHeaderSize).length = b.length - nHeaderSize := List.length_drop
  unfold takeMessage
  dsimp only
  constructor
  · intro r h
    split_ifs at h <;> injection h with h <;> subst h <;> omega
  · intro m r h
    split_ifs at h
    injection h with _ h
    subst h
    rw [List.length_drop]
    omega

/-- A message that is not there yet is waited for with its header. -/
theorem eq_of_takeMessage_wait (h : takeMessage b = .wait r) : r = b := by
  unfold takeMessage at h
  dsimp only at h
  split_ifs at h
  injection h with h
  exact h.symm

/-- The scan finds again, with more bytes behind, what has a whole header
behind it. -/
theorem search_messageStart_append (h : ¬ b.length - search messageStart b < nHeaderSize) :
    search messageStart (b ++ c) = search messageStart b := by
  refine search_append ?_ messageStart_ne_nil
  rw [length_messageStart]
  unfold nHeaderSize at h
  omega

/-- A turn that finds a header finds the same one with more bytes behind. -/
theorem frameTurn_append (h : ¬ b.length - search messageStart b < nHeaderSize) :
    frameTurn (b ++ c) = takeMessage (b.drop (search messageStart b) ++ c) := by
  have hle : search messageStart b ≤ b.length := search_le
  unfold frameTurn
  dsimp only
  rw [search_messageStart_append h, if_neg (by rw [List.length_append]; omega),
    List.drop_append_of_le_length hle]

/-- **Without a header, the last bytes stand for all**: no message starts
in those that are dropped. -/
theorem frameTurn_drop (h : b.length - search messageStart b < nHeaderSize) :
    frameTurn (b ++ c) = frameTurn (b.drop (b.length - nHeaderSize) ++ c) := by
  have hskip : ∀ i < b.length - nHeaderSize, ¬ messageStart <+: (b ++ c).drop i := by
    intro i hi
    rw [isPrefix_drop_append (by rw [length_messageStart]; unfold nHeaderSize at hi; omega)]
    exact not_isPrefix_of_lt_search (by omega)
  have hdrop : (b ++ c).drop (b.length - nHeaderSize) = b.drop (b.length - nHeaderSize) ++ c :=
    List.drop_append_of_le_length (Nat.sub_le _ _)
  have hlen : (b.drop (b.length - nHeaderSize) ++ c).length =
      (b ++ c).length - (b.length - nHeaderSize) := by
    rw [← hdrop, List.length_drop]
  unfold frameTurn
  dsimp only
  rw [search_drop hskip (by rw [List.length_append]; omega), hdrop, hlen, ← Nat.sub_sub]
  split_ifs
  · congr 1
    rw [← hdrop, List.drop_drop]
    congr 1
    rw [List.length_append]
    omega
  · rw [← hdrop, List.drop_drop]

theorem frameTurn_nil : frameTurn [] = .wait [] := by
  unfold frameTurn
  exact if_pos (by simp [nHeaderSize])

/-- A turn that does not wait takes a header at least. -/
theorem length_of_frameTurn :
    (∀ r, frameTurn b = .skip r → r.length + nHeaderSize ≤ b.length) ∧
      ∀ m r, frameTurn b = .message m r → r.length + nHeaderSize ≤ b.length := by
  unfold frameTurn
  dsimp only
  by_cases hb : b.length - search messageStart b < nHeaderSize
  · rw [if_pos hb]
    exact ⟨fun r h => by simp at h, fun m r h => by simp at h⟩
  · rw [if_neg hb]
    have hlen := length_of_takeMessage (b := b.drop (search messageStart b))
      (by rw [List.length_drop]; omega)
    rw [List.length_drop] at hlen
    exact ⟨fun r h => by have := hlen.1 r h; omega, fun m r h => by have := hlen.2 m r h; omega⟩

omit [P : Platform] in
theorem nHeaderSize_pos : 0 < nHeaderSize := by decide

/-- **The loop of `ProcessMessages` is a framer.** -/
def messageFramer : Framer UInt8 Message where
  turn := frameTurn
  skip_lt {b r} h := by
    have := length_of_frameTurn.1 r h
    have := nHeaderSize_pos
    omega
  message_lt {b r m} h := by
    have := length_of_frameTurn.2 m r h
    have := nHeaderSize_pos
    omega
  skip_append {b r} c h := by
    unfold frameTurn at h
    dsimp only at h
    split at h
    · simp at h
    · rename_i hb
      rw [frameTurn_append hb, takeMessage_append (by rw [List.length_drop]; omega) (by simp [h]), h]
  message_append {b r m} c h := by
    unfold frameTurn at h
    dsimp only at h
    split at h
    · simp at h
    · rename_i hb
      rw [frameTurn_append hb, takeMessage_append (by rw [List.length_drop]; omega) (by simp [h]), h]
  wait_append {b r} c h := by
    have hkeep := h
    unfold frameTurn at h
    dsimp only at h
    split at h
    · rename_i hb
      injection h with h
      rw [← h]
      exact frameTurn_drop hb
    · rename_i hb
      -- the header is kept with what there is of its message
      obtain rfl := eq_of_takeMessage_wait h
      have hlt : search messageStart b < b.length := by
        unfold nHeaderSize at hb
        omega
      have hzero : search messageStart (b.drop (search messageStart b)) = 0 :=
        search_eq_zero (isPrefix_search hlt)
      rw [frameTurn_append hb, frameTurn_append (by rw [hzero, List.length_drop]; omega), hzero,
        List.drop_zero]

theorem run_nil : messageFramer.run [] = ([], []) :=
  Framer.run_wait (F := messageFramer) frameTurn_nil

/-! ## The turn of the source -/

omit [P : Platform] in
/-- A header is read in four pieces, and there when its bytes are. -/
theorem unserialize_header {v : CDataStream} (hv : nHeaderSize ≤ v.size) :
    ∃ v', CMessageHeader.unserialize v = .ok (headerOf v.unread, v') ∧
      v'.unread = v.unread.drop nHeaderSize := by
  unfold nHeaderSize at hv ⊢
  rw [CDataStream.size_eq] at hv
  obtain ⟨v₁, h₁, hu₁⟩ := v.read_eq_ok (k := 4) (by rw [CDataStream.size_eq]; omega)
  obtain ⟨v₂, h₂, hu₂⟩ := v₁.read_eq_ok (k := 12) (by
    rw [CDataStream.size_eq, hu₁, List.length_drop]
    omega)
  obtain ⟨v₃, h₃, hu₃⟩ := v₂.read_eq_ok (k := 4) (by
    rw [CDataStream.size_eq, hu₂, hu₁, List.length_drop, List.length_drop]
    omega)
  obtain ⟨v₄, h₄, hu₄⟩ := v₃.read_eq_ok (k := 4) (by
    rw [CDataStream.size_eq, hu₃, hu₂, hu₁, List.length_drop, List.length_drop, List.length_drop]
    omega)
  rw [hu₁, List.drop_drop] at hu₂
  rw [hu₂, List.drop_drop] at hu₃
  rw [hu₃, List.drop_drop] at hu₄
  refine ⟨v₄, ?_, hu₄⟩
  unfold CMessageHeader.unserialize headerOf
  simp only [h₁, h₂, h₃, h₄, except_ok_bind, hu₁, hu₂, hu₃]

/-- **A turn of `ProcessMessages` never throws**, and does to the unread
bytes what `frameTurn` does. -/
theorem processTurn_eq (v : CDataStream) :
    ∃ t, processTurn v = .ok t ∧ t.map CDataStream.unread = frameTurn v.unread := by
  unfold processTurn frameTurn
  dsimp only
  rw [CDataStream.size_eq]
  by_cases hfound : v.unread.length - search messageStart v.unread < nHeaderSize
  · rw [if_pos hfound, if_pos hfound]
    refine ⟨_, rfl, congrArg FramerTurn.wait ?_⟩
    by_cases hlong : nHeaderSize < v.unread.length
    · rw [if_pos hlong, CDataStream.unread_eraseFront]
    · rw [if_neg hlong, Nat.sub_eq_zero_of_le (by omega), List.drop_zero]
  · rw [if_neg hfound, if_neg hfound]
    -- the stream from the message start on
    obtain ⟨w, hw⟩ : ∃ w, w = v.eraseFront (search messageStart v.unread) := ⟨_, rfl⟩
    have hunread : w.unread = v.unread.drop (search messageStart v.unread) := by
      rw [hw, CDataStream.unread_eraseFront]
    obtain ⟨w', hhdr, hrest⟩ := unserialize_header (v := w) (by
      rw [CDataStream.size_eq, hunread, List.length_drop]
      omega)
    rw [← hw, ← hunread, hhdr, except_ok_bind]
    unfold takeMessage
    dsimp only
    rw [CDataStream.size_eq, hrest]
    split_ifs with hvalid hmax hshort hcheck
    · exact ⟨_, rfl, congrArg FramerTurn.skip hrest⟩
    · exact ⟨_, rfl, congrArg FramerTurn.skip hrest⟩
    · refine ⟨_, rfl, congrArg FramerTurn.wait ?_⟩
      rw [CDataStream.unread_insertFront, hrest, List.take_append_drop]
    · exact ⟨_, rfl, congrArg FramerTurn.skip hrest⟩
    · obtain ⟨w'', hignore, hu⟩ := w'.advance_eq_ok (k := (headerOf w.unread).nMessageSize)
        (e := .exception "CDataStream::ignore() : end of data") (by
          rw [CDataStream.size_eq, hrest]
          omega)
      unfold CDataStream.ignore
      rw [hignore]
      refine ⟨_, rfl, congrArg (FramerTurn.message _) ?_⟩
      rw [hu, hrest]

/-! ## The loop -/

variable {env : Surroundings} {pfrom : CNode} {fuel : ℕ}

/-- A turn after which the loop goes on has taken a header. -/
theorem size_of_processTurn {v : CDataStream} :
    (∀ v', processTurn v = .ok (.skip v') → v'.size + nHeaderSize ≤ v.size) ∧
      ∀ m v', processTurn v = .ok (.message m v') → v'.size + nHeaderSize ≤ v.size := by
  obtain ⟨t, ht, hframe⟩ := processTurn_eq v
  rw [ht]
  constructor
  · rintro v' ⟨⟩
    rw [CDataStream.size_eq, CDataStream.size_eq]
    exact length_of_frameTurn.1 _ hframe.symm
  · rintro m v' ⟨⟩
    rw [CDataStream.size_eq, CDataStream.size_eq]
    exact length_of_frameTurn.2 _ _ hframe.symm

omit [P : Platform] in
/-- Handling a message leaves no more in the buffer than there was. -/
theorem size_afterMessage {vRecv : CDataStream} :
    (pfrom.afterMessage env m vRecv).vRecv.size ≤ vRecv.size := by
  unfold CNode.afterMessage
  dsimp only
  split
  · exact Nat.zero_le _
  · exact le_rfl

/-- **`ProcessMessages` terminates** on every buffer, whatever goes on
around it, and throws nothing. -/
theorem processLoop_terminates (hfuel : pfrom.vRecv.size / nHeaderSize < fuel) :
    ∃ pfrom', processLoop env fuel pfrom = some (.ok pfrom') := by
  induction fuel generalizing pfrom with
  | zero => exact absurd hfuel (Nat.not_lt_zero _)
  | succ fuel ih =>
    -- a header less in the buffer is a turn less to go
    have hless : ∀ {n}, n + nHeaderSize ≤ pfrom.vRecv.size → n / nHeaderSize < fuel := by
      intro n hn
      have hdiv := Nat.div_le_div_right (c := nHeaderSize) hn
      rw [Nat.add_div_right _ nHeaderSize_pos] at hdiv
      omega
    obtain ⟨t, ht, -⟩ := processTurn_eq pfrom.vRecv
    unfold processLoop
    split
    · exact ⟨_, rfl⟩
    · rw [ht]
      cases t with
      | wait v => exact ⟨_, rfl⟩
      | skip v => exact ih (hless (size_of_processTurn.1 v ht))
      | message m v =>
        dsimp only
        split
        · exact ⟨_, rfl⟩
        · have hsize := size_of_processTurn.2 m v ht
          exact ih (hless ((Nat.add_le_add_right size_afterMessage _).trans hsize))

theorem processMessages_terminates (env : Surroundings) (pfrom : CNode) :
    ∃ pfrom', processMessages env pfrom = some (.ok pfrom') := by
  unfold processMessages
  split
  · exact ⟨_, rfl⟩
  · exact processLoop_terminates (Nat.lt_succ_self _)

omit [P : Platform] in
/-- The send buffer never fills, and nobody asks to shut down. -/
def Surroundings.Quiet (env : Surroundings) : Prop :=
  ∀ done, env.fSendFull done = false ∧ env.fShutdown done = false

omit [P : Platform] in
/-- A peer as a reader of its stream. -/
def CNode.reader (pfrom : CNode) : Framer.Reader UInt8 Message :=
  ⟨pfrom.processed, pfrom.vRecv.unread, pfrom.fSocketOpen⟩

/-- **The loop hands over the messages of the buffer**, until one of them
closes the socket. -/
theorem processLoop_eq (hquiet : env.Quiet) {pfrom' : CNode}
    (h : processLoop env fuel pfrom = some (.ok pfrom')) :
    let out := messageFramer.run pfrom.vRecv.unread
    let handed := Framer.consume env.fClosed pfrom.processed out.1
    pfrom'.reader =
      ⟨handed.1, if handed.2 then out.2 else [], pfrom.fSocketOpen && handed.2⟩ := by
  induction fuel generalizing pfrom with
  | zero => simp [processLoop] at h
  | succ fuel ih =>
    unfold processLoop at h
    rw [if_neg (by rw [(hquiet _).1]; decide)] at h
    obtain ⟨t, ht, hframe⟩ := processTurn_eq pfrom.vRecv
    rw [ht] at h
    cases t with
    | wait v =>
      obtain rfl := Except.ok.inj (Option.some.inj h)
      rw [messageFramer.run_wait hframe.symm]
      simp [CNode.reader, Framer.consume]
    | skip v =>
      rw [messageFramer.run_skip hframe.symm]
      exact ih h
    | message m v =>
      dsimp only at h
      rw [if_neg (by rw [(hquiet _).2]; decide)] at h
      have hrest := ih h
      rw [messageFramer.run_message hframe.symm]
      unfold CNode.afterMessage at hrest
      dsimp only at hrest ⊢
      unfold Framer.consume
      by_cases hclosed : env.fClosed (pfrom.processed ++ [m]) = true
      · rw [if_pos hclosed, CDataStream.unread_clear, run_nil] at hrest
        rw [if_pos hclosed, hrest]
        simp [Framer.consume]
      · rw [if_neg hclosed] at hrest
        rw [if_neg hclosed]
        exact hrest

/-- Nothing hangs on the call for an empty buffer that is not made. -/
theorem processMessages_eq (hquiet : env.Quiet) {pfrom' : CNode}
    (h : processMessages env pfrom = some (.ok pfrom')) :
    let out := messageFramer.run pfrom.vRecv.unread
    let handed := Framer.consume env.fClosed pfrom.processed out.1
    pfrom'.reader =
      ⟨handed.1, if handed.2 then out.2 else [], pfrom.fSocketOpen && handed.2⟩ := by
  unfold processMessages at h
  split at h
  · rename_i hempty
    obtain rfl := Except.ok.inj (Option.some.inj h)
    rw [CDataStream.size_eq, List.length_eq_zero_iff] at hempty
    rw [hempty, run_nil]
    simp [CNode.reader, Framer.consume, hempty]
  · exact processLoop_eq hquiet h

/-! ## Chunks -/

omit [P : Platform] in
/-- A closed socket has left nothing in the buffer. -/
def CNode.Settled (pfrom : CNode) : Prop := pfrom.fSocketOpen = false → pfrom.vRecv.unread = []

/-- **Receiving a chunk** is what the reader of the library does with a
piece. -/
theorem receiveChunk_eq (hquiet : env.Quiet) (hsettled : pfrom.Settled) (chunk : List UInt8) :
    ∃ pfrom', receiveChunk env pfrom chunk = some (.ok pfrom') ∧ pfrom'.Settled ∧
      pfrom'.reader = messageFramer.receive env.fClosed pfrom.reader chunk := by
  obtain ⟨pfrom', h⟩ := processMessages_terminates env
    (if pfrom.fSocketOpen then { pfrom with vRecv := pfrom.vRecv.append chunk } else pfrom)
  have heq := processMessages_eq hquiet h
  refine ⟨pfrom', h, ?_⟩
  unfold Framer.receive
  by_cases hopen : pfrom.fSocketOpen = true
  · simp only [hopen, if_true, CDataStream.unread_append, Bool.true_and] at heq
    have hlistens : pfrom.reader.listens = true := hopen
    rw [if_pos hlistens]
    refine ⟨fun hclosed => ?_, heq⟩
    have hkept := congrArg Framer.Reader.kept heq
    have hdown := congrArg Framer.Reader.listens heq
    simp only [CNode.reader, hclosed] at hkept hdown
    rw [hkept, ← hdown]
    rfl
  · have hclosed := Bool.not_eq_true _ ▸ hopen
    simp only [hclosed, Bool.false_eq_true, if_false, hsettled hclosed, run_nil, Framer.consume,
      Bool.false_and, if_true] at heq
    have hdeaf : ¬ pfrom.reader.listens = true := hopen
    rw [if_neg hdeaf, heq]
    refine ⟨fun _ => congrArg Framer.Reader.kept heq, ?_⟩
    simp [CNode.reader, hclosed, hsettled hclosed]

/-- And receiving one after the other is receiving them in pieces. -/
theorem receiveChunks_eq (hquiet : env.Quiet) : ∀ (chunks : List (List UInt8)) {pfrom : CNode},
    pfrom.Settled → ∃ pfrom', receiveChunks env pfrom chunks = some (.ok pfrom') ∧
      pfrom'.reader = chunks.foldl (messageFramer.receive env.fClosed) pfrom.reader
  | [], pfrom, _ => ⟨pfrom, rfl, rfl⟩
  | chunk :: chunks, pfrom, hsettled => by
    obtain ⟨p₁, h₁, hs₁, hr₁⟩ := receiveChunk_eq hquiet hsettled chunk
    obtain ⟨p₂, h₂, hr₂⟩ := receiveChunks_eq hquiet chunks hs₁
    refine ⟨p₂, ?_, ?_⟩
    · unfold receiveChunks
      rw [h₁]
      exact h₂
    · rw [hr₂, hr₁, List.foldl_cons]

/-- **Message framing does not depend on how the stream is cut**, and
`ProcessMessages` terminates on every buffer. -/
theorem framing_independent :
    (∀ (env : Surroundings) (pfrom : CNode),
      ∃ pfrom', processMessages env pfrom = some (.ok pfrom')) ∧
    ∀ (env : Surroundings) (chunks : List (List UInt8)), env.Quiet →
      ∃ pieces whole, receiveChunks env CNode.connected chunks = some (.ok pieces) ∧
        receiveChunk env CNode.connected chunks.flatten = some (.ok whole) ∧
        pieces.processed = whole.processed := by
  refine ⟨processMessages_terminates, fun env chunks hquiet => ?_⟩
  have hsettled : CNode.connected.Settled := fun _ => rfl
  obtain ⟨pieces, hp, hpieces⟩ := receiveChunks_eq hquiet chunks hsettled
  obtain ⟨whole, hw, -, hwhole⟩ := receiveChunk_eq hquiet hsettled chunks.flatten
  refine ⟨pieces, whole, hp, hw, ?_⟩
  show pieces.reader.done = whole.reader.done
  rw [hpieces, hwhole]
  cases chunks with
  | nil =>
    -- no call at all, and one for an empty buffer
    simp [CNode.reader, CNode.connected, Framer.receive, run_nil, Framer.consume]
  | cons x xs => rw [Framer.receive_flatten]

/-! ## A message in three chunks -/

/-- Nothing fills, nobody shuts down, no socket is closed. -/
def quietSurroundings : Surroundings := ⟨fun _ => false, fun _ => false, fun _ => false⟩

/-- A stray byte and a `ping`, cut inside the message start and inside the
header. -/
def pingChunks : List (List UInt8) :=
  [[0, 0xcd, 0xf2], [0xc0, 0xef, 112, 105, 110, 103, 0, 0, 0, 0, 0, 0, 0, 0, 2, 0],
    [0, 0, 0, 0, 0, 0, 7, 8, 0xcd]]

omit [P : Platform] in
/-- It is handed over once, and the byte behind it kept. -/
theorem framing_pingChunks :
    letI := Platform.toy
    (∃ whole : CNode, receiveChunk quietSurroundings CNode.connected pingChunks.flatten =
        some (.ok whole) ∧ whole.processed = [⟨[112, 105, 110, 103], [7, 8]⟩] ∧
        whole.vRecv.unread = [0xcd]) ∧
      ∃ pieces whole, receiveChunks quietSurroundings CNode.connected pingChunks =
          some (.ok pieces) ∧
        receiveChunk quietSurroundings CNode.connected pingChunks.flatten = some (.ok whole) ∧
        pieces.processed = whole.processed := by
  let := Platform.toy
  refine ⟨?_, framing_independent.2 quietSurroundings pingChunks fun _ => ⟨rfl, rfl⟩⟩
  refine ⟨⟨CDataStream.ofBytes [0xcd], true, [⟨[112, 105, 110, 103], [7, 8]⟩]⟩, ?_, rfl, rfl⟩
  decide +kernel

end CryptoBullion
