import CryptoBullion.Messages.Framing
import CryptoBullion.Model.SendBuffer
/-!
# What one peer sends, the other receives

An outbox holds whole messages, and at most one that is being written. The
send buffer refines it: its bytes are the frames of the finished messages,
with a header still unfilled and a payload behind them where one is being
written. A frame at the front of a buffer is cut off as its message,
whatever its payload and whatever follows, so a receiver finds the messages
of the outbox in the stream and nothing else.
-/

namespace CryptoBullion

/-! ## The outbox -/

/-- Messages that are finished, and one that is not. -/
structure Outbox where
  finished : List Message
  unfinished : Option Message
  deriving DecidableEq, Repr

/-- At most twelve characters, all of them printable. -/
def IsCommand (strCommand : List UInt8) : Prop :=
  strCommand.length ≤ 12 ∧ ∀ c ∈ strCommand, 32 ≤ c ∧ c ≤ 126

instance {strCommand : List UInt8} : Decidable (IsCommand strCommand) :=
  inferInstanceAs (Decidable (_ ∧ _))

namespace Outbox

def empty : Outbox := ⟨[], none⟩

/-- What an operation does to an outbox, where it is used as it should be:
commands are text, payloads are written inside a message, and no message is
finished with more than `MAX_SIZE` bytes. -/
def step (o : Outbox) : SendOp → Option Outbox
  | .beginMessage pszCommand =>
    -- one that was left open is given up
    if IsCommand pszCommand then some ⟨o.finished, some ⟨pszCommand, []⟩⟩ else none
  | .write bytes =>
    o.unfinished.map fun m => ⟨o.finished, some ⟨m.strCommand, m.vMsg ++ bytes⟩⟩
  | .endMessage =>
    match o.unfinished with
    | none => some o
    | some m => if m.vMsg.length ≤ maxSize then some ⟨o.finished ++ [m], none⟩ else none
  | .abortMessage => some ⟨o.finished, none⟩
  | .socketSend _ => some o

/-- One after the other. -/
def run : Outbox → List SendOp → Option Outbox
  | o, [] => some o
  | o, op :: ops => (o.step op).bind fun o => o.run ops

end Outbox

/-! ## Frames -/

variable [P : Platform]

/-- A message on the wire: its header and its payload. -/
def frame (m : Message) : List UInt8 :=
  CMessageHeader.serialize ⟨messageStart, strncpy m.strCommand 12, m.vMsg.length,
    payloadChecksum m.vMsg⟩ ++ m.vMsg

/-- A message being written: neither size nor checksum are known. -/
def openFrame (m : Message) : List UInt8 :=
  (CMessageHeader.ofCommand m.strCommand 0).serialize ++ m.vMsg

omit P in
theorem length_strncpy {s : List UInt8} {n : ℕ} : (strncpy s n).length = n := by
  unfold strncpy
  rw [List.length_append, List.length_take, List.length_replicate]
  omega

omit P in
theorem strncpy_eq {s : List UInt8} {n : ℕ} (h : s.length ≤ n) :
    strncpy s n = s ++ List.replicate (n - s.length) 0 := by
  unfold strncpy
  rw [List.take_of_length_le h]

omit P in
theorem length_serialize {hdr : CMessageHeader} (hstart : hdr.pchMessageStart.length = 4)
    (hcommand : hdr.pchCommand.length = 12) : hdr.serialize.length = nHeaderSize := by
  unfold CMessageHeader.serialize nHeaderSize
  simp only [List.length_append, length_leBytes, hstart, hcommand]

variable {m : Message} {c rest : List UInt8}

omit P in
/-- The padding is behind the command. -/
theorem takeWhile_strncpy (h : IsCommand c) :
    (strncpy c 12).takeWhile (· ≠ 0) = c ∧
      (strncpy c 12).dropWhile (· ≠ 0) = List.replicate (12 - c.length) 0 := by
  have hne : ∀ b ∈ c, (b ≠ 0 : Bool) = true := by
    intro b hb
    rw [decide_eq_true_iff]
    rintro rfl
    exact absurd (h.2 0 hb).1 (by decide)
  rw [strncpy_eq h.1, List.takeWhile_append_of_pos hne, List.dropWhile_append_of_pos hne]
  cases 12 - c.length with
  | zero => simp
  | succ k => simp [List.replicate_succ]

omit P in
theorem getCommand_strncpy {hdr : CMessageHeader} (h : IsCommand c)
    (hcommand : hdr.pchCommand = strncpy c 12) : hdr.getCommand = c := by
  unfold CMessageHeader.getCommand
  rw [hcommand, (takeWhile_strncpy h).1]
  split
  · rfl
  · rename_i hlast
    -- a command of twelve characters has no zero behind it
    rw [strncpy_eq h.1] at hlast ⊢
    rcases Nat.eq_zero_or_pos (12 - c.length) with h0 | hpos
    · rw [h0, List.replicate_zero, List.append_nil]
    · obtain ⟨k, hk⟩ := Nat.exists_eq_add_one_of_ne_zero hpos.ne'
      rw [hk] at hlast
      exact absurd (by simp [List.getLast?_append, List.replicate_succ']) hlast

omit P in
theorem isCommandText_strncpy (h : IsCommand c) : isCommandText (strncpy c 12) = true := by
  unfold isCommandText
  rw [(takeWhile_strncpy h).1, (takeWhile_strncpy h).2, Bool.and_eq_true]
  refine ⟨List.all_eq_true.2 fun b hb => ?_, by simp⟩
  simpa using h.2 b hb

omit P in
/-- **A header is read back.** -/
theorem headerOf_serialize {hdr : CMessageHeader}
    (hstart : hdr.pchMessageStart.length = 4) (hcommand : hdr.pchCommand.length = 12)
    (hsize : hdr.nMessageSize < 256 ^ 4) (hchecksum : hdr.nChecksum < 256 ^ 4) :
    headerOf (hdr.serialize ++ rest) = hdr := by
  unfold headerOf CMessageHeader.serialize
  have h4 : (hdr.pchMessageStart ++ hdr.pchCommand ++ leBytes 4 hdr.nMessageSize ++
      leBytes 4 hdr.nChecksum ++ rest).drop 4 =
      hdr.pchCommand ++ (leBytes 4 hdr.nMessageSize ++ (leBytes 4 hdr.nChecksum ++ rest)) := by
    simp only [List.append_assoc]
    exact List.drop_left' hstart
  have h16 : (hdr.pchMessageStart ++ hdr.pchCommand ++ leBytes 4 hdr.nMessageSize ++
      leBytes 4 hdr.nChecksum ++ rest).drop 16 =
      leBytes 4 hdr.nMessageSize ++ (leBytes 4 hdr.nChecksum ++ rest) := by
    simp only [← List.append_assoc]
    rw [List.append_assoc, List.append_assoc]
    exact List.drop_left' (by rw [List.length_append, hstart, hcommand])
  have h20 : (hdr.pchMessageStart ++ hdr.pchCommand ++ leBytes 4 hdr.nMessageSize ++
      leBytes 4 hdr.nChecksum ++ rest).drop 20 = leBytes 4 hdr.nChecksum ++ rest := by
    rw [List.append_assoc]
    exact List.drop_left' (by
      rw [List.length_append, List.length_append, hstart, hcommand, length_leBytes])
  rw [h4, h16, h20, List.take_left' hcommand, List.take_left' length_leBytes,
    List.take_left' length_leBytes, ofLeBytes_leBytes hsize, ofLeBytes_leBytes hchecksum]
  congr 1
  simp only [List.append_assoc]
  exact List.take_left' hstart

/-! ## Cutting a frame off -/

/-- What the operations finish: a command that is text, and no more than
`MAX_SIZE` bytes. -/
def Sendable (m : Message) : Prop := IsCommand m.strCommand ∧ m.vMsg.length ≤ maxSize

omit P in
theorem maxSize_lt : maxSize < 256 ^ 4 := by decide

theorem payloadChecksum_lt : payloadChecksum c < 256 ^ 4 := by
  unfold payloadChecksum
  have : (256 : ℕ) ^ 4 = 2 ^ 32 := by norm_num
  rw [this]
  exact Nat.mod_lt _ (by norm_num)

/-- The header of a frame. -/
theorem headerOf_frame (h : Sendable m) : headerOf (frame m ++ rest) =
    ⟨messageStart, strncpy m.strCommand 12, m.vMsg.length, payloadChecksum m.vMsg⟩ := by
  unfold frame
  rw [List.append_assoc]
  exact headerOf_serialize length_messageStart length_strncpy
    (lt_of_le_of_lt h.2 maxSize_lt) payloadChecksum_lt

theorem drop_frame : (frame m ++ rest).drop nHeaderSize = m.vMsg ++ rest := by
  unfold frame
  rw [List.append_assoc]
  exact List.drop_left' (length_serialize length_messageStart length_strncpy)

/-- **A frame at the front is its message**, whatever is in it and behind
it. -/
theorem takeMessage_frame (h : Sendable m) :
    takeMessage (frame m ++ rest) = .message m rest := by
  unfold takeMessage
  dsimp only
  rw [headerOf_frame h, drop_frame]
  have hvalid : CMessageHeader.isValid ⟨messageStart, strncpy m.strCommand 12, m.vMsg.length,
      payloadChecksum m.vMsg⟩ = true := by
    unfold CMessageHeader.isValid
    simp only [isCommandText_strncpy h.1, h.2, decide_true, Bool.and_self]
  rw [if_neg (by rw [hvalid]; decide), if_neg (Nat.not_lt.2 h.2),
    if_neg (by rw [List.length_append]; dsimp only; omega)]
  dsimp only
  rw [List.take_left, List.drop_left, if_neg (fun hne => hne rfl), getCommand_strncpy h.1 rfl]

theorem frameTurn_frame (h : Sendable m) : frameTurn (frame m ++ rest) = .message m rest := by
  have hstart : search messageStart (frame m ++ rest) = 0 := by
    refine search_eq_zero ?_
    unfold frame CMessageHeader.serialize
    simp only [List.append_assoc]
    exact List.prefix_append ..
  have hlen : nHeaderSize ≤ (frame m ++ rest).length := by
    unfold frame
    rw [List.length_append, List.length_append,
      length_serialize length_messageStart length_strncpy]
    omega
  unfold frameTurn
  dsimp only
  rw [hstart, Nat.sub_zero, if_neg (Nat.not_lt.2 hlen), List.drop_zero, takeMessage_frame h]

/-- **The frames of messages are those messages**, and nothing is left. -/
theorem run_frames : ∀ {ms : List Message}, (∀ m ∈ ms, Sendable m) →
    messageFramer.run (ms.flatMap frame) = (ms, [])
  | [], _ => run_nil
  | m :: ms, h => by
    have hturn : messageFramer.turn (frame m ++ ms.flatMap frame) =
        .message m (ms.flatMap frame) := frameTurn_frame (h m List.mem_cons_self)
    rw [List.flatMap_cons, messageFramer.run_message hturn,
      run_frames fun x hx => h x (List.mem_cons_of_mem _ hx)]

theorem length_ofCommand : (CMessageHeader.ofCommand c 0).serialize.length = nHeaderSize :=
  length_serialize length_messageStart length_strncpy

/-! ## The send buffer -/

namespace CDataStream

variable {v : CDataStream} {n : ℕ} {a old b : List UInt8}

omit P in
theorem unread_resize (hn : n ≤ v.size) : (v.resize n).unread = v.unread.take n := by
  have := v.nReadPos_le
  unfold size at hn
  have hzero : n + v.nReadPos - v.vch.length = 0 := by omega
  unfold resize unread
  simp only [hzero, List.replicate_zero, List.append_nil, List.drop_take]
  congr 1
  omega

omit P in
/-- **A field is overwritten**, and nothing around it. -/
theorem unread_memcpy (xs : List UInt8) (hv : v.unread = a ++ (old ++ b)) (hlen : old.length = xs.length) :
    (v.memcpy a.length xs).unread = a ++ (xs ++ b) := by
  have hpos := v.nReadPos_le
  have htotal := congrArg List.length hv
  simp only [unread, List.length_drop, List.length_append] at htotal
  -- what was read already stands in front of all this
  have hvch : v.vch = v.vch.take v.nReadPos ++ (a ++ (old ++ b)) := by
    rw [← hv, unread, List.take_append_drop]
  have hread : (v.vch.take v.nReadPos).length = v.nReadPos := by
    rw [List.length_take]
    omega
  have htake : v.vch.take (v.nReadPos + a.length) = v.vch.take v.nReadPos ++ a := by
    conv_lhs => rw [hvch, ← List.append_assoc]
    exact List.take_left' (by rw [List.length_append, hread])
  have hdrop : v.vch.drop (v.nReadPos + a.length + xs.length) = b := by
    conv_lhs => rw [hvch, ← List.append_assoc, ← List.append_assoc]
    exact List.drop_left' (by rw [List.length_append, List.length_append, hread, hlen])
  unfold memcpy unread
  dsimp only
  rw [htake, hdrop, List.append_assoc]
  exact List.drop_left' hread

end CDataStream

namespace SendBuffer

variable {s : SendBuffer} {o : Outbox} {op : SendOp}

/-- **The buffer holds an outbox**: the frames of what is finished, and of
what is not a frame that is still open, with the offsets of its header and
its payload. -/
def Holds (s : SendBuffer) (o : Outbox) : Prop :=
  match o.unfinished with
  | none => s.nHeaderStart = -1 ∧ s.stream = o.finished.flatMap frame
  | some m => ∃ front : List UInt8, s.wire ++ front = o.finished.flatMap frame ∧
      s.vSend.unread = front ++ openFrame m ∧ s.nHeaderStart = front.length ∧
      s.nMessageStart = front.length + nHeaderSize

theorem holds_abortMessage (h : s.Holds o) : s.abortMessage.Holds ⟨o.finished, none⟩ := by
  obtain ⟨finished, _ | m⟩ := o
  · obtain ⟨hstart, hstream⟩ := h
    unfold abortMessage
    rw [if_pos (by omega)]
    exact ⟨hstart, hstream⟩
  · obtain ⟨front, hwire, hunread, hstart, -⟩ := h
    unfold abortMessage
    rw [if_neg (by omega)]
    refine ⟨rfl, ?_⟩
    have hn : s.nHeaderStart.toNat = front.length := by omega
    have hle : front.length ≤ s.vSend.size := by
      rw [CDataStream.size_eq, hunread, List.length_append]
      omega
    unfold stream
    dsimp only
    rw [hn, CDataStream.unread_resize hle, hunread, List.take_left, hwire]

theorem holds_beginMessage (h : s.Holds o) :
    (s.beginMessage c).Holds ⟨o.finished, some ⟨c, []⟩⟩ := by
  -- what was left open is taken back
  have hclosed : (if s.nHeaderStart ≠ -1 then s.abortMessage else s).Holds
      ⟨o.finished, none⟩ := by
    split
    · exact holds_abortMessage h
    · rename_i hstart
      obtain ⟨finished, _ | m⟩ := o
      · exact h
      · obtain ⟨front, -, -, hfront, -⟩ := h
        omega
  unfold beginMessage
  dsimp only
  generalize (if s.nHeaderStart ≠ -1 then s.abortMessage else s) = s' at hclosed
  obtain ⟨-, hstream⟩ := hclosed
  refine ⟨s'.vSend.unread, hstream, ?_, ?_, ?_⟩
  · rw [CDataStream.unread_append]
    unfold openFrame
    rw [List.append_nil]
  · rw [CDataStream.size_eq]
  · dsimp only
    rw [CDataStream.size_eq, CDataStream.unread_append, List.length_append, length_ofCommand]

theorem holds_write {m : Message} {bytes : List UInt8} (h : s.Holds ⟨o.finished, some m⟩) :
    (s.write bytes).Holds ⟨o.finished, some ⟨m.strCommand, m.vMsg ++ bytes⟩⟩ := by
  obtain ⟨front, hwire, hunread, hoffsets⟩ := h
  refine ⟨front, hwire, ?_, hoffsets⟩
  unfold write openFrame at *
  dsimp only
  rw [CDataStream.unread_append, hunread]
  simp only [List.append_assoc]

/-- **Finishing a message** fills its header in: an open frame becomes the
frame of its message. -/
theorem holds_endMessage {m : Message} (h : s.Holds ⟨o.finished, some m⟩) :
    s.endMessage.Holds ⟨o.finished ++ [m], none⟩ := by
  obtain ⟨front, hwire, hunread, hstart, hmessage⟩ := h
  have hn : s.nHeaderStart.toNat = front.length := by omega
  have hsize : s.vSend.size - s.nMessageStart = m.vMsg.length := by
    rw [CDataStream.size_eq, hunread, hmessage]
    unfold openFrame
    rw [List.length_append, List.length_append, length_ofCommand]
    omega
  -- the two fields, with what stands before and behind them
  have hopen : s.vSend.unread = (front ++ (messageStart ++ strncpy m.strCommand 12)) ++
      (leBytes 4 0 ++ (leBytes 4 0 ++ m.vMsg)) := by
    rw [hunread]
    unfold openFrame CMessageHeader.ofCommand CMessageHeader.serialize
    simp only [List.append_assoc]
  have hpos : (front ++ (messageStart ++ strncpy m.strCommand 12)).length =
      front.length + messageSizeOffset := by
    simp only [List.length_append, length_messageStart, length_strncpy, messageSizeOffset]
  have hsized := CDataStream.unread_memcpy (leBytes 4 m.vMsg.length) hopen
    (by rw [length_leBytes, length_leBytes])
  rw [hpos] at hsized
  have hsized' : (s.vSend.memcpy (front.length + messageSizeOffset)
      (leBytes 4 m.vMsg.length)).unread = (front ++ (messageStart ++ strncpy m.strCommand 12) ++
        leBytes 4 m.vMsg.length) ++ (leBytes 4 0 ++ m.vMsg) := by
    rw [hsized]
    simp only [List.append_assoc]
  have hpos' : (front ++ (messageStart ++ strncpy m.strCommand 12) ++
      leBytes 4 m.vMsg.length).length = front.length + checksumOffset := by
    rw [List.length_append, hpos, length_leBytes, checksumOffset, Nat.add_assoc]
  have hpayload : (s.vSend.memcpy (front.length + messageSizeOffset)
      (leBytes 4 m.vMsg.length)).unread.drop s.nMessageStart = m.vMsg := by
    rw [hsized', ← List.append_assoc, hmessage]
    exact List.drop_left' (by
      rw [List.length_append, hpos', length_leBytes, checksumOffset, messageSizeOffset, nHeaderSize,
        Nat.add_assoc])
  have hsummed := CDataStream.unread_memcpy (leBytes 4 (payloadChecksum m.vMsg)) hsized'
    (by rw [length_leBytes, length_leBytes])
  rw [hpos'] at hsummed
  unfold endMessage
  rw [if_neg (by omega)]
  refine ⟨rfl, ?_⟩
  unfold stream
  dsimp only
  rw [hn, hsize, hpayload, hsummed, List.flatMap_append, ← hwire]
  unfold frame CMessageHeader.serialize
  simp only [List.flatMap_cons, List.flatMap_nil, List.append_assoc, List.append_nil]

omit P in
theorem stream_socketSend {nBytes : ℕ} : (s.socketSend nBytes).stream = s.stream := by
  unfold socketSend stream
  split
  · dsimp only
    rw [CDataStream.unread_eraseFront, List.append_assoc, List.take_append_drop]
  · rfl

theorem holds_socketSend {nBytes : ℕ} (h : s.Holds o) : (s.socketSend nBytes).Holds o := by
  obtain ⟨finished, _ | m⟩ := o
  · obtain ⟨hstart, hstream⟩ := h
    refine ⟨?_, stream_socketSend.trans hstream⟩
    unfold socketSend
    split
    · exact hstart
    · exact hstart
  · obtain ⟨front, hwire, hunread, hstart, hmessage⟩ := h
    unfold socketSend
    rw [if_neg (by omega)]
    exact ⟨front, hwire, hunread, hstart, hmessage⟩

/-- **One operation**: the buffer goes on holding the outbox. -/
theorem holds_step {o' : Outbox} (h : s.Holds o) (hstep : o.step op = some o') :
    (s.step op).Holds o' := by
  cases op with
  | beginMessage pszCommand =>
    unfold Outbox.step at hstep
    dsimp only at hstep
    split at hstep
    · obtain rfl := Option.some.inj hstep
      exact holds_beginMessage h
    · simp at hstep
  | write bytes =>
    obtain ⟨m, hm, rfl⟩ := Option.map_eq_some_iff.1 hstep
    obtain ⟨finished, unfinished⟩ := o
    obtain rfl : unfinished = some m := hm
    exact holds_write (o := ⟨finished, some m⟩) h
  | endMessage =>
    obtain ⟨finished, _ | m⟩ := o
    · obtain rfl := Option.some.inj hstep
      unfold step endMessage
      dsimp only
      rw [if_pos (by rw [h.1]; decide)]
      exact h
    · unfold Outbox.step at hstep
      dsimp only at hstep
      split at hstep
      · obtain rfl := Option.some.inj hstep
        exact holds_endMessage (o := ⟨finished, some m⟩) h
      · simp at hstep
  | abortMessage =>
    obtain rfl := Option.some.inj hstep
    exact holds_abortMessage h
  | socketSend nBytes =>
    obtain rfl := Option.some.inj hstep
    exact holds_socketSend h

/-- **And every sequence of them.** -/
theorem holds_run : ∀ {ops : List SendOp} {s : SendBuffer} {o o' : Outbox}, s.Holds o →
    o.run ops = some o' → (ops.foldl SendBuffer.step s).Holds o'
  | [], s, o, o', h, hrun => by
    obtain rfl := Option.some.inj hrun
    exact h
  | op :: ops, s, o, o', h, hrun => by
    obtain ⟨o₁, hstep, hrest⟩ := Option.bind_eq_some_iff.1 hrun
    rw [List.foldl_cons]
    exact holds_run (holds_step h hstep) hrest

theorem holds_init : SendBuffer.init.Holds Outbox.empty := ⟨rfl, rfl⟩

end SendBuffer

/-! ## Delivery -/

namespace Outbox

variable {o o' : Outbox} {op : SendOp}

/-- The messages of an outbox can be sent. -/
structure Sound (o : Outbox) : Prop where
  finished : ∀ m ∈ o.finished, Sendable m
  unfinished : ∀ m ∈ o.unfinished, IsCommand m.strCommand

omit P in
theorem Sound.step (h : o.Sound) (hstep : o.step op = some o') : o'.Sound := by
  cases op with
  | beginMessage pszCommand =>
    unfold Outbox.step at hstep
    dsimp only at hstep
    split at hstep
    · rename_i hcommand
      obtain rfl := Option.some.inj hstep
      exact ⟨h.finished, by simpa using hcommand⟩
    · simp at hstep
  | write bytes =>
    obtain ⟨m, hm, rfl⟩ := Option.map_eq_some_iff.1 hstep
    exact ⟨h.finished, by simpa using h.unfinished m hm⟩
  | endMessage =>
    obtain ⟨finished, _ | m⟩ := o
    · obtain rfl := Option.some.inj hstep
      exact h
    · unfold Outbox.step at hstep
      dsimp only at hstep
      split at hstep
      · rename_i hsize
        obtain rfl := Option.some.inj hstep
        refine ⟨fun x hx => ?_, by simp⟩
        rcases List.mem_append.1 hx with hx | hx
        · exact h.finished x hx
        · obtain rfl := List.mem_singleton.1 hx
          exact ⟨h.unfinished x rfl, hsize⟩
      · simp at hstep
  | abortMessage =>
    obtain rfl := Option.some.inj hstep
    exact ⟨h.finished, by simp⟩
  | socketSend nBytes =>
    obtain rfl := Option.some.inj hstep
    exact h

omit P in
theorem Sound.run : ∀ {ops : List SendOp} {o : Outbox}, o.Sound → o.run ops = some o' → o'.Sound
  | [], o, h, hrun => by
    obtain rfl := Option.some.inj hrun
    exact h
  | op :: ops, o, h, hrun => by
    obtain ⟨o₁, hstep, hrest⟩ := Option.bind_eq_some_iff.1 hrun
    exact (h.step hstep).run hrest

end Outbox

/-- **A stream of frames is received as its messages**, however it is
cut. -/
theorem receiveChunks_frames {ms : List Message} (hms : ∀ m ∈ ms, Sendable m)
    {env : Surroundings} (hquiet : env.Quiet) {chunks : List (List UInt8)}
    (hchunks : chunks.flatten = ms.flatMap frame) :
    ∃ pfrom, receiveChunks env CNode.connected chunks = some (.ok pfrom) ∧
      pfrom.processed = (Framer.consume env.fClosed [] ms).1 ∧ pfrom.vRecv.size = 0 := by
  have hsettled : CNode.connected.Settled := fun _ => rfl
  obtain ⟨pfrom, hrun, hreader⟩ := receiveChunks_eq hquiet chunks hsettled
  have hframes := run_frames hms
  refine ⟨pfrom, hrun, ?_⟩
  have hend : pfrom.reader.done = (Framer.consume env.fClosed [] ms).1 ∧
      pfrom.reader.kept = [] := by
    rw [hreader]
    cases chunks with
    | nil =>
      -- nothing was received because nothing was sent
      rw [← hchunks, List.flatten_nil, run_nil] at hframes
      obtain ⟨rfl, -⟩ := Prod.mk.inj hframes
      exact ⟨rfl, rfl⟩
    | cons x xs =>
      rw [Framer.receive_flatten, hchunks]
      have hlistens : CNode.connected.reader.listens = true := rfl
      unfold Framer.receive
      rw [if_pos hlistens]
      have hkept : CNode.connected.reader.kept ++ ms.flatMap frame = ms.flatMap frame := rfl
      simp only [hkept, hframes]
      exact ⟨rfl, by split <;> rfl⟩
  refine ⟨hend.1, ?_⟩
  rw [CDataStream.size_eq, List.length_eq_zero_iff]
  exact hend.2

/-- **Sender and receiver agree on framing.** Whatever messages are begun,
written, finished and given up, and however their stream arrives, the peer
is handed the finished ones in order, and its buffer is empty then. A peer
that hangs up has had the first of them. -/
theorem delivered {ops : List SendOp} {o : Outbox} (hops : Outbox.empty.run ops = some o)
    (hdone : o.unfinished = none) {env : Surroundings} (hquiet : env.Quiet)
    {chunks : List (List UInt8)} (hchunks : chunks.flatten = (SendBuffer.run ops).stream) :
    ∃ pfrom, receiveChunks env CNode.connected chunks = some (.ok pfrom) ∧
      pfrom.vRecv.size = 0 ∧ pfrom.processed <+: o.finished ∧
      ((∀ done, env.fClosed done = false) → pfrom.processed = o.finished) := by
  have hempty : Outbox.empty.Sound :=
    ⟨fun m hm => absurd hm List.not_mem_nil, fun m hm => by simp [Outbox.empty] at hm⟩
  have hholds := SendBuffer.holds_run SendBuffer.holds_init hops
  obtain ⟨finished, unfinished⟩ := o
  obtain rfl : unfinished = none := hdone
  have hstream : (SendBuffer.run ops).stream = finished.flatMap frame := hholds.2
  obtain ⟨pfrom, hrun, hprocessed, hsize⟩ :=
    receiveChunks_frames (hempty.run hops).finished hquiet (hchunks.trans hstream)
  refine ⟨pfrom, hrun, hsize, ?_, fun hopen => ?_⟩
  · rw [hprocessed]
    exact Framer.prefix_consume
  · rw [hprocessed, Framer.consume_of_open hopen]
    rfl

/-- A `ping` that holds the bytes of a message start, after a `tx` that was
given up halfway. -/
def pingOps : List SendOp :=
  [.beginMessage [116, 120], .write [1, 0, 0], .abortMessage,
    .beginMessage [112, 105, 110, 103], .write [0xcd, 0xf2, 0xc0, 0xef], .endMessage,
    .socketSend 10]

omit P in
/-- It arrives, and alone. -/
theorem delivered_ping :
    letI := Platform.toy
    ∃ pfrom, receiveChunks quietSurroundings CNode.connected
        [(SendBuffer.run pingOps).wire, (SendBuffer.run pingOps).vSend.unread] =
          some (.ok pfrom) ∧
      pfrom.vRecv.size = 0 ∧
        pfrom.processed = [⟨[112, 105, 110, 103], [0xcd, 0xf2, 0xc0, 0xef]⟩] := by
  let := Platform.toy
  have hops : Outbox.empty.run pingOps =
      some ⟨[⟨[112, 105, 110, 103], [0xcd, 0xf2, 0xc0, 0xef]⟩], none⟩ := by
    decide +kernel
  have hchunks : [(SendBuffer.run pingOps).wire, (SendBuffer.run pingOps).vSend.unread].flatten =
      (SendBuffer.run pingOps).stream := by
    simp [SendBuffer.stream]
  have hquiet : quietSurroundings.Quiet := fun _ => ⟨rfl, rfl⟩
  obtain ⟨pfrom, hrun, hsize, -, hall⟩ := delivered hops rfl hquiet hchunks
  exact ⟨pfrom, hrun, hsize, hall fun _ => rfl⟩

end CryptoBullion
