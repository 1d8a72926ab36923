import CryptoBullion.Model.LoadFile
import CryptoBullion.Disk.Encoding
import CryptoBullion.Messages.Framing
/-!
# What is loaded from an external file

Wherever the buffers end, the loops come from a position to the first
message start at or behind it, and every file that leaves room for the
position in its word is loaded to the end. The frames of a file are all
handed over where, behind each that is refused, the scan comes to the next
one: it looks through the refused frame's own bytes, and a message start
among them is a frame like any other.
-/

namespace CryptoBullion

variable [P : Platform]

/-! ## The message start -/

/-- Four bytes, the first of which is not among the others. -/
theorem messageStart_eq : ∃ a b c d : UInt8, messageStart = [a, b, c, d] ∧
    a ≠ b ∧ a ≠ c ∧ a ≠ d := by
  unfold messageStart
  split
  · exact ⟨_, _, _, _, rfl, by decide, by decide, by decide⟩
  · exact ⟨_, _, _, _, rfl, by decide, by decide, by decide⟩

/-- Where a message starts there is its first byte. -/
theorem head_of_messageStart_isPrefix {l : List UInt8} (h : messageStart <+: l) :
    l[0]? = some (messageStart.headD 0) := by
  obtain ⟨a, b, c, d, hstart, -⟩ := messageStart_eq
  obtain ⟨r, rfl⟩ := h
  rw [hstart]
  rfl

/-- **No message start begins inside another**: in a gap with none, none
begins that ends in the message start behind it. -/
theorem not_isPrefix_of_gap {gap l : List UInt8} (hgap : ¬ messageStart <:+: gap) {i : ℕ}
    (hi : i < gap.length) : ¬ messageStart <+: (gap ++ (messageStart ++ l)).drop i := by
  intro h
  by_cases hroom : messageStart.length + i ≤ gap.length
  · rw [isPrefix_drop_append hroom] at h
    exact hgap (h.isInfix.trans (List.drop_suffix i gap).isInfix)
  obtain ⟨a, b, c, d, hstart, hb, hc, hd⟩ := messageStart_eq
  rw [List.drop_append_of_le_length hi.le, hstart] at h
  rw [length_messageStart] at hroom
  have hlen : (gap.drop i).length = gap.length - i := List.length_drop
  -- fewer than four bytes of the gap are left, so the first byte is there again
  match hrest : gap.drop i with
  | [] => simp [hrest] at hlen; omega
  | [x] => simp_all
  | [x, y] => simp_all
  | [x, y, z] => simp_all
  | x :: y :: z :: w :: l => simp [hrest] at hlen; omega

/-! ## A look at a buffer -/

variable {file : List UInt8} {p q m n : ℕ}

omit P in
theorem of_memchr {buf : List UInt8} {c : UInt8} {j : ℕ} (h : memchr buf c n = some j) :
    j < n ∧ ∀ i < j, buf[i]? ≠ some c := by
  unfold memchr at h
  obtain ⟨hj, -, hbefore⟩ := List.findIdx?_eq_some_iff_getElem.1 h
  rw [List.length_take] at hj
  refine ⟨by omega, fun i hi hc => hbefore i hi ?_⟩
  rw [List.getElem_take, decide_eq_true_iff]
  exact List.getElem_eq_iff (by omega) |>.2 hc

omit P in
theorem of_memchr_eq_none {buf : List UInt8} {c : UInt8} (h : memchr buf c n = none) :
    ∀ i < n, buf[i]? ≠ some c := by
  intro i hi hc
  unfold memchr at h
  have hmem : c ∈ buf.take n :=
    List.mem_of_getElem? (i := i) (by rw [List.getElem?_take_of_lt hi, hc])
  simpa using List.findIdx?_eq_none_iff.1 h c hmem

/-- The first message start at or behind `p` is at `m`, and there is more
behind it than a length. -/
structure FirstStart (file : List UInt8) (p m : ℕ) : Prop where
  le : p ≤ m
  room : m + 8 < file.length
  starts : messageStart <+: file.drop m
  first : ∀ i, p ≤ i → i < m → ¬ messageStart <+: file.drop i

theorem FirstStart.unique {m' : ℕ} (h : FirstStart file p m) (h' : FirstStart file p m') :
    m = m' := by
  rcases lt_trichotomy m m' with hlt | heq | hlt
  · exact absurd h.starts (h'.first m h.le hlt)
  · exact heq
  · exact absurd h'.starts (h.first m' h'.le hlt)

/-- A stretch without one can be passed over. -/
theorem firstStart_congr (hpq : p ≤ q)
    (hnone : ∀ i, p ≤ i → i < q → i + 8 < file.length → ¬ messageStart <+: file.drop i) :
    FirstStart file p m ↔ FirstStart file q m := by
  constructor
  · intro h
    refine ⟨?_, h.room, h.starts, fun i hi him => h.first i (by omega) him⟩
    by_contra hlt
    exact hnone m h.le (by omega) h.room h.starts
  · intro h
    refine ⟨hpq.trans h.le, h.room, h.starts, fun i hi him => ?_⟩
    have := h.room
    by_cases hiq : i < q
    · exact hnone i hi hiq (by omega)
    · exact h.first i (by omega) him

/-- The file leaves room for the position: it does not wrap. -/
def Fits (file : List UInt8) : Prop := file.length + maxBlockSize < uintMax

instance : Decidable (Fits file) := inferInstanceAs (Decidable (_ < _))

/-- **A look at a buffer**: where it finds a message start there is none
before, and where it moves on it passed none with room for a frame, be it
in the buffer or cut by its end. -/
theorem lookTurn_spec (hfits : Fits file) (hp : p + 8 < file.length) :
    (∃ m, lookTurn file p = .found (m + 4) ∧ p ≤ m ∧ messageStart <+: file.drop m ∧
      m + 4 ≤ file.length ∧ ∀ i, p ≤ i → i < m → ¬ messageStart <+: file.drop i) ∨
    ∃ q, lookTurn file p = .further q ∧ p < q ∧
      ∀ i, p ≤ i → i < q → i + 8 < file.length → ¬ messageStart <+: file.drop i := by
  have hwrap : ∀ k, k ≤ 65536 → toUint (p + k) = p + k := by
    intro k hk
    unfold Fits maxBlockSize uintMax at hfits
    exact toUint_of_lt (by omega)
  have hlen : ((file.drop p).take 65536).length = min 65536 (file.length - p) := by
    rw [List.length_take, List.length_drop]
  -- a byte of the buffer is a byte of the file
  have hbyte : ∀ i, p ≤ i → i < p + min 65536 (file.length - p) →
      ((file.drop p).take 65536)[i - p]? ≠ some (messageStart.headD 0) →
      ¬ messageStart <+: file.drop i := by
    intro i hi hi' hne h
    apply hne
    rw [List.getElem?_take_of_lt (by omega), List.getElem?_drop, Nat.add_sub_cancel' hi,
      ← head_of_messageStart_isPrefix h, List.getElem?_drop, Nat.add_zero]
  unfold lookTurn
  dsimp only
  rw [if_neg (by omega)]
  cases hfind : memchr ((file.drop p).take 65536) (messageStart.headD 0)
      (((file.drop p).take 65536).length + 1 - 4) with
  | some j =>
    obtain ⟨hj, hbefore⟩ := of_memchr hfind
    have hnone : ∀ i, p ≤ i → i < p + j → ¬ messageStart <+: file.drop i := by
      intro i hi hij
      exact hbyte i hi (by omega) (hbefore (i - p) (by omega))
    have hfour : ((file.drop p).take 65536 |>.drop j).take 4 = (file.drop (p + j)).take 4 := by
      rw [List.drop_take, List.take_take, List.drop_drop, Nat.min_eq_left (by omega)]
    have hiff : (file.drop (p + j)).take 4 = messageStart ↔ messageStart <+: file.drop (p + j) := by
      rw [List.prefix_iff_eq_take, length_messageStart, eq_comm]
    dsimp only
    rw [hfour]
    split_ifs with hmatch
    · refine Or.inl ⟨p + j, ?_, by omega, hiff.1 hmatch, by omega, hnone⟩
      rw [hwrap _ (by omega), Nat.add_assoc]
    · refine Or.inr ⟨p + (j + 1), by rw [hwrap _ (by omega)], by omega, fun i hi hij _ => ?_⟩
      rcases Nat.lt_or_ge i (p + j) with hlt | hge
      · exact hnone i hi hlt
      · obtain rfl : i = p + j := by omega
        exact fun h => hmatch (hiff.2 h)
  | none =>
    have hbefore := of_memchr_eq_none hfind
    refine Or.inr ⟨p + 65533, by rw [hwrap _ (by omega)], by omega, fun i hi hij hroom => ?_⟩
    exact hbyte i hi (by omega) (hbefore (i - p) (by omega))

/-- With eight bytes left or fewer the load is over. -/
theorem lookTurn_of_le (hp : file.length ≤ p + 8) : lookTurn file p = .ended := by
  unfold lookTurn
  dsimp only
  rw [if_pos]
  rw [List.length_take, List.length_drop]
  omega

/-! ## Behind a message start -/

variable {T : RecordSizes} {nVersion : ℤ} {accept : Acceptance}

/-- The length behind the message start at `m`. -/
def sizeAt (file : List UInt8) (m : ℕ) : ℕ := ofLeBytes ((file.drop (m + 4)).take 4)

/-- The length is one of a block. -/
def InRange (nSize : ℕ) : Prop := 0 < nSize ∧ nSize ≤ maxBlockSize

instance {nSize : ℕ} : Decidable (InRange nSize) := inferInstanceAs (Decidable (_ ∧ _))

/-- A block deserialises behind the length. -/
def BlockAt (T : RecordSizes) (nVersion : ℤ) (file : List UInt8) (m : ℕ) (block : CBlock) : Prop :=
  ∃ rest, (CBlock.serial T).unserialize serDisk nVersion (file.drop (m + 8)) = .ok (block, rest)

/-- What the bytes behind the message start at `m` make the load hand over
and where they make it go on, if they do not end it. -/
inductive GoesOn (T : RecordSizes) (nVersion : ℤ) (accept : Acceptance) (file : List UInt8)
    (m : ℕ) : List HandedBlock → ℕ → Prop
  /-- the length is not a block's -/
  | length : ¬ InRange (sizeAt file m) → GoesOn T nVersion accept file m [] (m + 4)
  /-- the block is refused: the scan does not leave its place -/
  | refused {block : CBlock} : InRange (sizeAt file m) → BlockAt T nVersion file m block →
      accept (m + 4) block = false → GoesOn T nVersion accept file m [⟨m + 4, block⟩] (m + 4)
  /-- the block is accepted: its bytes are passed over -/
  | accepted {block : CBlock} : InRange (sizeAt file m) → BlockAt T nVersion file m block →
      accept (m + 4) block = true →
      GoesOn T nVersion accept file m [⟨m + 4, block⟩] (m + 8 + sizeAt file m)

omit P in
theorem GoesOn.lt {handed : List HandedBlock} (h : GoesOn T nVersion accept file m handed q) :
    m < q := by
  cases h <;> omega

omit P in
theorem readSize_eq (hm : m + 8 ≤ file.length) :
    (Serial.uint 4).unserialize serDisk nVersion (file.drop (m + 4)) =
      .ok (sizeAt file m, file.drop (m + 8)) := by
  have hfour : ((file.drop (m + 4)).take 4).length = 4 := by
    rw [List.length_take, List.length_drop]
    omega
  rw [(Serial.is_uint (by decide)).read]
  refine readLe_eq_ok.2 ⟨?_, ?_⟩
  · have := ofLeBytes_lt (v := (file.drop (m + 4)).take 4)
    rwa [hfour] at this
  · have hback := leBytes_ofLeBytes (v := (file.drop (m + 4)).take 4)
    rw [hfour] at hback
    have hdrop : file.drop (m + 8) = (file.drop (m + 4)).drop 4 := by rw [List.drop_drop]
    unfold sizeAt
    rw [hback, hdrop, List.take_append_drop]

omit P in
/-- **The outer loop does as the bytes say.** -/
theorem loadFrame_eq_ok_iff {handed : List HandedBlock} (hfits : Fits file)
    (hm : m + 8 ≤ file.length) :
    loadFrame T nVersion accept file (m + 4) = .ok (handed, q) ↔
      GoesOn T nVersion accept file m handed q := by
  have hsize : loadFrame T nVersion accept file (m + 4) =
      if InRange (sizeAt file m) then
        (CBlock.serial T).unserialize serDisk nVersion (file.drop (m + 8)) >>= fun r =>
          pure ([⟨m + 4, r.1⟩],
            if accept (m + 4) r.1 then toUint (m + 4 + (4 + sizeAt file m)) else m + 4)
      else .ok ([], m + 4) := by
    unfold loadFrame
    rw [readSize_eq hm]
    rfl
  rw [hsize]
  by_cases hrange : InRange (sizeAt file m)
  · rw [if_pos hrange]
    have hnext : toUint (m + 4 + (4 + sizeAt file m)) = m + 8 + sizeAt file m := by
      have hle := hrange.2
      unfold Fits at hfits
      rw [toUint_of_lt (by unfold uintMax at hfits; omega)]
      omega
    cases hblock : (CBlock.serial T).unserialize serDisk nVersion (file.drop (m + 8)) with
    | error e =>
      refine ⟨fun h => by simp [bind, Except.bind] at h, fun h => ?_⟩
      cases h with
      | length h => exact absurd hrange h
      | refused _ h => rw [BlockAt, hblock] at h; simp at h
      | accepted _ h => rw [BlockAt, hblock] at h; simp at h
    | ok r =>
      obtain ⟨block, rest⟩ := r
      have hat : BlockAt T nVersion file m block := ⟨rest, hblock⟩
      have hok : (Except.ok (block, rest) >>= fun r : CBlock × List UInt8 =>
          (pure ([(⟨m + 4, r.1⟩ : HandedBlock)],
            if accept (m + 4) r.1 then toUint (m + 4 + (4 + sizeAt file m)) else m + 4) :
              Except Failure (List HandedBlock × ℕ))) =
          .ok ([⟨m + 4, block⟩],
            if accept (m + 4) block then m + 8 + sizeAt file m else m + 4) := by
        rw [hnext]
        rfl
      rw [hok]
      constructor
      · intro h
        injection h with h
        injection h with hh hq
        subst hh hq
        split_ifs with hacc
        · exact .accepted hrange hat hacc
        · exact .refused hrange hat (by simpa using hacc)
      · intro h
        cases h with
        | length h => exact absurd hrange h
        | refused _ h hacc =>
          obtain ⟨_, h⟩ := h
          rw [hblock] at h
          cases h
          rw [if_neg (by simp [hacc])]
        | accepted _ h hacc =>
          obtain ⟨_, h⟩ := h
          rw [hblock] at h
          cases h
          rw [if_pos hacc]
  · rw [if_neg hrange]
    constructor
    · intro h
      cases h
      exact .length hrange
    · intro h
      cases h with
      | length => rfl
      | refused h => exact absurd h hrange
      | accepted h => exact absurd h hrange

omit P in
/-- At the end of the file there is at most a length, and no block. -/
theorem of_loadFrame_of_le {handed : List HandedBlock} (hfits : Fits file)
    (hm : file.length ≤ m + 8)
    (h : loadFrame T nVersion accept file (m + 4) = .ok (handed, q)) :
    handed = [] ∧ q = m + 4 := by
  rcases hm.lt_or_eq with hlt | heq
  · have hsize : ∃ n r, readLe 4 (file.drop (m + 4)) = .ok (n, r) := by
      cases hread : readLe 4 (file.drop (m + 4)) with
      | ok r => exact ⟨r.1, r.2, rfl⟩
      | error e =>
        unfold loadFrame at h
        rw [(Serial.is_uint (by decide)).read, hread] at h
        cases h
    obtain ⟨n, r, hread⟩ := hsize
    have hlen := congrArg List.length (readLe_eq_ok.1 hread).2
    rw [List.length_append, length_leBytes, List.length_drop] at hlen
    omega
  · have hnone : ∀ block, ¬ BlockAt T nVersion file m block := by
      rintro block ⟨rest, hblock⟩
      rw [(is_block rfl).read, List.drop_eq_nil_of_le hm] at hblock
      have hlen := codec_block.length_le hblock
      rw [CBlock.serialize, List.length_append, List.length_append, length_serializeHeader] at hlen
      simp at hlen
    cases (loadFrame_eq_ok_iff hfits heq.ge).1 h with
    | length => exact ⟨rfl, rfl⟩
    | refused _ hblock => exact absurd hblock (hnone _)
    | accepted _ hblock => exact absurd hblock (hnone _)

/-! ## The loops -/

variable {hs : List HandedBlock}

/-- Enough turns from `p` on hand over `hs`. -/
def Loads (T : RecordSizes) (nVersion : ℤ) (accept : Acceptance) (file : List UInt8) (p : ℕ)
    (hs : List HandedBlock) : Prop :=
  ∃ turns, loadLoop T nVersion accept file turns p = some hs

/-- One turn, then the rest. -/
theorem loads_iff_turn : Loads T nVersion accept file p hs ↔
    match lookTurn file p with
    | .ended => hs = []
    | .further q => Loads T nVersion accept file q hs
    | .found q => if q = uintMax then hs = [] else
      match loadFrame T nVersion accept file q with
      | .error _ => hs = []
      | .ok (handed, q) => if q = uintMax then hs = handed else
        ∃ hs', Loads T nVersion accept file q hs' ∧ hs = handed ++ hs' := by
  have hturn : Loads T nVersion accept file p hs ↔
      ∃ turns, loadLoop T nVersion accept file (turns + 1) p = some hs := by
    constructor
    · rintro ⟨turns, h⟩
      cases turns with
      | zero => simp [loadLoop] at h
      | succ turns => exact ⟨turns, h⟩
    · exact fun ⟨turns, h⟩ => ⟨turns + 1, h⟩
  rw [hturn]
  unfold loadLoop
  cases lookTurn file p with
  | ended => simp [eq_comm]
  | further q => exact Iff.rfl
  | found q =>
    dsimp only
    split_ifs with hq
    · simp [eq_comm]
    cases loadFrame T nVersion accept file q with
    | error e => simp [eq_comm]
    | ok r =>
      obtain ⟨handed, q⟩ := r
      dsimp only
      split_ifs with hq
      · simp [eq_comm]
      simp only [Option.map_eq_map, Option.map_eq_some_iff]
      constructor
      · rintro ⟨turns, hs', h, rfl⟩
        exact ⟨hs', ⟨turns, h⟩, rfl⟩
      · rintro ⟨hs', ⟨turns, h⟩, rfl⟩
        exact ⟨turns, hs', h, rfl⟩

/-- Near the end there is nothing to hand over. -/
theorem loads_of_le (hp : file.length ≤ p + 8) :
    Loads T nVersion accept file p hs ↔ hs = [] := by
  rw [loads_iff_turn, lookTurn_of_le hp]

omit P in
theorem GoesOn.unique (hfits : Fits file) (hm : m + 8 ≤ file.length)
    {handed handed' : List HandedBlock} {q' : ℕ}
    (h : GoesOn T nVersion accept file m handed q)
    (h' : GoesOn T nVersion accept file m handed' q') : handed = handed' ∧ q = q' := by
  rw [← loadFrame_eq_ok_iff hfits hm] at h h'
  rw [h] at h'
  injection h' with h'
  injection h' with hh hq
  exact ⟨hh, hq⟩

/-- What the first message start at or behind `p` makes of what is behind
it, then what is loaded from where that sends the scan. -/
def LoadsFromStart (T : RecordSizes) (nVersion : ℤ) (accept : Acceptance) (file : List UInt8)
    (p : ℕ) (hs : List HandedBlock) : Prop :=
  (∃ m handed q hs', FirstStart file p m ∧ GoesOn T nVersion accept file m handed q ∧
    Loads T nVersion accept file q hs' ∧ hs = handed ++ hs') ∨
  (hs = [] ∧ ∀ m handed q, FirstStart file p m → ¬ GoesOn T nVersion accept file m handed q)

/-- Without one, or with nothing that sends the scan on, there is nothing
to hand over. -/
theorem loadsFromStart_of_stops
    (hstops : ∀ m handed q, FirstStart file p m → ¬ GoesOn T nVersion accept file m handed q) :
    LoadsFromStart T nVersion accept file p hs ↔ hs = [] := by
  constructor
  · rintro (⟨m, handed, q, -, hfirst, hgo, -⟩ | ⟨h, -⟩)
    · exact absurd hgo (hstops m handed q hfirst)
    · exact h
  · exact fun h => Or.inr ⟨h, hstops⟩

theorem loadsFromStart_of_goesOn {handed : List HandedBlock} (hfits : Fits file)
    (hfirst : FirstStart file p m) (hgo : GoesOn T nVersion accept file m handed q) :
    LoadsFromStart T nVersion accept file p hs ↔
      ∃ hs', Loads T nVersion accept file q hs' ∧ hs = handed ++ hs' := by
  constructor
  · rintro (⟨m', handed', q', hs', hfirst', hgo', hloads, rfl⟩ | ⟨-, hstops⟩)
    · obtain rfl := hfirst.unique hfirst'
      obtain ⟨rfl, rfl⟩ := hgo.unique hfits hfirst.room.le hgo'
      exact ⟨hs', hloads, rfl⟩
    · exact absurd hgo (hstops m handed q hfirst)
  · rintro ⟨hs', hloads, rfl⟩
    exact Or.inl ⟨m, handed, q, hs', hfirst, hgo, hloads, rfl⟩

omit P in
/-- Positions the loops come to are not the one that ends them. -/
theorem GoesOn.ne_uintMax {handed : List HandedBlock} (hfits : Fits file)
    (hm : m + 8 ≤ file.length) (h : GoesOn T nVersion accept file m handed q) : q ≠ uintMax := by
  unfold Fits at hfits
  cases h with
  | length => omega
  | refused => omega
  | accepted hrange =>
    have := hrange.2
    omega

/-- **What is loaded from a position on** is what is loaded from the first
message start at or behind it, wherever the buffers end. -/
theorem loads_iff (hfits : Fits file) : Loads T nVersion accept file p hs ↔
    LoadsFromStart T nVersion accept file p hs := by
  -- on how much of the file is left
  induction hk : file.length - p using Nat.strong_induction_on generalizing p with
  | _ k ih =>
  rcases Nat.lt_or_ge (p + 8) file.length with hp | hp
  swap
  · rw [loads_of_le hp, loadsFromStart_of_stops]
    intro m handed q hfirst
    have hle := hfirst.le
    have hroom := hfirst.room
    omega
  rcases lookTurn_spec hfits hp with
    ⟨m, hlook, hpm, hstart, hroom, hfirst⟩ | ⟨q, hlook, hpq, hnone⟩
  swap
  · -- the scan moves on, and passes no start
    rw [loads_iff_turn, hlook]
    dsimp only
    rw [ih (file.length - q) (by omega) rfl]
    unfold LoadsFromStart
    simp only [firstStart_congr hpq.le hnone]
  have hword : m + 4 ≠ uintMax := by
    unfold Fits at hfits
    omega
  rw [loads_iff_turn, hlook]
  dsimp only
  rw [if_neg hword]
  rcases Nat.lt_or_ge (m + 8) file.length with hm | hm
  · have hthis : FirstStart file p m := ⟨hpm, hm, hstart, hfirst⟩
    cases hframe : loadFrame T nVersion accept file (m + 4) with
    | error e =>
      refine (loadsFromStart_of_stops fun m' handed q hfirst' hgo => ?_).symm
      rw [hfirst'.unique hthis, ← loadFrame_eq_ok_iff hfits hm.le, hframe] at hgo
      cases hgo
    | ok r =>
      obtain ⟨handed, q⟩ := r
      have hgo := (loadFrame_eq_ok_iff hfits hm.le).1 hframe
      dsimp only
      rw [if_neg (hgo.ne_uintMax hfits hm.le), loadsFromStart_of_goesOn hfits hthis hgo]
  · -- a start with no room for a length and a block behind it
    rw [loadsFromStart_of_stops fun m' _ _ hfirst' _ => by
      have hroom' := hfirst'.room
      exact hfirst m' hfirst'.le (by omega) hfirst'.starts]
    cases hframe : loadFrame T nVersion accept file (m + 4) with
    | error e => exact Iff.rfl
    | ok r =>
      obtain ⟨handed, q⟩ := r
      obtain ⟨rfl, rfl⟩ := of_loadFrame_of_le hfits hm hframe
      dsimp only
      rw [if_neg hword]
      simp only [loads_of_le (show file.length ≤ m + 4 + 8 by omega), List.nil_append]
      exact exists_eq_left

/-- **Every file is loaded to its end.** -/
theorem exists_loads (hfits : Fits file) (p : ℕ) :
    ∃ hs, Loads T nVersion accept file p hs := by
  induction hk : file.length - p using Nat.strong_induction_on generalizing p with
  | _ k ih =>
  by_cases hmore : ∃ m handed q, FirstStart file p m ∧ GoesOn T nVersion accept file m handed q
  · obtain ⟨m, handed, q, hfirst, hgo⟩ := hmore
    have hle := hfirst.le
    have hroom := hfirst.room
    have hlt := hgo.lt
    obtain ⟨hs', hloads⟩ := ih (file.length - q) (by omega) q rfl
    refine ⟨handed ++ hs', (loads_iff hfits).2 (Or.inl ?_)⟩
    exact ⟨m, handed, q, hs', hfirst, hgo, hloads, rfl⟩
  · refine ⟨[], (loads_iff hfits).2 (Or.inr ⟨rfl, fun m handed q hfirst hgo => hmore ?_⟩)⟩
    exact ⟨m, handed, q, hfirst, hgo⟩

/-- **What is handed over comes from further and further on.** -/
theorem pairwise_of_loads (hfits : Fits file) (h : Loads T nVersion accept file p hs) :
    hs.Pairwise (·.nPos < ·.nPos) ∧ ∀ b ∈ hs, p < b.nPos := by
  induction hk : file.length - p using Nat.strong_induction_on generalizing p hs with
  | _ k ih =>
  rcases (loads_iff hfits).1 h with ⟨m, handed, q, hs', hfirst, hgo, hloads, rfl⟩ | ⟨rfl, -⟩
  · have hle := hfirst.le
    have hroom := hfirst.room
    have hlt := hgo.lt
    obtain ⟨hpair, hbehind⟩ := ih (file.length - q) (by omega) hloads rfl
    have hlater : ∀ b ∈ hs', p < b.nPos := fun b hb => by
      have := hbehind b hb
      omega
    cases hgo with
    | length => exact ⟨hpair, hlater⟩
    | refused =>
      refine ⟨List.pairwise_cons.2 ⟨fun b hb => hbehind b hb, hpair⟩, ?_⟩
      rintro b (_ | ⟨_, hb⟩)
      · show p < m + 4
        omega
      · exact hlater b hb
    | accepted hrange =>
      have hpos := hrange.1
      refine ⟨List.pairwise_cons.2 ⟨fun b hb => ?_, hpair⟩, ?_⟩
      · have := hbehind b hb
        show m + 4 < b.nPos
        omega
      · rintro b (_ | ⟨_, hb⟩)
        · show p < m + 4
          omega
        · exact hlater b hb
  · exact ⟨List.Pairwise.nil, fun b hb => absurd hb List.not_mem_nil⟩

/-! ## Coming to a message start -/

/-- Looking from `p` on, from message start to message start, the scan
comes to the one at `m`. -/
inductive ComesTo (T : RecordSizes) (nVersion : ℤ) (accept : Acceptance) (file : List UInt8) :
    ℕ → ℕ → Prop
  /-- it is the first -/
  | here {p m : ℕ} : FirstStart file p m → ComesTo T nVersion accept file p m
  /-- what is behind the first sends the scan on -/
  | past {p m k q : ℕ} {handed : List HandedBlock} : FirstStart file p k →
      GoesOn T nVersion accept file k handed q → ComesTo T nVersion accept file q m →
      ComesTo T nVersion accept file p m

/-- **What the scan comes to it takes up.** -/
theorem ComesTo.loads (hfits : Fits file) {handed : List HandedBlock}
    (h : ComesTo T nVersion accept file p m) (hgo : GoesOn T nVersion accept file m handed q)
    (hloads : Loads T nVersion accept file p hs) :
    ∃ front rest, hs = front ++ handed ++ rest ∧ Loads T nVersion accept file q rest := by
  induction h generalizing hs with
  | here hfirst =>
    rcases (loads_iff hfits).1 hloads with
      ⟨m', handed', q', hs', hfirst', hgo', hrest, rfl⟩ | ⟨-, hno⟩
    · obtain rfl := hfirst.unique hfirst'
      obtain ⟨rfl, rfl⟩ := hgo.unique hfits hfirst.room.le hgo'
      exact ⟨[], hs', rfl, hrest⟩
    · exact absurd hgo (hno _ _ _ hfirst)
  | @past p m k q' skipped hfirst hthis _ ih =>
    rcases (loads_iff hfits).1 hloads with
      ⟨k', handed', r, hs', hfirst', hgo', hrest, rfl⟩ | ⟨-, hno⟩
    · obtain rfl := hfirst.unique hfirst'
      obtain ⟨rfl, rfl⟩ := hthis.unique hfits hfirst.room.le hgo'
      obtain ⟨front, rest, rfl, hq⟩ := ih hgo hrest
      exact ⟨skipped ++ front, rest, by simp only [List.append_assoc], hq⟩
    · exact absurd hthis (hno _ _ _ hfirst)

/-- **What is handed over the scan came to.** -/
theorem comesTo_of_mem (hfits : Fits file) (hloads : Loads T nVersion accept file p hs)
    {b : HandedBlock} (hb : b ∈ hs) :
    ∃ m q, b.nPos = m + 4 ∧ ComesTo T nVersion accept file p m ∧
      GoesOn T nVersion accept file m [b] q ∧ m + 8 < file.length := by
  induction hk : file.length - p using Nat.strong_induction_on generalizing p hs with
  | _ k ih =>
  rcases (loads_iff hfits).1 hloads with ⟨m, handed, q, hs', hfirst, hgo, hrest, rfl⟩ | ⟨rfl, -⟩
  swap
  · exact absurd hb List.not_mem_nil
  have hle := hfirst.le
  have hroom := hfirst.room
  have hlt := hgo.lt
  rcases List.mem_append.1 hb with hb | hb
  · refine ⟨m, q, ?_, .here hfirst, ?_, hroom⟩
    · cases hgo with
      | length => exact absurd hb List.not_mem_nil
      | refused => rw [List.mem_singleton.1 hb]
      | accepted => rw [List.mem_singleton.1 hb]
    · cases hgo with
      | length => exact absurd hb List.not_mem_nil
      | refused hrange hat hacc => rw [List.mem_singleton.1 hb]; exact .refused hrange hat hacc
      | accepted hrange hat hacc => rw [List.mem_singleton.1 hb]; exact .accepted hrange hat hacc
  · obtain ⟨m', q', hpos, hcomes, hgo', hroom'⟩ := ih (file.length - q) (by omega) hrest hb rfl
    exact ⟨m', q', hpos, .past hfirst hgo hcomes, hgo', hroom'⟩

/-! ## Files of frames -/

/-- A frame, and what separates it from the one before: the message start,
the length of what is behind it, and bytes a block deserialises from. -/
structure BlockFrame (T : RecordSizes) (nVersion : ℤ) where
  gap : List UInt8
  body : List UInt8
  block : CBlock
  no_start : ¬ messageStart <:+: gap
  inRange : InRange body.length
  deserialises : ∃ rest, (CBlock.serial T).unserialize serDisk nVersion body = .ok (block, rest)

namespace BlockFrame

def bytes (f : BlockFrame T nVersion) : List UInt8 :=
  f.gap ++ (messageStart ++ (leBytes 4 f.body.length ++ f.body))

/-- Where the message start is, if the gap begins at `p`. -/
def start (f : BlockFrame T nVersion) (p : ℕ) : ℕ := p + f.gap.length

/-- The block, handed over from behind the message start. -/
def handed (f : BlockFrame T nVersion) (p : ℕ) : HandedBlock := ⟨f.start p + 4, f.block⟩

/-- `ProcessBlock` refuses it. -/
def Refused (f : BlockFrame T nVersion) (accept : Acceptance) (p : ℕ) : Prop :=
  accept (f.start p + 4) f.block = false

theorem length_bytes (f : BlockFrame T nVersion) :
    f.bytes.length = f.gap.length + 8 + f.body.length := by
  unfold bytes
  simp only [List.length_append, length_messageStart, length_leBytes]
  omega

end BlockFrame

variable {f g : BlockFrame T nVersion} {fs frames : List (BlockFrame T nVersion)}

/-- From `p` on the file is these frames, and at most bytes without a
message start behind them. -/
def Consists (file : List UInt8) (p : ℕ) (frames : List (BlockFrame T nVersion)) : Prop :=
  ∃ tail, ¬ messageStart <:+: tail ∧ file.drop p = frames.flatMap BlockFrame.bytes ++ tail

/-- What is to be handed over of frames from `p` on. -/
def allHanded : ℕ → List (BlockFrame T nVersion) → List HandedBlock
  | _, [] => []
  | p, f :: fs => f.handed p :: allHanded (p + f.bytes.length) fs

theorem Consists.tail (h : Consists file p (f :: fs)) : Consists file (p + f.bytes.length) fs := by
  obtain ⟨tail, htail, hdrop⟩ := h
  refine ⟨tail, htail, ?_⟩
  rw [← List.drop_drop, hdrop, List.flatMap_cons, List.append_assoc, List.drop_left]

/-- **The scan comes to a frame through the gap**, -/
theorem Consists.firstStart (h : Consists file p (f :: fs)) : FirstStart file p (f.start p) := by
  obtain ⟨tail, -, hdrop⟩ := h
  have hpos := f.inRange.1
  rw [List.flatMap_cons, BlockFrame.bytes] at hdrop
  simp only [List.append_assoc] at hdrop
  have hlen := congrArg List.length hdrop
  simp only [List.length_drop, List.length_append, length_messageStart, length_leBytes] at hlen
  refine ⟨Nat.le_add_right _ _, ?_, ?_, ?_⟩
  · unfold BlockFrame.start
    omega
  · unfold BlockFrame.start
    rw [← List.drop_drop, hdrop, List.drop_left]
    exact List.prefix_append _ _
  · intro i hi him
    obtain ⟨d, rfl⟩ := Nat.exists_eq_add_of_le hi
    unfold BlockFrame.start at him
    rw [← List.drop_drop, hdrop]
    exact not_isPrefix_of_gap f.no_start (by omega)

/-- and hands its block over: refused, it stays there, accepted, it is
past the frame. -/
theorem Consists.goesOn (h : Consists file p (f :: fs)) :
    GoesOn T nVersion accept file (f.start p) [f.handed p]
      (if accept (f.start p + 4) f.block then p + f.bytes.length else f.start p + 4) := by
  obtain ⟨tail, -, hdrop⟩ := h
  obtain ⟨rest, hblock⟩ := f.deserialises
  have hmax := f.inRange.2
  unfold maxBlockSize at hmax
  rw [List.flatMap_cons, BlockFrame.bytes] at hdrop
  simp only [List.append_assoc] at hdrop
  have hfour : file.drop (f.start p + 4) =
      leBytes 4 f.body.length ++ (f.body ++ (fs.flatMap BlockFrame.bytes ++ tail)) := by
    unfold BlockFrame.start
    rw [← List.drop_drop, ← List.drop_drop, hdrop, List.drop_left,
      List.drop_left' length_messageStart]
  have height : file.drop (f.start p + 8) = f.body ++ (fs.flatMap BlockFrame.bytes ++ tail) := by
    rw [show f.start p + 8 = f.start p + 4 + 4 from rfl, ← List.drop_drop, hfour,
      List.drop_left' length_leBytes]
  have hsize : sizeAt file (f.start p) = f.body.length := by
    unfold sizeAt
    rw [hfour, List.take_left' length_leBytes, ofLeBytes_leBytes (by omega)]
  have hrange : InRange (sizeAt file (f.start p)) := hsize ▸ f.inRange
  have hat : BlockAt T nVersion file (f.start p) f.block := by
    -- what is behind the body makes no difference to what is read of it
    rw [(is_block rfl).read] at hblock
    obtain ⟨c, hbody, -, -, -, hreads⟩ := codec_block.reads hblock
    refine ⟨rest ++ (fs.flatMap BlockFrame.bytes ++ tail), ?_⟩
    rw [height, (is_block rfl).read, hbody, List.append_assoc]
    exact hreads _
  split_ifs with hacc
  · have hnext : p + f.bytes.length = f.start p + 8 + sizeAt file (f.start p) := by
      rw [hsize, f.length_bytes, BlockFrame.start]
      omega
    rw [hnext]
    exact .accepted hrange hat hacc
  · exact .refused hrange hat (by simpa using hacc)

/-- Behind each refused frame the scan comes to the next one. -/
def ComesToNext (accept : Acceptance) (file : List UInt8) : ℕ → List (BlockFrame T nVersion) → Prop
  | p, f :: g :: fs =>
    (f.Refused accept p →
      ComesTo T nVersion accept file (f.start p + 4) (g.start (p + f.bytes.length))) ∧
    ComesToNext accept file (p + f.bytes.length) (g :: fs)
  | _, _ => True

/-- Frames from `p` on are behind `p`. -/
theorem lt_of_mem_allHanded {b : HandedBlock} (hb : b ∈ allHanded p frames) : p < b.nPos := by
  induction frames generalizing p with
  | nil => exact absurd hb List.not_mem_nil
  | cons f fs ih =>
    rcases List.mem_cons.1 hb with rfl | hb
    · unfold BlockFrame.handed BlockFrame.start
      show p < _ + 4
      omega
    · have := ih hb
      omega

omit P in
/-- A list whose first element is past those before it is among what
follows that element. -/
theorem sublist_of_cons {b : HandedBlock} {rest front l : List HandedBlock}
    (h : (b :: rest).Sublist (front ++ b :: l)) (hfront : b ∉ front) : rest.Sublist l := by
  induction front with
  | nil => exact List.cons_sublist_cons.1 h
  | cons x front ih =>
    rw [List.mem_cons, not_or] at hfront
    cases h with
    | cons _ h => exact ih h hfront.2
    | cons_cons => exact absurd rfl hfront.1

/-- **From where the scan comes to the first, all are handed over** if the
scan finds the next behind each that is refused. -/
theorem allHanded_sublist (hfits : Fits file) (hlaid : Consists file p (f :: fs))
    (hcomes : ComesTo T nVersion accept file q (f.start p))
    (hnext : ComesToNext accept file p (f :: fs)) (h : Loads T nVersion accept file q hs) :
    (allHanded p (f :: fs)).Sublist hs := by
  induction fs generalizing p q f hs with
  | nil =>
    obtain ⟨front, rest, rfl, -⟩ := hcomes.loads hfits hlaid.goesOn h
    simp [allHanded]
  | cons g fs ih =>
    obtain ⟨front, rest, rfl, hrest⟩ := hcomes.loads hfits hlaid.goesOn h
    obtain ⟨hrefused, hnext⟩ := hnext
    have hg : ComesTo T nVersion accept file
        (if accept (f.start p + 4) f.block then p + f.bytes.length else f.start p + 4)
        (g.start (p + f.bytes.length)) := by
      split_ifs with hacc
      · exact .here hlaid.tail.firstStart
      · exact hrefused (Bool.eq_false_of_not_eq_true hacc)
    have := ih hlaid.tail hg hnext hrest
    unfold allHanded
    rw [List.append_assoc]
    exact (List.cons_sublist_cons.2 this).trans (List.sublist_append_right _ _)

/-- **And only then.** -/
theorem comesToNext_of_sublist (hfits : Fits file) (hlaid : Consists file p frames)
    (h : Loads T nVersion accept file q hs) (hsub : (allHanded p frames).Sublist hs) :
    ComesToNext accept file p frames := by
  induction frames generalizing p q hs with
  | nil => trivial
  | cons f fs ih =>
    cases fs with
    | nil => trivial
    | cons g fs =>
      have hf : f.handed p ∈ hs := hsub.subset List.mem_cons_self
      obtain ⟨m, q', hpos, hcomes, hgo, hroom⟩ := comesTo_of_mem hfits h hf
      obtain rfl : f.start p = m := Nat.add_right_cancel hpos
      obtain ⟨front, rest, rfl, hrest⟩ := hcomes.loads hfits hlaid.goesOn h
      have hpair := (pairwise_of_loads hfits h).1
      have hfront : f.handed p ∉ front := by
        intro hmem
        rw [List.append_assoc, List.pairwise_append] at hpair
        exact lt_irrefl _ (hpair.2.2 _ hmem _ (List.mem_cons_self ..))
      have hsub' : (allHanded (p + f.bytes.length) (g :: fs)).Sublist rest := by
        refine sublist_of_cons ?_ hfront
        rwa [List.append_assoc] at hsub
      refine ⟨fun hrefused => ?_, ih hlaid.tail hrest hsub'⟩
      have hg : g.handed (p + f.bytes.length) ∈ rest := hsub'.subset List.mem_cons_self
      obtain ⟨m', -, hpos', hcomes', -, -⟩ := comesTo_of_mem hfits hrest hg
      obtain rfl : g.start (p + f.bytes.length) = m' := Nat.add_right_cancel hpos'
      unfold BlockFrame.Refused at hrefused
      rwa [hrefused] at hcomes'

/-! ## What the load is for -/

/-- The load ends, having handed over each frame once, and the frames in
order. -/
def HandsOver (T : RecordSizes) (nVersion : ℤ) (accept : Acceptance) (file : List UInt8)
    (frames : List (BlockFrame T nVersion)) : Prop :=
  ∃ turns handed loaded,
    loadExternalBlockFile T nVersion accept file turns = some (handed, loaded) ∧
    (allHanded 0 frames).Sublist handed ∧ (handed.map HandedBlock.nPos).Nodup

/-- The load ends, and loses no frame if the file consists of frames. -/
def LosesNone (T : RecordSizes) (nVersion : ℤ) (accept : Acceptance) (file : List UInt8) : Prop :=
  (∃ turns r, loadExternalBlockFile T nVersion accept file turns = some r) ∧
    ∀ frames : List (BlockFrame T nVersion), Consists file 0 frames →
      HandsOver T nVersion accept file frames

theorem handsOver_iff : HandsOver T nVersion accept file frames ↔
    ∃ hs, Loads T nVersion accept file 0 hs ∧ (allHanded 0 frames).Sublist hs ∧
      (hs.map HandedBlock.nPos).Nodup := by
  unfold HandsOver Loads loadExternalBlockFile
  constructor
  · rintro ⟨turns, handed, loaded, h, hsub, hnodup⟩
    obtain ⟨hs, hloop, heq⟩ := Option.map_eq_some_iff.1 h
    injection heq with hh _
    subst hh
    exact ⟨hs, ⟨turns, hloop⟩, hsub, hnodup⟩
  · rintro ⟨hs, ⟨turns, hloop⟩, hsub, hnodup⟩
    exact ⟨turns, hs, _, by rw [hloop]; rfl, hsub, hnodup⟩

/-- Each position is handed from once. -/
theorem nodup_of_loads (hfits : Fits file) (h : Loads T nVersion accept file p hs) :
    (hs.map HandedBlock.nPos).Nodup := by
  rw [List.Nodup, List.pairwise_map]
  exact (pairwise_of_loads hfits h).1.imp fun hlt => hlt.ne

/-- A file of frames loses none exactly where the scan finds the next
behind each that is refused. -/
theorem handsOver_iff_comesToNext (hfits : Fits file) (hlaid : Consists file 0 frames) :
    HandsOver T nVersion accept file frames ↔ ComesToNext accept file 0 frames := by
  rw [handsOver_iff]
  constructor
  · rintro ⟨hs, hloads, hsub, -⟩
    exact comesToNext_of_sublist hfits hlaid hloads hsub
  · intro hnext
    obtain ⟨hs, hloads⟩ : ∃ hs, Loads T nVersion accept file 0 hs := exists_loads hfits 0
    refine ⟨hs, hloads, ?_, nodup_of_loads hfits hloads⟩
    cases frames with
    | nil => exact List.nil_sublist _
    | cons f fs => exact allHanded_sublist hfits hlaid (.here hlaid.firstStart) hnext hloads

/-- Behind a frame that is accepted the scan need not look. -/
theorem comesToNext_of_accepted (haccept : ∀ n b, accept n b = true) :
    ComesToNext accept file p frames := by
  induction frames generalizing p with
  | nil => trivial
  | cons f fs ih =>
    cases fs with
    | nil => trivial
    | cons g fs =>
      refine ⟨fun hrefused => ?_, ih⟩
      unfold BlockFrame.Refused at hrefused
      rw [haccept] at hrefused
      exact absurd hrefused Bool.noConfusion

/-! ## Refused, with a message start in it -/

namespace EmbeddedStart

/-- A block whose signature is a message start and a length. -/
def embedding : CBlock := ⟨4, 1, 2, 3, 4, 5, [], messageStart ++ leBytes 4 1⟩

omit P in
def next : CBlock := ⟨4, 1, 2, 3, uintMax, uintMax, [], []⟩

/-- A block's frame, with no gap. -/
def frameOf (b : CBlock) (hb : b.WellTyped) (hlen : InRange b.serialize.length) :
    BlockFrame .amd64 clientVersion where
  gap := []
  body := b.serialize
  block := b
  no_start h := messageStart_ne_nil (List.infix_nil.1 h)
  inRange := hlen
  deserialises := ⟨[], by
    rw [(is_block rfl).read]
    simpa using codec_block.writes (r := []) hb⟩

omit P in
theorem wellTyped_next : next.WellTyped := by
  simp [CBlock.WellTyped, CBlock.HeaderWellTyped, next, uintMax, maxSize]

theorem wellTyped_embedding : embedding.WellTyped := by
  simp [CBlock.WellTyped, CBlock.HeaderWellTyped, embedding, maxSize, length_messageStart,
    length_leBytes]

theorem inRange_embedding : InRange embedding.serialize.length := by
  have hlen : embedding.serialize.length = 90 := by
    simp only [CBlock.serialize, List.length_append, length_serializeHeader]
    simp [embedding, serializeVector, serializeBytes, writeCompactSize, length_messageStart,
      length_leBytes]
  rw [hlen]
  decide

omit P in
theorem inRange_next : InRange next.serialize.length := by
  decide +kernel

/-- The two blocks, one after the other. -/
def blocks : List (BlockFrame .amd64 clientVersion) :=
  [frameOf embedding wellTyped_embedding inRange_embedding,
    frameOf next wellTyped_next inRange_next]

def contents : List UInt8 := blocks.flatMap BlockFrame.bytes

theorem consists : Consists contents 0 blocks := by
  refine ⟨[], fun h => messageStart_ne_nil (List.infix_nil.1 h), ?_⟩
  rw [List.drop_zero, List.append_nil, contents]

omit P in
/-- What is behind the message start in the signature ends the load: the
next frame's header is read as a count. -/
theorem not_comesTo : letI := Platform.toy
    ¬ ComesTo .amd64 clientVersion (fun _ _ => false) contents 4 98 := by
  let := Platform.toy
  have hfirst : FirstStart contents 4 90 :=
    ⟨by decide, by decide +kernel, by decide +kernel, by decide +kernel⟩
  intro h
  cases h with
  | here h => exact absurd (h.unique hfirst) (by decide)
  | past h hgo =>
    obtain rfl := h.unique hfirst
    have hblock : ∀ block, ¬ BlockAt .amd64 clientVersion contents 90 block := by
      rintro block ⟨rest, h⟩
      rw [(is_block rfl).read] at h
      have herror : (CBlock.unserialize (contents.drop (90 + 8))).toBool = false := by
        decide +kernel
      rw [h] at herror
      cases herror
    cases hgo with
    | length h => exact h (by decide +kernel)
    | refused _ h => exact hblock _ h
    | accepted _ h => exact hblock _ h

end EmbeddedStart

/-- **Zeros never end**, if there are more of them than a position can
reach. -/
theorem not_loads_zeros (hn : 2 ^ 32 + 8 < n) (hp : p < 2 ^ 32) :
    ¬ Loads T nVersion accept (List.replicate n 0) p hs := by
  rintro ⟨turns, h⟩
  induction turns generalizing p with
  | zero => simp [loadLoop] at h
  | succ turns ih =>
    have hlook : lookTurn (List.replicate n 0) p = .further (toUint (p + 65533)) := by
      have hlen : (((List.replicate n (0 : UInt8)).drop p).take 65536).length =
          min 65536 (n - p) := by
        rw [List.length_take, List.length_drop, List.length_replicate]
      have hnone : memchr (((List.replicate n (0 : UInt8)).drop p).take 65536)
          (messageStart.headD 0) (min 65536 (n - p) + 1 - 4) = none := by
        refine List.findIdx?_eq_none_iff.2 fun x hx => ?_
        have hzero := List.eq_of_mem_replicate
          (List.mem_of_mem_drop (List.mem_of_mem_take (List.mem_of_mem_take hx)))
        rw [hzero, decide_eq_false_iff_not]
        unfold messageStart
        split <;> decide
      unfold lookTurn
      dsimp only
      rw [hlen, if_neg (by omega), hnone]
    unfold loadLoop at h
    rw [hlook] at h
    exact ih toUint_lt h

end CryptoBullion
