import CryptoBullion.Model.ScriptReader
import CryptoBullion.Scripts.Instructions
/-!
# Scripts are read as they were written

`GetOp2` at an instruction, and at a push that is cut short. What it takes
for the two to be told apart is that the bytes behind a push's size, counted
as an `unsigned int`, are not fewer than the size.
-/

namespace CryptoBullion

variable {script front tail header rest : CScript} {opcode n pc pc' : ℕ} {data : List UInt8}
variable {is : List Instruction}

/-! ## What stands where `GetOp2` reads -/

/-- **A push that is cut short**: in its length field, or in its data. -/
inductive CutShort : CScript → Prop
  | size1 : CutShort [76]
  | size2 {r : List UInt8} (h : r.length < 2) : CutShort (77 :: r)
  | size4 {r : List UInt8} (h : r.length < 4) : CutShort (78 :: r)
  | data {header : CScript} {opcode n : ℕ} {data : List UInt8} (hh : OpHeader header opcode n)
      (h : data.length < n) : CutShort (header ++ data)

/-- The bytes behind a header are an operand, or too few for one. -/
theorem cutShort_or_operand (hh : OpHeader header opcode n) (r : CScript) :
    CutShort (header ++ r) ∨
      ∃ data rest, data.length = n ∧ header ++ r = header ++ (data ++ rest) := by
  rcases Nat.lt_or_ge r.length n with h | h
  · exact .inl (.data hh h)
  · refine .inr ⟨r.take n, r.drop n, ?_, by rw [List.take_append_drop]⟩
    rw [List.length_take, min_eq_left h]

/-- **Bytes begin with an instruction**, or with a push that is cut short. -/
theorem cutShort_or_instruction (hne : tail ≠ []) :
    CutShort tail ∨ ∃ header opcode n data rest, OpHeader header opcode n ∧ data.length = n ∧
      tail = header ++ (data ++ rest) := by
  have hheader : ∀ {header opcode n} (_ : OpHeader header opcode n) (r : CScript),
      tail = header ++ r → CutShort tail ∨ ∃ header opcode n data rest,
        OpHeader header opcode n ∧ data.length = n ∧ tail = header ++ (data ++ rest) := by
    rintro header opcode n hh r rfl
    rcases cutShort_or_operand hh r with h | ⟨data, rest, hlen, heq⟩
    · exact .inl h
    · exact .inr ⟨header, opcode, n, data, rest, hh, hlen, heq⟩
  obtain ⟨op, r, rfl⟩ := List.exists_cons_of_ne_nil hne
  have hop : ∀ {k : UInt8}, op.toNat = k.toNat → op = k := fun h => UInt8.toNat_inj.1 h
  by_cases h₁ : op.toNat < 76
  · exact hheader (.push op h₁) r rfl
  by_cases h₂ : 78 < op.toNat
  · exact hheader (.plain op h₂) r rfl
  obtain h | h | h : op.toNat = 76 ∨ op.toNat = 77 ∨ op.toNat = 78 := by omega
  · obtain rfl : op = 76 := hop h
    rcases r with _ | ⟨a, r⟩
    · exact .inl .size1
    · exact hheader (.pushData1 a) r rfl
  · obtain rfl : op = 77 := hop h
    rcases r with _ | ⟨a, _ | ⟨b, r⟩⟩
    · exact .inl (.size2 (by simp))
    · exact .inl (.size2 (by simp))
    · exact hheader (.pushData2 a b) r rfl
  · obtain rfl : op = 78 := hop h
    rcases r with _ | ⟨a, _ | ⟨b, _ | ⟨c, _ | ⟨d, r⟩⟩⟩⟩
    · exact .inl (.size4 (by simp))
    · exact .inl (.size4 (by simp))
    · exact .inl (.size4 (by simp))
    · exact .inl (.size4 (by simp))
    · exact hheader (.pushData4 a b c d) r rfl

/-- What is cut short is no instruction. -/
theorem CutShort.getOp_eq_none (h : CutShort tail) : getOp tail = none := by
  cases h with
  | size1 => rfl
  | size2 h =>
    rename_i r
    rcases r with _ | ⟨a, _ | ⟨b, r⟩⟩
    · rfl
    · rfl
    · exact absurd h (by simp)
  | size4 h =>
    rename_i r
    rcases r with _ | ⟨a, _ | ⟨b, _ | ⟨c, _ | ⟨d, r⟩⟩⟩⟩
    · rfl
    · rfl
    · rfl
    · rfl
    · exact absurd h (by simp only [List.length_cons]; omega)
  | data hh h =>
    cases hh with
    | push op hop =>
      rw [List.singleton_append]
      simp only [getOp, if_pos hop]
      rw [if_pos h]
    | pushData1 a => simp [getOp, h]
    | pushData2 a b => simp [getOp, h]
    | pushData4 a b c d => simp [getOp, h]
    | plain op hop => exact absurd h (Nat.not_lt_zero _)

theorem OpHeader.length_pos (hh : OpHeader header opcode n) : 0 < header.length := by
  cases hh <;> exact Nat.zero_lt_succ _

/-- An opcode behind the pushes has nothing with it. -/
theorem OpHeader.eq_of_lt (hh : OpHeader header opcode n) (h : 78 < opcode) :
    n = 0 ∧ header.length = 1 := by
  cases hh with
  | push op hop => omega
  | pushData1 a => omega
  | pushData2 a b => omega
  | pushData4 a b c d => omega
  | plain op hop => exact ⟨rfl, rfl⟩

/-! ## One call -/

theorem deref_append (op : UInt8) (r : CScript) :
    deref (front ++ op :: r) front.length = .ok op := by
  simp [deref]

theorem slice_append (front rest : CScript) (h : data.length = n) :
    slice (front ++ (data ++ rest)) front.length n = .ok data := by
  rw [slice, if_pos, List.drop_left, List.take_left' h]
  rw [List.length_append, List.length_append]
  omega

/-- The size of an operand is read where its field is. -/
theorem readSize_append (hh : OpHeader header opcode n) (hop : opcode ≤ 78) (r : CScript) :
    readSize (front ++ (header ++ r)) opcode (front.length + 1) =
      .ok (some (n, front.length + header.length)) := by
  have hfield : ∀ (op : UInt8) (field : List UInt8) (width : ℕ), field.length = width →
      ¬ (front ++ ((op :: field) ++ r)).length - (front.length + 1) < width ∧
        slice (front ++ ((op :: field) ++ r)) (front.length + 1) width = .ok field := by
    intro op field width hwidth
    constructor
    · simp only [List.length_append, List.length_cons]
      omega
    · have h := slice_append (front ++ [op]) r hwidth
      simpa using h
  cases hh with
  | push op h => rw [readSize, if_pos h, List.length_singleton]
  | pushData1 a =>
    obtain ⟨hlen, hslice⟩ := hfield 76 [a] 1 rfl
    simp only [readSize, if_neg (show ¬ 76 < 76 by omega), if_pos, if_neg hlen, hslice]
    simp [Except.map, ofLeBytes]
  | pushData2 a b =>
    obtain ⟨hlen, hslice⟩ := hfield 77 [a, b] 2 rfl
    simp only [readSize, if_neg (show ¬ 77 < 76 by omega), if_neg (show ¬ 77 = 76 by omega), if_pos,
      if_neg hlen, hslice]
    simp [Except.map, ofLeBytes]
  | pushData4 a b c d =>
    obtain ⟨hlen, hslice⟩ := hfield 78 [a, b, c, d] 4 rfl
    simp only [readSize, if_neg (show ¬ 78 < 76 by omega), if_neg (show ¬ 78 = 76 by omega),
      if_neg (show ¬ 78 = 77 by omega), if_neg hlen, hslice]
    simp [Except.map, ofLeBytes]
    omega
  | plain op h => exact absurd hop (by omega)

/-- **A call at an instruction** reads it, where what is left of the script
counts for enough. -/
theorem GetOp2_append (front rest : CScript) (hh : OpHeader header opcode n) (hlen : data.length = n) :
    GetOp2 (front ++ (header ++ (data ++ rest))) front.length =
      .ok (if n ≤ (n + rest.length) % 4294967296 then
        ⟨true, front.length + header.length + n, opcode, data⟩
        else ⟨false, front.length + header.length, opInvalid, []⟩) := by
  obtain ⟨op, field, rfl, rfl⟩ : ∃ op field, header = op :: field ∧ opcode = op.toNat := by
    cases hh <;> exact ⟨_, _, rfl, rfl⟩
  have hpc : ¬ (front ++ (op :: field ++ (data ++ rest))).length ≤ front.length := by
    simp only [List.length_append, List.length_cons]
    omega
  have hderef : deref (front ++ (op :: field ++ (data ++ rest))) front.length = .ok op :=
    deref_append op (field ++ (data ++ rest))
  have hleft : (front ++ (op :: field ++ (data ++ rest))).length -
      (front.length + (op :: field).length) = n + rest.length := by
    simp only [List.length_append, hlen]
    omega
  unfold GetOp2
  rw [if_neg hpc, hderef]
  dsimp only [bind, Except.bind]
  by_cases hop : op.toNat ≤ 78
  · rw [if_pos hop, readSize_append hh hop]
    dsimp only
    rw [hleft]
    by_cases hfits : n ≤ (n + rest.length) % 4294967296
    · have hslice : slice (front ++ (op :: field ++ (data ++ rest)))
          (front.length + (op :: field).length) n = .ok data := by
        have h := slice_append (front ++ (op :: field)) rest hlen
        rwa [List.length_append, List.append_assoc] at h
      rw [if_neg, hslice, if_pos hfits]
      · rfl
      · simp only [List.length_append]
        omega
    · rw [if_pos (.inr (by omega)), if_neg hfits]
      rfl
  · -- no operand
    obtain ⟨rfl, hfield⟩ := hh.eq_of_lt (not_le.1 hop)
    obtain rfl : field = [] := by simpa using hfield
    obtain rfl := List.length_eq_zero_iff.1 hlen
    rw [if_neg hop, if_pos (Nat.zero_le _)]
    rfl

/-- **A call at a push that is cut short** fails, and leaves `pc` in the
script. -/
theorem GetOp2_cutShort (front : CScript) (h : CutShort tail) : ∃ pc, pc ≤ (front ++ tail).length ∧
    GetOp2 (front ++ tail) front.length = .ok ⟨false, pc, opInvalid, []⟩ := by
  have hshort : ∀ (op : UInt8) (r : CScript), op.toNat ≤ 78 →
      readSize (front ++ op :: r) op.toNat (front.length + 1) = .ok none →
      ∃ pc, pc ≤ (front ++ op :: r).length ∧
        GetOp2 (front ++ op :: r) front.length = .ok ⟨false, pc, opInvalid, []⟩ := by
    intro op r hop hsize
    have hpc : ¬ (front ++ op :: r).length ≤ front.length := by
      simp only [List.length_append, List.length_cons]
      omega
    refine ⟨front.length + 1, by simp only [List.length_append, List.length_cons]; omega, ?_⟩
    unfold GetOp2
    rw [if_neg hpc, deref_append]
    dsimp only [bind, Except.bind]
    rw [if_pos hop, hsize]
    rfl
  cases h with
  | size1 =>
    refine hshort 76 [] (by decide) ?_
    simp [readSize]
  | size2 h =>
    refine hshort 77 _ (by decide) ?_
    simp [readSize]
    omega
  | size4 h =>
    refine hshort 78 _ (by decide) ?_
    simp [readSize]
    omega
  | data hh h =>
    rename_i header opcode n data
    obtain ⟨op, field, rfl, rfl⟩ : ∃ op field, header = op :: field ∧ opcode = op.toNat := by
      cases hh <;> exact ⟨_, _, rfl, rfl⟩
    have hop : op.toNat ≤ 78 := by
      by_contra hop
      have hn := (hh.eq_of_lt (not_le.1 hop)).1
      omega
    have hpc : ¬ (front ++ (op :: field ++ data)).length ≤ front.length := by
      simp only [List.length_append, List.length_cons]
      omega
    have hderef : deref (front ++ (op :: field ++ data)) front.length = .ok op :=
      deref_append op (field ++ data)
    refine ⟨front.length + (op :: field).length, ?_, ?_⟩
    · simp only [List.length_append]
      omega
    unfold GetOp2
    rw [if_neg hpc, hderef]
    dsimp only [bind, Except.bind]
    rw [if_pos hop, readSize_append hh hop]
    dsimp only
    rw [if_pos]
    · rfl
    · simp only [List.length_append]
      omega

/-! ## What the comparison takes for enough -/

/-- **At every push of the script** the bytes behind its size, counted modulo
2^32, are not fewer than the size. -/
def Legible (script : CScript) : Prop :=
  ∀ is header opcode n data rest, OpHeader header opcode n → data.length = n →
    Reads script is (header ++ (data ++ rest)) → n ≤ (n + rest.length) % 4294967296

theorem Reads.isSuffix (h : Reads script is rest) : rest <:+ script := by
  induction is generalizing script with
  | nil =>
    obtain rfl : script = rest := h
    exact List.suffix_rfl
  | cons i is ih =>
    obtain ⟨pc', hop, h⟩ := h
    exact (ih h).trans (suffix_of_getOp hop)

/-- A script of fewer than 2^32 bytes is one. -/
theorem legible_of_length_lt (h : script.length < 2 ^ 32) : Legible script := by
  rintro is header opcode n data rest - hlen hreads
  have hle := hreads.isSuffix.length_le
  rw [List.length_append, List.length_append, hlen] at hle
  rw [Nat.mod_eq_of_lt (by omega)]
  exact Nat.le_add_right _ _

theorem legible_nil : Legible [] := legible_of_length_lt (by norm_num)

theorem Legible.of_getOp (h : Legible script) (hop : getOp script = some (opcode, data, rest)) :
    Legible rest :=
  fun is header opcode n data rest hh hlen hreads =>
    h (_ :: is) header opcode n data rest hh hlen (.cons hop hreads)

/-- A script is one where its first push is in order, and what follows is. -/
theorem Legible.cons (hh : OpHeader header opcode n) (hlen : data.length = n)
    (hfits : n ≤ (n + rest.length) % 4294967296) (h : Legible rest) :
    Legible (header ++ (data ++ rest)) := by
  have hop : getOp (header ++ (data ++ rest)) = some (opcode, data, rest) :=
    getOp_eq_some_iff.2 ⟨header, n, hh, hlen, rfl⟩
  rintro is header' opcode' n' data' rest' hh' hlen' hreads
  cases is with
  | nil =>
    have heq : header ++ (data ++ rest) = header' ++ (data' ++ rest') := hreads
    have hop' : getOp (header ++ (data ++ rest)) = some (opcode', data', rest') :=
      getOp_eq_some_iff.2 ⟨header', n', hh', hlen', heq⟩
    rw [hop] at hop'
    simp only [Option.some.injEq, Prod.mk.injEq] at hop'
    obtain ⟨-, rfl, rfl⟩ := hop'
    rwa [← hlen', hlen]
  | cons i is =>
    obtain ⟨pc', hop', hreads⟩ := hreads
    rw [hop] at hop'
    simp only [Option.some.injEq, Prod.mk.injEq] at hop'
    obtain ⟨-, -, rfl⟩ := hop'
    exact h is header' opcode' n' data' rest' hh' hlen' hreads

/-! ## The loop -/

/-- **A turn at an instruction.** -/
theorem readLoop_append (fuel : ℕ) (hh : OpHeader header opcode n) (hlen : data.length = n) :
    readLoop (front ++ (header ++ (data ++ rest))) (fuel + 1) front.length =
      if n ≤ (n + rest.length) % 4294967296 then
        (readLoop ((front ++ (header ++ data)) ++ rest) fuel (front ++ (header ++ data)).length).map
          fun r => r.map fun out => ((opcode, data) :: out.1, out.2)
      else some (.ok ([], false, front.length + header.length)) := by
  have hpos := hh.length_pos
  have hpc : front.length < (front ++ (header ++ (data ++ rest))).length := by
    simp only [List.length_append]
    omega
  have hscript : (front ++ (header ++ data)) ++ rest = front ++ (header ++ (data ++ rest)) := by
    simp only [List.append_assoc]
  have hnext : (front ++ (header ++ data)).length = front.length + header.length + n := by
    simp only [List.length_append, hlen, Nat.add_assoc]
  rw [readLoop, if_pos hpc, GetOp2_append front rest hh hlen, hscript, hnext]
  split_ifs
  · rfl
  · rfl

/-- A turn at a push that is cut short. -/
theorem readLoop_cutShort (front : CScript) (fuel : ℕ) (h : CutShort tail) :
    ∃ pc, readLoop (front ++ tail) (fuel + 1) front.length = some (.ok ([], false, pc)) := by
  obtain ⟨pc, -, hcall⟩ := GetOp2_cutShort front h
  have hpos : 0 < tail.length := by
    cases h with
    | data hh _ => cases hh <;> exact Nat.zero_lt_succ _
    | _ => exact Nat.zero_lt_succ _
  have hpc : front.length < (front ++ tail).length := by
    rw [List.length_append]
    omega
  refine ⟨pc, ?_⟩
  rw [readLoop, if_pos hpc, hcall]
  rfl

theorem readLoop_nil (fuel : ℕ) :
    readLoop (front ++ []) (fuel + 1) front.length = some (.ok ([], true, front.length)) := by
  rw [readLoop, if_neg (by simp)]

/-- **The loop ends**, and reads nothing behind the end. -/
theorem exists_readLoop (front : CScript) (fuel : ℕ) (hfuel : tail.length < fuel) :
    ∃ is ok pc, readLoop (front ++ tail) fuel front.length = some (.ok (is, ok, pc)) := by
  induction fuel generalizing front tail with
  | zero => exact absurd hfuel (Nat.not_lt_zero _)
  | succ fuel ih =>
    rcases eq_or_ne tail [] with rfl | hne
    · exact ⟨[], true, _, readLoop_nil fuel⟩
    rcases cutShort_or_instruction hne with h | ⟨header, opcode, n, data, rest, hh, hlen, rfl⟩
    · obtain ⟨pc, h⟩ := readLoop_cutShort front fuel h
      exact ⟨[], false, pc, h⟩
    rw [readLoop_append fuel hh hlen]
    split_ifs
    · have hpos := hh.length_pos
      have hless : rest.length < fuel := by
        simp only [List.length_append] at hfuel
        omega
      obtain ⟨is, ok, pc, h⟩ := ih (front ++ (header ++ data)) hless
      rw [h]
      exact ⟨_, ok, pc, rfl⟩
    · exact ⟨[], false, _, rfl⟩

/-- **A script that is legible** is read to its end. -/
theorem readLoop_of_reads (front : CScript) (h : Legible tail) (hreads : Reads tail is []) :
    readLoop (front ++ tail) (is.length + 1) front.length =
      some (.ok (is, true, (front ++ tail).length)) := by
  induction is generalizing front tail with
  | nil =>
    obtain rfl : tail = [] := hreads
    rw [List.length_nil, readLoop_nil, List.append_nil]
  | cons i is ih =>
    obtain ⟨rest, hop, hreads⟩ := hreads
    have hrest := h.of_getOp hop
    obtain ⟨header, n, hh, hlen, rfl⟩ := getOp_eq_some_iff.1 hop
    rw [List.length_cons, readLoop_append _ hh hlen,
      if_pos (h [] header i.1 n i.2 rest hh hlen rfl), ih _ hrest hreads]
    simp only [List.append_assoc]
    rfl

/-- And only such a script is. -/
theorem legible_of_readLoop (front : CScript) (fuel : ℕ)
    (h : readLoop (front ++ tail) fuel front.length = some (.ok (is, true, pc))) :
    Legible tail := by
  induction fuel generalizing front tail is pc with
  | zero => exact absurd h (by simp [readLoop])
  | succ fuel ih =>
    rcases eq_or_ne tail [] with rfl | hne
    · exact legible_nil
    rcases cutShort_or_instruction hne with hcut | ⟨header, opcode, n, data, rest, hh, hlen, rfl⟩
    · obtain ⟨pc', hcut⟩ := readLoop_cutShort front fuel hcut
      rw [hcut] at h
      exact absurd h (by simp)
    rw [readLoop_append fuel hh hlen] at h
    split_ifs at h with hfits
    · obtain ⟨r, hr, hmap⟩ := Option.map_eq_some_iff.1 h
      rcases r with e | ⟨is', ok, pc'⟩
      · exact absurd hmap (by simp [Except.map])
      · obtain ⟨-, rfl, -⟩ : ((opcode, data) :: is' = is) ∧ ok = true ∧ pc' = pc := by
          simpa [Except.map] using hmap
        exact .cons hh hlen hfits (ih _ hr)
    · exact absurd h (by simp)

/-! ## What is written -/

/-- The instruction an item becomes. -/
def ScriptItem.instruction : ScriptItem → Instruction
  | .opcode op _ => (op.toNat, [])
  | .data b _ => (pushOpcode b, b)

/-- The bytes of an item. -/
def ScriptItem.bytes : ScriptItem → CScript
  | .opcode op _ => [op]
  | .data b _ => pushBytes b

theorem appendItem_eq (script : CScript) (item : ScriptItem) :
    appendItem script item = some (script ++ item.bytes) := by
  cases item with
  | opcode op h =>
    have hop := op.toNat_lt
    rw [appendItem, appendOpcode, if_neg (by omega), Int.toNat_natCast, UInt8.ofNat_toNat]
    rfl
  | data b h => rfl

/-- **No opcode is refused**: the script is the items' bytes. -/
theorem written_eq (items : List ScriptItem) :
    written items = some (items.flatMap ScriptItem.bytes) := by
  have hfold : ∀ script : CScript,
      items.foldlM appendItem script = some (script ++ items.flatMap ScriptItem.bytes) := by
    induction items with
    | nil => exact fun script => by rw [List.flatMap_nil, List.append_nil]; rfl
    | cons item items ih =>
      intro script
      rw [List.foldlM_cons, appendItem_eq, Option.bind_eq_bind, Option.bind_some, ih,
        List.flatMap_cons, List.append_assoc]
  exact hfold []

theorem getOp_bytes (item : ScriptItem) :
    getOp (item.bytes ++ rest) = some (item.instruction.1, item.instruction.2, rest) := by
  cases item with
  | opcode op h => exact getOp_eq_some_iff.2 ⟨[op], 0, .plain op h, rfl, rfl⟩
  | data b h => exact getOp_pushBytes h

/-- **The script has the items for its instructions.** -/
theorem reads_written (items : List ScriptItem) :
    Reads (items.flatMap ScriptItem.bytes) (items.map ScriptItem.instruction) [] := by
  induction items with
  | nil => exact rfl
  | cons item items ih =>
    rw [List.flatMap_cons, List.map_cons]
    exact .cons (getOp_bytes item) ih

/-- **The items are read back**: the loop over what was written ends where the
script does, with the items for its instructions. -/
def RoundTrips (items : List ScriptItem) : Prop :=
  ∃ script fuel, written items = some script ∧
    readLoop script fuel 0 = some (.ok (items.map ScriptItem.instruction, true, script.length))

theorem roundTrips_iff (items : List ScriptItem) :
    RoundTrips items ↔ ∀ script ∈ written items, Legible script := by
  constructor
  · rintro ⟨script, fuel, hwritten, hloop⟩ script' hwritten'
    obtain rfl : script = script' := Option.some.inj (hwritten.symm.trans hwritten')
    exact legible_of_readLoop [] fuel hloop
  · intro h
    refine ⟨_, (items.map ScriptItem.instruction).length + 1, written_eq items, ?_⟩
    exact readLoop_of_reads [] (h _ (written_eq items)) (reads_written items)

/-! ## Any bytes -/

/-- Where the loop over a script can stand, and what it has read. -/
inductive Reached (script : CScript) : ℕ → List Instruction → Prop
  | start : Reached script 0 []
  | next {pc pc' opcode : ℕ} {vch : List UInt8} {is : List Instruction} (h : Reached script pc is)
      (hpc : pc < script.length) (hcall : GetOp2 script pc = .ok ⟨true, pc', opcode, vch⟩) :
      Reached script pc' (is ++ [(opcode, vch)])

/-- **The loop ends in the script**, and a call of it fails where a push is
cut short, and nowhere else before the end. -/
def ReadsSafely (script : CScript) : Prop :=
  (∃ fuel is ok pc, readLoop script fuel 0 = some (.ok (is, ok, pc))) ∧
  ∀ pc is, Reached script pc is → pc ≤ script.length ∧ (pc < script.length →
    ((∃ pc', pc' ≤ script.length ∧ GetOp2 script pc = .ok ⟨false, pc', opInvalid, []⟩) ↔
      CutShort (script.drop pc)))

/-- The loop has read what the script has up to there. -/
theorem Reached.reads (h : Reached script pc is) :
    pc ≤ script.length ∧ Reads script is (script.drop pc) := by
  induction h with
  | start => exact ⟨Nat.zero_le _, rfl⟩
  | next h hpc hcall ih =>
    rename_i pc pc' opcode vch is
    obtain ⟨-, hreads⟩ := ih
    have hfront : script.take pc ++ script.drop pc = script := List.take_append_drop pc script
    have hlength : (script.take pc).length = pc := by
      rw [List.length_take, min_eq_left hpc.le]
    have hne : script.drop pc ≠ [] := by
      rw [Ne, List.drop_eq_nil_iff]
      omega
    rcases cutShort_or_instruction hne with hcut | ⟨header, op, n, data, rest, hh, hlen, htail⟩
    · obtain ⟨pc₁, -, hfail⟩ := GetOp2_cutShort (script.take pc) hcut
      rw [hfront, hlength, hcall] at hfail
      exact absurd hfail (by simp)
    have hok := GetOp2_append (script.take pc) rest hh hlen
    rw [← htail, hfront, hlength, hcall] at hok
    split_ifs at hok
    · simp only [Except.ok.injEq, GetOpResult.mk.injEq, true_and] at hok
      obtain ⟨rfl, rfl, rfl⟩ := hok
      have hdrop : script.drop (pc + header.length + n) = rest := by
        rw [Nat.add_assoc, ← List.drop_drop, htail, ← List.append_assoc]
        exact List.drop_left' (by rw [List.length_append, hlen])
      have hop : getOp (script.drop pc) = some (opcode, vch, rest) :=
        getOp_eq_some_iff.2 ⟨header, n, hh, hlen, htail⟩
      refine ⟨?_, ?_⟩
      · have htotal := congrArg List.length htail
        rw [List.length_drop, List.length_append, List.length_append, hlen] at htotal
        omega
      · rw [hdrop]
        exact reads_append.2 ⟨_, hreads, .cons hop rfl⟩
    · exact absurd hok (by simp)

/-- Where a call fails only at a push that is cut short, an instruction that
was come to is in order. -/
theorem fits_of_reached (hcalls : ∀ pc is, Reached script pc is → pc < script.length →
      (∃ pc', pc' ≤ script.length ∧ GetOp2 script pc = .ok ⟨false, pc', opInvalid, []⟩) →
        CutShort (script.drop pc))
    (hh : OpHeader header opcode n) (hlen : data.length = n)
    (hscript : script = front ++ (header ++ (data ++ rest)))
    (hreached : Reached script front.length is) : n ≤ (n + rest.length) % 4294967296 := by
  have hpos := hh.length_pos
  have hcall := GetOp2_append front rest hh hlen
  rw [← hscript] at hcall
  split_ifs at hcall with hfits
  · exact hfits
  · have htotal := congrArg List.length hscript
    simp only [List.length_append] at htotal
    have hcut := hcalls _ is hreached (by omega) ⟨_, by omega, hcall⟩
    have hop : getOp (script.drop front.length) = some (opcode, data, rest) := by
      rw [hscript, List.drop_left]
      exact getOp_eq_some_iff.2 ⟨header, n, hh, hlen, rfl⟩
    rw [hcut.getOp_eq_none] at hop
    exact absurd hop (by simp)

/-- And the loop comes to every instruction. -/
theorem reached_of_reads (hcalls : ∀ pc is, Reached script pc is → pc < script.length →
      (∃ pc', pc' ≤ script.length ∧ GetOp2 script pc = .ok ⟨false, pc', opInvalid, []⟩) →
        CutShort (script.drop pc))
    (hscript : script = front ++ tail) (hreads : Reads script is tail) :
    Reached script front.length is := by
  induction is using List.reverseRecOn generalizing front tail with
  | nil =>
    obtain rfl : script = tail := hreads
    obtain rfl : front = [] := by simpa using hscript
    exact .start
  | append_singleton is i ih =>
    obtain ⟨mid, hmid, tail', hop, htail⟩ := reads_append.1 hreads
    obtain rfl : tail' = tail := htail
    obtain ⟨header, n, hh, hlen, rfl⟩ := getOp_eq_some_iff.1 hop
    obtain ⟨front', hfront'⟩ := hmid.isSuffix
    have hreached := ih hfront'.symm hmid
    have hfits := fits_of_reached hcalls hh hlen hfront'.symm hreached
    have hcall := GetOp2_append front' tail' hh hlen
    rw [hfront', if_pos hfits] at hcall
    have hpos := hh.length_pos
    have htotal := congrArg List.length hfront'
    have htotal' := congrArg List.length hscript
    simp only [List.length_append] at htotal htotal'
    have hfront : front.length = front'.length + header.length + n := by omega
    rw [hfront]
    exact .next hreached (by omega) hcall

theorem readsSafely_iff (script : CScript) : ReadsSafely script ↔ Legible script := by
  constructor
  · rintro ⟨-, hcalls⟩ is header opcode n data rest hh hlen hreads
    have honly : ∀ pc is, Reached script pc is → pc < script.length →
        (∃ pc', pc' ≤ script.length ∧ GetOp2 script pc = .ok ⟨false, pc', opInvalid, []⟩) →
          CutShort (script.drop pc) :=
      fun pc is hreached hpc => ((hcalls pc is hreached).2 hpc).1
    obtain ⟨front, hfront⟩ := hreads.isSuffix
    exact fits_of_reached honly hh hlen hfront.symm (reached_of_reads honly hfront.symm hreads)
  · intro h
    refine ⟨⟨_, exists_readLoop [] _ (Nat.lt_succ_self _)⟩, fun pc is hreached => ?_⟩
    obtain ⟨hle, hreads⟩ := hreached.reads
    refine ⟨hle, fun hpc => ?_⟩
    have hfront : script.take pc ++ script.drop pc = script := List.take_append_drop pc script
    have hlength : (script.take pc).length = pc := by
      rw [List.length_take, min_eq_left hle]
    have hne : script.drop pc ≠ [] := by
      rw [Ne, List.drop_eq_nil_iff]
      omega
    constructor
    · rintro ⟨pc', -, hfail⟩
      rcases cutShort_or_instruction hne with hcut | ⟨header, op, n, data, rest, hh, hlen, htail⟩
      · exact hcut
      · have hok := GetOp2_append (script.take pc) rest hh hlen
        rw [if_pos (h is header op n data rest hh hlen (htail ▸ hreads)), ← htail, hfront, hlength,
          hfail] at hok
        exact absurd hok (by simp)
    · intro hcut
      have hfail := GetOp2_cutShort (script.take pc) hcut
      rwa [hfront, hlength] at hfail

/-- **Construction and parsing invert each other** where the bytes behind
every push's size, counted modulo 2^32, are not fewer than the size, and
nowhere else. -/
theorem construction_and_parsing (items : List ScriptItem) (script : CScript) :
    (RoundTrips items ↔ ∀ script ∈ written items, Legible script) ∧
    (ReadsSafely script ↔ Legible script) :=
  ⟨roundTrips_iff items, readsSafely_iff script⟩

/-- The longest push, and an opcode behind it. -/
def longPush : List ScriptItem :=
  [.data (List.replicate (2 ^ 32 - 1) 0) (by rw [List.length_replicate]; norm_num),
    .opcode 81 (by decide)]

/-- **The longest push with an opcode behind it** is not read back: 2^32 bytes
are left for it, which count as none. -/
theorem longPush_not_roundTrips : ¬ RoundTrips longPush := by
  intro h
  have hlegible := (roundTrips_iff longPush).1 h _ (written_eq longPush)
  obtain ⟨b, hb⟩ : ∃ b, b = List.replicate (2 ^ 32 - 1) (0 : UInt8) := ⟨_, rfl⟩
  have hlen : b.length = 4294967295 := by
    rw [hb, List.length_replicate]
    norm_num
  have hbytes : longPush.flatMap ScriptItem.bytes = pushBytes b ++ [81] := by
    rw [hb]
    rfl
  have hlt : b.length < 2 ^ 32 := by omega
  obtain ⟨header, n, hh, hn, htail⟩ := getOp_eq_some_iff.1 (getOp_pushBytes hlt :
    getOp (pushBytes b ++ [81]) = _)
  rw [hbytes] at hlegible
  have hfits := hlegible [] header _ n b [81] hh hn htail
  rw [← hn, hlen, List.length_singleton] at hfits
  norm_num at hfits

end CryptoBullion
