import CryptoBullion.Model.Interpreter
import CryptoBullion.Model.Serialize
/-!
# Reading a script

What `GetOp` takes off a script, whatever is done with it afterwards.
-/

namespace CryptoBullion

variable {pc pc' : CScript} {opcode : ℕ} {data : List UInt8}

/-! ## One instruction -/

/-- What stands in front of an instruction's operand: the opcode, and the size
of a push. -/
inductive OpHeader : CScript → ℕ → ℕ → Prop
  | push (op : UInt8) (h : op.toNat < 76) : OpHeader [op] op.toNat op.toNat
  | pushData1 (a : UInt8) : OpHeader [76, a] 76 a.toNat
  | pushData2 (a b : UInt8) : OpHeader [77, a, b] 77 (a.toNat + 256 * b.toNat)
  | pushData4 (a b c d : UInt8) : OpHeader [78, a, b, c, d] 78
      (a.toNat + 256 * b.toNat + 65536 * c.toNat + 16777216 * d.toNat)
  | plain (op : UInt8) (h : 78 < op.toNat) : OpHeader [op] op.toNat 0

/-- **An instruction** is its header and an operand of the size that says. -/
theorem getOp_eq_some_iff : getOp pc = some (opcode, data, pc') ↔
    ∃ header n, OpHeader header opcode n ∧ data.length = n ∧ pc = header ++ (data ++ pc') := by
  constructor
  · intro h
    cases pc with
    | nil => exact absurd h (by simp [getOp])
    | cons op rest =>
      unfold getOp at h
      dsimp only at h
      split at h
      · exact absurd h (by simp)
      · rename_i nSize r hoperand
        split_ifs at h with hlen
        obtain ⟨rfl, hrest⟩ := Prod.mk.inj (Option.some.inj h)
        obtain ⟨rfl, rfl⟩ := Prod.mk.inj hrest
        suffices hheader : ∃ header, OpHeader header op.toNat nSize ∧ op :: rest = header ++ r by
          obtain ⟨header, hh, heq⟩ := hheader
          refine ⟨header, nSize, hh, ?_, by rw [List.take_append_drop, heq]⟩
          rw [List.length_take]
          omega
        have hop : ∀ {k : UInt8}, op.toNat = k.toNat → op = k := fun h => UInt8.toNat_inj.1 h
        split_ifs at hoperand with h₁ h₂ h₃ h₄
        · obtain ⟨rfl, rfl⟩ := Prod.mk.inj (Option.some.inj hoperand)
          exact ⟨[op], .push op h₁, rfl⟩
        · obtain rfl : op = 76 := hop h₂
          split at hoperand
          · obtain ⟨rfl, rfl⟩ := Prod.mk.inj (Option.some.inj hoperand)
            exact ⟨[76, _], .pushData1 _, rfl⟩
          · exact absurd hoperand (by simp)
        · obtain rfl : op = 77 := hop h₃
          split at hoperand
          · obtain ⟨rfl, rfl⟩ := Prod.mk.inj (Option.some.inj hoperand)
            exact ⟨[77, _, _], .pushData2 _ _, rfl⟩
          · exact absurd hoperand (by simp)
        · obtain rfl : op = 78 := hop h₄
          split at hoperand
          · obtain ⟨rfl, rfl⟩ := Prod.mk.inj (Option.some.inj hoperand)
            exact ⟨[78, _, _, _, _], .pushData4 _ _ _ _, rfl⟩
          · exact absurd hoperand (by simp)
        · obtain ⟨rfl, rfl⟩ := Prod.mk.inj (Option.some.inj hoperand)
          exact ⟨[op], .plain op (by omega), rfl⟩
  · rintro ⟨header, n, h, hlen, rfl⟩
    cases h with
    | push op h =>
      rw [List.singleton_append]
      simp only [getOp, if_pos h]
      simp [← hlen]
    | pushData1 a => simp [getOp, ← hlen]
    | pushData2 a b => simp [getOp, ← hlen]
    | pushData4 a b c d => simp [getOp, ← hlen]
    | plain op h =>
      obtain rfl := List.length_eq_zero_iff.1 hlen
      simp [getOp, show ¬ op.toNat < 76 by omega, show ¬ op.toNat = 76 by omega,
        show ¬ op.toNat = 77 by omega, show ¬ op.toNat = 78 by omega]

/-- **An instruction takes a byte at least.** -/
theorem length_of_getOp (h : getOp pc = some (opcode, data, pc')) : pc'.length < pc.length := by
  obtain ⟨header, n, hh, -, rfl⟩ := getOp_eq_some_iff.1 h
  have hpos : 0 < header.length := by cases hh <;> exact Nat.zero_lt_succ _
  rw [List.length_append, List.length_append]
  omega

/-- A value takes at most five bytes more than it has. -/
theorem length_of_getOp_le (h : getOp pc = some (opcode, data, pc')) :
    pc.length ≤ pc'.length + data.length + 5 := by
  obtain ⟨header, n, hh, -, rfl⟩ := getOp_eq_some_iff.1 h
  have hle : header.length ≤ 5 := by cases hh <;> simp
  rw [List.length_append, List.length_append]
  omega

/-- What is read off a script is the end of it. -/
theorem suffix_of_getOp (h : getOp pc = some (opcode, data, pc')) : pc' <:+ pc := by
  obtain ⟨header, n, -, -, rfl⟩ := getOp_eq_some_iff.1 h
  exact (List.suffix_append data pc').trans (List.suffix_append header _)

/-- An instruction's opcode is its first byte. -/
theorem head_of_getOp (h : getOp pc = some (opcode, data, pc')) :
    ∃ op rest, pc = op :: rest ∧ opcode = op.toNat := by
  obtain ⟨header, n, hh, -, rfl⟩ := getOp_eq_some_iff.1 h
  cases hh <;> exact ⟨_, _, rfl, rfl⟩

/-- Only pushes have an operand. -/
theorem data_of_getOp (h : getOp pc = some (opcode, data, pc')) (hop : opcode = 0 ∨ opPushData4 < opcode) :
    data = [] := by
  obtain ⟨header, n, hh, hlen, rfl⟩ := getOp_eq_some_iff.1 h
  unfold opPushData4 at hop
  cases hh <;> exact List.length_eq_zero_iff.1 (by omega)

/-- What is behind an instruction makes no difference to it. -/
theorem getOp_append {rest : CScript} (h : getOp pc = some (opcode, data, pc')) :
    getOp (pc ++ rest) = some (opcode, data, pc' ++ rest) := by
  obtain ⟨header, n, hh, hlen, rfl⟩ := getOp_eq_some_iff.1 h
  exact getOp_eq_some_iff.2 ⟨header, n, hh, hlen, by rw [List.append_assoc, List.append_assoc]⟩

/-- **The bytes of an instruction** are one by themselves. -/
theorem exists_of_getOp (h : getOp pc = some (opcode, data, pc')) :
    ∃ op, getOp op = some (opcode, data, []) ∧ pc = op ++ pc' := by
  obtain ⟨header, n, hh, hlen, rfl⟩ := getOp_eq_some_iff.1 h
  refine ⟨header ++ data, getOp_eq_some_iff.2 ⟨header, n, hh, hlen, ?_⟩, ?_⟩
  · rw [List.append_nil]
  · rw [List.append_assoc]

/-! ## Several instructions -/

/-- An instruction: its opcode and its operand. -/
abbrev Instruction := ℕ × List UInt8

/-- **The script begins with these instructions**, with `rest` behind
them. -/
def Reads : CScript → List Instruction → CScript → Prop
  | pc, [], rest => pc = rest
  | pc, i :: is, rest => ∃ pc', getOp pc = some (i.1, i.2, pc') ∧ Reads pc' is rest

section
variable {is js : List Instruction} {i : Instruction} {rest rest' : CScript}

@[simp] theorem getOp_nil : getOp [] = none := rfl

theorem Reads.cons (hop : getOp pc = some (opcode, data, pc')) (h : Reads pc' is rest) :
    Reads pc ((opcode, data) :: is) rest := ⟨pc', hop, h⟩

theorem reads_append : Reads pc (is ++ js) rest ↔ ∃ mid, Reads pc is mid ∧ Reads mid js rest := by
  induction is generalizing pc with
  | nil =>
    constructor
    · exact fun h => ⟨pc, rfl, h⟩
    · rintro ⟨_, rfl, h⟩
      exact h
  | cons i is ih =>
    rw [List.cons_append]
    constructor
    · rintro ⟨pc', hop, h⟩
      obtain ⟨mid, h₁, h₂⟩ := ih.1 h
      exact ⟨mid, ⟨pc', hop, h₁⟩, h₂⟩
    · rintro ⟨mid, ⟨pc', hop, h₁⟩, h₂⟩
      exact ⟨pc', hop, ih.2 ⟨mid, h₁, h₂⟩⟩

/-- **A script is read in one way.** -/
theorem Reads.unique (h : Reads pc is []) (h' : Reads pc js []) : is = js := by
  induction is generalizing pc js with
  | nil =>
    obtain rfl : pc = [] := h
    cases js with
    | nil => rfl
    | cons j js =>
      obtain ⟨pc', hop, -⟩ := h'
      exact absurd hop (by simp)
  | cons i is ih =>
    obtain ⟨pc', hop, h⟩ := h
    cases js with
    | nil =>
      obtain rfl : pc = [] := h'
      exact absurd hop (by simp)
    | cons j js =>
      obtain ⟨pc'', hop', h'⟩ := h'
      rw [hop] at hop'
      simp only [Option.some.injEq, Prod.mk.injEq] at hop'
      obtain ⟨h₁, h₂, rfl⟩ := hop'
      rw [Prod.ext h₁ h₂, ih h h']

/-- What has an operand is a push. -/
theorem Reads.opcode_le (h : Reads pc is rest) : ∀ i ∈ is, i.2 ≠ [] → i.1 ≤ opPushData4 := by
  induction is generalizing pc with
  | nil => exact fun i hi => absurd hi List.not_mem_nil
  | cons i is ih =>
    obtain ⟨pc', hop, h⟩ := h
    refine List.forall_mem_cons.2 ⟨fun hne => ?_, ih h⟩
    by_contra hlt
    exact hne (data_of_getOp hop (.inr (by omega)))

/-- Short operands make a short script. -/
theorem Reads.length_le {L : ℕ} (h : Reads pc is rest) (hL : ∀ i ∈ is, i.2.length ≤ L) :
    pc.length ≤ rest.length + (L + 5) * is.length := by
  induction is generalizing pc with
  | nil =>
    obtain rfl : pc = rest := h
    exact Nat.le_add_right _ _
  | cons i is ih =>
    obtain ⟨pc', hop, h⟩ := h
    obtain ⟨hi, hL⟩ := List.forall_mem_cons.1 hL
    have hlen := length_of_getOp_le hop
    have hih := ih h hL
    rw [List.length_cons, Nat.mul_succ]
    omega

end

/-! ## Reading back what was pushed -/

section
variable {b rest : List UInt8}

/-- The opcode `operator<<` writes for bytes. -/
def pushOpcode (b : List UInt8) : ℕ :=
  if b.length < 76 then b.length
  else if b.length ≤ 0xff then 76
  else if b.length ≤ 0xffff then 77
  else 78

theorem pushOpcode_le : pushOpcode b ≤ opPushData4 := by
  unfold pushOpcode opPushData4
  split_ifs <;> omega

/-- **What was pushed is read back.** -/
theorem getOp_pushBytes (h : b.length < 2 ^ 32) :
    getOp (pushBytes b ++ rest) = some (pushOpcode b, b, rest) := by
  have hbytes : ∀ n : ℕ, (UInt8.ofNat (n % 256)).toNat = n % 256 := fun n =>
    Nat.mod_mod n 256
  unfold pushBytes pushOpcode
  split_ifs with h₁ h₂ h₃
  · have hop : getOp (UInt8.ofNat (b.length % 256) :: (b ++ rest)) = some (b.length, b, rest) := by
      have hmod : b.length % 256 = b.length := by omega
      simp [getOp, hbytes, hmod, h₁]
    exact hop
  · have hop : getOp (76 :: UInt8.ofNat (b.length % 256) :: (b ++ rest)) = some (76, b, rest) := by
      have hmod : b.length % 256 = b.length := by omega
      simp [getOp, hbytes, hmod]
    exact hop
  · have hop : getOp (77 :: UInt8.ofNat (b.length % 256) :: UInt8.ofNat (b.length / 256 % 256) ::
        (b ++ rest)) = some (77, b, rest) := by
      have hmod : b.length % 256 + 256 * (b.length / 256 % 256) = b.length := by omega
      simp [getOp, hbytes, hmod]
    exact hop
  · have hop : getOp (78 :: UInt8.ofNat (b.length % 256) :: UInt8.ofNat (b.length / 256 % 256) ::
        UInt8.ofNat (b.length / 256 / 256 % 256) ::
          UInt8.ofNat (b.length / 256 / 256 / 256 % 256) :: (b ++ rest)) = some (78, b, rest) := by
      have hmod : b.length % 256 + 256 * (b.length / 256 % 256) +
          65536 * (b.length / 256 / 256 % 256) +
            16777216 * (b.length / 256 / 256 / 256 % 256) = b.length := by omega
      simp only [getOp, UInt8.reduceToNat, hbytes, hmod]
      simp
    exact hop

/-- A script of pushes is read as what was pushed. -/
theorem reads_flatMap_pushBytes {keys : List (List UInt8)} (h : ∀ b ∈ keys, b.length < 2 ^ 32) :
    Reads (keys.flatMap pushBytes ++ rest) (keys.map fun b => (pushOpcode b, b)) rest := by
  induction keys with
  | nil => exact rfl
  | cons b keys ih =>
    rw [List.flatMap_cons, List.append_assoc, List.map_cons]
    exact .cons (getOp_pushBytes (h b List.mem_cons_self))
      (ih fun b' hb' => h b' (List.mem_cons_of_mem b hb'))

end

end CryptoBullion
