import Mathlib
/-!
# Words regrouped bit by bit

A word of width `w` is the list of its `w` bits, the highest first. A loop
that reads words of one width and emits words of another keeps the bits it
has read and not emitted in its state. Where every step keeps the order of
the bits (`Bits.Regroups`), so does the whole run, and what two runs have
emitted is the same wherever the bits are.
-/

namespace CryptoBullion

namespace Bits

variable {σ τ : Type} {u v w p q n m x : ℕ} {l l' xs : List ℕ} {r r' : List Bool}

/-! ## One word -/

/-- The lowest `w` bits of a number, the highest of them first. -/
def ofNat : ℕ → ℕ → List Bool
  | 0, _ => []
  | w + 1, n => n.testBit w :: ofNat w n

@[simp] theorem length_ofNat : (ofNat w n).length = w := by
  induction w with
  | zero => rfl
  | succ w ih => rw [ofNat, List.length_cons, ih]

/-- Two numbers with the same lowest bits. -/
theorem ofNat_eq_iff : ofNat w n = ofNat w m ↔ ∀ i < w, n.testBit i = m.testBit i := by
  induction w with
  | zero => simp [ofNat]
  | succ w ih =>
    rw [ofNat, ofNat, List.cons.injEq, ih, Nat.forall_lt_succ_right, and_comm]

/-- **A word is told by its bits.** -/
theorem ofNat_inj (hn : n < 2 ^ w) (hm : m < 2 ^ w) (h : ofNat w n = ofNat w m) : n = m := by
  refine Nat.eq_of_testBit_eq fun i => ?_
  rcases lt_or_ge i w with hi | hi
  · exact ofNat_eq_iff.1 h i hi
  · have hle : 2 ^ w ≤ 2 ^ i := Nat.pow_le_pow_right (by norm_num) hi
    rw [Nat.testBit_lt_two_pow (hn.trans_le hle), Nat.testBit_lt_two_pow (hm.trans_le hle)]

theorem ofNat_zero : ofNat w 0 = List.replicate w false := by
  induction w with
  | zero => rfl
  | succ w ih => rw [ofNat, Nat.zero_testBit, ih, List.replicate_succ]

/-- A word whose bits are all zero. -/
theorem eq_zero_of_ofNat (hn : n < 2 ^ w) (h : ofNat w n = List.replicate w false) : n = 0 :=
  ofNat_inj hn (Nat.two_pow_pos w) (h.trans ofNat_zero.symm)

/-! ## Words cut and joined -/

/-- A word of `u + v` bits is its first `u` and its last `v`. -/
theorem ofNat_add : ofNat (u + v) x = ofNat u (x >>> v) ++ ofNat v x := by
  induction u with
  | zero => rw [Nat.zero_add]; rfl
  | succ u ih =>
    rw [Nat.succ_add, ofNat, ofNat, ih, Nat.testBit_shiftRight, Nat.add_comm v u, List.cons_append]

theorem shiftRight_lt (hx : x < 2 ^ (u + v)) : x >>> v < 2 ^ u := by
  rw [Nat.shiftRight_eq_div_pow]
  exact Nat.div_lt_of_lt_mul (by rwa [← pow_add, Nat.add_comm])

/-- The last `v` bits, cut out by a mask of `v` ones. -/
theorem ofNat_mask (v x : ℕ) : ofNat v (x &&& 2 ^ v - 1) = ofNat v x := by
  rw [ofNat_eq_iff]
  intro i hi
  rw [Nat.testBit_and, Nat.testBit_two_pow_sub_one, decide_eq_true hi, Bool.and_true]

theorem mask_lt (v x : ℕ) : x &&& 2 ^ v - 1 < 2 ^ v := by
  have hle : x &&& 2 ^ v - 1 ≤ 2 ^ v - 1 := Nat.and_le_right
  have hpos := Nat.two_pow_pos v
  omega

/-- Two words put side by side. -/
theorem ofNat_join (hx : x < 2 ^ v) : ofNat (u + v) (q <<< v ||| x) = ofNat u q ++ ofNat v x := by
  rw [ofNat_add]
  congr 1
  · rw [ofNat_eq_iff]
    intro i hi
    rw [Nat.testBit_shiftRight, Nat.testBit_or, Nat.testBit_shiftLeft,
      Nat.testBit_lt_two_pow (hx.trans_le (Nat.pow_le_pow_right (by norm_num) (Nat.le_add_right v i))),
      Bool.or_false, Nat.add_sub_cancel_left]
    simp
  · rw [ofNat_eq_iff]
    intro i hi
    rw [Nat.testBit_or, Nat.testBit_shiftLeft]
    simp [hi]

theorem join_lt (hq : q < 2 ^ u) (hx : x < 2 ^ v) : q <<< v ||| x < 2 ^ (u + v) := by
  refine Nat.or_lt_two_pow ?_ (hx.trans_le (Nat.pow_le_pow_right (by norm_num) (Nat.le_add_left v u)))
  rw [Nat.shiftLeft_eq, pow_add]
  exact Nat.mul_lt_mul_of_pos_right hq (Nat.two_pow_pos v)

/-- **Held bits and the front of a word** make up a new word, and the rest
of the word is held. -/
theorem ofNat_append_ofNat (hx : x < 2 ^ (v + w)) :
    ofNat u q ++ ofNat (v + w) x = ofNat (u + v) (q <<< v ||| x >>> w) ++ ofNat w x := by
  rw [ofNat_join (shiftRight_lt hx), ofNat_add, List.append_assoc]

/-! ## Several words -/

/-- The bits of words of width `w`, one after the other. -/
def words (w : ℕ) (l : List ℕ) : List Bool := l.flatMap (ofNat w)

@[simp] theorem words_nil : words w [] = [] := rfl

@[simp] theorem words_cons : words w (x :: l) = ofNat w x ++ words w l := List.flatMap_cons

theorem words_singleton : words w [x] = ofNat w x := List.append_nil _

theorem words_pair : words w [x, n] = ofNat w x ++ ofNat w n := by
  rw [words_cons, words_singleton]

@[simp] theorem words_append : words w (l ++ l') = words w l ++ words w l' := List.flatMap_append

@[simp] theorem length_words : (words w l).length = w * l.length := by
  induction l with
  | nil => rfl
  | cons x l ih => rw [words_cons, List.length_append, length_ofNat, ih, List.length_cons]; ring

/-- **Whole words are told by the bits**, with less than a word behind
them. -/
theorem words_inj (hl : ∀ x ∈ l, x < 2 ^ w) (hl' : ∀ x ∈ l', x < 2 ^ w) (hr : r.length < w)
    (hr' : r'.length < w) (h : words w l ++ r = words w l' ++ r') : l = l' ∧ r = r' := by
  induction l generalizing l' with
  | nil =>
    rcases l' with _ | ⟨y, l'⟩
    · exact ⟨rfl, h⟩
    · have hlen := congrArg List.length h
      rw [words_cons] at hlen
      simp at hlen
      omega
  | cons x l ih =>
    rcases l' with _ | ⟨y, l'⟩
    · have hlen := congrArg List.length h
      rw [words_cons] at hlen
      simp at hlen
      omega
    · rw [words_cons, words_cons, List.append_assoc, List.append_assoc] at h
      obtain ⟨hword, hrest⟩ := List.append_inj h (by simp)
      have hxy : x = y :=
        ofNat_inj (hl x List.mem_cons_self) (hl' y List.mem_cons_self) hword
      obtain ⟨hll, hrr⟩ := ih (fun z hz => hl z (List.mem_cons_of_mem x hz))
        (fun z hz => hl' z (List.mem_cons_of_mem y hz)) hrest
      exact ⟨by rw [hxy, hll], hrr⟩

/-! ## One word out -/

/-- The front of a word goes out and its rest is held. -/
theorem emit_front (hx : x < 2 ^ (u + v)) : (∀ y ∈ [x >>> v], y < 2 ^ u) ∧
    [] ++ ofNat (u + v) x = words u [x >>> v] ++ ofNat v (x &&& 2 ^ v - 1) := by
  refine ⟨List.forall_mem_singleton.2 (shiftRight_lt hx), ?_⟩
  rw [List.nil_append, words_singleton, ofNat_mask, ofNat_add]

/-- What is held goes out with the front of a word, and the rest of the
word is held. -/
theorem emit_join (hq : q < 2 ^ u) (hx : x < 2 ^ (v + w)) :
    (∀ y ∈ [q <<< v ||| x >>> w], y < 2 ^ (u + v)) ∧
      ofNat u q ++ ofNat (v + w) x =
        words (u + v) [q <<< v ||| x >>> w] ++ ofNat w (x &&& 2 ^ w - 1) := by
  refine ⟨List.forall_mem_singleton.2 (join_lt hq (shiftRight_lt hx)), ?_⟩
  rw [words_singleton, ofNat_mask, ofNat_append_ofNat hx]

/-- What is held goes out with the whole of a word. -/
theorem emit_last (hq : q < 2 ^ u) (hx : x < 2 ^ v) :
    (∀ y ∈ [q <<< v ||| x], y < 2 ^ (u + v)) ∧
      ofNat u q ++ ofNat v x = words (u + v) [q <<< v ||| x] ++ [] := by
  refine ⟨List.forall_mem_singleton.2 (join_lt hq hx), ?_⟩
  rw [words_singleton, List.append_nil, ofNat_join hx]

/-- Two words go out where the rest of a word fills one, with or without
some of it still held. -/
theorem emit_two (hq : q < 2 ^ u) (hx : x < 2 ^ (v + (u + v + w))) :
    (∀ y ∈ [q <<< v ||| x >>> (u + v + w), (x >>> w) &&& 2 ^ (u + v) - 1], y < 2 ^ (u + v)) ∧
      ofNat u q ++ ofNat (v + (u + v + w)) x =
        words (u + v) [q <<< v ||| x >>> (u + v + w), (x >>> w) &&& 2 ^ (u + v) - 1] ++
          ofNat w (x &&& 2 ^ w - 1) := by
  refine ⟨List.forall_mem_cons.2 ⟨join_lt hq (shiftRight_lt hx),
    List.forall_mem_singleton.2 (mask_lt _ _)⟩, ?_⟩
  rw [words_pair, ofNat_mask, ofNat_mask, ofNat_append_ofNat hx, List.append_assoc, ← ofNat_add]

/-! ## A loop -/

/-- A loop that reads a word at a time and emits some words each time, and
the state it ends in. -/
def run (step : σ → ℕ → List ℕ × σ) : σ → List ℕ → List ℕ × σ
  | s, [] => ([], s)
  | s, x :: xs =>
    let (out, s) := step s x
    let (outs, s) := run step s xs
    (out ++ outs, s)

@[simp] theorem run_nil {step : σ → ℕ → List ℕ × σ} {s : σ} : run step s [] = ([], s) := rfl

theorem run_cons {step : σ → ℕ → List ℕ × σ} {s : σ} :
    run step s (x :: xs) =
      ((step s x).1 ++ (run step (step s x).2 xs).1, (run step (step s x).2 xs).2) := rfl

/-- A loop body that turns words of width `u` into words of width `v` and
keeps the order of their bits: `held` are those a state still has. -/
def Regroups (u v : ℕ) (step : σ → ℕ → List ℕ × σ) (Holds : σ → List Bool → Prop) : Prop :=
  ∀ s held x, Holds s held → x < 2 ^ u → (∀ y ∈ (step s x).1, y < 2 ^ v) ∧
    ∃ held', Holds (step s x).2 held' ∧ held ++ ofNat u x = words v (step s x).1 ++ held'

/-- **The whole loop regroups the bits.** -/
theorem Regroups.run {step : σ → ℕ → List ℕ × σ} {Holds : σ → List Bool → Prop}
    (hstep : Regroups u v step Holds) {s : σ} {held : List Bool} (hs : Holds s held)
    (hxs : ∀ x ∈ xs, x < 2 ^ u) :
    (∀ y ∈ (Bits.run step s xs).1, y < 2 ^ v) ∧
      ∃ held', Holds (Bits.run step s xs).2 held' ∧
        held ++ words u xs = words v (Bits.run step s xs).1 ++ held' := by
  induction xs generalizing s held with
  | nil => exact ⟨by simp, held, hs, by simp⟩
  | cons x xs ih =>
    have hx : x < 2 ^ u := hxs x List.mem_cons_self
    obtain ⟨hemit, held₁, hs₁, hbits₁⟩ := hstep s held x hs hx
    obtain ⟨hout, held₂, hs₂, hbits₂⟩ := ih hs₁ fun y hy => hxs y (List.mem_cons_of_mem x hy)
    rw [run_cons]
    refine ⟨fun y hy => ?_, held₂, hs₂, ?_⟩
    · rcases List.mem_append.1 hy with hy | hy
      · exact hemit y hy
      · exact hout y hy
    · rw [words_cons, ← List.append_assoc, hbits₁, List.append_assoc, hbits₂, words_append,
        List.append_assoc]

end Bits

end CryptoBullion
