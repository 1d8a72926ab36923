import CryptoBullion.Model.Text
/-!
# Base64 and Base32 lose nothing

The encoders and the decoders regroup bits: eight to a byte, six or five to
a character. What the encoder has left at the end fills up with zeros, and
the decoder takes a text only where what it has left is zeros. So the two
undo each other: whatever is encoded is decoded, and a text that is
accepted is, up to its padding, what its bytes are encoded as.
-/

namespace CryptoBullion

open Bits

variable {k i n : ℕ} {c : UInt8} {p v : List UInt8} {table : List ℤ}

/-! ## What is held between two steps -/

/-- What a loop holds in a mode: nothing at the start of a group, and else
so many bits, shifted to where the next step needs them. -/
inductive HeldBits (kept shift : Fin (k + 1) → ℕ) : Fin (k + 1) × ℕ → List Bool → Prop
  | start (left : ℕ) : HeldBits kept shift (0, left) []
  | some (mode : Fin (k + 1)) (q : ℕ) (hmode : mode ≠ 0) (hq : q < 2 ^ kept mode) :
      HeldBits kept shift (mode, q <<< shift mode) (ofNat (kept mode) q)

/-- Bits kept by `EncodeBase64`, by mode, and how far they are shifted -/
def kept64 : Fin 3 → ℕ := ![0, 2, 4]
def shift64 : Fin 3 → ℕ := ![0, 4, 2]
/-- Bits kept by `DecodeBase64`, by mode -/
def left64 : Fin 4 → ℕ := ![0, 6, 4, 2]
/-- Bits kept by `EncodeBase32`, by mode, and how far they are shifted -/
def kept32 : Fin 5 → ℕ := ![0, 3, 1, 4, 2]
def shift32 : Fin 5 → ℕ := ![0, 2, 4, 1, 3]
/-- Bits kept by `DecodeBase32`, by mode -/
def left32 : Fin 8 → ℕ := ![0, 5, 2, 7, 4, 1, 6, 3]

/-! ## The four loops -/

/-- `EncodeBase64` keeps the bits in order. -/
theorem regroups_encode64 : Regroups 8 6 encode64Step (HeldBits kept64 shift64) := by
  intro s held x hs hx
  rcases hs with left | ⟨mode, q, hmode, hq⟩
  · obtain ⟨hout, hbits⟩ := emit_front (u := 6) (v := 2) hx
    exact ⟨hout, _, .some 1 (x &&& 2 ^ 2 - 1) (by decide) (mask_lt 2 x), hbits⟩
  · match mode, hmode, hq with
    | 0, h, _ => exact absurd rfl h
    | 1, _, (hq : q < 2 ^ 2) =>
      obtain ⟨hout, hbits⟩ := emit_join (v := 4) (w := 4) hq hx
      exact ⟨hout, _, .some 2 (x &&& 2 ^ 4 - 1) (by decide) (mask_lt 4 x), hbits⟩
    | 2, _, (hq : q < 2 ^ 4) =>
      obtain ⟨hout, hbits⟩ := emit_two (v := 2) (w := 0) hq hx
      exact ⟨hout, _, .start _, hbits⟩

/-- And `DecodeBase64`. -/
theorem regroups_decode64 : Regroups 6 8 decode64Step (HeldBits left64 0) := by
  intro s held x hs hx
  rcases hs with left | ⟨mode, q, hmode, hq⟩
  · exact ⟨by simp [decode64Step], _, .some 1 x (by decide) hx, rfl⟩
  · match mode, hmode, hq with
    | 0, h, _ => exact absurd rfl h
    | 1, _, (hq : q < 2 ^ 6) =>
      obtain ⟨hout, hbits⟩ := emit_join (v := 2) (w := 4) hq hx
      exact ⟨hout, _, .some 2 (x &&& 2 ^ 4 - 1) (by decide) (mask_lt 4 x), hbits⟩
    | 2, _, (hq : q < 2 ^ 4) =>
      obtain ⟨hout, hbits⟩ := emit_join (v := 4) (w := 2) hq hx
      exact ⟨hout, _, .some 3 (x &&& 2 ^ 2 - 1) (by decide) (mask_lt 2 x), hbits⟩
    | 3, _, (hq : q < 2 ^ 2) =>
      obtain ⟨hout, hbits⟩ := emit_last (v := 6) hq hx
      exact ⟨hout, _, .start _, hbits⟩

/-- And `EncodeBase32`: two of its modes append two characters. -/
theorem regroups_encode32 : Regroups 8 5 encode32Step (HeldBits kept32 shift32) := by
  intro s held x hs hx
  rcases hs with left | ⟨mode, q, hmode, hq⟩
  · obtain ⟨hout, hbits⟩ := emit_front (u := 5) (v := 3) hx
    exact ⟨hout, _, .some 1 (x &&& 2 ^ 3 - 1) (by decide) (mask_lt 3 x), hbits⟩
  · match mode, hmode, hq with
    | 0, h, _ => exact absurd rfl h
    | 1, _, (hq : q < 2 ^ 3) =>
      obtain ⟨hout, hbits⟩ := emit_two (v := 2) (w := 1) hq hx
      exact ⟨hout, _, .some 2 (x &&& 2 ^ 1 - 1) (by decide) (mask_lt 1 x), hbits⟩
    | 2, _, (hq : q < 2 ^ 1) =>
      obtain ⟨hout, hbits⟩ := emit_join (v := 4) (w := 4) hq hx
      exact ⟨hout, _, .some 3 (x &&& 2 ^ 4 - 1) (by decide) (mask_lt 4 x), hbits⟩
    | 3, _, (hq : q < 2 ^ 4) =>
      obtain ⟨hout, hbits⟩ := emit_two (v := 1) (w := 2) hq hx
      exact ⟨hout, _, .some 4 (x &&& 2 ^ 2 - 1) (by decide) (mask_lt 2 x), hbits⟩
    | 4, _, (hq : q < 2 ^ 2) =>
      obtain ⟨hout, hbits⟩ := emit_two (v := 3) (w := 0) hq hx
      exact ⟨hout, _, .start _, hbits⟩

/-- And `DecodeBase32`: two of its modes append no byte. -/
theorem regroups_decode32 : Regroups 5 8 decode32Step (HeldBits left32 0) := by
  intro s held x hs hx
  rcases hs with left | ⟨mode, q, hmode, hq⟩
  · exact ⟨by simp [decode32Step], _, .some 1 x (by decide) hx, rfl⟩
  · match mode, hmode, hq with
    | 0, h, _ => exact absurd rfl h
    | 1, _, (hq : q < 2 ^ 5) =>
      obtain ⟨hout, hbits⟩ := emit_join (v := 3) (w := 2) hq hx
      exact ⟨hout, _, .some 2 (x &&& 2 ^ 2 - 1) (by decide) (mask_lt 2 x), hbits⟩
    | 2, _, (hq : q < 2 ^ 2) =>
      exact ⟨by simp [decode32Step], _, .some 3 (q <<< 5 ||| x) (by decide) (join_lt hq hx),
        (ofNat_join (u := 2) hx).symm⟩
    | 3, _, (hq : q < 2 ^ 7) =>
      obtain ⟨hout, hbits⟩ := emit_join (v := 1) (w := 4) hq hx
      exact ⟨hout, _, .some 4 (x &&& 2 ^ 4 - 1) (by decide) (mask_lt 4 x), hbits⟩
    | 4, _, (hq : q < 2 ^ 4) =>
      obtain ⟨hout, hbits⟩ := emit_join (v := 4) (w := 1) hq hx
      exact ⟨hout, _, .some 5 (x &&& 2 ^ 1 - 1) (by decide) (mask_lt 1 x), hbits⟩
    | 5, _, (hq : q < 2 ^ 1) =>
      exact ⟨by simp [decode32Step], _, .some 6 (q <<< 5 ||| x) (by decide) (join_lt hq hx),
        (ofNat_join (u := 1) hx).symm⟩
    | 6, _, (hq : q < 2 ^ 6) =>
      obtain ⟨hout, hbits⟩ := emit_join (v := 2) (w := 3) hq hx
      exact ⟨hout, _, .some 7 (x &&& 2 ^ 3 - 1) (by decide) (mask_lt 3 x), hbits⟩
    | 7, _, (hq : q < 2 ^ 3) =>
      obtain ⟨hout, hbits⟩ := emit_last (v := 5) hq hx
      exact ⟨hout, _, .start _, hbits⟩

/-! ## There and back -/

section Codes

variable {ke kd w mode : ℕ} {estep : Fin (ke + 1) × ℕ → ℕ → List ℕ × Fin (ke + 1) × ℕ}
variable {dstep : Fin (kd + 1) × ℕ → ℕ → List ℕ × Fin (kd + 1) × ℕ}
variable {kept shift : Fin (ke + 1) → ℕ} {left : Fin (kd + 1) → ℕ} {xs places : List ℕ}

/-- All the places an encoder ends with: what is left at the end is one
more. -/
def allPlaces (r : List ℕ × Fin (ke + 1) × ℕ) : List ℕ := if r.2.1 = 0 then r.1 else r.1 ++ [r.2.2]

/-- **The encoder's bits** are those it is given, filled up with zeros. -/
theorem words_allPlaces (he : Regroups 8 w estep (HeldBits kept shift))
    (hfill : ∀ mode, mode ≠ 0 → kept mode + shift mode = w) (hzero : shift 0 = 0)
    (hxs : ∀ x ∈ xs, x < 2 ^ 8) :
    (∀ y ∈ allPlaces (run estep (0, 0) xs), y < 2 ^ w) ∧
      words w (allPlaces (run estep (0, 0) xs)) =
        words 8 xs ++ List.replicate (shift (run estep (0, 0) xs).2.1) false := by
  obtain ⟨hout, held, hheld, hbits⟩ := he.run (.start 0) hxs
  generalize run estep (0, 0) xs = r at hout hheld hbits
  obtain ⟨out, s⟩ := r
  unfold allPlaces
  dsimp only at hout hheld hbits ⊢
  rw [List.nil_append] at hbits
  rcases hheld with l | ⟨mode, q, hmode, hq⟩
  · rw [if_pos rfl, hbits, hzero]
    exact ⟨hout, by simp⟩
  · -- the last place is the bits held and zeros
    have hlast : q <<< shift mode < 2 ^ w := by
      rw [← hfill mode hmode, Nat.shiftLeft_eq, pow_add]
      exact Nat.mul_lt_mul_of_pos_right hq (Nat.two_pow_pos _)
    have hword : ofNat w (q <<< shift mode) =
        ofNat (kept mode) q ++ List.replicate (shift mode) false := by
      have hjoin := ofNat_join (u := kept mode) (q := q) (Nat.two_pow_pos (shift mode))
      rwa [Nat.or_zero, hfill mode hmode, ofNat_zero] at hjoin
    rw [if_neg hmode, hbits, words_append, words_singleton, hword, List.append_assoc]
    refine ⟨fun y hy => ?_, rfl⟩
    rcases List.mem_append.1 hy with hy | hy
    · exact hout y hy
    · rwa [List.mem_singleton.1 hy]

/-- **The decoder's bits** are those it is given, less what it has left. -/
theorem words_decoded (hd : Regroups w 8 dstep (HeldBits left 0)) (hzero : left 0 = 0)
    (hplaces : ∀ y ∈ places, y < 2 ^ w) :
    (∀ x ∈ (run dstep (0, 0) places).1, x < 2 ^ 8) ∧ ∃ held : List Bool,
      held.length = left (run dstep (0, 0) places).2.1 ∧
      words w places = words 8 (run dstep (0, 0) places).1 ++ held ∧
      ((run dstep (0, 0) places).2.1 ≠ 0 →
        ((run dstep (0, 0) places).2.2 = 0 ↔ held = List.replicate held.length false)) := by
  obtain ⟨hout, held, hheld, hbits⟩ := hd.run (.start 0) hplaces
  generalize run dstep (0, 0) places = r at hout hheld hbits
  obtain ⟨out, s⟩ := r
  refine ⟨hout, held, ?_, hbits, ?_⟩
  · rcases hheld with l | ⟨mode, q, hmode, hq⟩
    · exact hzero.symm
    · exact length_ofNat
  · intro hmode
    rcases hheld with l | ⟨mode, q, -, hq⟩
    · exact absurd rfl hmode
    · show q <<< 0 = 0 ↔ _
      rw [Nat.shiftLeft_zero, length_ofNat]
      exact ⟨fun h => by rw [h, ofNat_zero], eq_zero_of_ofNat hq⟩

/-- **What is encoded is decoded**, and the decoder has as many zeros left
as the encoder filled up with. -/
theorem decode_allPlaces (he : Regroups 8 w estep (HeldBits kept shift))
    (hd : Regroups w 8 dstep (HeldBits left 0))
    (hfill : ∀ mode, mode ≠ 0 → kept mode + shift mode = w) (hzero : shift 0 = 0)
    (hzero' : left 0 = 0) (hshift : ∀ mode, shift mode < 8) (hleft : ∀ mode, left mode < 8)
    (hxs : ∀ x ∈ xs, x < 2 ^ 8) (hplaces : places = allPlaces (run estep (0, 0) xs)) :
    (run dstep (0, 0) places).1 = xs ∧
      left (run dstep (0, 0) places).2.1 = shift (run estep (0, 0) xs).2.1 ∧
      ((run dstep (0, 0) places).2.1 ≠ 0 → (run dstep (0, 0) places).2.2 = 0) := by
  obtain ⟨hy, hwords⟩ := words_allPlaces he hfill hzero hxs
  rw [← hplaces] at hy hwords
  obtain ⟨hout, held, hlen, hbits, hleftover⟩ := words_decoded hd hzero' hy
  obtain ⟨hsame, hheld⟩ := words_inj hout hxs (by rw [hlen]; exact hleft _)
    (by rw [List.length_replicate]; exact hshift _) (hbits.symm.trans hwords)
  have hcount : left (run dstep (0, 0) places).2.1 = shift (run estep (0, 0) xs).2.1 := by
    rw [← hlen, hheld, List.length_replicate]
  refine ⟨hsame, hcount, fun hmode => (hleftover hmode).2 ?_⟩
  rw [hlen, hcount]
  exact hheld

/-- **What is decoded with nothing left but zeros**, less than a place of
them, is encoded as it was. -/
theorem allPlaces_decode (he : Regroups 8 w estep (HeldBits kept shift))
    (hd : Regroups w 8 dstep (HeldBits left 0))
    (hfill : ∀ mode, mode ≠ 0 → kept mode + shift mode = w) (hzero : shift 0 = 0)
    (hzero' : left 0 = 0) (hshift : ∀ mode, shift mode < w) (hplaces : ∀ y ∈ places, y < 2 ^ w)
    (hleft : left (run dstep (0, 0) places).2.1 < w)
    (hleftover : (run dstep (0, 0) places).2.1 ≠ 0 → (run dstep (0, 0) places).2.2 = 0) :
    allPlaces (run estep (0, 0) (run dstep (0, 0) places).1) = places ∧
      shift (run estep (0, 0) (run dstep (0, 0) places).1).2.1 =
        left (run dstep (0, 0) places).2.1 ∧
      w * places.length = 8 * (run dstep (0, 0) places).1.length +
        left (run dstep (0, 0) places).2.1 := by
  obtain ⟨hout, held, hlen, hbits, hzeros⟩ := words_decoded hd hzero' hplaces
  obtain ⟨hy, hwords⟩ := words_allPlaces he hfill hzero hout
  have hheld : held = List.replicate (left (run dstep (0, 0) places).2.1) false := by
    by_cases hmode : (run dstep (0, 0) places).2.1 = 0
    · rw [hmode, hzero'] at hlen ⊢
      exact List.length_eq_zero_iff.1 hlen
    · rw [← hlen]
      exact (hzeros hmode).1 (hleftover hmode)
  -- both fill up whole places, so they fill up with the same
  have hl := congrArg List.length hbits
  have hl' := congrArg List.length hwords
  simp only [length_words, List.length_append, List.length_replicate, hlen] at hl hl'
  have hcount : shift (run estep (0, 0) (run dstep (0, 0) places).1).2.1 =
      left (run dstep (0, 0) places).2.1 := by
    have hmod : 8 * (run dstep (0, 0) places).1.length +
        shift (run estep (0, 0) (run dstep (0, 0) places).1).2.1 ≡
        8 * (run dstep (0, 0) places).1.length + left (run dstep (0, 0) places).2.1 [MOD w] := by
      rw [← hl, ← hl', Nat.ModEq, Nat.mul_mod_right, Nat.mul_mod_right]
    exact (Nat.ModEq.add_left_cancel' _ hmod).eq_of_lt_of_lt (hshift _) hleft
  have hwpos : ([] : List Bool).length < w := (Nat.zero_le _).trans_lt hleft
  have hsame : words w (allPlaces (run estep (0, 0) (run dstep (0, 0) places).1)) ++ [] =
      words w places ++ [] := by
    rw [hwords, hbits, hheld, hcount]
  exact ⟨(words_inj hy hplaces hwpos hwpos hsame).1, hcount, hl⟩

end Codes

/-! ## Characters -/

/-- A character the table knows. -/
def isChar (table : List ℤ) (c : UInt8) : Bool := (decodeChar table c).isSome

/-- The places of the characters a decoder reads, up to the first it does
not know. -/
def placesOf (table : List ℤ) (p : List UInt8) : List ℕ :=
  (p.takeWhile (isChar table)).filterMap (decodeChar table)

/-- **The decoder's loop** runs on the places of the characters it knows. -/
theorem decodeLoop_eq {σ : Type} {step : σ → ℕ → List ℕ × σ} {s : σ} :
    decodeLoop table step s p = ((run step s (placesOf table p)).1,
      (run step s (placesOf table p)).2, p.dropWhile (isChar table)) := by
  induction p generalizing s with
  | nil => rfl
  | cons c p ih =>
    unfold decodeLoop placesOf
    rcases hc : decodeChar table c with _ | dec
    · have hno : ¬ isChar table c = true := by simp [isChar, hc]
      rw [List.takeWhile_cons_of_neg hno, List.dropWhile_cons_of_neg hno]
      rfl
    · have hyes : isChar table c = true := by simp [isChar, hc]
      rw [List.takeWhile_cons_of_pos hyes, List.dropWhile_cons_of_pos hyes,
        List.filterMap_cons_some hc, run_cons]
      dsimp only
      rw [ih]
      rfl

/-- A text of known characters, and nothing known behind them. -/
theorem placesOf_append {alphabet : ℕ → UInt8} {places : List ℕ} {rest : List UInt8}
    (hplaces : ∀ i ∈ places, decodeChar table (alphabet i) = some i)
    (hrest : ∀ c ∈ rest.head?, decodeChar table c = none) :
    placesOf table (places.map alphabet ++ rest) = places ∧
      (places.map alphabet ++ rest).dropWhile (isChar table) = rest := by
  have hstop : rest.takeWhile (isChar table) = [] ∧ rest.dropWhile (isChar table) = rest := by
    rcases rest with _ | ⟨c, rest⟩
    · exact ⟨rfl, rfl⟩
    · have hno : ¬ isChar table c = true := by simp [isChar, hrest c rfl]
      exact ⟨List.takeWhile_cons_of_neg hno, List.dropWhile_cons_of_neg hno⟩
  induction places with
  | nil =>
    unfold placesOf
    rw [List.map_nil, List.nil_append, hstop.1, hstop.2]
    exact ⟨rfl, rfl⟩
  | cons i places ih =>
    have hi := hplaces i List.mem_cons_self
    have hyes : isChar table (alphabet i) = true := by simp [isChar, hi]
    obtain ⟨hp, hd⟩ := ih fun j hj => hplaces j (List.mem_cons_of_mem i hj)
    unfold placesOf at hp ⊢
    rw [List.map_cons, List.cons_append, List.takeWhile_cons_of_pos hyes,
      List.dropWhile_cons_of_pos hyes, List.filterMap_cons_some hi, hp, hd]
    exact ⟨rfl, rfl⟩

/-- The places spell the characters they are read from, as the alphabet
spells them. -/
theorem map_placesOf {spell : UInt8 → UInt8} {alphabet : ℕ → UInt8}
    (hback : ∀ c i, decodeChar table c = some i → alphabet i = spell c) :
    (placesOf table p).map alphabet = (p.takeWhile (isChar table)).map spell := by
  unfold placesOf
  have hknown : ∀ c ∈ p.takeWhile (isChar table), isChar table c = true :=
    fun c hc => List.mem_takeWhile_imp hc
  generalize p.takeWhile (isChar table) = cs at hknown
  induction cs with
  | nil => rfl
  | cons c cs ih =>
    obtain ⟨i, hi⟩ := Option.isSome_iff_exists.1 (hknown c List.mem_cons_self)
    rw [List.filterMap_cons_some hi, List.map_cons, List.map_cons, hback c i hi,
      ih fun c' hc' => hknown c' (List.mem_cons_of_mem c hc')]

/-- What is padded has its padding. -/
theorem prefix_of_paddedWith (h : paddedWith table n p = true) :
    List.replicate n padChar <+: p := by
  unfold paddedWith at h
  rw [Bool.and_eq_true, List.all_eq_true] at h
  have hpad : ∀ i < n, p[i]? = some padChar := by
    intro i hi
    have hi := eq_of_beq (h.1 i (List.mem_range.2 hi))
    rcases hc : p[i]? with _ | c
    · rw [List.getD_eq_getElem?_getD, hc] at hi
      exact absurd hi (by decide)
    · rw [List.getD_eq_getElem?_getD, hc] at hi
      exact congrArg some hi
  rw [List.prefix_iff_getElem?]
  intro i hi
  rw [List.getElem_replicate]
  exact hpad i (by simpa using hi)

theorem paddedWith_replicate (h0 : decodeChar table 0 = none) :
    paddedWith table n (List.replicate n padChar) = true := by
  unfold paddedWith
  rw [Bool.and_eq_true, List.all_eq_true]
  refine ⟨fun i hi => ?_, ?_⟩
  · rw [List.getD_replicate _ (List.mem_range.1 hi)]
    exact beq_self_eq_true padChar
  · rw [List.getD_eq_default _ _ (by simp), h0]
    rfl

/-! ## The two alphabets -/

/-- `tolower` -/
def toLower (c : UInt8) : UInt8 := if 65 ≤ c ∧ c ≤ 90 then c + 32 else c

/-- A table and its alphabet say the same of every character. -/
structure Alphabet (w : ℕ) (table : List ℤ) (alphabet : List UInt8) (spell : UInt8 → UInt8) :
    Prop where
  reads : ∀ i < 2 ^ w, decodeChar table (alphabet.getD i 0) = some i
  small : ∀ c, ∀ i ∈ decodeChar table c, i < 2 ^ w
  spells : ∀ c, ∀ i ∈ decodeChar table c, alphabet.getD i 0 = spell c
  same : ∀ c, decodeChar table (spell c) = decodeChar table c
  length_eq : alphabet.length = 2 ^ w
  zero : decodeChar table 0 = none
  pad : decodeChar table padChar = none

/-- **The characters known** are those of the alphabet. -/
theorem Alphabet.isChar_eq {w : ℕ} {alphabet : List UInt8} {spell : UInt8 → UInt8}
    (h : Alphabet w table alphabet spell) : isChar table c = decide (spell c ∈ alphabet) := by
  rw [Bool.eq_iff_iff, decide_eq_true_iff]
  constructor
  · intro hc
    obtain ⟨i, hi⟩ := Option.isSome_iff_exists.1 hc
    have hlt : i < alphabet.length := h.length_eq ▸ h.small c i hi
    rw [← h.spells c i hi, List.getD_eq_getElem _ _ hlt]
    exact List.getElem_mem hlt
  · intro hc
    obtain ⟨i, hi, heq⟩ := List.getElem_of_mem hc
    have hread := h.reads i (h.length_eq ▸ hi)
    rw [List.getD_eq_getElem _ _ hi, heq, h.same] at hread
    rw [isChar, hread]
    rfl

theorem pbase64_eq : pbase64 =
  [65, 66, 67, 68, 69, 70, 71, 72, 73, 74, 75, 76, 77, 78, 79, 80, 81, 82, 83, 84,
  85, 86, 87, 88, 89, 90, 97, 98, 99, 100, 101, 102, 103, 104, 105, 106, 107, 108, 109, 110,
  111, 112, 113, 114, 115, 116, 117, 118, 119, 120, 121, 122, 48, 49, 50, 51, 52, 53, 54, 55,
  56, 57, 43, 47] := by
  decide

theorem pbase32_eq : pbase32 =
  [97, 98, 99, 100, 101, 102, 103, 104, 105, 106, 107, 108, 109, 110, 111, 112, 113, 114, 115, 116,
  117, 118, 119, 120, 121, 122, 50, 51, 52, 53, 54, 55] := by
  decide

theorem forall_uInt8 {P : UInt8 → Prop} (h : ∀ n < 256, P (UInt8.ofNat n)) (c : UInt8) : P c := by
  have hc := h c.toNat c.toNat_lt
  rwa [UInt8.ofNat_toNat] at hc

/-- All characters at once. -/
theorem decodeChar64 : ∀ n < 256, ∀ i ∈ decodeChar decode64Table (UInt8.ofNat n),
    i < 64 ∧ pbase64.getD i 0 = UInt8.ofNat n := by
  rw [pbase64_eq]
  decide +kernel

theorem decodeChar32 : ∀ n < 256, (∀ i ∈ decodeChar decode32Table (UInt8.ofNat n),
      i < 32 ∧ pbase32.getD i 0 = toLower (UInt8.ofNat n)) ∧
    decodeChar decode32Table (toLower (UInt8.ofNat n)) = decodeChar decode32Table (UInt8.ofNat n) := by
  rw [pbase32_eq]
  decide +kernel

theorem alphabet64 : Alphabet 6 decode64Table pbase64 id where
  reads := by rw [pbase64_eq]; decide
  small := forall_uInt8 fun n hn i hi => (decodeChar64 n hn i hi).1
  spells := forall_uInt8 fun n hn i hi => (decodeChar64 n hn i hi).2
  same _ := rfl
  length_eq := by rw [pbase64_eq]; rfl
  zero := by decide
  pad := by decide

theorem alphabet32 : Alphabet 5 decode32Table pbase32 toLower where
  reads := by rw [pbase32_eq]; decide
  small := forall_uInt8 fun n hn i hi => ((decodeChar32 n hn).1 i hi).1
  spells := forall_uInt8 fun n hn i hi => ((decodeChar32 n hn).1 i hi).2
  same := forall_uInt8 fun n hn => (decodeChar32 n hn).2
  length_eq := by rw [pbase32_eq]; rfl
  zero := by decide
  pad := by decide

/-! ## The codes are exact -/

/-- As many `'='` as fill up a group. -/
def padding (group n : ℕ) : List UInt8 := List.replicate ((group - n % group) % group) padChar

/-- The characters of Base64 in front of a text, and their padding. -/
def canonical64 (p : List UInt8) : List UInt8 :=
  let cs := p.takeWhile fun c => c ∈ pbase64
  cs ++ padding 4 cs.length

/-- The characters of Base32 in front of a text, in either case, and their
padding. -/
def canonical32 (p : List UInt8) : List UInt8 :=
  let cs := p.takeWhile fun c => toLower c ∈ pbase32
  cs ++ padding 8 cs.length

/-- How many `'='` the encoders append, by mode, and the decoders ask for -/
def encodePad64 : Fin 3 → ℕ := ![0, 2, 1]
def decodePad64 : Fin 4 → ℕ := ![0, 0, 2, 1]
def decodePad32 : Fin 8 → ℕ := ![0, 0, 6, 0, 4, 3, 0, 1]

theorem encodeBase64_eq (v : List UInt8) :
    encodeBase64 v =
      (allPlaces (run encode64Step (0, 0) (v.map UInt8.toNat))).map (fun i => pbase64.getD i 0) ++
        List.replicate (encodePad64 (run encode64Step (0, 0) (v.map UInt8.toNat)).2.1) padChar := by
  unfold encodeBase64 allPlaces
  generalize run encode64Step (0, 0) (v.map UInt8.toNat) = r
  obtain ⟨places, mode, left⟩ := r
  dsimp only
  match mode with
  | 0 => simp [encodePad64]
  | 1 => simp [encodePad64, List.replicate]
  | 2 => simp [encodePad64, List.replicate]

theorem encodeBase32_eq (v : List UInt8) :
    encodeBase32 v =
      (allPlaces (run encode32Step (0, 0) (v.map UInt8.toNat))).map (fun i => pbase32.getD i 0) ++
        List.replicate (nPadding (run encode32Step (0, 0) (v.map UInt8.toNat)).2.1) padChar := by
  unfold encodeBase32 allPlaces
  generalize run encode32Step (0, 0) (v.map UInt8.toNat) = r
  obtain ⟨places, mode, left⟩ := r
  dsimp only
  by_cases hmode : mode = 0
  · rw [if_pos hmode, if_pos hmode, hmode]
    simp [nPadding]
  · rw [if_neg hmode, if_neg hmode, List.map_append, List.append_assoc]
    rfl

/-- What `*pfInvalid` is false for. -/
theorem invalid64_eq_false {left : ℕ} {mode : Fin 4} :
    invalid64 left p mode = false ↔ left64 mode < 6 ∧
      (mode ≠ 0 → left = 0 ∧ paddedWith decode64Table (decodePad64 mode) p = true) := by
  match mode with
  | 0 => simp [invalid64, left64]
  | 1 => simp [invalid64, left64]
  | 2 => simp [invalid64, left64, decodePad64]
  | 3 => simp [invalid64, left64, decodePad64]

theorem invalid32_eq_false {left : ℕ} {mode : Fin 8} :
    invalid32 left p mode = false ↔ left32 mode < 5 ∧
      (mode ≠ 0 → left = 0 ∧ paddedWith decode32Table (decodePad32 mode) p = true) := by
  match mode with
  | 0 => simp [invalid32, left32]
  | 1 => simp [invalid32, left32]
  | 2 => simp [invalid32, left32, decodePad32]
  | 3 => simp [invalid32, left32]
  | 4 => simp [invalid32, left32, decodePad32]
  | 5 => simp [invalid32, left32, decodePad32]
  | 6 => simp [invalid32, left32]
  | 7 => simp [invalid32, left32, decodePad32]

theorem decodeBase64_eq (p : List UInt8) :
    decodeBase64 p = ((run decode64Step (0, 0) (placesOf decode64Table p)).1.map UInt8.ofNat,
      invalid64 (run decode64Step (0, 0) (placesOf decode64Table p)).2.2
        (p.dropWhile (isChar decode64Table))
        (run decode64Step (0, 0) (placesOf decode64Table p)).2.1) := by
  unfold decodeBase64
  rw [decodeLoop_eq]

theorem decodeBase32_eq (p : List UInt8) :
    decodeBase32 p = ((run decode32Step (0, 0) (placesOf decode32Table p)).1.map UInt8.ofNat,
      invalid32 (run decode32Step (0, 0) (placesOf decode32Table p)).2.2
        (p.dropWhile (isChar decode32Table))
        (run decode32Step (0, 0) (placesOf decode32Table p)).2.1) := by
  unfold decodeBase32
  rw [decodeLoop_eq]

theorem head_padding {m : ℕ} (h : decodeChar table padChar = none) :
    ∀ c ∈ (List.replicate m padChar).head?, decodeChar table c = none := by
  intro c hc
  rw [List.eq_of_mem_replicate (List.mem_of_head? hc), h]

/-- **What is encoded is decoded, and valid.** -/
theorem decodeBase64_encodeBase64 (v : List UInt8) : decodeBase64 (encodeBase64 v) = (v, false) := by
  obtain ⟨hy, -⟩ := words_allPlaces regroups_encode64 (by decide) rfl (bytes_lt v)
  obtain ⟨hout, hcount, hleft⟩ := decode_allPlaces regroups_encode64 regroups_decode64 (by decide)
    rfl rfl (by decide) (by decide) (bytes_lt v) rfl
  obtain ⟨hplaces, hrest⟩ := placesOf_append (fun i hi => alphabet64.reads i (hy i hi))
    (head_padding (m := encodePad64 (run encode64Step (0, 0) (v.map UInt8.toNat)).2.1)
      alphabet64.pad)
  rw [decodeBase64_eq, encodeBase64_eq, hplaces, hrest, hout, map_ofNat_toNat]
  have hpad : ∀ (d : Fin 4) (e : Fin 3), left64 d = shift64 e →
      left64 d < 6 ∧ decodePad64 d = encodePad64 e := by decide
  obtain ⟨hlt, hpad⟩ := hpad _ _ hcount
  rw [Prod.mk.injEq, invalid64_eq_false, hpad]
  exact ⟨rfl, hlt, fun hmode => ⟨hleft hmode, paddedWith_replicate alphabet64.zero⟩⟩

theorem decodeBase32_encodeBase32 (v : List UInt8) : decodeBase32 (encodeBase32 v) = (v, false) := by
  obtain ⟨hy, -⟩ := words_allPlaces regroups_encode32 (by decide) rfl (bytes_lt v)
  obtain ⟨hout, hcount, hleft⟩ := decode_allPlaces regroups_encode32 regroups_decode32 (by decide)
    rfl rfl (by decide) (by decide) (bytes_lt v) rfl
  obtain ⟨hplaces, hrest⟩ := placesOf_append (fun i hi => alphabet32.reads i (hy i hi))
    (head_padding (m := nPadding (run encode32Step (0, 0) (v.map UInt8.toNat)).2.1)
      alphabet32.pad)
  rw [decodeBase32_eq, encodeBase32_eq, hplaces, hrest, hout, map_ofNat_toNat]
  have hpad : ∀ (d : Fin 8) (e : Fin 5), left32 d = shift32 e →
      left32 d < 5 ∧ decodePad32 d = nPadding e := by decide
  obtain ⟨hlt, hpad⟩ := hpad _ _ hcount
  rw [Prod.mk.injEq, invalid32_eq_false, hpad]
  exact ⟨rfl, hlt, fun hmode => ⟨hleft hmode, paddedWith_replicate alphabet32.zero⟩⟩

/-- What a decoder was given is whole groups and some characters more, and
asks for the padding of those. -/
theorem padding64 {m : ℕ} (mode : Fin 4) (hlt : left64 mode < 6)
    (hlen : 6 * n = 8 * m + left64 mode) : padding 4 n = List.replicate (decodePad64 mode) padChar := by
  unfold padding
  congr 1
  match mode with
  | 0 => simp only [left64, decodePad64, Matrix.cons_val] at hlen ⊢; omega
  | 1 => exact absurd hlt (by decide)
  | 2 => simp only [left64, decodePad64, Matrix.cons_val] at hlen ⊢; omega
  | 3 => simp only [left64, decodePad64, Matrix.cons_val] at hlen ⊢; omega

theorem padding32 {m : ℕ} (mode : Fin 8) (hlt : left32 mode < 5)
    (hlen : 5 * n = 8 * m + left32 mode) : padding 8 n = List.replicate (decodePad32 mode) padChar := by
  unfold padding
  congr 1
  match mode with
  | 0 => simp only [left32, decodePad32, Matrix.cons_val] at hlen ⊢; omega
  | 1 => exact absurd hlt (by decide)
  | 2 => simp only [left32, decodePad32, Matrix.cons_val] at hlen ⊢; omega
  | 3 => exact absurd hlt (by decide)
  | 4 => simp only [left32, decodePad32, Matrix.cons_val] at hlen ⊢; omega
  | 5 => simp only [left32, decodePad32, Matrix.cons_val] at hlen ⊢; omega
  | 6 => exact absurd hlt (by decide)
  | 7 => simp only [left32, decodePad32, Matrix.cons_val] at hlen ⊢; omega

/-- A text has its characters and the padding asked for in front. -/
theorem append_padding_prefix {m : ℕ} (h : 0 < m → paddedWith table m (p.dropWhile (isChar table)) = true) :
    p.takeWhile (isChar table) ++ List.replicate m padChar <+: p := by
  nth_rewrite 2 [← List.takeWhile_append_dropWhile (p := isChar table) (l := p)]
  rw [List.prefix_append_right_inj]
  rcases Nat.eq_zero_or_pos m with rfl | hm
  · exact List.nil_prefix
  · exact prefix_of_paddedWith (h hm)

/-- **What is valid is encoded as it was**, up to what follows its
padding. -/
theorem encodeBase64_decodeBase64 (h : (decodeBase64 p).2 = false) :
    encodeBase64 (decodeBase64 p).1 = canonical64 p ∧ canonical64 p <+: p := by
  have hplaces : ∀ y ∈ placesOf decode64Table p, y < 2 ^ 6 := fun y hy => by
    obtain ⟨c, -, hc⟩ := List.mem_filterMap.1 hy
    exact alphabet64.small c y hc
  rw [decodeBase64_eq] at h ⊢
  obtain ⟨hlt, hvalid⟩ := invalid64_eq_false.1 h
  obtain ⟨hsame, hcount, hlen⟩ := allPlaces_decode regroups_encode64 regroups_decode64 (by decide)
    rfl rfl (by decide) hplaces hlt fun hmode => (hvalid hmode).1
  obtain ⟨hout, -⟩ := words_decoded regroups_decode64 rfl hplaces
  have hspell : (placesOf decode64Table p).map (fun i => pbase64.getD i 0) =
      (p.takeWhile (isChar decode64Table)).map id := map_placesOf alphabet64.spells
  have hchars : p.takeWhile (isChar decode64Table) = p.takeWhile fun c => c ∈ pbase64 :=
    congrArg (p.takeWhile ·) (funext fun c => alphabet64.isChar_eq)
  have hlength : (p.takeWhile (isChar decode64Table)).length =
      (placesOf decode64Table p).length := by
    rw [← List.length_map (f := id), ← hspell, List.length_map]
  have hpad : ∀ (d : Fin 4) (e : Fin 3), shift64 e = left64 d → left64 d < 6 →
      encodePad64 e = decodePad64 d := by decide
  have hcanonical : canonical64 p = p.takeWhile (isChar decode64Table) ++
      List.replicate (decodePad64 (run decode64Step (0, 0) (placesOf decode64Table p)).2.1) padChar := by
    unfold canonical64
    dsimp only
    rw [← hchars, hlength, padding64 _ hlt hlen]
  rw [hcanonical]
  constructor
  · rw [encodeBase64_eq, toNat_ofNat_of_lt hout, hsame, hspell, List.map_id, hpad _ _ hcount hlt]
  · refine append_padding_prefix fun hm => (hvalid fun h0 => ?_).2
    rw [h0] at hm
    exact absurd hm (by decide)

/-- And up to the case of its letters. -/
theorem encodeBase32_decodeBase32 (h : (decodeBase32 p).2 = false) :
    encodeBase32 (decodeBase32 p).1 = (canonical32 p).map toLower ∧ canonical32 p <+: p := by
  have hplaces : ∀ y ∈ placesOf decode32Table p, y < 2 ^ 5 := fun y hy => by
    obtain ⟨c, -, hc⟩ := List.mem_filterMap.1 hy
    exact alphabet32.small c y hc
  rw [decodeBase32_eq] at h ⊢
  obtain ⟨hlt, hvalid⟩ := invalid32_eq_false.1 h
  obtain ⟨hsame, hcount, hlen⟩ := allPlaces_decode regroups_encode32 regroups_decode32 (by decide)
    rfl rfl (by decide) hplaces hlt fun hmode => (hvalid hmode).1
  obtain ⟨hout, -⟩ := words_decoded regroups_decode32 rfl hplaces
  have hspell : (placesOf decode32Table p).map (fun i => pbase32.getD i 0) =
      (p.takeWhile (isChar decode32Table)).map toLower := map_placesOf alphabet32.spells
  have hchars : p.takeWhile (isChar decode32Table) = p.takeWhile fun c => toLower c ∈ pbase32 :=
    congrArg (p.takeWhile ·) (funext fun c => alphabet32.isChar_eq)
  have hlength : (p.takeWhile (isChar decode32Table)).length =
      (placesOf decode32Table p).length := by
    rw [← List.length_map (f := toLower), ← hspell, List.length_map]
  have hpad : ∀ (d : Fin 8) (e : Fin 5), shift32 e = left32 d → left32 d < 5 →
      nPadding e = decodePad32 d := by decide
  have hcanonical : canonical32 p = p.takeWhile (isChar decode32Table) ++
      List.replicate (decodePad32 (run decode32Step (0, 0) (placesOf decode32Table p)).2.1) padChar := by
    unfold canonical32
    dsimp only
    rw [← hchars, hlength, padding32 _ hlt hlen]
  rw [hcanonical]
  constructor
  · rw [encodeBase32_eq, toNat_ofNat_of_lt hout, hsame, hspell, hpad _ _ hcount hlt,
      List.map_append, List.map_replicate]
    rfl
  · refine append_padding_prefix fun hm => (hvalid fun h0 => ?_).2
    rw [h0] at hm
    exact absurd hm (by decide)

/-- **Base64 and Base32 are exact.** What is encoded is decoded and valid.
A valid text is encoded again as its characters and their padding, in lower
case for Base32, so two of these that decode to the same bytes are the
same. -/
theorem baseCodes_exact :
    (∀ v, decodeBase64 (encodeBase64 v) = (v, false) ∧ decodeBase32 (encodeBase32 v) = (v, false)) ∧
    (∀ p, (decodeBase64 p).2 = false →
      encodeBase64 (decodeBase64 p).1 = canonical64 p ∧ canonical64 p <+: p) ∧
    (∀ p, (decodeBase32 p).2 = false →
      encodeBase32 (decodeBase32 p).1 = (canonical32 p).map toLower ∧ canonical32 p <+: p) ∧
    (∀ p q, decodeBase64 p = decodeBase64 q → (decodeBase64 p).2 = false →
      canonical64 p = canonical64 q) ∧
    ∀ p q, decodeBase32 p = decodeBase32 q → (decodeBase32 p).2 = false →
      (canonical32 p).map toLower = (canonical32 q).map toLower := by
  refine ⟨fun v => ⟨decodeBase64_encodeBase64 v, decodeBase32_encodeBase32 v⟩,
    fun p => encodeBase64_decodeBase64, fun p => encodeBase32_decodeBase32, fun p q heq h => ?_,
    fun p q heq h => ?_⟩
  · rw [← (encodeBase64_decodeBase64 h).1, heq, (encodeBase64_decodeBase64 (heq ▸ h)).1]
  · rw [← (encodeBase32_decodeBase32 h).1, heq, (encodeBase32_decodeBase32 (heq ▸ h)).1]

end CryptoBullion
