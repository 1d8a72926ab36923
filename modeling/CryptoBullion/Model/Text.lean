import CryptoBullion.Common.Bits
/-!
# Text encodings

`EncodeBase64`, `DecodeBase64`, `EncodeBase32` and `DecodeBase32` of
`util.cpp`. A string is the list of its bytes. What follows the last byte
of a `const char*` reads as zero.
-/

namespace CryptoBullion

/-- A string literal's bytes. -/
def text (s : String) : List UInt8 := s.toList.map fun c => UInt8.ofNat c.toNat

/-- `isspace`, in the C locale -/
def isSpace (c : UInt8) : Bool := c = 32 || (9 ≤ c && c ≤ 13)

/-- `isdigit` -/
def isDigit (c : UInt8) : Bool := 48 ≤ c && c ≤ 57

/-- `c_str()` as its readers see it: up to the first NUL. -/
def cStr (str : List UInt8) : List UInt8 := str.takeWhile (· ≠ 0)

/-- `'='` -/
def padChar : UInt8 := 61

/-- What a decoding table says of a character: nothing where it has -1. -/
def decodeChar (table : List ℤ) (c : UInt8) : Option ℕ :=
  let dec := table.getD c.toNat (-1)
  if dec = -1 then none else some dec.toNat

/-- The loop of the decoders: up to the first character not in the table,
which `p` is left at. -/
def decodeLoop {σ : Type} (table : List ℤ) (step : σ → ℕ → List ℕ × σ) :
    σ → (p : List UInt8) → List ℕ × σ × List UInt8
  | s, [] => ([], s, [])
  | s, c :: p =>
    match decodeChar table c with
    | none => ([], s, c :: p)
    | some dec =>
      let (out, s) := step s dec
      let (outs, s, p) := decodeLoop table step s p
      (out ++ outs, s, p)

/-- The next characters are this many `'='`, and none of the table behind
them. -/
def paddedWith (table : List ℤ) (n : ℕ) (p : List UInt8) : Bool :=
  (List.range n).all (fun i => p.getD i 0 == padChar) && (decodeChar table (p.getD n 0)).isNone

/-! ## Base64 -/

def pbase64 : List UInt8 :=
  text "ABCDEFGHIJKLMNOPQRSTUVWXYZabcdefghijklmnopqrstuvwxyz0123456789+/"

/-- `decode64_table` -/
def decode64Table : List ℤ :=
  [
    -1, -1, -1, -1, -1, -1, -1, -1, -1, -1, -1, -1, -1, -1, -1, -1, -1, -1, -1, -1,
    -1, -1, -1, -1, -1, -1, -1, -1, -1, -1, -1, -1, -1, -1, -1, -1, -1, -1, -1, -1,
    -1, -1, -1, 62, -1, -1, -1, 63, 52, 53, 54, 55, 56, 57, 58, 59, 60, 61, -1, -1,
    -1, -1, -1, -1, -1, 0, 1, 2, 3, 4, 5, 6, 7, 8, 9, 10, 11, 12, 13, 14,
    15, 16, 17, 18, 19, 20, 21, 22, 23, 24, 25, -1, -1, -1, -1, -1, -1, 26, 27, 28,
    29, 30, 31, 32, 33, 34, 35, 36, 37, 38, 39, 40, 41, 42, 43, 44, 45, 46, 47, 48,
    49, 50, 51, -1, -1, -1, -1, -1, -1, -1, -1, -1, -1, -1, -1, -1, -1, -1, -1, -1,
    -1, -1, -1, -1, -1, -1, -1, -1, -1, -1, -1, -1, -1, -1, -1, -1, -1, -1, -1, -1,
    -1, -1, -1, -1, -1, -1, -1, -1, -1, -1, -1, -1, -1, -1, -1, -1, -1, -1, -1, -1,
    -1, -1, -1, -1, -1, -1, -1, -1, -1, -1, -1, -1, -1, -1, -1, -1, -1, -1, -1, -1,
    -1, -1, -1, -1, -1, -1, -1, -1, -1, -1, -1, -1, -1, -1, -1, -1, -1, -1, -1, -1,
    -1, -1, -1, -1, -1, -1, -1, -1, -1, -1, -1, -1, -1, -1, -1, -1, -1, -1, -1, -1,
    -1, -1, -1, -1, -1, -1, -1, -1, -1, -1, -1, -1, -1, -1, -1, -1]

/-- One byte of `EncodeBase64`, at a mode and with some bits left: the
places in `pbase64` of the characters it appends. -/
def encode64Step : Fin 3 × ℕ → (enc : ℕ) → List ℕ × Fin 3 × ℕ
  -- we have no bits
  | (0, _), enc => ([enc >>> 2], 1, (enc &&& 3) <<< 4)
  -- we have two bits
  | (1, left), enc => ([left ||| enc >>> 4], 2, (enc &&& 15) <<< 2)
  -- we have four bits
  | (2, left), enc => ([left ||| enc >>> 6, enc &&& 63], 0, left)

/-- `EncodeBase64` -/
def encodeBase64 (pch : List UInt8) : List UInt8 :=
  let (places, mode, left) := Bits.run encode64Step (0, 0) (pch.map UInt8.toNat)
  let strRet := places.map fun i => pbase64.getD i 0
  if mode = 0 then strRet
  else strRet ++ pbase64.getD left 0 :: padChar :: if mode = 1 then [padChar] else []

/-- One character of `DecodeBase64`: the bytes it appends. -/
def decode64Step : Fin 4 × ℕ → (dec : ℕ) → List ℕ × Fin 4 × ℕ
  -- we have no bits and get 6
  | (0, _), dec => ([], 1, dec)
  -- we have 6 bits and keep 4
  | (1, left), dec => ([left <<< 2 ||| dec >>> 4], 2, dec &&& 15)
  -- we have 4 bits and get 6, we keep 2
  | (2, left), dec => ([left <<< 4 ||| dec >>> 2], 3, dec &&& 3)
  -- we have 2 bits and get 6
  | (3, left), dec => ([left <<< 6 ||| dec], 0, left)

/-- `*pfInvalid`, from where the loop stopped -/
def invalid64 (left : ℕ) (p : List UInt8) : Fin 4 → Bool
  | 0 => false
  | 1 => true
  | 2 => left ≠ 0 || !paddedWith decode64Table 2 p
  | 3 => left ≠ 0 || !paddedWith decode64Table 1 p

/-- `DecodeBase64`, with `*pfInvalid` -/
def decodeBase64 (p : List UInt8) : List UInt8 × Bool :=
  let (vchRet, (mode, left), p) := decodeLoop decode64Table decode64Step (0, 0) p
  (vchRet.map UInt8.ofNat, invalid64 left p mode)

/-! ## Base32 -/

def pbase32 : List UInt8 := text "abcdefghijklmnopqrstuvwxyz234567"

/-- `decode32_table` -/
def decode32Table : List ℤ :=
  [
    -1, -1, -1, -1, -1, -1, -1, -1, -1, -1, -1, -1, -1, -1, -1, -1, -1, -1, -1, -1,
    -1, -1, -1, -1, -1, -1, -1, -1, -1, -1, -1, -1, -1, -1, -1, -1, -1, -1, -1, -1,
    -1, -1, -1, -1, -1, -1, -1, -1, -1, -1, 26, 27, 28, 29, 30, 31, -1, -1, -1, -1,
    -1, -1, -1, -1, -1, 0, 1, 2, 3, 4, 5, 6, 7, 8, 9, 10, 11, 12, 13, 14,
    15, 16, 17, 18, 19, 20, 21, 22, 23, 24, 25, -1, -1, -1, -1, -1, -1, 0, 1, 2,
    3, 4, 5, 6, 7, 8, 9, 10, 11, 12, 13, 14, 15, 16, 17, 18, 19, 20, 21, 22,
    23, 24, 25, -1, -1, -1, -1, -1, -1, -1, -1, -1, -1, -1, -1, -1, -1, -1, -1, -1,
    -1, -1, -1, -1, -1, -1, -1, -1, -1, -1, -1, -1, -1, -1, -1, -1, -1, -1, -1, -1,
    -1, -1, -1, -1, -1, -1, -1, -1, -1, -1, -1, -1, -1, -1, -1, -1, -1, -1, -1, -1,
    -1, -1, -1, -1, -1, -1, -1, -1, -1, -1, -1, -1, -1, -1, -1, -1, -1, -1, -1, -1,
    -1, -1, -1, -1, -1, -1, -1, -1, -1, -1, -1, -1, -1, -1, -1, -1, -1, -1, -1, -1,
    -1, -1, -1, -1, -1, -1, -1, -1, -1, -1, -1, -1, -1, -1, -1, -1, -1, -1, -1, -1,
    -1, -1, -1, -1, -1, -1, -1, -1, -1, -1, -1, -1, -1, -1, -1, -1]

/-- One byte of `EncodeBase32`. -/
def encode32Step : Fin 5 × ℕ → (enc : ℕ) → List ℕ × Fin 5 × ℕ
  -- we have no bits
  | (0, _), enc => ([enc >>> 3], 1, (enc &&& 7) <<< 2)
  -- we have three bits
  | (1, left), enc => ([left ||| enc >>> 6, (enc >>> 1) &&& 31], 2, (enc &&& 1) <<< 4)
  -- we have one bit
  | (2, left), enc => ([left ||| enc >>> 4], 3, (enc &&& 15) <<< 1)
  -- we have four bits
  | (3, left), enc => ([left ||| enc >>> 7, (enc >>> 2) &&& 31], 4, (enc &&& 3) <<< 3)
  -- we have two bits
  | (4, left), enc => ([left ||| enc >>> 5, enc &&& 31], 0, left)

/-- `nPadding` -/
def nPadding : Fin 5 → ℕ := ![0, 6, 4, 3, 1]

/-- `EncodeBase32` -/
def encodeBase32 (pch : List UInt8) : List UInt8 :=
  let (places, mode, left) := Bits.run encode32Step (0, 0) (pch.map UInt8.toNat)
  let strRet := places.map fun i => pbase32.getD i 0
  if mode = 0 then strRet
  else strRet ++ pbase32.getD left 0 :: List.replicate (nPadding mode) padChar

/-- One character of `DecodeBase32`. -/
def decode32Step : Fin 8 × ℕ → (dec : ℕ) → List ℕ × Fin 8 × ℕ
  -- we have no bits and get 5
  | (0, _), dec => ([], 1, dec)
  -- we have 5 bits and keep 2
  | (1, left), dec => ([left <<< 3 ||| dec >>> 2], 2, dec &&& 3)
  -- we have 2 bits and keep 7
  | (2, left), dec => ([], 3, left <<< 5 ||| dec)
  -- we have 7 bits and keep 4
  | (3, left), dec => ([left <<< 1 ||| dec >>> 4], 4, dec &&& 15)
  -- we have 4 bits, and keep 1
  | (4, left), dec => ([left <<< 4 ||| dec >>> 1], 5, dec &&& 1)
  -- we have 1 bit, and keep 6
  | (5, left), dec => ([], 6, left <<< 5 ||| dec)
  -- we have 6 bits, and keep 3
  | (6, left), dec => ([left <<< 2 ||| dec >>> 3], 7, dec &&& 7)
  -- we have 3 bits, and keep 0
  | (7, left), dec => ([left <<< 5 ||| dec], 0, left)

/-- `*pfInvalid`, from where the loop stopped -/
def invalid32 (left : ℕ) (p : List UInt8) : Fin 8 → Bool
  | 0 => false
  | 1 => true
  | 2 => left ≠ 0 || !paddedWith decode32Table 6 p
  | 3 => true
  | 4 => left ≠ 0 || !paddedWith decode32Table 4 p
  | 5 => left ≠ 0 || !paddedWith decode32Table 3 p
  | 6 => true
  | 7 => left ≠ 0 || !paddedWith decode32Table 1 p

/-- `DecodeBase32`, with `*pfInvalid` -/
def decodeBase32 (p : List UInt8) : List UInt8 × Bool :=
  let (vchRet, (mode, left), p) := decodeLoop decode32Table decode32Step (0, 0) p
  (vchRet.map UInt8.ofNat, invalid32 left p mode)

/-! ## Bytes as numbers -/

theorem map_ofNat_toNat (v : List UInt8) : (v.map UInt8.toNat).map UInt8.ofNat = v := by
  rw [List.map_map]
  exact List.map_id'' (fun c => UInt8.ofNat_toNat) v

theorem toNat_ofNat_of_lt {xs : List ℕ} (h : ∀ x ∈ xs, x < 2 ^ 8) :
    (xs.map UInt8.ofNat).map UInt8.toNat = xs := by
  rw [List.map_map]
  refine (List.map_congr_left fun x hx => ?_).trans (List.map_id xs)
  exact UInt8.toNat_ofNat_of_lt (h x hx)

theorem bytes_lt (v : List UInt8) : ∀ x ∈ v.map UInt8.toNat, x < 2 ^ 8 := by
  intro x hx
  obtain ⟨c, -, rfl⟩ := List.mem_map.1 hx
  exact c.toNat_lt

end CryptoBullion
