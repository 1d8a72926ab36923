import CryptoBullion.Common.Radix
import CryptoBullion.Model.Base58
import CryptoBullion.Model.Serialize
import CryptoBullion.Text.Money
/-!
# Base58 is exact

`EncodeBase58` and `DecodeBase58` write the digits of one base in the other
and keep the zeros in front. The sign byte a big number may need is trimmed
off exactly where it is one, so nothing is lost either way, and neither by
what is printed with a checksum: addresses and secret keys.
-/

namespace CryptoBullion

open Radix

variable {n : ℕ} {c : UInt8} {v vch str p : List UInt8} {ds : List ℕ}

/-! ## The alphabet -/

theorem pszBase58_eq : pszBase58 = [49, 50, 51, 52, 53, 54, 55, 56, 57, 65, 66, 67, 68, 69, 70, 71, 72,
    74, 75, 76, 77, 78, 80, 81, 82, 83, 84, 85, 86, 87, 88, 89, 90, 97, 98, 99, 100, 101, 102, 103, 104,
    105, 106, 107, 109, 110, 111, 112, 113, 114, 115, 116, 117, 118, 119, 120, 121, 122] := by
  decide

theorem base58Index_char : ∀ d < 58, base58Index (base58Char d) = some d := by
  unfold base58Index base58Char
  rw [pszBase58_eq]
  decide

/-- A character that has a place in the alphabet stands there. -/
theorem char_of_index {d : ℕ} (h : base58Index c = some d) : d < 58 ∧ base58Char d = c := by
  unfold base58Index at h
  obtain ⟨hlt, hc, -⟩ := List.findIdx?_eq_some_iff_getElem.1 h
  have hlen : pszBase58.length = 58 := by
    rw [pszBase58_eq]
    rfl
  refine ⟨hlen ▸ hlt, ?_⟩
  unfold base58Char
  rw [List.getD_eq_getElem _ _ hlt]
  simpa using hc

theorem char_plain : ∀ d < 58, isSpace (base58Char d) = false ∧ base58Char d ≠ 0 := by
  unfold base58Char
  rw [pszBase58_eq]
  decide

theorem char_eq_char_zero {d : ℕ} (h : d < 58) : base58Char d = base58Char 0 ↔ d = 0 := by
  refine ⟨fun heq => ?_, fun heq => by rw [heq]⟩
  have hd := base58Index_char d h
  rw [heq, base58Index_char 0 (by norm_num)] at hd
  exact (Option.some.inj hd).symm

/-! ## Big numbers -/

theorem ofLeBytes_eq : ofLeBytes v = Nat.ofDigits 256 (v.map UInt8.toNat) := by
  induction v with
  | nil => rfl
  | cons b v ih =>
    rw [ofLeBytes, List.map_cons, Nat.ofDigits_cons, ih]

theorem bnOfVch_append_zero : bnOfVch (v ++ [0]) = (ofLeBytes v : ℤ) := by
  have hzero : ofLeBytes (v ++ [0]) = ofLeBytes v := by
    rw [ofLeBytes_eq, ofLeBytes_eq, List.map_append]
    exact Nat.ofDigits_append_zero _
  unfold bnOfVch
  rw [List.getLast?_append, List.getLast?_singleton, Option.some_or]
  dsimp only
  rw [if_neg (by decide), hzero]

/-- **The bytes of a number**, where there are as many as it takes. -/
theorem leBytes_eq_digits {k : ℕ} (hlow : 256 ^ k ≤ n) (hhigh : n < 256 ^ (k + 1)) :
    leBytes (k + 1) n = (Nat.digits 256 n).map UInt8.ofNat := by
  have hlen : (Nat.digits 256 n).length = k + 1 :=
    le_antisymm ((Nat.digits_length_le_iff (by norm_num) n).2 hhigh)
      ((Nat.lt_digits_length_iff (by norm_num) n).2 hlow)
  have hlt : ∀ d ∈ Nat.digits 256 n, d < 256 := fun d => Nat.digits_lt_base (by norm_num)
  have hback : ((Nat.digits 256 n).map UInt8.ofNat).map UInt8.toNat = Nat.digits 256 n :=
    toNat_ofNat_of_lt hlt
  have hvalue : ofLeBytes ((Nat.digits 256 n).map UInt8.ofNat) = n := by
    rw [ofLeBytes_eq, hback, Nat.ofDigits_digits]
  have hbytes := leBytes_ofLeBytes (v := (Nat.digits 256 n).map UInt8.ofNat)
  rwa [hvalue, List.length_map, hlen] at hbytes

theorem trimSign_append_zero (h : 128 ≤ c.toNat) : trimSign (v ++ [c] ++ [0]) = v ++ [c] := by
  have hlen : (v ++ [c] ++ [0]).length = v.length + 2 := by simp
  have hlast : (v ++ [c] ++ [0]).getD (v.length + 1) 0 = 0 := by
    rw [List.getD_append_right _ _ _ _ (by simp)]
    simp
  have hsecond : (v ++ [c] ++ [0]).getD v.length 0 = c := by
    rw [List.append_assoc, List.getD_append_right _ _ _ _ le_rfl]
    simp
  unfold trimSign
  rw [hlen, Nat.add_sub_cancel, show v.length + 2 - 1 = v.length + 1 from rfl, hlast, hsecond, if_pos]
  · exact List.take_left' (by simp)
  · rw [Bool.and_eq_true, Bool.and_eq_true, decide_eq_true_iff, decide_eq_true_iff, decide_eq_true_iff]
    exact ⟨⟨by omega, rfl⟩, h⟩

theorem trimSign_append_of_ne (h : c ≠ 0) : trimSign (v ++ [c]) = v ++ [c] := by
  have hlast : (v ++ [c]).getD ((v ++ [c]).length - 1) 0 = c := by
    rw [List.length_append, List.length_singleton, Nat.add_sub_cancel,
      List.getD_append_right _ _ _ _ le_rfl]
    simp
  unfold trimSign
  rw [hlast, if_neg]
  simp [h]

/-- **The sign byte** is trimmed off, and nothing else. -/
theorem trimSign_getVch (n : ℕ) : trimSign (getVch n) = (Nat.digits 256 n).map UInt8.ofNat := by
  rcases Nat.eq_zero_or_pos n with rfl | hn
  · rfl
  have hbytes : getVch n = leBytes (mpiSize n) n := by
    unfold getVch
    dsimp only
    rw [Int.natAbs_natCast, if_neg (by omega), Nat.add_zero]
  rw [hbytes]
  unfold mpiSize
  rw [if_neg hn.ne']
  -- the highest bit is bit `r` of byte `q`
  have hle := Nat.log2_self_le hn.ne'
  have hlt := Nat.lt_log2_self (n := n)
  obtain ⟨q, r, hr, hlog⟩ : ∃ q r, r < 8 ∧ Nat.log2 n = 8 * q + r :=
    ⟨Nat.log2 n / 8, Nat.log2 n % 8, Nat.mod_lt _ (by norm_num), (Nat.div_add_mod _ 8).symm⟩
  have hq : (8 * q + r) / 8 = q := by omega
  have hmod : (8 * q + r) % 8 = r := by omega
  rw [hlog] at hle hlt ⊢
  rw [hq, hmod]
  have hpow : (256 : ℕ) ^ q = 2 ^ (8 * q) := by rw [pow_mul]; norm_num
  have hbase : 256 ^ q ≤ n := by
    rw [hpow]
    exact (Nat.pow_le_pow_right (by norm_num) (by omega)).trans hle
  have htop : n < 256 ^ (q + 1) := by
    rw [pow_succ, hpow, show (256 : ℕ) = 2 ^ 8 from rfl, ← pow_add]
    exact hlt.trans_le (Nat.pow_le_pow_right (by norm_num) (by omega))
  have hlast : n / 256 ^ q < 256 := Nat.div_lt_of_lt_mul (by rwa [← pow_succ])
  have hbyte : (UInt8.ofNat (n / 256 ^ q % 256)).toNat = n / 256 ^ q := by
    rw [Nat.mod_eq_of_lt hlast]
    exact UInt8.toNat_ofNat_of_lt hlast
  rw [← leBytes_eq_digits hbase htop]
  by_cases hsign : r = 7
  · -- the top bit is set, and a byte of zero stands behind it
    have hhigh : 128 ≤ n / 256 ^ q := by
      rw [Nat.le_div_iff_mul_le (by positivity), hpow, show (128 : ℕ) = 2 ^ 7 from rfl, ← pow_add,
        ← hsign, Nat.add_comm]
      exact hle
    have hzero : n / 256 ^ (q + 1) = 0 := Nat.div_eq_of_lt htop
    rw [if_pos hsign, leBytes_succ_last (q + 1), hzero, leBytes_succ_last q]
    refine trimSign_append_zero ?_
    rw [hbyte]
    exact hhigh
  · have hlow : n / 256 ^ q < 128 := by
      refine Nat.div_lt_of_lt_mul ?_
      rw [hpow, show (128 : ℕ) = 2 ^ 7 from rfl, ← pow_add]
      exact hlt.trans_le (Nat.pow_le_pow_right (by norm_num) (by omega))
    have hpos : 0 < n / 256 ^ q := Nat.div_pos hbase (by positivity)
    have hne : UInt8.ofNat (n / 256 ^ q % 256) ≠ 0 := fun h0 => by
      rw [h0] at hbyte
      exact hpos.ne hbyte
    rw [if_neg hsign, Nat.add_zero, leBytes_succ_last q]
    exact trimSign_append_of_ne hne

/-! ## The encoder -/

theorem base58Digits_eq (n : ℕ) : base58Digits n = (Nat.digits 58 n).map base58Char := by
  induction n using Nat.strong_induction_on with
  | _ n ih =>
    unfold base58Digits
    by_cases h0 : n = 0
    · rw [dif_pos h0, h0]
      rfl
    · have hpos := Nat.pos_of_ne_zero h0
      rw [dif_neg h0, ih _ (Nat.div_lt_self hpos (by norm_num)),
        Nat.digits_def' (by norm_num) hpos, List.map_cons]

/-- Zero bytes in front, counted as numbers or as bytes. -/
theorem leadingZeros_toNat (v : List UInt8) :
    leadingZeros (v.map UInt8.toNat) = (v.takeWhile fun c => c = 0).length := by
  unfold leadingZeros
  rw [List.takeWhile_map, List.length_map]
  congr 2
  funext c
  simp [Function.comp, ← UInt8.toNat_inj]

/-- **The encoder** writes bytes in base 58. -/
theorem encodeBase58_eq (v : List UInt8) :
    encodeBase58 v = (convert 256 58 (v.map UInt8.toNat)).map base58Char := by
  unfold encodeBase58 convert
  dsimp only
  rw [bnOfVch_append_zero, Int.toNat_natCast, base58Digits_eq, ofLeBytes_eq, leadingZeros_toNat,
    List.map_reverse, List.reverse_append, List.map_append, List.map_reverse, List.map_replicate,
    List.map_const', List.reverse_replicate]
  rfl

/-! ## The decoder -/

/-- The loop over characters of the alphabet. -/
theorem decodeBase58Loop_map (hds : ∀ d ∈ ds, d < 58) {bn : ℕ} :
    decodeBase58Loop (ds.map base58Char) bn = some (bn * 58 ^ ds.length + value 58 ds) := by
  unfold value
  induction ds generalizing bn with
  | nil => simp [decodeBase58Loop]
  | cons d ds ih =>
    rw [List.map_cons, decodeBase58Loop, base58Index_char d (hds d List.mem_cons_self)]
    dsimp only
    rw [ih fun d' hd' => hds d' (List.mem_cons_of_mem d hd'), List.reverse_cons,
      Nat.ofDigits_append, List.length_reverse, Nat.ofDigits_singleton, List.length_cons]
    congr 1
    ring

/-- And what it takes without any space is such. -/
theorem exists_digits (hp : ∀ c ∈ p, isSpace c = false) {bn bn' : ℕ}
    (h : decodeBase58Loop p bn = some bn') : ∃ ds : List ℕ, (∀ d ∈ ds, d < 58) ∧ p = ds.map base58Char := by
  induction p generalizing bn with
  | nil => exact ⟨[], by simp, rfl⟩
  | cons c p ih =>
    unfold decodeBase58Loop at h
    rcases hc : base58Index c with _ | d
    · rw [hc] at h
      dsimp only at h
      have hno : ¬ isSpace c = true := by simp [hp c List.mem_cons_self]
      rw [List.dropWhile_cons_of_neg hno, if_neg (by simp)] at h
      exact absurd h (by simp)
    · rw [hc] at h
      obtain ⟨hd, hchar⟩ := char_of_index hc
      obtain ⟨ds, hds, hrest⟩ := ih (fun c' hc' => hp c' (List.mem_cons_of_mem c hc')) h
      refine ⟨d :: ds, fun d' hd' => ?_, by rw [List.map_cons, hchar, ← hrest]⟩
      rcases List.mem_cons.1 hd' with rfl | hd'
      · exact hd
      · exact hds d' hd'

theorem leadingZeros_char (hds : ∀ d ∈ ds, d < 58) :
    ((ds.map base58Char).takeWhile fun c => c = base58Char 0).length = leadingZeros ds := by
  unfold leadingZeros
  induction ds with
  | nil => rfl
  | cons d ds ih =>
    have hd := char_eq_char_zero (hds d List.mem_cons_self)
    rw [List.map_cons, List.takeWhile_cons, List.takeWhile_cons]
    by_cases h0 : d = 0
    · rw [if_pos (by simp [h0]), if_pos (by simp [h0]), List.length_cons, List.length_cons,
        ih fun d' hd' => hds d' (List.mem_cons_of_mem d hd')]
    · rw [if_neg (by simpa [hd] using h0), if_neg (by simpa using h0)]
      rfl

/-- What is printed has neither space nor NUL in it. -/
theorem plain_map_char (hds : ∀ d ∈ ds, d < 58) :
    (∀ c ∈ ds.map base58Char, isSpace c = false) ∧ cStr (ds.map base58Char) = ds.map base58Char := by
  have hplain : ∀ c ∈ ds.map base58Char, isSpace c = false ∧ c ≠ 0 := fun c hc => by
    obtain ⟨d, hd, rfl⟩ := List.mem_map.1 hc
    exact char_plain d (hds d hd)
  refine ⟨fun c hc => (hplain c hc).1, ?_⟩
  unfold cStr
  rw [List.takeWhile_eq_self_iff]
  intro c hc
  simpa using (hplain c hc).2

/-- **The decoder** writes characters in base 256. -/
theorem decodeBase58_map (hds : ∀ d ∈ ds, d < 58) :
    decodeBase58 (ds.map base58Char) = some ((convert 58 256 ds).map UInt8.ofNat) := by
  obtain ⟨hspace, hstr⟩ := plain_map_char hds
  have hdrop : (ds.map base58Char).dropWhile isSpace = ds.map base58Char := by
    rcases hl : ds.map base58Char with _ | ⟨c, l⟩
    · rfl
    · have hc := hspace c (hl ▸ List.mem_cons_self)
      exact List.dropWhile_cons_of_neg (by simp [hc])
  unfold decodeBase58 decodeBase58Psz
  dsimp only
  rw [hstr, hdrop, decodeBase58Loop_map hds, Option.map_some, Nat.zero_mul, Nat.zero_add,
    trimSign_getVch, List.map_const', leadingZeros_char hds]
  unfold convert
  rw [List.map_append, List.map_replicate, List.map_reverse]
  rfl

/-! ## Both ways -/

/-- **What is encoded is decoded.** -/
theorem decodeBase58_encodeBase58 (v : List UInt8) : decodeBase58 (encodeBase58 v) = some v := by
  have hlt : ∀ d ∈ v.map UInt8.toNat, d < 256 := bytes_lt v
  rw [encodeBase58_eq, decodeBase58_map fun d hd => lt_of_mem_convert (by norm_num) hd,
    convert_convert (by norm_num) hlt, map_ofNat_toNat]

/-- **What is decoded is encoded as it was**, where there is no space in
it. -/
theorem encodeBase58_of_decodeBase58 (hspace : ∀ c ∈ cStr str, isSpace c = false)
    (h : decodeBase58 str = some v) : encodeBase58 v = cStr str := by
  have hdrop : (cStr str).dropWhile isSpace = cStr str := by
    rcases hl : cStr str with _ | ⟨c, l⟩
    · rfl
    · have hc := hspace c (hl ▸ List.mem_cons_self)
      exact List.dropWhile_cons_of_neg (by simp [hc])
  have hloop := h
  unfold decodeBase58 decodeBase58Psz at hloop
  rw [hdrop] at hloop
  obtain ⟨bn, hbn, -⟩ := Option.map_eq_some_iff.1 hloop
  obtain ⟨ds, hds, hstr⟩ := exists_digits hspace hbn
  have hdecode : decodeBase58 str = decodeBase58 (ds.map base58Char) := by
    unfold decodeBase58
    rw [(plain_map_char hds).2, hstr]
  rw [hdecode, decodeBase58_map hds] at h
  obtain rfl := Option.some.inj h
  have hlt : ∀ d ∈ convert 58 256 ds, d < 2 ^ 8 := fun d hd => lt_of_mem_convert (by norm_num) hd
  rw [encodeBase58_eq, toNat_ofNat_of_lt hlt, convert_convert (by norm_num) hds, hstr]

/-! ## With a checksum -/

section Check

variable [P : Platform]

theorem length_checksum : (checksum v).length = 4 := by
  unfold checksum serializeHash
  rw [List.length_take, length_leBytes]
  rfl

theorem decodeBase58Check_encodeBase58Check (v : List UInt8) :
    decodeBase58Check (encodeBase58Check v) = some v := by
  unfold decodeBase58Check encodeBase58Check
  rw [decodeBase58_encodeBase58]
  dsimp only
  have hlen : (v ++ checksum v).length = v.length + 4 := by
    rw [List.length_append, length_checksum]
  rw [if_neg (by omega), hlen, Nat.add_sub_cancel, List.take_left, List.drop_left, if_neg fun h => h rfl]

/-- A string whose checksum is right is what its bytes are encoded as. -/
theorem encodeBase58Check_of_decodeBase58Check (hspace : ∀ c ∈ cStr str, isSpace c = false)
    (h : decodeBase58Check str = some v) : encodeBase58Check v = cStr str := by
  unfold decodeBase58Check at h
  rcases hdecode : decodeBase58 str with _ | vchRet
  · rw [hdecode] at h
    exact absurd h (by simp)
  · rw [hdecode] at h
    dsimp only at h
    split_ifs at h with hshort hsum
    obtain rfl := Option.some.inj h
    unfold encodeBase58Check
    rw [not_not.1 hsum, List.take_append_drop]
    exact encodeBase58_of_decodeBase58 hspace hdecode

namespace CBase58Data

/-- **What is printed is read back.** -/
theorem setString_toStr (d : CBase58Data) : setString d.toStr = (d, true) := by
  unfold setString toStr
  rw [decodeBase58Check_encodeBase58Check]

end CBase58Data

omit P in
/-- An identifier in its twenty bytes -/
theorem ofLeBytes_id (id : BitVec 160) :
    BitVec.ofNat 160 (ofLeBytes ((leBytes 20 id.toNat).take 20)) = id := by
  rw [List.take_of_length_le (by rw [length_leBytes]),
    ofLeBytes_leBytes (id.isLt.trans_le (by norm_num)), BitVec.ofNat_toNat, BitVec.setWidth_eq]

/-- **An address** read back is valid, and of the same destination. -/
theorem CCryptobullionAddress.get_ofString {dest : CTxDestination} (h : dest ≠ .noDestination) :
    isValid (ofString (ofDest dest).toStr) = true ∧ get (ofString (ofDest dest).toStr) = dest := by
  have hread : ofString (ofDest dest).toStr = ofDest dest :=
    congrArg Prod.fst (CBase58Data.setString_toStr _)
  have hvalid : isValid (ofDest dest) = true := by
    rcases dest with _ | id | id
    · exact absurd rfl h
    all_goals
      unfold isValid ofDest CBase58Data.setData
      rcases hnet : P.fTestNet <;> simp [pubkeyAddress, scriptAddress, pubkeyAddressTest,
        scriptAddressTest]
  rw [hread]
  refine ⟨hvalid, ?_⟩
  unfold get
  rw [hvalid]
  rcases dest with _ | id | id
  · exact absurd rfl h
  all_goals
    unfold ofDest CBase58Data.setData
    dsimp only
    rw [ofLeBytes_id]
    rcases hnet : P.fTestNet <;> simp [pubkeyAddress, scriptAddress, pubkeyAddressTest,
      scriptAddressTest]

/-- **A secret key** read back is accepted, with its flag. -/
theorem CCryptobullionSecret.getSecret_setString {vchSecret : List UInt8}
    (hlen : vchSecret.length = 32) (fCompressed : Bool) :
    ∃ d, setSecret vchSecret fCompressed = .ok d ∧ setString d.toStr = (d, true) ∧
      getSecret d = (vchSecret, fCompressed) := by
  refine ⟨_, if_neg (not_not.2 hlen), ?_, ?_⟩
  · unfold setString
    rw [CBase58Data.setString_toStr]
    have hvalid : isValid (.setData secretVersion
        (if fCompressed then vchSecret ++ [1] else vchSecret)) = true := by
      unfold isValid secretVersion CBase58Data.setData
      rcases hnet : P.fTestNet <;> rcases fCompressed <;>
        simp [CCryptobullionAddress.pubkeyAddress, CCryptobullionAddress.pubkeyAddressTest, hlen]
    dsimp only
    rw [hvalid]
    rfl
  · unfold getSecret CBase58Data.setData
    rcases fCompressed with _ | _
    · simp [hlen, List.take_of_length_le hlen.le]
    · simp [hlen, List.take_left' hlen]

/-- **Base58 is exact**, with and without a checksum, both ways. An address
of either kind and a secret key of either format are read back as they were
printed, on either network. -/
theorem base58_exact :
    (∀ v, decodeBase58 (encodeBase58 v) = some v ∧ decodeBase58Check (encodeBase58Check v) = some v) ∧
    (∀ str v, (∀ c ∈ cStr str, isSpace c = false) → decodeBase58 str = some v →
      encodeBase58 v = cStr str) ∧
    (∀ str v, (∀ c ∈ cStr str, isSpace c = false) → decodeBase58Check str = some v →
      encodeBase58Check v = cStr str) ∧
    (∀ dest, dest ≠ .noDestination →
      let address := CCryptobullionAddress.ofString (CCryptobullionAddress.ofDest dest).toStr
      CCryptobullionAddress.isValid address = true ∧ CCryptobullionAddress.get address = dest) ∧
    ∀ (vchSecret : List UInt8) (fCompressed : Bool), vchSecret.length = 32 →
      ∃ d, CCryptobullionSecret.setSecret vchSecret fCompressed = .ok d ∧
        CCryptobullionSecret.setString d.toStr = (d, true) ∧
        CCryptobullionSecret.getSecret d = (vchSecret, fCompressed) := by
  refine ⟨fun v => ⟨decodeBase58_encodeBase58 v, decodeBase58Check_encodeBase58Check v⟩,
    fun str v => encodeBase58_of_decodeBase58, fun str v => encodeBase58Check_of_decodeBase58Check,
    fun dest h => CCryptobullionAddress.get_ofString h, fun vchSecret fCompressed hlen =>
      CCryptobullionSecret.getSecret_setString hlen fCompressed⟩

end Check

end CryptoBullion
