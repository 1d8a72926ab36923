import CryptoBullion.Model.Dump
import CryptoBullion.Text.Base58
import CryptoBullion.Text.Money
import CryptoBullion.Wallet.CryptoKeyStore
/-!
# A dump restores the wallet

No field of a line has a space or the end of a line in it: a secret is in
base 58, a date has signs and digits, and of a label every byte is escaped
that is none of a plain text. So each line is split where it was put
together, and the key it is about gets back its time and its label.
-/

namespace CryptoBullion

namespace Dump

/-! ## Labels -/

section
variable {c : UInt8} {str : List UInt8}

/-- A hexadecimal digit is read back, and is no space. -/
theorem hexDigit_spec : ∀ n < 16, hexValue (hexDigit n) = n ∧ 32 < hexDigit n := by decide

/-- A byte is read from its two digits. -/
theorem hexByte_hexDigit (c : UInt8) : hexByte (hexDigit (c.toNat / 16)) (hexDigit (c.toNat % 16)) = c := by
  have hall : ∀ n < 256, hexByte (hexDigit (n / 16)) (hexDigit (n % 16)) = UInt8.ofNat n := by
    decide +kernel
  rw [hall c.toNat c.toNat_lt, UInt8.ofNat_toNat]

theorem decodeDumpString_cons (h : c ≠ 37) :
    decodeDumpString (c :: str) = c :: decodeDumpString str := by
  rcases str with _ | ⟨c₁, _ | ⟨c₂, str⟩⟩
  · rfl
  · rfl
  · rw [decodeDumpString, if_neg h]

/-- **A byte is read** as it was written, whatever follows. -/
theorem decodeDumpString_append :
    decodeDumpString (encodeDumpChar c ++ str) = c :: decodeDumpString str := by
  unfold encodeDumpChar
  split_ifs with h
  · show decodeDumpString (37 :: hexDigit (c.toNat / 16) :: hexDigit (c.toNat % 16) :: str) = _
    rw [decodeDumpString, if_pos rfl, hexByte_hexDigit]
  · refine decodeDumpString_cons ?_
    rintro rfl
    exact h (by decide)

/-- **A label is read** as it was written. -/
theorem decodeDumpString_encodeDumpString (str : List UInt8) :
    decodeDumpString (encodeDumpString str) = str := by
  unfold encodeDumpString
  induction str with
  | nil => rfl
  | cons c str ih => rw [List.flatMap_cons, decodeDumpString_append, ih]

/-- What is written of a label has no space in it. -/
theorem plain_encodeDumpString : ∀ c ∈ encodeDumpString str, 32 < c := by
  intro c hc
  obtain ⟨b, -, hc⟩ := List.mem_flatMap.1 hc
  have hlt := b.toNat_lt
  unfold encodeDumpChar at hc
  split_ifs at hc with h
  · rcases List.mem_cons.1 hc with rfl | hc
    · decide
    · unfold hexStr at hc
      rcases List.mem_cons.1 hc with rfl | hc
      · exact (hexDigit_spec _ (by omega)).2
      · rw [List.mem_singleton.1 hc]
        exact (hexDigit_spec _ (by omega)).2
  · rw [List.mem_singleton.1 hc]
    simp only [Bool.or_eq_true, decide_eq_true_eq, not_or] at h
    exact UInt8.not_le.1 h.1.1

end

/-! ## Lines -/

section
variable [P : Platform] [K : KeyCrypto]
variable {times : DumpTime} {w : CWallet} {fGood : Bool}

/-- What is printed in base 58 has no space in it, and is no comment. -/
theorem plain_toStr (d : CBase58Data) : ∀ c ∈ d.toStr, 32 < c ∧ c ≠ 35 := by
  have hchar : ∀ n < 58, 32 < base58Char n ∧ base58Char n ≠ 35 := by
    unfold base58Char
    rw [pszBase58_eq]
    decide
  intro c hc
  unfold CBase58Data.toStr encodeBase58Check at hc
  rw [encodeBase58_eq] at hc
  obtain ⟨n, hn, rfl⟩ := List.mem_map.1 hc
  exact hchar n (Radix.lt_of_mem_convert (by norm_num) hn)

/-- A comment or an empty line says nothing. -/
theorem importLine_comment {line : List UInt8} (h : line = [] ∨ line.head? = some 35) :
    CWallet.importLine times (w, fGood) line = (w, fGood) := by
  unfold CWallet.importLine
  rw [if_pos]
  rcases h with rfl | h
  · rfl
  · rw [h]
    simp

/-- What a line says of a label, as it is read. -/
def labelOf (label : Option (List UInt8)) : List UInt8 × Bool :=
  match label with
  | some label => (label, true)
  | none => ([], false)

/-- **What stands for the label** is read as such, up to the comment. -/
theorem readLabel_labelText {env : DumpEnv} {keyid : CKeyID} {strAddr : List UInt8} :
    readLabel [w.labelText env keyid, [35], strAddr] ([], true) =
      labelOf w.mapAddressBook[CTxDestination.keyID keyid]? := by
  have hstop : ∀ s, readLabel [[35], strAddr] s = s := fun s => by
    obtain ⟨strLabel, fLabel⟩ := s
    unfold readLabel
    rw [if_pos (by decide)]
  unfold CWallet.labelText labelOf
  rcases w.mapAddressBook[CTxDestination.keyID keyid]? with _ | label
  · dsimp only
    split_ifs
    · unfold readLabel
      rw [if_neg (by decide), if_neg (by decide), if_pos rfl]
      exact hstop _
    · unfold readLabel
      rw [if_neg (by decide), if_pos rfl, if_neg (by decide)]
      exact hstop _
  · dsimp only
    have htext : text "label=" = [108, 97, 98, 101, 108, 61] := by decide
    unfold readLabel
    rw [htext]
    have hhash : ¬ startsWith ([108, 97, 98, 101, 108, 61] ++ encodeDumpString label) [35] = true := by
      simp [startsWith]
    have hlabel : startsWith ([108, 97, 98, 101, 108, 61] ++ encodeDumpString label)
        [108, 97, 98, 101, 108, 61] = true := by
      simp [startsWith]
    rw [if_neg hhash]
    dsimp only
    rw [if_pos hlabel, hstop]
    show (decodeDumpString (encodeDumpString label), true) = _
    rw [decodeDumpString_encodeDumpString]

/-- Nor has what stands for the label. -/
theorem plain_labelText {env : DumpEnv} {keyid : CKeyID} : ∀ c ∈ w.labelText env keyid, 32 < c := by
  have htext : ∀ c ∈ text "label=", 32 < c := by decide +kernel
  unfold CWallet.labelText
  split
  · intro c hc
    exact (List.mem_append.1 hc).elim (htext c) (plain_encodeDumpString c)
  · split_ifs
    · decide +kernel
    · decide +kernel

/-- **The line of a key** is split where it was put together. -/
theorem importLine_key (key : CKey) {d : CBase58Data} {t : ℤ} {label strAddr : List UInt8}
    (hlabel : ∀ c ∈ label, 32 < c) (haddr : ∀ c ∈ strAddr, 32 < c)
    (hset : CCryptobullionSecret.setString d.toStr = (d, true))
    (hget : CCryptobullionSecret.getSecret d = (key.secret.1, key.fCompressedPubKey)) :
    CWallet.importLine times (w, fGood) (d.toStr ++ [32] ++ times.encode t ++ [32] ++ label ++
        [32, 35, 32] ++ text "addr=" ++ strAddr) =
      w.importKey fGood key (times.decode (times.encode t))
        (readLabel [label, [35], text "addr=" ++ strAddr] ([], true)) := by
  have hsep : ∀ {s : List UInt8}, (∀ c ∈ s, 32 < c) → 32 ∉ s := fun h hmem =>
    absurd (h 32 hmem) (by decide)
  have hsecret : ∀ c ∈ d.toStr, 32 < c := fun c hc => (plain_toStr d c hc).1
  have htext : ∀ c ∈ text "addr=", 32 < c := by decide +kernel
  have haddr' : ∀ c ∈ text "addr=" ++ strAddr, 32 < c := fun c hc =>
    (List.mem_append.1 hc).elim (htext c) (haddr c)
  have hsplit : (d.toStr ++ [32] ++ times.encode t ++ [32] ++ label ++ [32, 35, 32] ++ text "addr=" ++
      strAddr).splitOn 32 = [d.toStr, times.encode t, label, [35], text "addr=" ++ strAddr] := by
    simp only [List.append_assoc, List.cons_append, List.nil_append]
    rw [List.splitOn_append_cons_self_of_not_mem (hsep hsecret),
      List.splitOn_append_cons_self_of_not_mem (hsep (times.plain t)),
      List.splitOn_append_cons_self_of_not_mem (hsep hlabel)]
    show _ :: _ :: _ :: List.splitOn 32 ([35] ++ 32 :: (text "addr=" ++ strAddr)) = _
    rw [List.splitOn_append_cons_self_of_not_mem (by decide), List.splitOn_eq_singleton (hsep haddr')]
  have hline : ∀ r, ¬ ((d.toStr ++ ([32] ++ r)).isEmpty ||
      (d.toStr ++ ([32] ++ r)).head? = some 35) = true := by
    intro r
    rcases hstr : d.toStr with _ | ⟨c, s⟩
    · simp
    · have hc := (plain_toStr d c (hstr ▸ List.mem_cons_self)).2
      simp [hc]
  unfold CWallet.importLine
  rw [if_neg (by simpa only [List.append_assoc] using hline _), hsplit]
  dsimp only
  rw [hset]
  dsimp only
  rw [hget]
  dsimp only
  rw [dif_pos key.secret.2]

/-! ## Stores -/

/-- **An unlocked store** that holds the keys of `plain`: in the plain, or
encrypted under the master key that is in use. -/
structure Opened (s : CCryptoKeyStore) (plain : KeyMap) : Prop where
  filed : ∀ (id : CKeyID) (k : CSecret × Bool), plain[id]? = some k → getID (K.pubKey k.1 k.2) = id
  holds : s.fUseCrypto = false ∧ s.mapKeys = plain ∨
    s.Mirrors s.vMasterKey plain ∧ s.isLocked = false

/-- `AddKey` does not fail. -/
def NeverFails (s : CCryptoKeyStore) : Prop := ∀ key, (s.addKey key).1 = true

variable {s s' : CCryptoKeyStore} {plain : KeyMap} {key : CKey} {id : CKeyID}

theorem addKey_of_plain (h : s.fUseCrypto = false) :
    s.addKey key = (true, { s with mapKeys := s.mapKeys.addKey key }) := by
  unfold CCryptoKeyStore.addKey CCryptoKeyStore.isCrypted
  rw [h]
  rfl

theorem vMasterKey_addKey (key : CKey) (h : s.fUseCrypto = true) :
    (s.addKey key).2.fUseCrypto = true ∧ (s.addKey key).2.vMasterKey = s.vMasterKey := by
  rw [CCryptoKeyStore.addKey_of_fUseCrypto h]
  split_ifs
  · exact ⟨h, rfl⟩
  · split
    · exact ⟨h, rfl⟩
    · exact ⟨h, rfl⟩

/-- A key that is added is under its own hash, too. -/
theorem filed_addKey
    (h : ∀ (id : CKeyID) (k : CSecret × Bool), plain[id]? = some k → getID (K.pubKey k.1 k.2) = id) :
    ∀ (id : CKeyID) (k : CSecret × Bool), (plain.addKey key)[id]? = some k →
      getID (K.pubKey k.1 k.2) = id := by
  intro id k hk
  simp only [KeyMap.addKey, Std.ExtTreeMap.getElem?_insert, Std.compare_eq_iff_eq] at hk
  split_ifs at hk with hid
  · rw [← Option.some.inj hk]
    exact hid
  · exact h id k hk

/-- A store that was never encrypted is such. -/
theorem opened_of_unencrypted (h : CCryptoKeyStore.Unencrypted s) : Opened s s.mapKeys where
  filed := h.filed.2.2.2
  holds := .inl ⟨h.filed.1, rfl⟩

/-- A store that was encrypted is such while it is unlocked. -/
theorem opened_of_run {mk : List UInt8}
    (h : EncryptedRun mk (fun s c => c.KeepsTo mk s) s plain) (hlock : s.isLocked = false) :
    Opened s plain := by
  have hmirrors := h.mirrors fun _ _ hc => hc
  constructor
  · clear hmirrors hlock
    induction h with
    | encrypt h henc => exact h.filed.2.2.2
    | @call s plain hrun c hok ih =>
      cases c with
      | lock => exact ih
      | unlock k => exact ih
      | addKey key =>
        intro id k hk
        simp only [KeyStoreCall.keep] at hk
        split_ifs at hk
        · exact filed_addKey ih id k hk
        · exact ih id k hk
  · refine .inr ⟨?_, hlock⟩
    rcases hmirrors.vMasterKey with hnil | rfl | hempty
    · rw [CCryptoKeyStore.isLocked_of_fUseCrypto hmirrors.fUseCrypto, hnil] at hlock
      exact absurd hlock (by decide)
    · exact hmirrors
    · refine ⟨hmirrors.fUseCrypto, hmirrors.mapKeys, fun id => ?_, .inr (.inl rfl)⟩
      rcases hmirrors.keys_cases id with ⟨hplain, hkey⟩ | ⟨key, entry, -, hkey, -⟩
      · rw [hplain, hkey]
        exact .none
      · rw [hempty] at hkey
        exact absurd hkey (by simp)

namespace Opened

theorem haveKey (h : Opened s plain) (id : CKeyID) : s.haveKey id = plain.haveKey id := by
  rcases h.holds with ⟨hplain, hkeys⟩ | ⟨hmirrors, -⟩
  · unfold CCryptoKeyStore.haveKey CCryptoKeyStore.isCrypted
    rw [hplain, hkeys]
    rfl
  · exact hmirrors.haveKey id

theorem getPubKey (h : Opened s plain) (id : CKeyID) : s.getPubKey id = plain.getPubKey id := by
  rcases h.holds with ⟨hplain, hkeys⟩ | ⟨hmirrors, -⟩
  · unfold CCryptoKeyStore.getPubKey CCryptoKeyStore.isCrypted
    rw [hplain, hkeys]
    rfl
  · exact hmirrors.getPubKey id

theorem getKey (h : Opened s plain) (id : CKeyID) : s.getKey id false = plain.getKey id := by
  rcases h.holds with ⟨hplain, hkeys⟩ | ⟨hmirrors, hlock⟩
  · unfold CCryptoKeyStore.getKey CCryptoKeyStore.isCrypted
    rw [hplain, hkeys]
    rfl
  · exact hmirrors.getKey hlock id

/-- **A key that is added** is one of its keys. -/
theorem addKey (h : Opened s plain) (hadd : (s.addKey key).1 = true) :
    Opened (s.addKey key).2 (plain.addKey key) := by
  constructor
  · exact filed_addKey h.filed
  · rcases h.holds with ⟨hplain, hkeys⟩ | ⟨hmirrors, hlock⟩
    · rw [addKey_of_plain hplain]
      exact .inl ⟨hplain, by rw [hkeys]⟩
    · have hnext : (s.addKey key).2.Mirrors s.vMasterKey _ := hmirrors.addKey (.inr rfl)
      rw [if_pos hadd] at hnext
      have hsame := (vMasterKey_addKey key hmirrors.fUseCrypto).2
      refine .inr ⟨by rw [hsame]; exact hnext, ?_⟩
      rw [CCryptoKeyStore.isLocked_of_fUseCrypto hnext.fUseCrypto, hsame,
        ← CCryptoKeyStore.isLocked_of_fUseCrypto hmirrors.fUseCrypto]
      exact hlock

/-- And the next will not fail, either. -/
theorem neverFails (h : Opened s plain) (hadd : NeverFails s) : NeverFails (s.addKey key).2 := by
  intro key'
  rcases h.holds with ⟨hplain, -⟩ | ⟨hmirrors, -⟩
  · have hnext : (s.addKey key).2.fUseCrypto = false := by
      rw [addKey_of_plain hplain]
      exact hplain
    rw [addKey_of_plain hnext]
  · rw [← hadd key']
    have hmaster := vMasterKey_addKey key hmirrors.fUseCrypto
    generalize (s.addKey key).2 = t at hmaster
    rw [CCryptoKeyStore.addKey_of_fUseCrypto hmaster.1,
      CCryptoKeyStore.addKey_of_fUseCrypto hmirrors.fUseCrypto, hmaster.2]
    split_ifs
    · rfl
    · split <;> rfl

end Opened

/-! ## The file -/

omit P K in
/-- Lines are read as they were written, and nothing after the last. -/
theorem splitOn_lines {lines : List (List UInt8)} (h : ∀ line ∈ lines, 10 ∉ line) :
    (lines.flatMap fun line => line ++ [10]).splitOn 10 = lines ++ [[]] := by
  induction lines with
  | nil => rfl
  | cons line lines ih =>
    rw [List.flatMap_cons, List.append_assoc, List.singleton_append,
      List.splitOn_append_cons_self_of_not_mem (h line List.mem_cons_self),
      ih fun l hl => h l (List.mem_cons_of_mem _ hl), List.cons_append]

omit K in
/-- A number is printed on one line. -/
theorem newline_printInt (n : ℤ) : 10 ∉ Records.printInt n := by
  have hdecimal : 10 ∉ printDecimal n.natAbs := fun hmem =>
    absurd ((printDecimal_spec (k := 1) n.natAbs).1 10 hmem) (by decide)
  unfold Records.printInt
  split_ifs
  · simpa using hdecimal
  · exact hdecimal

omit P K in
theorem newline_getHex (h : Uint256) : 10 ∉ getHex h := by
  unfold getHex
  intro hmem
  obtain ⟨b, -, hb⟩ := List.mem_flatMap.1 hmem
  have hlt := b.toNat_lt
  unfold hexStr at hb
  rcases List.mem_cons.1 hb with heq | hb
  · exact absurd (heq ▸ (hexDigit_spec (b.toNat / 16) (by omega)).2) (by decide)
  · exact absurd (List.mem_singleton.1 hb ▸ (hexDigit_spec (b.toNat % 16) (by omega)).2) (by decide)

omit K in
/-- **The first lines** are comments. -/
theorem dumpHeader_spec (env : DumpEnv) (times : DumpTime) : ∀ line ∈ dumpHeader env times,
    10 ∉ line ∧ (line = [] ∨ line.head? = some 35) := by
  have htime : ∀ t, 10 ∉ times.encode t := fun t hmem => absurd (times.plain t 10 hmem) (by decide)
  have htext : 10 ∉ text "# Wallet dump created by CryptoBullion " ∧ 10 ∉ text " (" ∧ 10 ∉ text ")" ∧
      10 ∉ text "# * Created on " ∧ 10 ∉ text "# * Best block at time of backup was " ∧
      10 ∉ text ")," ∧ 10 ∉ text "#   mined on " := by decide
  have hhead : (text "# Wallet dump created by CryptoBullion ").head? = some 35 ∧
      (text "# * Created on ").head? = some 35 ∧
      (text "# * Best block at time of backup was ").head? = some 35 ∧
      (text "#   mined on ").head? = some 35 := by decide
  intro line hline
  unfold dumpHeader at hline
  simp only [List.mem_cons, List.not_mem_nil, or_false] at hline
  rcases hline with rfl | rfl | rfl | rfl | rfl
  · simp [htext, env.oneLine, List.head?_append, hhead]
  · simp [htext, htime, List.head?_append, hhead]
  · simp [htext, newline_printInt, newline_getHex, List.head?_append, hhead]
  · simp [htext, htime, List.head?_append, hhead]
  · simp


/-- What is read of a key that was dumped. -/
def restoreKey (w : CWallet) (times : DumpTime) (plain : KeyMap) (s : CWallet × Bool)
    (it : ℤ × CKeyID) : CWallet × Bool :=
  match plain[it.2]? with
  | none => s
  | some k => s.1.importKey s.2 ⟨k.1, k.2⟩ (times.decode (times.encode it.1))
      (labelOf w.mapAddressBook[CTxDestination.keyID it.2]?)

/-- **The line of a key**, if it has one, and what is read of it. -/
theorem dumpKey_spec (env : DumpEnv) (times : DumpTime) (h : Opened w.store plain) (it : ℤ × CKeyID) :
    ∃ lines, w.dumpKey env times it = .ok lines ∧ (∀ line ∈ lines, 10 ∉ line) ∧
      ∀ s, lines.foldl (CWallet.importLine times) s = restoreKey w times plain s it := by
  unfold CWallet.dumpKey restoreKey
  rw [h.getKey]
  unfold KeyMap.getKey
  rcases plain[it.2]? with _ | k
  · exact ⟨[], rfl, by simp, fun s => rfl⟩
  · obtain ⟨d, hd, hset, hget⟩ := CCryptobullionSecret.getSecret_setString k.1.2 k.2
    have haddr : ∀ c ∈ (CCryptobullionAddress.ofDest (.keyID it.2)).toStr, 32 < c :=
      fun c hc => (plain_toStr _ c hc).1
    dsimp only [Option.map_some]
    rw [hd]
    refine ⟨_, rfl, ?_, ?_⟩
    · have hline : ∀ {l : List UInt8}, (∀ c ∈ l, 32 < c) → 10 ∉ l := fun hl hmem =>
        absurd (hl 10 hmem) (by decide)
      have htext : 10 ∉ text "addr=" := by decide
      have hsecret : ∀ c ∈ d.toStr, 32 < c := fun c hc => (plain_toStr d c hc).1
      simp [hline hsecret, hline (times.plain _), hline (plain_labelText (w := w)), hline haddr, htext]
    · rintro ⟨v, fGood⟩
      rw [List.foldl_cons, List.foldl_nil, importLine_key ⟨k.1, k.2⟩ plain_labelText haddr hset hget, readLabel_labelText]

/-- **The file is read** key by key. -/
theorem importFile_dump (env : DumpEnv) (times : DumpTime) (h : Opened w.store plain) :
    ∃ file, w.dump env times = .ok file ∧ ∀ v : CWallet,
      v.importFile times file = (w.keyBirths env).foldl (restoreKey w times plain) (v, true) := by
  have hkeys : ∀ l : List (ℤ × CKeyID), ∃ keyLines, l.mapM (w.dumpKey env times) = .ok keyLines ∧
      (∀ line ∈ keyLines.flatten, 10 ∉ line) ∧
      ∀ s, keyLines.flatten.foldl (CWallet.importLine times) s =
        l.foldl (restoreKey w times plain) s := by
    intro l
    induction l with
    | nil => exact ⟨[], rfl, by simp, fun s => rfl⟩
    | cons it l ih =>
      obtain ⟨lines, hlines, hone, hread⟩ := dumpKey_spec env times h it
      obtain ⟨keyLines, hall, hrest, hreadAll⟩ := ih
      refine ⟨lines :: keyLines, ?_, ?_, fun s => ?_⟩
      · rw [List.mapM_cons, hlines, hall]
        rfl
      · rw [List.flatten_cons]
        exact fun line hline => (List.mem_append.1 hline).elim (hone line) (hrest line)
      · rw [List.flatten_cons, List.foldl_append, hread, hreadAll, List.foldl_cons]
  obtain ⟨keyLines, hall, hline, hread⟩ := hkeys (w.keyBirths env)
  have hend : 10 ∉ text "# End of dump" ∧ (text "# End of dump").head? = some 35 := by decide
  have hheader : ∀ s, (dumpHeader env times).foldl (CWallet.importLine times) s = s := by
    rintro ⟨v, fGood⟩
    refine List.foldlRecOn (motive := fun s => s = (v, fGood)) _ _ rfl ?_
    rintro s rfl line hmem
    exact importLine_comment (dumpHeader_spec env times line hmem).2
  refine ⟨_, by unfold CWallet.dump; rw [hall]; rfl, fun v => ?_⟩
  unfold CWallet.importFile
  rw [splitOn_lines]
  · simp only [List.foldl_append, List.foldl_cons, List.foldl_nil]
    rw [hheader, hread]
    generalize (w.keyBirths env).foldl (restoreKey w times plain) (v, true) = s
    obtain ⟨v, fGood⟩ := s
    rw [importLine_comment (.inl rfl), importLine_comment (.inr hend.2), importLine_comment (.inl rfl)]
  · intro line hmem
    rcases List.mem_append.1 hmem with hmem | hmem
    · rcases List.mem_append.1 hmem with hmem | hmem
      · exact (dumpHeader_spec env times line hmem).1
      · exact hline line hmem
    · simp only [List.mem_cons, List.not_mem_nil, or_false] at hmem
      rcases hmem with rfl | rfl
      · simp
      · exact hend.1

/-! ## Times of birth -/

omit P K in
theorem mem_lowerFirstBlock {pindex : BlockAt} {m : Map CKeyID BlockAt} {keyid : CKeyID}
    (h : id ∈ m) : id ∈ lowerFirstBlock pindex m keyid := by
  unfold lowerFirstBlock
  split
  · exact h
  · split_ifs
    · exact Std.ExtTreeMap.mem_insert.2 (.inr h)
    · exact h

omit P K in
/-- What a loop inserts is there at its end, and what was there before. -/
theorem mem_foldl_insert {α β : Type} {f : α → CKeyID} {g : α → β} {l : List α} {m : Map CKeyID β}
    (h : id ∈ m ∨ ∃ e ∈ l, f e = id) : id ∈ l.foldl (fun m e => m.insert (f e) (g e)) m := by
  induction l generalizing m with
  | nil => exact h.resolve_right (by simp)
  | cons e l ih =>
    refine ih ?_
    rw [Std.ExtTreeMap.mem_insert, Std.compare_eq_iff_eq]
    rcases h with h | ⟨e', he', heq⟩
    · exact .inl (.inr h)
    · rcases List.mem_cons.1 he' with rfl | he'
      · exact .inl (.inl heq)
      · exact .inr ⟨e', he', heq⟩

omit P K in
/-- Every key without a time has a first block. -/
theorem mem_firstBlocks {env : DumpEnv} {keys : List CKeyID} (h : id ∈ keys) :
    id ∈ firstBlocks env keys := by
  unfold firstBlocks
  refine List.foldlRecOn (motive := fun m => id ∈ m) _ _ (mem_foldl_insert (.inr ⟨id, h, rfl⟩)) ?_
  intro m hm o _
  exact List.foldlRecOn (motive := fun m => id ∈ m) _ _ hm fun m hm keyid _ => mem_lowerFirstBlock hm

omit P K in
/-- **Every key has a time of birth.** -/
theorem mem_getKeyBirthTimes {env : DumpEnv} (h : id ∈ w.keys) : id ∈ w.getKeyBirthTimes env := by
  unfold CWallet.getKeyBirthTimes
  refine mem_foldl_insert ?_
  by_cases hbirth : id ∈ w.mapKeyMetadata.filter fun _ nCreateTime => nCreateTime ≠ 0
  · exact .inl hbirth
  · refine .inr ?_
    have hfirst : id ∈ firstBlocks env (w.keys.filter fun keyid =>
        !(w.mapKeyMetadata.filter fun _ nCreateTime => nCreateTime ≠ 0).contains keyid) := by
      refine mem_firstBlocks (List.mem_filter.2 ⟨h, ?_⟩)
      rw [Bool.not_eq_true', ← Bool.not_eq_true]
      exact hbirth
    have hsome := Std.ExtTreeMap.getElem?_eq_some_getElem hfirst
    exact ⟨(id, _), Std.ExtTreeMap.mem_toList_iff_getElem?_eq_some.2 hsome, rfl⟩

omit P K in
/-- The dumped pairs are keys with their times, each key once. -/
theorem keyBirths_spec (w : CWallet) (env : DumpEnv) :
    ((w.keyBirths env).map (·.2)).Nodup ∧
      ∀ t id, (t, id) ∈ w.keyBirths env ↔ (w.getKeyBirthTimes env)[id]? = some t := by
  have hperm := List.perm_insertionSort birthLe
    ((w.getKeyBirthTimes env).toList.map fun e => (e.2, e.1))
  constructor
  · unfold CWallet.keyBirths
    rw [(hperm.map _).nodup_iff, List.map_map]
    exact List.pairwise_map.2 (Std.ExtTreeMap.distinct_keys_toList.imp fun hne heq =>
      hne (Std.compare_eq_iff_eq.2 heq))
  · intro t id
    unfold CWallet.keyBirths
    rw [hperm.mem_iff, ← Std.ExtTreeMap.mem_toList_iff_getElem?_eq_some, List.mem_map]
    constructor
    · rintro ⟨⟨id', t'⟩, hmem, heq⟩
      obtain ⟨rfl, rfl⟩ := Prod.mk.inj heq
      exact hmem
    · exact fun hmem => ⟨(id, t), hmem, rfl⟩

/-- The keys of a wallet are those of its store. -/
theorem mem_keys (h : Opened w.store plain) : id ∈ w.keys ↔ id ∈ plain := by
  unfold CWallet.keys CCryptoKeyStore.isCrypted
  rcases h.holds with ⟨hplain, hkeys⟩ | ⟨hmirrors, -⟩
  · rw [hplain, hkeys]
    simp
  · rw [hmirrors.fUseCrypto]
    simpa using hmirrors.mem_iff

/-! ## Restoring -/

/-- A new key is added, and its time and label with it. -/
theorem importKey_of_new {t : ℤ} {label : List UInt8 × Bool}
    (hnew : w.store.haveKey (getID key.getPubKey) = false) (hadd : (w.store.addKey key).1 = true) :
    w.importKey fGood key t label = (⟨(w.store.addKey key).2,
      w.mapKeyMetadata.insert (getID key.getPubKey) t,
      if label.2 then w.mapAddressBook.insert (.keyID (getID key.getPubKey)) label.1
      else w.mapAddressBook⟩, fGood) := by
  unfold CWallet.importKey
  dsimp only
  rw [if_neg (Bool.not_eq_true _ ▸ hnew)]
  generalize w.store.addKey key = r at hadd ⊢
  obtain ⟨fAdded, store⟩ := r
  obtain rfl : fAdded = true := hadd
  rfl

/-- **What is restored** of the keys of `done`, and of no others: `v` is the
wallet they are imported into, `v₀` what it was before. -/
structure Restores (w v₀ : CWallet) (births : CKeyID → Option ℤ) (plain : KeyMap) (done : List CKeyID)
    (v : CWallet) : Prop where
  store : ∃ held : KeyMap, Opened v.store held ∧
    ∀ id : CKeyID, held[id]? = if id ∈ done then plain[id]? else none
  neverFails : NeverFails v.store
  birth : ∀ id ∈ done, id ∈ plain → v.mapKeyMetadata[id]? = births id
  labelled : ∀ id ∈ done, id ∈ plain → ∀ label : List UInt8,
    w.mapAddressBook[CTxDestination.keyID id]? = some label →
      v.mapAddressBook[CTxDestination.keyID id]? = some label
  others : ∀ dest : CTxDestination,
    (∀ id ∈ done, id ∈ plain → dest = .keyID id → w.mapAddressBook[dest]? = none) →
      v.mapAddressBook[dest]? = v₀.mapAddressBook[dest]?

variable {v v₀ : CWallet} {births : CKeyID → Option ℤ} {done : List CKeyID}

/-- A time of birth without a key says nothing. -/
theorem Restores.skip (h : Restores w v₀ births plain done v) (hdone : id ∉ done)
    (hkey : plain[id]? = none) : Restores w v₀ births plain (id :: done) v := by
  have hnone : id ∉ plain := by
    rw [← Std.ExtTreeMap.isSome_getElem?_iff_mem, hkey]
    simp
  have hne : ∀ {id'}, id' ∈ plain → id' ∈ id :: done → id' ∈ done := fun hin hmem' =>
    (List.mem_cons.1 hmem').resolve_left fun heq => hnone (heq ▸ hin)
  obtain ⟨held, hheld, hmem⟩ := h.store
  refine ⟨⟨held, hheld, fun id' => ?_⟩, h.neverFails,
    fun id' hid hin => h.birth id' (hne hin hid) hin,
    fun id' hid hin => h.labelled id' (hne hin hid) hin,
    fun dest hdest => h.others dest fun id' hid => hdest id' (List.mem_cons_of_mem _ hid)⟩
  rw [hmem]
  by_cases heq : id' = id
  · subst heq
    rw [if_neg hdone, if_pos List.mem_cons_self, hkey]
  · simp only [List.mem_cons, heq, false_or]

/-- **One more key.** -/
theorem Restores.add (hw : Opened w.store plain) (h : Restores w v₀ births plain done v)
    (hdone : id ∉ done) {k : CSecret × Bool} (hkey : plain[id]? = some k) {t : ℤ}
    (hbirth : births id = some t) :
    ∃ v', v.importKey true ⟨k.1, k.2⟩ t (labelOf w.mapAddressBook[CTxDestination.keyID id]?) =
        (v', true) ∧ Restores w v₀ births plain (id :: done) v' := by
  obtain ⟨held, hheld, hmem⟩ := h.store
  have hid : getID (CKey.getPubKey ⟨k.1, k.2⟩) = id := hw.filed id k hkey
  have hnew : v.store.haveKey (getID (CKey.getPubKey ⟨k.1, k.2⟩)) = false := by
    rw [hheld.haveKey, hid]
    unfold KeyMap.haveKey
    rw [← Bool.not_eq_true, Std.ExtTreeMap.contains_iff_mem,
      ← Std.ExtTreeMap.isSome_getElem?_iff_mem, hmem, if_neg hdone]
    simp
  have hadd := h.neverFails ⟨k.1, k.2⟩
  rw [importKey_of_new hnew hadd, hid]
  refine ⟨_, rfl, ⟨_, hheld.addKey hadd, fun id' => ?_⟩, hheld.neverFails h.neverFails,
    fun id' hid' hin => ?_, fun id' hid' hin label hlabel => ?_, fun dest hdest => ?_⟩
  · unfold KeyMap.addKey
    rw [hid, Std.ExtTreeMap.getElem?_insert, hmem]
    by_cases heq : id = id'
    · subst heq
      rw [if_pos (Std.compare_eq_iff_eq.2 rfl), if_pos List.mem_cons_self, hkey]
    · rw [if_neg (by simpa using heq)]
      simp only [List.mem_cons, Ne.symm heq, false_or]
  · dsimp only
    rw [Std.ExtTreeMap.getElem?_insert]
    split_ifs with heq
    · rw [← Std.compare_eq_iff_eq.1 heq, hbirth]
    · refine h.birth id' ((List.mem_cons.1 hid').resolve_left fun heq' => heq ?_) hin
      rw [heq', Std.compare_eq_iff_eq]
  · rcases List.mem_cons.1 hid' with rfl | hid'
    · dsimp only
      rw [hlabel]
      exact Std.ExtTreeMap.getElem?_insert_self
    · have hne : id ≠ id' := fun heq => hdone (heq ▸ hid')
      have hold := h.labelled id' hid' hin label hlabel
      dsimp only
      split_ifs
      · rw [Std.ExtTreeMap.getElem?_insert, if_neg]
        · exact hold
        · rw [Std.compare_eq_iff_eq]
          exact fun heq => hne (CTxDestination.keyID.inj heq)
      · exact hold
  · have hold := h.others dest fun id' hid => hdest id' (List.mem_cons_of_mem _ hid)
    have hin : id ∈ plain := by
      rw [← Std.ExtTreeMap.isSome_getElem?_iff_mem, hkey]
      rfl
    have hthis := hdest id List.mem_cons_self hin
    dsimp only
    rcases hlabel : w.mapAddressBook[CTxDestination.keyID id]? with _ | label
    · exact hold
    · rw [if_pos (by rfl), Std.ExtTreeMap.getElem?_insert, if_neg]
      · exact hold
      · rw [Std.compare_eq_iff_eq]
        intro heq
        rw [heq, hthis heq.symm] at hlabel
        exact absurd hlabel (by simp)

/-- **All that was dumped** is restored, key by key. -/
theorem Restores.run (hw : Opened w.store plain) : ∀ (its : List (ℤ × CKeyID)) {done : List CKeyID}
    {v : CWallet}, Restores w v₀ births plain done v → (its.map (·.2)).Nodup →
    (∀ it ∈ its, it.2 ∉ done ∧ times.decode (times.encode it.1) = it.1 ∧ births it.2 = some it.1) →
      ∃ v' done', its.foldl (restoreKey w times plain) (v, true) = (v', true) ∧
        Restores w v₀ births plain done' v' ∧ ∀ id, id ∈ done' ↔ id ∈ done ∨ id ∈ its.map (·.2)
  | [], done, v, h, _, _ => ⟨v, done, rfl, h, by simp⟩
  | it :: its, done, v, h, hnodup, hits => by
    obtain ⟨hnew, hnodup⟩ := List.nodup_cons.1 (List.map_cons ▸ hnodup)
    obtain ⟨hdone, htime, hbirth⟩ := hits it List.mem_cons_self
    have hstep : ∃ v', restoreKey w times plain (v, true) it = (v', true) ∧
        Restores w v₀ births plain (it.2 :: done) v' := by
      unfold restoreKey
      rcases hkey : plain[it.2]? with _ | k
      · exact ⟨v, rfl, h.skip hdone hkey⟩
      · dsimp only
        rw [htime]
        exact h.add hw hdone hkey hbirth
    obtain ⟨v', hread, h'⟩ := hstep
    obtain ⟨v'', done', hrest, h'', hall⟩ := Restores.run hw its h' hnodup fun it' hit' => by
      obtain ⟨hdone', hrest'⟩ := hits it' (List.mem_cons_of_mem _ hit')
      refine ⟨fun hmem => ?_, hrest'⟩
      rcases List.mem_cons.1 hmem with heq | hmem
      · exact hnew (heq ▸ List.mem_map_of_mem hit')
      · exact hdone' hmem
    refine ⟨v'', done', ?_, h'', fun id => ?_⟩
    · rw [List.foldl_cons, hread, hrest]
    · rw [hall, List.map_cons, List.mem_cons, List.mem_cons]
      tauto

/-- **A dump restores the wallet.** The file of an unlocked wallet, with any
labels in its address book, is imported into a wallet without keys to which
keys can be added: the keys are those of the original, with their flags,
each has the time of birth that was dumped, and of the address book exactly
the entries of labelled keys are written, with the same labels. Dates have
to be parsed as they were formatted. -/
theorem dump_restores (w v : CWallet) (env : DumpEnv) (times : DumpTime) (plain : KeyMap)
    (hw : Opened w.store plain) (hv : Opened v.store ∅) (hadd : NeverFails v.store)
    (htimes : ∀ (id : CKeyID) (t : ℤ), (w.getKeyBirthTimes env)[id]? = some t →
      times.decode (times.encode t) = t) :
    ∃ file v', w.dump env times = .ok file ∧ v.importFile times file = (v', true) ∧
      (∀ id, v'.store.haveKey id = w.store.haveKey id ∧
        v'.store.getPubKey id = w.store.getPubKey id ∧
        v'.store.getKey id false = w.store.getKey id false) ∧
      (∀ id, w.store.haveKey id = true → ∃ t, (w.getKeyBirthTimes env)[id]? = some t ∧
        v'.mapKeyMetadata[id]? = some t) ∧
      (∀ id, w.store.haveKey id = true → ∀ label : List UInt8,
        w.mapAddressBook[CTxDestination.keyID id]? = some label →
          v'.mapAddressBook[CTxDestination.keyID id]? = some label) ∧
      ∀ dest : CTxDestination,
        (∀ id, w.store.haveKey id = true → dest = .keyID id → w.mapAddressBook[dest]? = none) →
          v'.mapAddressBook[dest]? = v.mapAddressBook[dest]? := by
  obtain ⟨file, hfile, hread⟩ := importFile_dump env times hw
  have hnone : Restores w v (fun id => (w.getKeyBirthTimes env)[id]?) plain [] v :=
    ⟨⟨∅, hv, by simp⟩, hadd, by simp, by simp, fun dest _ => rfl⟩
  obtain ⟨hnodup, hbirths⟩ := keyBirths_spec w env
  obtain ⟨v', done, hrun, hall, hdone⟩ := hnone.run hw (w.keyBirths env) hnodup
    fun it hit => ⟨by simp, htimes it.2 it.1 ((hbirths it.1 it.2).1 hit), (hbirths it.1 it.2).1 hit⟩
  -- every key of the wallet was among what was dumped
  have hborn : ∀ id ∈ plain, ∃ t, (w.getKeyBirthTimes env)[id]? = some t := fun id hid =>
    ⟨_, Std.ExtTreeMap.getElem?_eq_some_getElem (mem_getKeyBirthTimes ((mem_keys hw).2 hid))⟩
  have hmem : ∀ id ∈ plain, id ∈ done := by
    intro id hid
    obtain ⟨t, ht⟩ := hborn id hid
    exact (hdone id).2 (.inr (List.mem_map.2 ⟨(t, id), (hbirths t id).2 ht, rfl⟩))
  have hhave : ∀ {id}, w.store.haveKey id = true → id ∈ plain := fun {id} h => by
    rw [hw.haveKey] at h
    exact Std.ExtTreeMap.contains_iff_mem.1 h
  obtain ⟨held, hheld, hkeys⟩ := hall.store
  obtain rfl : held = plain := by
    refine Std.ExtTreeMap.ext_getElem? fun id => ?_
    rw [hkeys]
    split_ifs with hid
    · rfl
    · exact (Std.ExtTreeMap.getElem?_eq_none fun hin => hid (hmem id hin)).symm
  refine ⟨file, v', hfile, (hread v).trans hrun, fun id => ⟨?_, ?_, ?_⟩, fun id hid => ?_,
    fun id hid => hall.labelled id (hmem id (hhave hid)) (hhave hid), fun dest hdest =>
      hall.others dest fun id _ hin heq => hdest id ?_ heq⟩
  · rw [hheld.haveKey, hw.haveKey]
  · rw [hheld.getPubKey, hw.getPubKey]
  · rw [hheld.getKey, hw.getKey]
  · obtain ⟨t, ht⟩ := hborn id (hhave hid)
    exact ⟨t, ht, (hall.birth id (hmem id (hhave hid)) (hhave hid)).trans ht⟩
  · rw [hw.haveKey]
    exact Std.ExtTreeMap.contains_iff_mem.2 hin

end

/-! ## A wallet with two keys -/

namespace TwoKeys

/-- A date of a sign and tallies. -/
def times : DumpTime where
  encode nTime := (if nTime < 0 then 45 else 43) :: List.replicate nTime.natAbs 49
  decode str := if str.head? = some 45 then -(str.tail.length : ℤ) else str.tail.length
  plain nTime c hc := by
    rcases List.mem_cons.1 hc with rfl | hc
    · split_ifs <;> decide
    · rw [List.eq_of_mem_replicate hc]
      decide

def env : DumpEnv := ⟨[], [], 3, 0, 0, 2, ⟨0, 8000⟩, [], [], by decide⟩

def label : List UInt8 := text "# a %41\n"

/-- The hash of the key of a byte. -/
def idOf (b : UInt8) : CKeyID :=
  getID (P := NoKeys.platform) (CKey.getPubKey (K := NoKeys.crypto) (NoKeys.keyOf b))

/-- Two keys, one of them labelled and with a time. -/
def wallet : CWallet :=
  let s := (CCryptoKeyStore.new.addKey (P := NoKeys.platform) (K := NoKeys.crypto) (NoKeys.keyOf 1)).2
  ⟨(s.addKey (P := NoKeys.platform) (K := NoKeys.crypto) (NoKeys.keyOf 2)).2,
    (∅ : Map CKeyID ℤ).insert (idOf 1) 5,
    (∅ : Map CTxDestination (List UInt8)).insert (.keyID (idOf 1)) label⟩

/-- A label with a space, a comment sign and the end of a line comes back. -/
theorem dump_restores_label :
    letI := NoKeys.platform
    letI := NoKeys.crypto
    ∃ file v', wallet.dump env times = .ok file ∧
      CWallet.importFile ⟨.new, ∅, ∅⟩ times file = (v', true) ∧
      v'.store.haveKey (idOf 2) = true ∧ v'.mapKeyMetadata[idOf 1]? = some 5 ∧
      v'.mapAddressBook[CTxDestination.keyID (idOf 1)]? = some label ∧
      v'.mapAddressBook[CTxDestination.keyID (idOf 2)]? = none := by
  let := NoKeys.platform
  let := NoKeys.crypto
  have hopen : Opened wallet.store wallet.store.mapKeys := opened_of_unencrypted (.addKey (.addKey .new _) _)
  have hnew : Opened CCryptoKeyStore.new ∅ := opened_of_unencrypted .new
  have htimes : ∀ t, times.decode (times.encode t) = t := fun t => by
    unfold times
    dsimp only
    by_cases hneg : t < 0
    · rw [if_pos hneg, List.head?_cons, if_pos rfl, List.tail_cons, List.length_replicate]
      omega
    · rw [if_neg hneg, List.head?_cons, if_neg (by decide), List.tail_cons, List.length_replicate]
      omega
  obtain ⟨file, v', hfile, hread, hkeys, hbirth, hlabel, hother⟩ := dump_restores wallet
    ⟨.new, ∅, ∅⟩ env times wallet.store.mapKeys hopen hnew
    (fun key => by rw [addKey_of_plain rfl]) fun id t _ => htimes t
  have hfirst : wallet.store.haveKey (idOf 1) = true := by decide
  have hnoLabel : wallet.mapAddressBook[CTxDestination.keyID (idOf 2)]? = none := by decide
  refine ⟨file, v', hfile, hread, ?_, ?_, hlabel (idOf 1) hfirst label (by decide), ?_⟩
  · rw [(hkeys (idOf 2)).1]
    decide
  · obtain ⟨t, ht, ht'⟩ := hbirth (idOf 1) hfirst
    rw [ht', ← ht]
    decide +kernel
  · rw [hother _ fun id _ heq => heq ▸ hnoLabel]
    rfl

end TwoKeys

end Dump

end CryptoBullion
