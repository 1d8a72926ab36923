import CryptoBullion.Model.Records
import CryptoBullion.Text.Money
/-!
# Records are read as they were written

What is hidden in the map comes out of it again, and the map is left as it
was, because its own keys are none of those it hides things under. A number
is read from the digits it was printed in, and a comment ends at its first
NUL, which is the one that was put there.
-/

namespace CryptoBullion

namespace Records

/-! ## Numbers -/

section
variable {s : List UInt8} {c : UInt8} {n : ℤ}

/-- A digit is no sign, no space and no NUL. -/
theorem digit_spec (h : isDigit c = true) : c ≠ 45 ∧ c ≠ 43 ∧ c ≠ 0 ∧ isSpace c = false := by
  refine ⟨?_, ?_, ?_, ?_⟩
  · rintro rfl
    exact absurd h (by decide)
  · rintro rfl
    exact absurd h (by decide)
  · rintro rfl
    exact absurd h (by decide)
  · exact Bool.eq_false_of_not_eq_true (not_isSpace_of_isDigit h)

/-- Digits have no sign. -/
theorem signOf_digits (h : ∀ c ∈ s, isDigit c = true) : signOf s = (false, s) := by
  cases s with
  | nil => rfl
  | cons c s =>
    obtain ⟨hminus, hplus, -, -⟩ := digit_spec (h c List.mem_cons_self)
    show (if c = 45 then (true, s) else if c = 43 then (false, s) else (false, c :: s)) = _
    rw [if_neg hminus, if_neg hplus]

theorem dropWhile_digits (h : ∀ c ∈ s, isDigit c = true) : s.dropWhile isSpace = s := by
  cases s with
  | nil => rfl
  | cons c s =>
    obtain ⟨-, -, -, hspace⟩ := digit_spec (h c List.mem_cons_self)
    rw [List.dropWhile_cons, if_neg (by rw [hspace]; exact Bool.false_ne_true)]

/-- **A number is read** as it was printed. -/
theorem strtoll_printInt (hn : -2 ^ 63 ≤ n ∧ n < 2 ^ 63) : strtoll (printInt n) = n := by
  obtain ⟨hdigits, hvalue, -⟩ := printDecimal_spec (k := 0) n.natAbs
  have hall : (printDecimal n.natAbs).takeWhile isDigit = printDecimal n.natAbs :=
    List.takeWhile_eq_self_iff.2 hdigits
  have hcstr : cStr (printInt n) = printInt n := by
    refine List.takeWhile_eq_self_iff.2 fun c hc => ?_
    unfold printInt at hc
    have hdigit : c = 45 ∨ isDigit c = true := by
      split_ifs at hc
      · exact (List.mem_cons.1 hc).imp_right (hdigits c)
      · exact .inr (hdigits c hc)
    rcases hdigit with rfl | hdigit
    · decide
    · simpa using (digit_spec hdigit).2.2.1
  unfold strtoll
  rw [hcstr]
  unfold printInt
  split_ifs with hneg
  · have hminus : signOf ((45 :: printDecimal n.natAbs).dropWhile isSpace) =
      (true, printDecimal n.natAbs) := rfl
    dsimp only
    rw [hminus]
    dsimp only
    rw [hall, hvalue, if_pos rfl]
    omega
  · dsimp only
    rw [dropWhile_digits hdigits, signOf_digits hdigits]
    dsimp only
    rw [hall, hvalue, if_neg Bool.false_ne_true]
    omega

/-- So is one without a sign. -/
theorem strtoll_printDecimal {n : ℕ} (hn : n < 2 ^ 32) : strtoll (printDecimal n) = n := by
  have hprint : printDecimal n = printInt n := by
    unfold printInt
    rw [if_neg (by omega), Int.natAbs_natCast]
  rw [hprint]
  exact strtoll_printInt (by omega)

end

/-! ## Maps -/

section
variable {κ α : Type} [Ord κ] [Std.TransOrd κ] [Std.LawfulEqOrd κ]

/-- Items of different keys are all there, if none was there before. -/
theorem getElem?_foldl_insertIfNew {l : List (κ × α)} {m : Map κ α} {k : κ} {v : α}
    (hdistinct : l.Pairwise fun a b => ¬ compare a.1 b.1 = .eq) (hnew : ∀ item ∈ l, item.1 ∉ m) :
    (l.foldl (fun m item => m.insertIfNew item.1 item.2) m)[k]? = some v ↔
      m[k]? = some v ∨ (k, v) ∈ l := by
  induction l generalizing m with
  | nil => simp
  | cons a l ih =>
    obtain ⟨hfirst, hrest⟩ := List.pairwise_cons.1 hdistinct
    obtain ⟨ha, hl⟩ := List.forall_mem_cons.1 hnew
    have hnew' : ∀ item ∈ l, item.1 ∉ m.insertIfNew a.1 a.2 := by
      intro item hitem hmem
      rcases Std.ExtTreeMap.mem_insertIfNew.1 hmem with heq | hmem
      · exact hfirst item hitem heq
      · exact hl item hitem hmem
    rw [List.foldl_cons, ih hrest hnew', Std.ExtTreeMap.getElem?_insertIfNew, List.mem_cons]
    by_cases hk : a.1 = k
    · obtain rfl := hk
      have hnone : m[a.1]? = none := Std.ExtTreeMap.getElem?_eq_none ha
      rw [if_pos ⟨Std.ReflCmp.compare_self, ha⟩, hnone]
      constructor
      · rintro (h | h)
        · exact .inr (.inl (Prod.ext rfl (Option.some.inj h).symm))
        · exact .inr (.inr h)
      · rintro (h | h | h)
        · exact absurd h (by simp)
        · exact .inl (congrArg (fun item => some item.2) h).symm
        · exact .inr h
    · rw [if_neg fun h => hk (Std.LawfulEqOrd.eq_of_compare h.1)]
      constructor
      · rintro (h | h)
        · exact .inl h
        · exact .inr (.inr h)
      · rintro (h | h | h)
        · exact .inl h
        · exact absurd (congrArg Prod.fst h).symm hk
        · exact .inr h

/-- **A map is put together again** from its items. -/
theorem foldl_toList (m : Map κ α) :
    m.toList.foldl (fun m item => m.insertIfNew item.1 item.2) ∅ = m := by
  refine Std.ExtTreeMap.ext_getElem? fun k => Option.ext fun v => ?_
  rw [getElem?_foldl_insertIfNew Std.ExtTreeMap.distinct_keys_toList (by simp),
    Std.ExtTreeMap.mem_toList_iff_getElem?_eq_some]
  simp

end

/-- The strings of a map have sizes that are read, and there are not too many. -/
def MapValue.Readable (m : MapValue) : Prop :=
  m.size ≤ maxSize ∧ ∀ k v : List UInt8, m[k]? = some v → k.length ≤ maxSize ∧ v.length ≤ maxSize

theorem codec_pair : Codec unserializePair serializePair
    (fun item => item.1.length ≤ maxSize ∧ item.2.length ≤ maxSize) :=
  codec_unserializeBytes.pair codec_unserializeBytes

/-- **A map is read** as it was written. -/
theorem unserializeMap_writes {m : MapValue} {r : List UInt8} (hm : m.Readable) :
    unserializeMap (serializeMap m ++ r) = .ok (m, r) := by
  have hitems : m.toList.length ≤ maxSize ∧
      ∀ item ∈ m.toList, item.1.length ≤ maxSize ∧ item.2.length ≤ maxSize := by
    refine ⟨by rw [Std.ExtTreeMap.length_toList]; exact hm.1, fun item hitem => ?_⟩
    exact hm.2 _ _ (Std.ExtTreeMap.mem_toList_iff_getElem?_eq_some.1 hitem)
  have hread := (codec_unserializeVector codec_pair).writes (r := r) hitems
  unfold unserializeMap
  rw [map_eq_pure_bind, serializeMap, Decoder.bind_of_ok hread, foldl_toList]
  rfl

/-! ## Keys -/

theorem getElem?_put {m : MapValue} {k a v : List UInt8} :
    (m.insert k v)[a]? = if k = a then some v else m[a]? := by
  rw [Std.ExtTreeMap.getElem?_insert]
  simp only [Std.compare_eq_iff_eq]

theorem getElem?_cut {m : MapValue} {k a : List UInt8} :
    (m.erase k)[a]? = if k = a then none else m[a]? := by
  rw [Std.ExtTreeMap.getElem?_erase]
  simp only [Std.compare_eq_iff_eq]

/-- The keys a transaction's own fields are written under. -/
def reservedKeys : List (List UInt8) :=
  [text "fromaccount", text "version", text "spent", text "n", text "timesmart"]

theorem nodup_reservedKeys : reservedKeys.Nodup := by decide

/-- Other keys are as they were. -/
theorem getElem?_eraseReserved {m : MapValue} {k : List UInt8} :
    (eraseReserved m)[k]? = if k ∈ reservedKeys then none else m[k]? := by
  unfold eraseReserved reservedKeys
  simp only [getElem?_cut, List.mem_cons, List.not_mem_nil, or_false, @eq_comm _ k]
  split_ifs <;> simp_all

section
variable {wtx : CWalletTx} {k : List UInt8}

theorem getElem?_writeOrderPos (nOrderPos : ℤ) (m : MapValue) (k : List UInt8) : (writeOrderPos nOrderPos m)[k]? =
    if nOrderPos ≠ -1 ∧ text "n" = k then some (printInt nOrderPos) else m[k]? := by
  unfold writeOrderPos
  split_ifs with h h' h'
  · exact absurd h h'.1
  · rfl
  · rw [getElem?_put, if_pos h'.2]
  · rw [getElem?_put, if_neg fun heq => h' ⟨h, heq⟩]

/-- **What is written under a key**: a field of the transaction, or what the
map has. -/
theorem getElem?_written : wtx.written[k]? =
    if wtx.nTimeSmart ≠ 0 ∧ text "timesmart" = k then some (printDecimal wtx.nTimeSmart)
    else if wtx.nOrderPos ≠ -1 ∧ text "n" = k then some (printInt wtx.nOrderPos)
    else if text "spent" = k then some (wtx.vfSpent.map fun f => if f ≠ 0 then 49 else 48)
    else if text "fromaccount" = k then some wtx.strFromAccount
    else wtx.mapValue[k]? := by
  have hinner := getElem?_writeOrderPos wtx.nOrderPos
    ((wtx.mapValue.insert (text "fromaccount") wtx.strFromAccount).insert (text "spent")
      (wtx.vfSpent.map fun f => if f ≠ 0 then 49 else 48)) k
  rw [getElem?_put, getElem?_put] at hinner
  unfold CWalletTx.written
  dsimp only
  by_cases htime : wtx.nTimeSmart ≠ 0
  · rw [if_pos htime, getElem?_put, hinner]
    by_cases hk : text "timesmart" = k
    · rw [if_pos hk, if_pos ⟨htime, hk⟩]
    · rw [if_neg hk]
      exact (if_neg fun h => hk h.2).symm
  · rw [if_neg htime, hinner]
    exact (if_neg fun h => htime h.1).symm

/-- **The map is left as it was**, if it had none of the keys. -/
theorem eraseReserved_written (hreserved : ∀ k ∈ reservedKeys, k ∉ wtx.mapValue) :
    eraseReserved wtx.written = wtx.mapValue := by
  refine Std.ExtTreeMap.ext_getElem? fun k => ?_
  rw [getElem?_eraseReserved]
  split_ifs with hk
  · rw [Std.ExtTreeMap.getElem?_eq_none (hreserved k hk)]
  · have hne : ∀ k' ∈ reservedKeys, k' ≠ k := fun k' hk' heq => hk (heq ▸ hk')
    rw [getElem?_written, if_neg fun h => hne (text "timesmart") (by decide) h.2,
      if_neg fun h => hne (text "n") (by decide) h.2, if_neg (hne (text "spent") (by decide)),
      if_neg (hne (text "fromaccount") (by decide))]

theorem written_fromaccount : wtx.written[text "fromaccount"]? = some wtx.strFromAccount := by
  rw [getElem?_written, if_neg fun h => absurd h.2 (by decide), if_neg fun h => absurd h.2 (by decide),
    if_neg (by decide), if_pos rfl]

/-- The flags are read as they are compared. -/
theorem readSpent_written (nOutputs : ℕ) (fSpent : UInt8) :
    readSpent wtx.written nOutputs fSpent = wtx.vfSpent.map fun f => if f ≠ 0 then 1 else 0 := by
  unfold readSpent
  rw [getElem?_written, if_neg fun h => absurd h.2 (by decide), if_neg fun h => absurd h.2 (by decide),
    if_pos rfl]
  dsimp only
  rw [List.map_map]
  refine List.map_congr_left fun f _ => ?_
  by_cases hf : f = 0 <;> simp [hf]

/-- **The position is read** as it was written, the one that stands for none
included. -/
theorem readOrderPos_writeOrderPos {nOrderPos : ℤ} {m : MapValue}
    (hrange : -2 ^ 63 ≤ nOrderPos ∧ nOrderPos < 2 ^ 63) (hn : text "n" ∉ m) :
    readOrderPos (writeOrderPos nOrderPos m) = nOrderPos := by
  unfold readOrderPos
  rw [getElem?_writeOrderPos]
  by_cases h : nOrderPos = -1
  · rw [if_neg fun h' => h'.1 h, Std.ExtTreeMap.getElem?_eq_none hn, h]
  · rw [if_pos ⟨h, rfl⟩]
    exact strtoll_printInt hrange

theorem readOrderPos_written (hrange : -2 ^ 63 ≤ wtx.nOrderPos ∧ wtx.nOrderPos < 2 ^ 63)
    (hreserved : ∀ k ∈ reservedKeys, k ∉ wtx.mapValue) : readOrderPos wtx.written = wtx.nOrderPos := by
  have hkeep : wtx.written[text "n"]? = (writeOrderPos wtx.nOrderPos wtx.mapValue)[text "n"]? := by
    have hspent : text "spent" ≠ text "n" := by decide
    have hfrom : text "fromaccount" ≠ text "n" := by decide
    rw [getElem?_written, getElem?_writeOrderPos, if_neg fun h => absurd h.2 (by decide),
      if_neg hspent, if_neg hfrom]
  have hread := readOrderPos_writeOrderPos hrange (hreserved (text "n") (by decide))
  unfold readOrderPos at hread ⊢
  rw [hkeep]
  exact hread

/-- And so is the time. -/
theorem readTimeSmart_written (hrange : wtx.nTimeSmart < 2 ^ 32)
    (hreserved : ∀ k ∈ reservedKeys, k ∉ wtx.mapValue) :
    readTimeSmart wtx.written = wtx.nTimeSmart := by
  unfold readTimeSmart
  rw [getElem?_written]
  by_cases htime : wtx.nTimeSmart = 0
  · rw [if_neg fun h => h.1 htime, if_neg fun h => absurd h.2 (by decide), if_neg (by decide),
      if_neg (by decide), Std.ExtTreeMap.getElem?_eq_none (hreserved (text "timesmart") (by decide)),
      htime]
  · rw [if_pos ⟨htime, rfl⟩]
    dsimp only
    rw [strtoll_printDecimal hrange, Int.emod_eq_of_lt (by omega) (by exact_mod_cast hrange),
      Int.toNat_natCast]

end

/-! ## Wallet transactions -/

/-- The fields are in the range of their types, and what is read by its size
is not too large. -/
def MerkleTxReadable (wtx : CMerkleTx) : Prop :=
  wtx.tx.WellTyped ∧ wtx.vMerkleBranch.length ≤ maxSize ∧ -2 ^ 31 ≤ wtx.nIndex ∧ wtx.nIndex < 2 ^ 31

theorem codec_merkleTx : Codec unserializeMerkleTx serializeMerkleTx MerkleTxReadable := by
  have hfields : Codec _ _ MerkleTxReadable := (codec_transaction.pair (codec_readHash.pair
    ((codec_unserializeVector codec_readHash).pair (codec_readInt (k := 4) (by omega))))).map
    (f := fun x => CMerkleTx.mk x.1 x.2.1 x.2.2.1 x.2.2.2)
    (g := fun wtx => (wtx.tx, wtx.hashBlock, wtx.vMerkleBranch, wtx.nIndex))
    (fun x hx => ⟨by simpa [MerkleTxReadable] using hx, rfl⟩)
    (fun wtx hwtx => ⟨by simpa [MerkleTxReadable] using hwtx, rfl⟩)
  have hread : unserializeMerkleTx = (fun x => CMerkleTx.mk x.1 x.2.1 x.2.2.1 x.2.2.2) <$>
      CTransaction.unserialize.pair (readHash.pair ((unserializeVector readHash).pair (readInt 4))) := by
    simp [unserializeMerkleTx, Decoder.pair]
  have hwrite : serializeMerkleTx = fun wtx => wtx.tx.serialize ++ (serializeHash wtx.hashBlock ++
      (serializeVector serializeHash wtx.vMerkleBranch ++ leInt 4 wtx.nIndex)) := by
    funext wtx
    simp only [serializeMerkleTx, List.append_assoc]
  rw [hread, hwrite]
  exact hfields

theorem readChar_writes {b : UInt8} {r : List UInt8} : readChar ([b] ++ r) = .ok (b, r) := by
  have hlt := b.toNat_lt
  have hbyte : readLe 1 ([b] ++ r) = .ok (b.toNat, r) := by
    refine readLe_eq_ok.2 ⟨by omega, ?_⟩
    show [b] ++ r = [UInt8.ofNat (b.toNat % 256)] ++ r
    rw [Nat.mod_eq_of_lt hlt, UInt8.ofNat_toNat]
  unfold readChar
  rw [map_eq_pure_bind, Decoder.bind_of_ok hbyte]
  show Except.ok (UInt8.ofNat b.toNat, r) = _
  rw [UInt8.ofNat_toNat]

/-- The fields are in the range of their types, and no string, vector or map
is larger, as it is written, than one that is read. -/
structure CWalletTx.Readable (wtx : CWalletTx) : Prop where
  merkleTx : MerkleTxReadable wtx.merkleTx
  vtxPrev : wtx.vtxPrev.length ≤ maxSize ∧ ∀ prev ∈ wtx.vtxPrev, MerkleTxReadable prev
  written : wtx.written.Readable
  vOrderForm : wtx.vOrderForm.length ≤ maxSize ∧
    ∀ item ∈ wtx.vOrderForm, item.1.length ≤ maxSize ∧ item.2.length ≤ maxSize
  fTimeReceivedIsTxTime : wtx.fTimeReceivedIsTxTime < 2 ^ 32
  nTimeReceived : wtx.nTimeReceived < 2 ^ 32
  nTimeSmart : wtx.nTimeSmart < 2 ^ 32
  nOrderPos : -2 ^ 63 ≤ wtx.nOrderPos ∧ wtx.nOrderPos < 2 ^ 63

/-- The flags, as they are compared. -/
def CWalletTx.withBooleans (wtx : CWalletTx) : CWalletTx :=
  { wtx with vfSpent := wtx.vfSpent.map fun f => if f ≠ 0 then 1 else 0 }

/-- **A wallet transaction is read** as it was written. -/
theorem walletTx_read {wtx : CWalletTx} (h : wtx.Readable)
    (hreserved : ∀ k ∈ reservedKeys, k ∉ wtx.mapValue) (r : List UInt8) :
    CWalletTx.unserialize (wtx.serialize.1 ++ r) = .ok (wtx.withBooleans, r) := by
  have h256 : ∀ {n : ℕ}, n < 2 ^ 32 → n < 256 ^ 4 := fun h => by norm_num at h ⊢; exact h
  unfold CWalletTx.unserialize CWalletTx.serialize
  dsimp only
  simp only [List.append_assoc]
  rw [Decoder.bind_of_ok (codec_merkleTx.writes h.merkleTx),
    Decoder.bind_of_ok ((codec_unserializeVector codec_merkleTx).writes h.vtxPrev),
    Decoder.bind_of_ok (unserializeMap_writes h.written),
    Decoder.bind_of_ok ((codec_unserializeVector codec_pair).writes h.vOrderForm),
    Decoder.bind_of_ok (codec_readLe.writes (h256 h.fTimeReceivedIsTxTime)),
    Decoder.bind_of_ok (codec_readLe.writes (h256 h.nTimeReceived)),
    Decoder.bind_of_ok readChar_writes, Decoder.bind_of_ok readChar_writes]
  rw [Decoder.pure_apply, readTimeSmart_written h.nTimeSmart hreserved, readSpent_written,
    written_fromaccount, readOrderPos_written h.nOrderPos hreserved, eraseReserved_written hreserved]
  rfl

/-- Writing it leaves it alone. -/
theorem walletTx_unchanged {wtx : CWalletTx} (hreserved : ∀ k ∈ reservedKeys, k ∉ wtx.mapValue) :
    wtx.serialize.2 = wtx := by
  unfold CWalletTx.serialize
  dsimp only
  rw [eraseReserved_written hreserved]

/-! ## Accounting entries -/

/-- The fields are in the range of their types, and no string is larger, as
it is written, than one that is read. -/
structure CAccountingEntry.Readable (nVersion : ℤ) (entry : CAccountingEntry) : Prop where
  nVersion : -2 ^ 31 ≤ nVersion ∧ nVersion < 2 ^ 31
  nCreditDebit : -2 ^ 63 ≤ entry.nCreditDebit ∧ entry.nCreditDebit < 2 ^ 63
  nTime : -2 ^ 63 ≤ entry.nTime ∧ entry.nTime < 2 ^ 63
  strOtherAccount : entry.strOtherAccount.length ≤ maxSize
  written : entry.written.length ≤ maxSize
  nOrderPos : -2 ^ 63 ≤ entry.nOrderPos ∧ entry.nOrderPos < 2 ^ 63

/-- A map that has been written in few bytes has few of them. -/
theorem readable_of_length {m : MapValue} (h : (serializeMap m).length ≤ maxSize) : m.Readable := by
  unfold serializeMap serializeVector at h
  rw [List.length_append, List.length_flatMap] at h
  have hsize : ∀ n, 1 ≤ getSizeOfCompactSize n := by
    intro n
    unfold getSizeOfCompactSize
    split_ifs <;> omega
  have hitem : ∀ item ∈ m.toList, item.1.length + item.2.length + 1 ≤ (serializePair item).length := by
    intro item _
    have hkey := hsize item.1.length
    unfold serializePair serializeBytes
    simp only [List.length_append, length_writeCompactSize]
    omega
  constructor
  · have hcount := List.length_le_sum_of_one_le (m.toList.map fun item => (serializePair item).length)
      (List.forall_mem_map.2 fun item hmem => by
        have := hitem item hmem
        omega)
    rw [List.length_map, Std.ExtTreeMap.length_toList] at hcount
    omega
  · intro k v hkv
    have hmem := Std.ExtTreeMap.mem_toList_iff_getElem?_eq_some.2 hkv
    have hle := List.le_sum_of_mem (List.mem_map_of_mem (f := fun item => (serializePair item).length)
      hmem)
    have hlong := hitem _ hmem
    dsimp only at hle hlong
    omega

section
variable {entry : CAccountingEntry}

/-- The comment ends at its first NUL. -/
theorem takeWhile_written (hcomment : 0 ∉ entry.strComment) :
    entry.written.takeWhile (· ≠ 0) = entry.strComment := by
  have hall : ∀ c ∈ entry.strComment, decide (c ≠ 0) = true := fun c hc =>
    decide_eq_true fun h => hcomment (h ▸ hc)
  unfold CAccountingEntry.written
  dsimp only
  split_ifs
  · exact List.takeWhile_eq_self_iff.2 hall
  · rw [List.takeWhile_append_of_pos hall]
    exact List.append_nil _

/-- What is behind the comment: nothing, or a NUL and the rest. -/
theorem dropWhile_written (hcomment : 0 ∉ entry.strComment) :
    entry.written.dropWhile (· ≠ 0) =
      if (writeOrderPos entry.nOrderPos entry.mapValue).isEmpty && entry.ssExtra.isEmpty then []
      else 0 :: (serializeMap (writeOrderPos entry.nOrderPos entry.mapValue) ++ entry.ssExtra) := by
  have hall : ∀ c ∈ entry.strComment, decide (c ≠ 0) = true := fun c hc =>
    decide_eq_true fun h => hcomment (h ▸ hc)
  unfold CAccountingEntry.written
  dsimp only
  split_ifs
  · exact List.dropWhile_eq_nil_iff.2 hall
  · rw [List.dropWhile_append_of_pos hall]
    rfl

theorem erase_writeOrderPos (hn : text "n" ∉ entry.mapValue) :
    (writeOrderPos entry.nOrderPos entry.mapValue).erase (text "n") = entry.mapValue := by
  refine Std.ExtTreeMap.ext_getElem? fun k => ?_
  rw [getElem?_cut, getElem?_writeOrderPos]
  split_ifs with hk h
  · rw [← hk, Std.ExtTreeMap.getElem?_eq_none hn]
  · exact absurd h.2 hk
  · rfl

/-- **The map and what is behind it** are read from the comment. -/
theorem read_written {nVersion : ℤ} (h : entry.Readable nVersion) (hcomment : 0 ∉ entry.strComment) :
    CAccountingEntry.readComment .new entry.written =
      .ok (writeOrderPos entry.nOrderPos entry.mapValue, entry.ssExtra) := by
  unfold CAccountingEntry.readComment
  rw [dropWhile_written hcomment]
  by_cases hempty : ((writeOrderPos entry.nOrderPos entry.mapValue).isEmpty &&
    entry.ssExtra.isEmpty) = true
  · obtain ⟨hmap, hextra⟩ := Bool.and_eq_true_iff.1 hempty
    rw [if_pos hempty, List.isEmpty_iff.1 hextra, Std.ExtTreeMap.isEmpty_iff.1 hmap]
    rfl
  · rw [if_neg hempty]
    have hlen : (serializeMap (writeOrderPos entry.nOrderPos entry.mapValue)).length ≤ maxSize := by
      have hwritten := h.written
      unfold CAccountingEntry.written at hwritten
      dsimp only at hwritten
      rw [if_neg hempty] at hwritten
      simp only [List.length_append] at hwritten
      omega
    exact unserializeMap_writes (readable_of_length hlen)

theorem readVersion_writes {nType : ℕ} {nVersion : ℤ} (h : -2 ^ 31 ≤ nVersion ∧ nVersion < 2 ^ 31)
    (r : List UInt8) :
    readVersion nType ((if nType &&& serGetHash = 0 then leInt 4 nVersion else []) ++ r) = .ok ((), r) := by
  unfold readVersion
  split_ifs
  · rw [map_eq_pure_bind, Decoder.bind_of_ok ((codec_readInt (by omega)).writes h)]
    rfl
  · rfl

/-- **An accounting entry is read** as it was written, into a new one. -/
theorem accountingEntry_read {nType : ℕ} {nVersion : ℤ} (h : entry.Readable nVersion)
    (hcomment : 0 ∉ entry.strComment) (hn : text "n" ∉ entry.mapValue) (r : List UInt8) :
    CAccountingEntry.unserialize nType .new ((entry.serialize nType nVersion).1 ++ r) =
      .ok (entry, r) := by
  unfold CAccountingEntry.unserialize CAccountingEntry.serialize
  dsimp only
  simp only [List.append_assoc]
  rw [Decoder.bind_of_ok (readVersion_writes h.nVersion _),
    Decoder.bind_of_ok ((codec_readInt (by omega)).writes h.nCreditDebit),
    Decoder.bind_of_ok ((codec_readInt (by omega)).writes h.nTime),
    Decoder.bind_of_ok (codec_unserializeBytes.writes h.strOtherAccount),
    Decoder.bind_of_ok (codec_unserializeBytes.writes h.written), read_written h hcomment]
  dsimp only
  rw [Decoder.pure_apply, takeWhile_written hcomment, erase_writeOrderPos hn,
    readOrderPos_writeOrderPos h.nOrderPos hn]

/-- Writing it leaves it alone. -/
theorem accountingEntry_unchanged {nType : ℕ} {nVersion : ℤ} (hcomment : 0 ∉ entry.strComment)
    (hn : text "n" ∉ entry.mapValue) : (entry.serialize nType nVersion).2 = entry := by
  unfold CAccountingEntry.serialize
  dsimp only
  rw [takeWhile_written hcomment, erase_writeOrderPos hn]

end

/-! ## Storage -/

/-- **Records survive storage**: what is read is what was written, with the
flags as they are compared and whatever follows left where it is; and what
was written is in memory as before, so that it is written the same again. -/
theorem walletRecords_kept :
    (∀ wtx : CWalletTx, wtx.Readable → (∀ k ∈ reservedKeys, k ∉ wtx.mapValue) →
      (∀ r, CWalletTx.unserialize (wtx.serialize.1 ++ r) = .ok (wtx.withBooleans, r)) ∧
      wtx.serialize.2 = wtx ∧ wtx.serialize.2.serialize.1 = wtx.serialize.1) ∧
    ∀ (nType : ℕ) (nVersion : ℤ) (entry : CAccountingEntry), entry.Readable nVersion →
      0 ∉ entry.strComment → text "n" ∉ entry.mapValue →
      (∀ r, CAccountingEntry.unserialize nType .new ((entry.serialize nType nVersion).1 ++ r) =
        .ok (entry, r)) ∧
      (entry.serialize nType nVersion).2 = entry ∧
      ((entry.serialize nType nVersion).2.serialize nType nVersion).1 =
        (entry.serialize nType nVersion).1 := by
  constructor
  · intro wtx h hreserved
    refine ⟨walletTx_read h hreserved, walletTx_unchanged hreserved, ?_⟩
    rw [walletTx_unchanged hreserved]
  · intro nType nVersion entry h hcomment hn
    refine ⟨accountingEntry_read h hcomment hn, accountingEntry_unchanged hcomment hn, ?_⟩
    rw [accountingEntry_unchanged hcomment hn]

/-- A transaction with an account, a flag, a position and a time. -/
def spentTx : CWalletTx where
  merkleTx := ⟨⟨1, 0, [], [⟨0, []⟩], 0⟩, 0, [], -1⟩
  vtxPrev := []
  mapValue := ∅
  vOrderForm := [(text "to", text "Bob")]
  fTimeReceivedIsTxTime := 1
  nTimeReceived := 7
  nTimeSmart := 1234
  fFromMe := 1
  strFromAccount := text "savings"
  vfSpent := [5]
  nOrderPos := -2

/-- An entry with a position and bytes behind its map. -/
def movedEntry : CAccountingEntry :=
  ⟨-3, 9, text "savings", text "rent", ∅, 12, [1, 2]⟩

theorem walletRecords_kept_spentTx :
    CWalletTx.unserialize (spentTx.serialize.1 ++ []) = .ok ({ spentTx with vfSpent := [1] }, []) ∧
      CAccountingEntry.unserialize serDisk .new ((movedEntry.serialize serDisk 60000).1 ++ []) =
        .ok (movedEntry, []) := by
  have hlen : ∀ {s : List UInt8}, s.length < 100 → s.length ≤ maxSize := fun h => by
    unfold maxSize
    omega
  have hwritten : (serializeMap spentTx.written).length < 100 := by decide
  have hmerkle : MerkleTxReadable spentTx.merkleTx := by
    simp [MerkleTxReadable, CTransaction.WellTyped, CTxOut.WellTyped, spentTx, maxSize]
  have hentry : movedEntry.written.length < 100 := by decide
  exact ⟨(walletRecords_kept.1 spentTx
    ⟨hmerkle, by simp [spentTx], readable_of_length (hlen hwritten), by decide, by decide, by decide, by decide, by decide⟩
    (by simp [spentTx])).1 [],
    (walletRecords_kept.2 serDisk 60000 movedEntry
      ⟨by decide, by decide, by decide, by decide, hlen hentry, by decide⟩ (by decide)
      (by simp [movedEntry])).1 []⟩

/-- **A name** of more than thirty-two megabytes is written and not read. -/
theorem accountingEntry_tooLarge :
    let entry := { CAccountingEntry.new with strOtherAccount := List.replicate (maxSize + 1) 97 }
    0 ∉ entry.strComment ∧ text "n" ∉ entry.mapValue ∧
      CAccountingEntry.unserialize serDisk .new ((entry.serialize serDisk 60000).1 ++ []) =
        .error (.exception "ReadCompactSize() : size too large") := by
  intro entry
  refine ⟨by simp [entry, CAccountingEntry.new], by simp [entry, CAccountingEntry.new], ?_⟩
  have hlen : entry.strOtherAccount.length = maxSize + 1 := List.length_replicate
  have hsize : ∀ q, readCompactSize (writeCompactSize (maxSize + 1) ++ q) =
      .error (.exception "ReadCompactSize() : size too large") := by
    intro q
    unfold readCompactSize Decoder.check
    rw [Decoder.bind_of_ok (codec_readSizeForm.writes (by decide))]
    rfl
  have hname : ∀ q, unserializeBytes (serializeBytes entry.strOtherAccount ++ q) =
      .error (.exception "ReadCompactSize() : size too large") := by
    intro q
    unfold unserializeBytes serializeBytes
    rw [hlen, List.append_assoc, Decoder.bind_of_error (hsize _)]
  unfold CAccountingEntry.unserialize CAccountingEntry.serialize
  dsimp only
  simp only [List.append_assoc]
  rw [Decoder.bind_of_ok (readVersion_writes (by norm_num) _),
    Decoder.bind_of_ok ((codec_readInt (by omega)).writes (by simp [entry, CAccountingEntry.new])),
    Decoder.bind_of_ok ((codec_readInt (by omega)).writes (by simp [entry, CAccountingEntry.new])),
    Decoder.bind_of_error (hname _)]

end Records

end CryptoBullion
