import CryptoBullion.Model.AddressText
import CryptoBullion.Targets.BigNum
import CryptoBullion.Text.BaseCodes
import CryptoBullion.Wallet.Records
/-!
# Overlay addresses as text

The host name of an overlay address has no colon and no bracket in it, so
what is printed for a service is split where it was put together. The name
is read back for Tor; for I2P the bytes in front are those of Tor.
-/

namespace CryptoBullion

namespace CNetAddr

variable {addr : CNetAddr} {l v : List UInt8}

/-! ## The bytes of an address -/

@[simp] theorem length_ip : (ip addr).length = 16 := by
  rw [ip, List.length_map, List.length_range]

/-- **The bytes are the address.** -/
theorem ofIp_ip (addr : CNetAddr) : ofIp (ip addr) = addr := by
  have hbytes : ip addr = beBytes 16 addr.toNat := by
    have hbyte : ∀ n, getByte addr n = UInt8.ofNat (addr.toNat / 256 ^ n % 256) := by
      intro n
      rw [getByte, BitVec.toNat_ushiftRight, Nat.shiftRight_eq_div_pow, two_fifty_six_pow]
      exact UInt8.toNat_inj.1 (by simp)
    have hall : ∀ k ≤ 16, (List.range' (16 - k) k).map (fun n => getByte addr (15 - n)) =
        beBytes k addr.toNat := by
      intro k hk
      induction k with
      | zero => rfl
      | succ k ih =>
        rw [List.range'_succ, List.map_cons, hbyte, beBytes_succ,
          show 15 - (16 - (k + 1)) = k by omega, show 16 - (k + 1) + 1 = 16 - k by omega,
          ih (by omega)]
    exact (congrArg (List.map _) List.range_eq_range').trans (hall 16 le_rfl)
  rw [ofIp, hbytes, ofBeBytes_beBytes (addr.isLt.trans_eq (by norm_num)), BitVec.ofNat_toNat,
    BitVec.setWidth_eq]

/-- Sixteen bytes are those of one address. -/
theorem ofIp_inj {l l' : List UInt8} (hl : l.length = 16) (hl' : l'.length = 16)
    (h : ofIp l = ofIp l') : l = l' := by
  have hlt : ∀ v : List UInt8, v.length = 16 → ofBeBytes v < 2 ^ 128 := fun v hv =>
    (ofBeBytes_lt v).trans_eq (by rw [hv]; norm_num)
  have hvalue := congrArg BitVec.toNat h
  rw [ofIp, ofIp, BitVec.toNat_ofNat, BitVec.toNat_ofNat, Nat.mod_eq_of_lt (hlt l hl),
    Nat.mod_eq_of_lt (hlt l' hl')] at hvalue
  rw [← beBytes_ofBeBytes l, ← beBytes_ofBeBytes l', hl, hl', hvalue]

theorem ip_inj {a b : CNetAddr} (h : ip a = ip b) : a = b := by
  rw [← ofIp_ip a, h, ofIp_ip]

/-- An address that starts with six bytes is these and ten more. -/
theorem ip_of_startsWith {pch : List UInt8} (hlen : pch.length = 6)
    (h : startsWith addr pch = true) : ip addr = pch ++ ((ip addr).drop 6).take 10 := by
  have htake : (ip addr).take 6 = pch := by
    rw [← hlen]
    exact of_decide_eq_true h
  have hdrop : ((ip addr).drop 6).take 10 = (ip addr).drop 6 :=
    List.take_of_length_le (by rw [List.length_drop, length_ip])
  rw [hdrop, ← htake, List.take_append_drop]

/-- No address is of both networks. -/
theorem not_isI2P_of_isTor (h : isTor addr = true) : isI2P addr = false := by
  refine Bool.eq_false_of_not_eq_true fun h' => ?_
  have hne : pchOnionCat ≠ pchGarliCat := by decide
  exact hne ((of_decide_eq_true h).symm.trans (of_decide_eq_true h'))

end CNetAddr

/-! ## Host names -/

/-- A character of Base32 is a letter of the alphabet, or a pad. -/
theorem mem_encodeBase32 {v : List UInt8} {c : UInt8} (h : c ∈ encodeBase32 v) :
    c ∈ padChar :: pbase32 := by
  have hdecode := decodeBase32_encodeBase32 v
  have hvalid : (decodeBase32 (encodeBase32 v)).2 = false := by rw [hdecode]
  have hspell := (encodeBase32_decodeBase32 hvalid).1
  rw [hdecode] at hspell
  rw [hspell] at h
  obtain ⟨d, hd, rfl⟩ := List.mem_map.1 h
  unfold canonical32 at hd
  rcases List.mem_append.1 hd with hd | hd
  · exact List.mem_cons_of_mem _ (by simpa using (List.mem_takeWhile_imp hd))
  · obtain rfl := (List.mem_replicate.1 hd).2
    exact List.mem_cons_self

/-- Nor is it one of those that `SplitHostPort` looks for. -/
theorem plain_encodeBase32 {v : List UInt8} {c : UInt8} (h : c ∈ encodeBase32 v) :
    c ≠ 58 ∧ c ≠ 91 ∧ c ≠ 0 := by
  have hall : ∀ c ∈ padChar :: pbase32, c ≠ 58 ∧ c ≠ 91 ∧ c ≠ 0 := by
    rw [pbase32_eq]
    decide +kernel
  exact hall c (mem_encodeBase32 h)

/-! ## Splitting -/

theorem findLastOf_eq_none {c : UInt8} {s : List UInt8} (h : c ∉ s) : findLastOf c s = none := by
  induction s with
  | nil => rfl
  | cons d s ih =>
    rw [List.mem_cons, not_or] at h
    rw [findLastOf, ih h.2]
    exact if_neg fun hd => h.1 hd.symm

theorem findLastOf_append {c : UInt8} {s t : List UInt8} (h : c ∉ t) :
    findLastOf c (s ++ c :: t) = some s.length := by
  induction s with
  | nil =>
    rw [List.nil_append, findLastOf, findLastOf_eq_none h]
    exact if_pos rfl
  | cons d s ih =>
    rw [List.cons_append, findLastOf, ih]
    rfl

/-- **A printed number is taken whole.** -/
theorem strtolEnds_printDecimal (n : ℕ) : strtolEnds (printDecimal n) = true := by
  obtain ⟨hdigits, -, -⟩ := printDecimal_spec (k := 0) n
  have hcstr : cStr (printDecimal n) = printDecimal n :=
    List.takeWhile_eq_self_iff.2 fun c hc => by
      simpa using (Records.digit_spec (hdigits c hc)).2.2.1
  unfold strtolEnds
  dsimp only
  rw [hcstr, Records.dropWhile_digits hdigits, Records.signOf_digits hdigits,
    List.takeWhile_eq_self_iff.2 hdigits, if_neg printDecimal_ne_nil]
  exact decide_eq_true (List.dropWhile_eq_nil_iff.2 hdigits)

/-- **What was put together is split**: a host name without a colon or a
bracket, and a port. -/
theorem splitHostPort_append {host : List UInt8} {port : ℕ} (hcolon : 58 ∉ host)
    (hbracket : host.getD 0 0 ≠ 91) (hpos : 0 < port) (hport : port < 0x10000) (portOut : ℤ) :
    splitHostPort (host ++ text ":" ++ printDecimal port) portOut = ((port : ℤ), host) := by
  obtain ⟨hdigits, -, -⟩ := printDecimal_spec (k := 0) port
  have htext : text ":" = [58] := by decide
  have hnone : (58 : UInt8) ∉ printDecimal port := fun h => absurd (hdigits 58 h) (by decide)
  have hlast : findLastOf 58 (host ++ 58 :: printDecimal port) = some host.length :=
    findLastOf_append hnone
  have htake : (host ++ 58 :: printDecimal port).take host.length = host := List.take_left
  have hdrop : (host ++ 58 :: printDecimal port).drop (host.length + 1) = printDecimal port := by
    rw [← List.drop_drop, List.drop_left]
    rfl
  have hvalue : toInt32 (Records.strtoll (printDecimal port)) = port := by
    rw [Records.strtoll_printDecimal (by omega), toInt32_eq_self_iff]
    omega
  rw [htext, List.append_assoc, List.singleton_append]
  unfold splitHostPort
  rw [hlast]
  dsimp only
  have hcond : ∀ x y : Bool, (x || y || !(x || (none : Option ℕ).isSome)) = true := by decide
  have hread : (true && decide ((0 : ℤ) ≤ port)) = true := by simp
  rw [htake, hdrop, hvalue, findLastOf_eq_none hcolon, strtolEnds_printDecimal, hcond, hread,
    if_pos rfl, if_pos rfl, if_pos (by omega : 0 < (port : ℤ) ∧ (port : ℤ) < 0x10000)]
  dsimp only
  rw [if_neg fun h => hbracket h.2.1]

/-! ## Reading a name -/

section
variable {v : List UInt8} {suffix : List UInt8}

theorem encodeBase32_ne_nil (hv : v ≠ []) : encodeBase32 v ≠ [] := by
  intro h
  have hdecode := decodeBase32_encodeBase32 v
  rw [h] at hdecode
  exact hv (congrArg Prod.fst hdecode).symm

/-- The bytes that are decoded from the front of a name. -/
theorem decodeBase32_front (v suffix : List UInt8) :
    (decodeBase32 (cStr ((encodeBase32 v ++ suffix).take
      ((encodeBase32 v ++ suffix).length - suffix.length)))).1 = v := by
  have htake : (encodeBase32 v ++ suffix).take
      ((encodeBase32 v ++ suffix).length - suffix.length) = encodeBase32 v := by
    rw [List.length_append, Nat.add_sub_cancel, List.take_left]
  have hcstr : cStr (encodeBase32 v) = encodeBase32 v :=
    List.takeWhile_eq_self_iff.2 fun c hc => by simpa using (plain_encodeBase32 hc).2.2
  rw [htake, hcstr, decodeBase32_encodeBase32]

theorem drop_suffix (s suffix : List UInt8) :
    (s ++ suffix).drop ((s ++ suffix).length - suffix.length) = suffix := by
  rw [List.length_append, Nat.add_sub_cancel, List.drop_left]

namespace CNetAddr

theorem setSpecial_onion (addr : CNetAddr) (hv : v.length = 10) :
    setSpecial addr (encodeBase32 v ++ text ".onion") = (true, ofIp (pchOnionCat ++ v)) := by
  have hlen : (text ".onion").length = 6 := by decide
  have hne : encodeBase32 v ≠ [] := encodeBase32_ne_nil (by
    rintro rfl
    exact absurd hv (by decide))
  have hlong : 6 < (encodeBase32 v ++ text ".onion").length := by
    have hpos := List.length_pos_iff.2 hne
    rw [List.length_append, hlen]
    omega
  have hdrop := drop_suffix (encodeBase32 v) (text ".onion")
  have hfront := decodeBase32_front v (text ".onion")
  rw [hlen] at hdrop hfront
  unfold setSpecial
  rw [if_pos ⟨hlong, hdrop⟩]
  dsimp only
  rw [hfront, if_neg fun h => h hv]

/-- **A name of I2P becomes an address of Tor.** -/
theorem setSpecial_i2p (addr : CNetAddr) (hv : v.length = 10) :
    setSpecial addr (encodeBase32 v ++ text ".oc.b32.i2p") = (true, ofIp (pchOnionCat ++ v)) := by
  have hlen : (text ".oc.b32.i2p").length = 11 := by decide
  have hne : encodeBase32 v ≠ [] := encodeBase32_ne_nil (by
    rintro rfl
    exact absurd hv (by decide))
  have hlong : 11 < (encodeBase32 v ++ text ".oc.b32.i2p").length := by
    have hpos := List.length_pos_iff.2 hne
    rw [List.length_append, hlen]
    omega
  have hdrop := drop_suffix (encodeBase32 v) (text ".oc.b32.i2p")
  have hfront := decodeBase32_front v (text ".oc.b32.i2p")
  rw [hlen] at hdrop hfront
  -- its last six characters are not those of Tor
  have hother : (encodeBase32 v ++ text ".oc.b32.i2p").drop
      ((encodeBase32 v ++ text ".oc.b32.i2p").length - 6) ≠ text ".onion" := by
    have hsplit : text ".oc.b32.i2p" = text ".oc.b" ++ text "32.i2p" := by decide
    have hsix : (text "32.i2p").length = 6 := by decide
    have hlast := drop_suffix (encodeBase32 v ++ text ".oc.b") (text "32.i2p")
    rw [hsix, List.append_assoc, ← hsplit] at hlast
    rw [hlast]
    decide
  unfold setSpecial
  rw [if_neg fun h => hother h.2, if_pos ⟨hlong, hdrop⟩]
  dsimp only
  rw [hfront, if_neg fun h => h hv]
  rfl

end CNetAddr

end

/-! ## The round trip -/

open CNetAddr

variable {getnameinfo : NameInfo} {a b : CService}

/-- An address of an overlay network. -/
def CNetAddr.IsOverlay (addr : CNetAddr) : Prop := isTor addr = true ∨ isI2P addr = true

/-- The name of an overlay address. -/
def overlayName (addr : CNetAddr) : List UInt8 :=
  encodeBase32 (((ip addr).drop 6).take 10) ++
    if isTor addr then text ".onion" else text ".oc.b32.i2p"

theorem toStringIP_of_isOverlay {addr : CNetAddr} (h : addr.IsOverlay) :
    toStringIP getnameinfo addr = overlayName addr := by
  unfold toStringIP overlayName
  by_cases htor : isTor addr = true
  · rw [if_pos htor, if_pos htor]
  · rw [if_neg htor, if_neg htor, if_pos (h.resolve_left htor)]

theorem toStringIPPort_of_isOverlay (h : a.ip.IsOverlay) :
    a.toStringIPPort getnameinfo = overlayName a.ip ++ text ":" ++ printDecimal a.port.toNat := by
  have hcond : (isIPv4 a.ip || isTor a.ip || isI2P a.ip) = true := by
    rcases h with h | h
    · rw [h, Bool.or_true, Bool.true_or]
    · rw [h, Bool.or_true]
  unfold CService.toStringIPPort CService.toStringPort
  rw [if_pos hcond, toStringIP_of_isOverlay h]

theorem length_overlayBytes (addr : CNetAddr) : (((ip addr).drop 6).take 10).length = 10 := by
  rw [List.length_take, List.length_drop, length_ip]
  rfl

/-- **A service is split** into its port and its name. -/
theorem splitHostPort_toStringIPPort (h : a.ip.IsOverlay) (hport : a.port ≠ 0) (portOut : ℤ) :
    splitHostPort (a.toStringIPPort getnameinfo) portOut =
      ((a.port.toNat : ℤ), overlayName a.ip) := by
  have hmem : ∀ c ∈ overlayName a.ip, c ≠ 58 ∧ c ≠ 91 := by
    intro c hc
    rcases List.mem_append.1 hc with hc | hc
    · exact ⟨(plain_encodeBase32 hc).1, (plain_encodeBase32 hc).2.1⟩
    · have hall : ∀ c ∈ text ".onion" ++ text ".oc.b32.i2p", c ≠ 58 ∧ c ≠ 91 := by decide +kernel
      refine hall c (List.mem_append.2 ?_)
      split_ifs at hc
      · exact .inl hc
      · exact .inr hc
  have hbracket : (overlayName a.ip).getD 0 0 ≠ 91 := by
    rcases Nat.eq_zero_or_pos (overlayName a.ip).length with hzero | hpos
    · rw [List.getD_eq_default _ _ (by omega)]
      decide
    · rw [List.getD_eq_getElem _ _ hpos]
      exact (hmem _ (List.getElem_mem hpos)).2
  have hpos : 0 < a.port.toNat := Nat.pos_of_ne_zero fun hzero => hport (UInt16.toNat_inj.1 hzero)
  rw [toStringIPPort_of_isOverlay h]
  exact splitHostPort_append (fun hc => (hmem 58 hc).1 rfl) hbracket hpos a.port.toNat_lt portOut

/-- Whatever the network, the name is read as one of Tor. -/
theorem setSpecial_overlayName (addr addr' : CNetAddr) :
    setSpecial addr' (overlayName addr) =
      (true, ofIp (pchOnionCat ++ ((ip addr).drop 6).take 10)) := by
  unfold overlayName
  split_ifs
  · exact setSpecial_onion addr' (length_overlayBytes addr)
  · exact setSpecial_i2p addr' (length_overlayBytes addr)

/-- **A service survives its text**: the port comes back, and the name is read
as an address with the same bytes, so of the same network, the same group and
the same key. -/
def Survives (getnameinfo : NameInfo) (a : CService) : Prop :=
  ∀ (portOut : ℤ) (addr : CNetAddr), ∃ host addr',
    splitHostPort (a.toStringIPPort getnameinfo) portOut = ((a.port.toNat : ℤ), host) ∧
    setSpecial addr host = (true, addr') ∧ addr'.ip = a.ip.ip ∧
    isTor addr' = isTor a.ip ∧ isI2P addr' = isI2P a.ip ∧ getGroup addr' = getGroup a.ip ∧
    (⟨addr', a.port⟩ : CService).getKey = a.getKey

theorem survives_iff (h : a.ip.IsOverlay) (hport : a.port ≠ 0) :
    Survives getnameinfo a ↔ isTor a.ip = true := by
  constructor
  · intro hsurvives
    obtain ⟨host, addr', hsplit, hset, hip, -⟩ := hsurvives 0 0
    rw [splitHostPort_toStringIPPort h hport] at hsplit
    obtain ⟨-, rfl⟩ := Prod.mk.inj hsplit
    rw [setSpecial_overlayName] at hset
    obtain rfl := (Prod.mk.inj hset).2
    refine h.resolve_right fun hi2p => ?_
    -- the sixth bytes of the two networks differ
    have hback : ofIp (pchOnionCat ++ ((ip a.ip).drop 6).take 10) = ofIp (ip a.ip) := by
      rw [ofIp_ip]
      exact ip_inj hip
    have hlen : (pchOnionCat ++ ((ip a.ip).drop 6).take 10).length = 16 := by
      rw [List.length_append, length_overlayBytes]
      rfl
    have hsame := (ofIp_inj hlen length_ip hback).trans (ip_of_startsWith rfl hi2p)
    have hne : pchOnionCat ≠ pchGarliCat := by decide
    exact hne ((List.append_left_inj _).1 hsame)
  · intro htor portOut addr
    have hback : ofIp (pchOnionCat ++ ((ip a.ip).drop 6).take 10) = a.ip := by
      rw [← ip_of_startsWith rfl htor, ofIp_ip]
    refine ⟨overlayName a.ip, a.ip, splitHostPort_toStringIPPort h hport portOut, ?_, rfl, rfl, rfl,
      rfl, rfl⟩
    rw [setSpecial_overlayName, hback]

/-- **Two addresses do not share a name.** -/
theorem overlayName_inj {addr addr' : CNetAddr} (h : addr.IsOverlay) (h' : addr'.IsOverlay)
    (hname : overlayName addr = overlayName addr') : addr = addr' := by
  have hlast : ∀ addr : CNetAddr, (overlayName addr).getLast? =
      if isTor addr then some 110 else some 112 := by
    intro addr
    have hsuffix : (if isTor addr then text ".onion" else text ".oc.b32.i2p").getLast? =
        if isTor addr then some 110 else some 112 := by
      split_ifs
      · decide
      · decide
    rw [overlayName, List.getLast?_append, hsuffix]
    split_ifs <;> rfl
  have hnet : isTor addr = isTor addr' := by
    have hboth := (hlast addr).symm.trans ((congrArg _ hname).trans (hlast addr'))
    revert hboth
    cases isTor addr <;> cases isTor addr' <;> simp
  unfold overlayName at hname
  rw [hnet] at hname
  have hcode := (List.append_left_inj _).1 hname
  have hbytes : ((ip addr).drop 6).take 10 = ((ip addr').drop 6).take 10 := by
    have hdecode := congrArg decodeBase32 hcode
    rw [decodeBase32_encodeBase32, decodeBase32_encodeBase32] at hdecode
    exact congrArg Prod.fst hdecode
  refine ip_inj ?_
  by_cases htor : isTor addr = true
  · rw [ip_of_startsWith rfl htor, ip_of_startsWith rfl (hnet ▸ htor : isTor addr' = true), hbytes]
  · rw [ip_of_startsWith rfl (h.resolve_left htor),
      ip_of_startsWith rfl (h'.resolve_left (hnet ▸ htor)), hbytes]

/-- **Overlay addresses and their text**: an address of Tor survives and one of
I2P does not, and no two print the same. -/
theorem overlay_text (getnameinfo : NameInfo) :
    (∀ a : CService, a.ip.IsOverlay → a.port ≠ 0 →
      (Survives getnameinfo a ↔ isTor a.ip = true)) ∧
    (∀ a b : CService, a.ip.IsOverlay → b.ip.IsOverlay → a.port ≠ 0 → b.port ≠ 0 → a ≠ b →
      a.toStringIPPort getnameinfo ≠ b.toStringIPPort getnameinfo) := by
  refine ⟨fun a h hport => survives_iff h hport, fun a b ha hb hpa hpb hne htext => hne ?_⟩
  have hsplit : splitHostPort (a.toStringIPPort getnameinfo) 0 = _ :=
    splitHostPort_toStringIPPort ha hpa 0
  rw [htext, splitHostPort_toStringIPPort hb hpb] at hsplit
  obtain ⟨hport, hname⟩ := Prod.mk.inj hsplit
  obtain ⟨ip, port⟩ := a
  obtain ⟨ip', port'⟩ := b
  obtain rfl : ip = ip' := overlayName_inj ha hb hname.symm
  obtain rfl : port = port' := UInt16.toNat_inj.1 (by exact_mod_cast hport.symm)
  rfl

/-- A service of I2P. -/
def garlic : CService := ⟨0xFD60DB4DDDB5EDB18E043588E54635CA, 7695⟩

/-- **It does not survive.** -/
theorem garlic_not_survives : ¬ Survives (fun _ => none) garlic :=
  fun h => absurd ((survives_iff (.inr (by decide)) (by decide)).1 h) (by decide)

/-- A service of Tor. -/
def onion : CService := ⟨0xFD87D87EEB43EDB18E043588E54635CA, 7695⟩

/-- It survives, and prints something else. -/
theorem overlay_text_onion : Survives (fun _ => none) onion ∧
    onion.toStringIPPort (fun _ => none) ≠ garlic.toStringIPPort fun _ => none :=
  ⟨((overlay_text fun _ => none).1 onion (.inl (by decide)) (by decide)).2
      (by decide),
    (overlay_text fun _ => none).2 onion garlic (.inl (by decide))
      (.inr (by decide)) (by decide) (by decide) (by decide)⟩

end CryptoBullion
