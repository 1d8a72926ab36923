import CryptoBullion.Alerts.Effect
/-!
# The alert of the greatest number

It says that the alert key is compromised, so whoever holds the key should
not be able to take it back. It cancels every smaller number, is never out
of effect before the end of its own time, and an alert of the same number
has the same contents. What takes it back all the same is an alert of a
smaller number that cancels the greatest: it is looked at before it is
itself cancelled. Without such alerts the greatest stays
(`compromise_final_iff`).
-/

namespace CryptoBullion

variable [P : Platform] {nNow : Int64} {a x alert : CAlert} {mapAlerts : MapAlerts} {h : Uint256}

namespace CUnsignedAlert

/-- The reserved number, with the contents it has to have. -/
structure Final (a : CUnsignedAlert) : Prop where
  nID : a.nID = maxInt
  reserved : a.isReserved = true

/-- The greatest number is among those an alert cancels. -/
def NamesMaxInt (a : CUnsignedAlert) : Prop := a.nCancel = maxInt ∨ maxInt ∈ a.setCancel

instance : DecidablePred NamesMaxInt := fun a =>
  inferInstanceAs (Decidable (a.nCancel = maxInt ∨ maxInt ∈ a.setCancel))

variable {a b : CUnsignedAlert}

omit P in
theorem Final.nExpiration (h : a.Final) : a.nExpiration = maxInt.toInt64 := by
  have hres := h.reserved
  unfold isReserved at hres
  simp only [Bool.and_eq_true, decide_eq_true_eq] at hres
  exact hres.1.1.1.1.1.1

omit P in
theorem Final.nCancel (h : a.Final) : a.nCancel = maxInt - 1 := by
  have hres := h.reserved
  unfold isReserved at hres
  simp only [Bool.and_eq_true, decide_eq_true_eq] at hres
  exact hres.1.1.1.1.1.2

omit P in
theorem le_maxInt_sub_one_iff {n : Int32} : n ≤ maxInt - 1 ↔ n ≠ maxInt := by
  have hle := n.toInt_le
  have hmax : maxInt.toInt = 2147483647 := by decide
  have hpred : (maxInt - 1).toInt = 2147483646 := by decide
  have hmaxValue : Int32.maxValue.toInt = 2147483647 := by decide
  rw [Int32.le_iff_toInt_le, ne_eq, ← Int32.toInt_inj, hmax, hpred]
  omega

/-- It is in effect until the end of its time. -/
theorem Final.isInEffect (h : a.Final) (hnow : nNow < maxInt.toInt64) : a.isInEffect nNow = true := by
  unfold CUnsignedAlert.isInEffect
  rw [h.nExpiration]
  exact decide_eq_true hnow

/-- **It cancels every smaller number.** -/
theorem Final.cancels (h : a.Final) (hnow : nNow < maxInt.toInt64) (hb : b.nID ≠ maxInt) :
    a.cancels nNow b = true := by
  unfold CUnsignedAlert.cancels
  rw [h.isInEffect hnow, h.nCancel]
  simp [le_maxInt_sub_one_iff.2 hb]

omit P in
/-- An alert in effect cancels the greatest number exactly if it names
it. -/
theorem cancels_iff_of_nID (heffect : a.isInEffect nNow = true) (hb : b.nID = maxInt) :
    a.cancels nNow b = true ↔ a.NamesMaxInt := by
  have hle : maxInt ≤ a.nCancel ↔ a.nCancel = maxInt :=
    ⟨fun h => Int32.le_antisymm (Int32.le_maxValue a.nCancel) h, fun h => h ▸ Int32.le_refl _⟩
  unfold CUnsignedAlert.cancels NamesMaxInt
  rw [heffect, hb]
  simp [hle]

end CUnsignedAlert

open CUnsignedAlert

/-! ## The maps there are -/

/-- In a map that calls have filled, every alert of the reserved number has
the fixed contents. -/
def Genuine (mapAlerts : MapAlerts) : Prop :=
  ∀ (h : Uint256) (alert : CAlert), mapAlerts[h]? = some alert → alert.nID = maxInt → alert.Final

/-- The map holds the alert that the key is compromised. -/
def HoldsFinal (mapAlerts : MapAlerts) : Prop :=
  ∃ (h : Uint256) (alert : CAlert), mapAlerts[h]? = some alert ∧ alert.Final

omit P in
/-- What an insertion leaves in the map. -/
theorem getElem?_insertIfNew_eq_some {m : MapAlerts} {k : Uint256}
    (hget : (m.insertIfNew k x)[h]? = some alert) : m[h]? = some alert ∨ alert = x := by
  rw [Std.ExtTreeMap.getElem?_insertIfNew] at hget
  split_ifs at hget
  · exact .inr (Option.some.inj hget).symm
  · exact .inl hget

omit P in
/-- It leaves what there was. -/
theorem getElem?_insertIfNew_of_some {m : MapAlerts} {k : Uint256} (hget : m[h]? = some alert) :
    (m.insertIfNew k x)[h]? = some alert := by
  rw [Std.ExtTreeMap.getElem?_insertIfNew, if_neg]
  · exact hget
  · rintro ⟨heq, hmem⟩
    obtain rfl : k = h := Std.compare_eq_iff_eq.1 heq
    rw [Std.ExtTreeMap.mem_iff_isSome_getElem?, hget] at hmem
    exact hmem rfl

omit P in
/-- The key of an insertion is in the map. -/
theorem exists_getElem?_insertIfNew (m : MapAlerts) (k : Uint256) (x : CAlert) :
    ∃ alert, (m.insertIfNew k x)[k]? = some alert := by
  refine Option.isSome_iff_exists.1 ?_
  rw [← Std.ExtTreeMap.mem_iff_isSome_getElem?, Std.ExtTreeMap.mem_insertIfNew]
  exact .inl Std.ReflCmp.compare_self

/-! ## One call -/

/-- The alerts of a map after a call are of the map before, or the alert
itself. -/
theorem of_getElem?_processAlert (hget : (a.processAlert nNow mapAlerts).2[h]? = some alert) :
    mapAlerts[h]? = some alert ∨ a.checkAlert nNow = .ok alert := by
  rcases hcheck : a.checkAlert nNow with f | x
  · rw [CAlert.processAlert_of_error hcheck] at hget
    exact .inl hget
  rw [CAlert.processAlert_of_ok hcheck] at hget
  split_ifs at hget
  · exact .inl (MapAlerts.getElem?_cancel.1 hget).1
  · rcases getElem?_insertIfNew_eq_some hget with hget | rfl
    · exact .inl (MapAlerts.getElem?_cancel.1 hget).1
    · exact .inr rfl

/-- An alert of the reserved number that passes its checks has the fixed
contents. -/
theorem final_of_checkAlert (hcheck : a.checkAlert nNow = .ok x) (hid : x.nID = maxInt) : x.Final :=
  ⟨hid, (CAlert.checkAlert_eq_ok.1 hcheck).2.2 hid⟩

theorem Genuine.processAlert (hm : Genuine mapAlerts) : Genuine (a.processAlert nNow mapAlerts).2 := by
  intro h alert hget hid
  rcases of_getElem?_processAlert hget with hget | hcheck
  · exact hm h alert hget hid
  · exact final_of_checkAlert hcheck hid

/-- What is not cancelled and has not expired is there after the call. -/
theorem getElem?_processAlert_of_kept (hget : mapAlerts[h]? = some alert)
    (heffect : alert.isInEffect nNow = true)
    (hkept : ∀ x, a.checkAlert nNow = .ok x → x.cancels nNow alert.toCUnsignedAlert = false) :
    (a.processAlert nNow mapAlerts).2[h]? = some alert := by
  rcases hcheck : a.checkAlert nNow with f | x
  · rw [CAlert.processAlert_of_error hcheck]
    exact hget
  have hcancel := MapAlerts.getElem?_cancel.2 ⟨hget, hkept x hcheck, heffect⟩
  rw [CAlert.processAlert_of_ok hcheck]
  split_ifs
  · exact hcancel
  · exact getElem?_insertIfNew_of_some hcancel

/-- **Accepting the reserved number** leaves it in the map: whatever else
is under its hash has that number too. -/
theorem holdsFinal_of_accepted (hm : Genuine mapAlerts) (hnow : nNow < maxInt.toInt64)
    (hcheck : a.checkAlert nNow = .ok x) (hid : x.nID = maxInt)
    (hok : (mapAlerts.cancel nNow x).hasCancelled nNow x = false) :
    HoldsFinal (a.processAlert nNow mapAlerts).2 := by
  have hfinal := final_of_checkAlert hcheck hid
  rw [CAlert.processAlert_of_ok hcheck, hok, if_neg Bool.false_ne_true]
  obtain ⟨alert, hget⟩ := exists_getElem?_insertIfNew (mapAlerts.cancel nNow x) x.getHash x
  refine ⟨x.getHash, alert, hget, ?_⟩
  rcases getElem?_insertIfNew_eq_some hget with hget | rfl
  · obtain ⟨hget, hnot, -⟩ := MapAlerts.getElem?_cancel.1 hget
    refine hm _ alert hget ?_
    by_contra hne
    rw [hfinal.cancels hnow hne] at hnot
    exact absurd hnot (by simp)
  · exact hfinal

/-- **An alert that names the greatest number removes it**, whatever becomes
of the alert. -/
theorem not_holdsFinal_of_names (hcheck : a.checkAlert nNow = .ok x) (hid : x.nID ≠ maxInt)
    (hnames : x.NamesMaxInt) : ¬ HoldsFinal (a.processAlert nNow mapAlerts).2 := by
  obtain ⟨-, heffect, -⟩ := CAlert.checkAlert_eq_ok.1 hcheck
  rintro ⟨h, alert, hget, hfinal⟩
  have hgone : ¬ (mapAlerts.cancel nNow x)[h]? = some alert := fun hget => by
    obtain ⟨-, hnot, -⟩ := MapAlerts.getElem?_cancel.1 hget
    rw [(cancels_iff_of_nID heffect hfinal.nID).2 hnames] at hnot
    exact absurd hnot (by simp)
  rw [CAlert.processAlert_of_ok hcheck] at hget
  split_ifs at hget
  · exact hgone hget
  · rcases getElem?_insertIfNew_eq_some hget with hget | rfl
    · exact hgone hget
    · exact hid hfinal.nID

/-- **Any other alert leaves it there.** -/
theorem HoldsFinal.processAlert (hm : Genuine mapAlerts) (hheld : HoldsFinal mapAlerts)
    (hnow : nNow < maxInt.toInt64)
    (hnames : ∀ x, a.checkAlert nNow = .ok x → x.nID ≠ maxInt → ¬ x.NamesMaxInt) :
    HoldsFinal (a.processAlert nNow mapAlerts).2 := by
  obtain ⟨h, alert, hget, hfinal⟩ := hheld
  by_cases hkept : ∀ x, a.checkAlert nNow = .ok x → x.cancels nNow alert.toCUnsignedAlert = false
  · exact ⟨h, alert, getElem?_processAlert_of_kept hget (hfinal.isInEffect hnow) hkept, hfinal⟩
  -- an alert that cancels it has its number, and so cancels all there are
  push Not at hkept
  obtain ⟨x, hcheck, hne⟩ := hkept
  have hcancels := eq_true_of_ne_false hne
  obtain ⟨-, heffect, -⟩ := CAlert.checkAlert_eq_ok.1 hcheck
  have hname := (cancels_iff_of_nID heffect hfinal.nID).1 hcancels
  have hid : x.nID = maxInt := by
    by_contra hne
    exact hnames x hcheck hne hname
  refine holdsFinal_of_accepted hm hnow hcheck hid ?_
  by_contra hcancelled
  obtain ⟨h', other, hget', -, hnot⟩ := hasCancelled_cancel_iff.1 (Bool.not_eq_false _ ▸ hcancelled)
  have hall : x.cancels nNow other.toCUnsignedAlert = true := by
    by_cases hother : other.nID = maxInt
    · exact (cancels_iff_of_nID heffect hother).2 hname
    · exact (final_of_checkAlert hcheck hid).cancels hnow hother
  rw [hall] at hnot
  exact absurd hnot (by simp)

/-- **While it is held, smaller numbers are refused.** -/
theorem HoldsFinal.refused (hheld : HoldsFinal mapAlerts) (hnow : nNow < maxInt.toInt64)
    (hsig : a.checkSignature = .ok x) (hid : x.nID ≠ maxInt)
    (hnames : x.isInEffect nNow = true → ¬ x.NamesMaxInt) : a.Refused nNow mapAlerts := by
  obtain ⟨h, alert, hget, hfinal⟩ := hheld
  by_cases heffect : x.isInEffect nNow = true
  · have hcheck : a.checkAlert nNow = .ok x :=
      CAlert.checkAlert_eq_ok.2 ⟨hsig, heffect, fun heq => absurd heq hid⟩
    have hcancelled : CancelledBy nNow mapAlerts x := by
      refine ⟨h, alert, hget, hfinal.cancels hnow hid, ?_⟩
      by_contra hcancels
      rw [Bool.not_eq_false] at hcancels
      exact hnames heffect ((cancels_iff_of_nID heffect hfinal.nID).1 hcancels)
    refine ⟨.quiet, ?_, rfl⟩
    rw [CAlert.processAlert_of_ok hcheck, if_pos (hasCancelled_cancel_iff.2 hcancelled)]
  · have hcheck : a.checkAlert nNow = .error .quiet := by
      unfold CAlert.checkAlert
      rw [hsig]
      show (reject (x.isInEffect nNow = false) .quiet >>= _) = _
      unfold reject
      rw [if_pos (by simpa using heffect)]
      rfl
    exact ⟨.quiet, by rw [CAlert.processAlert_of_error hcheck], rfl⟩

/-! ## Runs -/

/-- A call of `ProcessAlert` and the adjusted time then. -/
structure AlertCall where
  nNow : Int64
  alert : CAlert

/-- The map after some calls, from the empty one. -/
def alertsAfter (calls : List AlertCall) : MapAlerts :=
  calls.foldl (fun m c => (c.alert.processAlert c.nNow m).2) ∅

variable {calls before later pre : List AlertCall} {c d : AlertCall}

theorem alertsAfter_append_singleton :
    alertsAfter (calls ++ [c]) = (c.alert.processAlert c.nNow (alertsAfter calls)).2 := by
  unfold alertsAfter
  rw [List.foldl_append]
  rfl

theorem genuine_alertsAfter (calls : List AlertCall) : Genuine (alertsAfter calls) := by
  induction calls using List.reverseRecOn with
  | nil => exact fun h alert hget => absurd hget (by simp [alertsAfter])
  | append_singleton calls c ih =>
    rw [alertsAfter_append_singleton]
    exact ih.processAlert

/-- The alert that the key is compromised is final: it is held after every
later call, and every later alert of a smaller number is refused. -/
structure StaysFinal (before later : List AlertCall) : Prop where
  held : ∀ pre, pre <+: later → HoldsFinal (alertsAfter (before ++ pre))
  refused : ∀ pre d, pre ++ [d] <+: later → ∀ x, d.alert.checkSignature = .ok x → x.nID < maxInt →
    d.alert.Refused d.nNow (alertsAfter (before ++ pre))

/-- **The key-compromise alert is final exactly if no later alert of a
smaller number names its number.** After every run of calls whose last one
accepts an alert of the greatest number, and for every later run at times
before the end of its time: it is held after every later call, and every
later signed alert of a smaller number is refused, if and only if none of
those that are in effect when they come cancels the greatest number. -/
theorem compromise_final_iff (before : List AlertCall) (c : AlertCall) (x : CAlert)
    (later : List AlertCall) (hsig : c.alert.checkSignature = .ok x) (hid : x.nID = maxInt)
    (haccepted : (c.alert.processAlert c.nNow (alertsAfter before)).1 = .ok ())
    (hnow : ∀ d ∈ later, d.nNow < maxInt.toInt64) :
    StaysFinal (before ++ [c]) later ↔ ∀ d ∈ later, ∀ y, d.alert.checkSignature = .ok y →
      y.nID < maxInt → y.isInEffect d.nNow = true → ¬ y.NamesMaxInt := by
  have hsmaller : ∀ n : Int32, n < maxInt ↔ n ≠ maxInt := fun n =>
    ⟨fun h heq => Int32.lt_irrefl (heq ▸ h), fun h => Int32.lt_of_le_of_ne (Int32.le_maxValue n) h⟩
  simp only [hsmaller]
  constructor
  · intro hfinal d hd y hy hne heffect hnames
    obtain ⟨pre, suf, rfl⟩ := List.append_of_mem hd
    have hheld := hfinal.held (pre ++ [d]) ⟨suf, by rw [List.append_assoc]; rfl⟩
    rw [← List.append_assoc, alertsAfter_append_singleton] at hheld
    exact not_holdsFinal_of_names
      (CAlert.checkAlert_eq_ok.2 ⟨hy, heffect, fun heq => absurd heq hne⟩) hne hnames hheld
  · intro hnames
    have hheld : ∀ pre, pre <+: later → HoldsFinal (alertsAfter (before ++ [c] ++ pre)) := by
      intro pre
      induction pre using List.reverseRecOn with
      | nil =>
        intro _
        rw [List.append_nil, alertsAfter_append_singleton]
        rcases hcheck : c.alert.checkAlert c.nNow with f | x'
        · rw [CAlert.processAlert_of_error hcheck] at haccepted
          exact absurd haccepted (by simp)
        obtain ⟨hsig', heffect, hres⟩ := CAlert.checkAlert_eq_ok.1 hcheck
        obtain rfl : x = x' := Except.ok.inj (hsig.symm.trans hsig')
        have hexp : c.nNow < maxInt.toInt64 := by
          have hfinal : x.Final := ⟨hid, hres hid⟩
          unfold CUnsignedAlert.isInEffect at heffect
          rw [hfinal.nExpiration] at heffect
          exact of_decide_eq_true heffect
        refine holdsFinal_of_accepted (genuine_alertsAfter before) hexp hcheck hid ?_
        rw [CAlert.processAlert_of_ok hcheck] at haccepted
        by_contra hcancelled
        rw [if_pos (by simpa using hcancelled)] at haccepted
        exact absurd haccepted (by simp)
      | append_singleton pre d ih =>
        intro hpre
        have hd : d ∈ later := hpre.subset (by simp)
        rw [← List.append_assoc, alertsAfter_append_singleton]
        refine (ih ((List.prefix_append _ _).trans hpre)).processAlert (genuine_alertsAfter _)
          (hnow d hd) fun y hcheck hne => ?_
        obtain ⟨hy, heffect, -⟩ := CAlert.checkAlert_eq_ok.1 hcheck
        exact hnames d hd y hy hne heffect
    refine ⟨hheld, fun pre d hpre y hy hne => ?_⟩
    have hd : d ∈ later := hpre.subset (by simp)
    exact (hheld pre ((List.prefix_append _ _).trans hpre)).refused (hnow d hd) hy
      ((hsmaller _).1 hne) (hnames d hd y hy ((hsmaller _).1 hne))

namespace AlertExample

/-- "Alert key compromised" -/
def compromised : AlertCall := ⟨1000, incoming
  (leBytes 4 1 ++ leBytes 8 11 ++ leBytes 8 2147483647 ++ leBytes 4 2147483647 ++
    leBytes 4 2147483646 ++ [0] ++ leBytes 4 0 ++ leBytes 4 2147483647 ++ [0] ++
    leBytes 4 2147483647 ++ [0] ++ 47 :: strKeyCompromised ++ [0])⟩

/-- Alert 5, which cancels alert 1. -/
def harmless : AlertCall := ⟨1001, incoming (vchMsg 12 5 1 [])⟩

/-- Alert 5, which cancels the greatest number. -/
def everythingIsFine : AlertCall := ⟨1001, incoming (vchMsg 12 5 1 [2147483647])⟩

end AlertExample

open AlertExample in
omit P in
/-- Alert 5 is refused where it does not name the greatest number. -/
theorem compromise_final_iff_harmless :
    letI := Platform.toy
    StaysFinal [compromised] [harmless] := by
  letI := Platform.toy
  have hid : ∀ x ∈ (compromised.alert.checkSignature).toOption, x.nID = maxInt := by decide +kernel
  have hnames : ∀ y ∈ (harmless.alert.checkSignature).toOption, ¬ y.NamesMaxInt := by decide +kernel
  obtain ⟨x, hsig⟩ : ∃ x, compromised.alert.checkSignature = .ok x := by
    rcases h : compromised.alert.checkSignature with f | x
    · have hok : (compromised.alert.checkSignature).toOption.isSome = true := by decide +kernel
      rw [h] at hok
      exact absurd hok (by simp [Except.toOption])
    · exact ⟨x, rfl⟩
  refine (compromise_final_iff [] compromised x [harmless] hsig (hid x (by rw [hsig]; rfl))
    (by decide +kernel) ?_).2 ?_
  · exact List.forall_mem_singleton.2 (by decide)
  · exact List.forall_mem_singleton.2 fun y hy _ _ => hnames y (by rw [hy]; rfl)

open AlertExample in
omit P in
/-- The reserved alert is accepted; alert 5 that names its number is
accepted next, and the reserved one is gone. -/
theorem not_staysFinal :
    letI := Platform.toy
    (compromised.alert.processAlert compromised.nNow (alertsAfter [])).1 = .ok () ∧
      (everythingIsFine.alert.processAlert everythingIsFine.nNow (alertsAfter [compromised])).1 =
        .ok () ∧
      ¬ StaysFinal [compromised] [everythingIsFine] := by
  letI := Platform.toy
  have hnone : (alertsAfter [compromised, everythingIsFine]).toList.all
      (fun item => item.2.nID ≠ maxInt) = true := by decide +kernel
  refine ⟨by decide +kernel, by decide +kernel, fun hfinal => ?_⟩
  obtain ⟨h, alert, hget, halert⟩ := hfinal.held [everythingIsFine] (List.prefix_refl _)
  have hne := List.all_eq_true.1 hnone _ (Std.ExtTreeMap.mem_toList_iff_getElem?_eq_some.2 hget)
  exact of_decide_eq_true hne halert.nID

end CryptoBullion
