import CryptoBullion.Model.Alert
/-!
# What a call of `ProcessAlert` does

An alert that fails its own checks leaves `mapAlerts` alone. Any other one
first removes what it cancels and what has expired, and only then learns
whether it has been cancelled itself. So an alert that is refused in the
end may have removed others before, and exactly such alerts do
(`processAlert_refused_iff`).
-/

namespace CryptoBullion

variable [P : Platform] {nNow : Int64} {a x alert : CAlert} {mapAlerts : MapAlerts} {h : Uint256}
variable {f : Failure}

/-! ## The checks -/

/-- An alert passes its checks when it is signed, in effect and, where its
number is the reserved one, of the fixed contents. -/
theorem CAlert.checkAlert_eq_ok : a.checkAlert nNow = .ok x ↔ a.checkSignature = .ok x ∧
    x.isInEffect nNow = true ∧ (x.nID = CUnsignedAlert.maxInt → x.isReserved = true) := by
  unfold CAlert.checkAlert
  simp only [except_bind_eq_ok, reject_eq_ok, exists_const]
  constructor
  · rintro ⟨y, hsig, heffect, hres, hy⟩
    obtain rfl : y = x := Except.ok.inj hy
    exact ⟨hsig, by simpa using heffect, fun hid => by simpa using fun h => hres ⟨hid, h⟩⟩
  · rintro ⟨hsig, heffect, hres⟩
    refine ⟨x, hsig, by simp [heffect], ?_, rfl⟩
    rintro ⟨hid, hnot⟩
    rw [hres hid] at hnot
    exact absurd hnot (by simp)

/-! ## The map -/

omit P in
/-- What is left is what neither is cancelled nor has expired. -/
theorem MapAlerts.getElem?_cancel : (mapAlerts.cancel nNow x)[h]? = some alert ↔
    mapAlerts[h]? = some alert ∧ x.cancels nNow alert.toCUnsignedAlert = false ∧
      alert.isInEffect nNow = true := by
  unfold MapAlerts.cancel
  rw [Std.ExtTreeMap.getElem?_filter', Option.filter_eq_some_iff]
  simp

omit P in
/-- An alert has been cancelled by one that is there. -/
theorem MapAlerts.hasCancelled_iff : mapAlerts.hasCancelled nNow x = true ↔
    ∃ (h : Uint256) (alert : CAlert), mapAlerts[h]? = some alert ∧ alert.cancels nNow x.toCUnsignedAlert = true := by
  unfold MapAlerts.hasCancelled
  rw [List.any_eq_true]
  constructor
  · rintro ⟨⟨h, alert⟩, hmem, hcancels⟩
    exact ⟨h, alert, Std.ExtTreeMap.mem_toList_iff_getElem?_eq_some.1 hmem, hcancels⟩
  · rintro ⟨h, alert, hget, hcancels⟩
    exact ⟨(h, alert), Std.ExtTreeMap.mem_toList_iff_getElem?_eq_some.2 hget, hcancels⟩

omit P in
/-- Only alerts in effect cancel. -/
theorem CUnsignedAlert.isInEffect_of_cancels {a b : CUnsignedAlert} (h : a.cancels nNow b = true) :
    a.isInEffect nNow = true := by
  unfold CUnsignedAlert.cancels at h
  split_ifs at h with heffect
  simpa using heffect

/-! ## The call -/

theorem CAlert.processAlert_of_error (hcheck : a.checkAlert nNow = .error f) :
    a.processAlert nNow mapAlerts = (.error f, mapAlerts) := by
  unfold CAlert.processAlert
  rw [hcheck, Step.lift_error_bind]

/-- **An alert that passes its checks** cancels first and is refused
afterwards. -/
theorem CAlert.processAlert_of_ok (hcheck : a.checkAlert nNow = .ok x) :
    a.processAlert nNow mapAlerts =
      if (mapAlerts.cancel nNow x).hasCancelled nNow x then
        (.error .quiet, mapAlerts.cancel nNow x)
      else (.ok (), (mapAlerts.cancel nNow x).insertIfNew x.getHash x) := by
  unfold CAlert.processAlert
  rw [hcheck, Step.lift_ok_bind, Step.modify_bind, Step.get_bind]
  split_ifs <;> rfl

/-! ## Refused alerts -/

/-- The call comes back with `false`. -/
def CAlert.Refused (nNow : Int64) (a : CAlert) (mapAlerts : MapAlerts) : Prop :=
  ∃ f, (a.processAlert nNow mapAlerts).1 = .error f ∧ f.returnsFalse = true

/-- Two maps differ in alerts that have expired, and the second has nothing
new. -/
structure KeepsInEffect (nNow : Int64) (m m' : MapAlerts) : Prop where
  old : ∀ (h : Uint256) (alert : CAlert), m'[h]? = some alert → m[h]? = some alert
  kept : ∀ (h : Uint256) (alert : CAlert), m[h]? = some alert → alert.isInEffect nNow = true → m'[h]? = some alert

/-- Some alert in the map that `x` does not cancel cancels it. -/
def CancelledBy (nNow : Int64) (mapAlerts : MapAlerts) (x : CAlert) : Prop :=
  ∃ (h : Uint256) (other : CAlert), mapAlerts[h]? = some other ∧ other.cancels nNow x.toCUnsignedAlert = true ∧
    x.cancels nNow other.toCUnsignedAlert = false

/-- Some alert in effect is cancelled by `x`. -/
def CancelsSome (nNow : Int64) (mapAlerts : MapAlerts) (x : CAlert) : Prop :=
  ∃ (h : Uint256) (alert : CAlert), mapAlerts[h]? = some alert ∧ alert.isInEffect nNow = true ∧
    x.cancels nNow alert.toCUnsignedAlert = true

/-- What refuses an alert is in the map from the start. -/
theorem hasCancelled_cancel_iff :
    (mapAlerts.cancel nNow x).hasCancelled nNow x = true ↔ CancelledBy nNow mapAlerts x := by
  rw [MapAlerts.hasCancelled_iff]
  constructor
  · rintro ⟨h, other, hget, hcancels⟩
    obtain ⟨hget, hnot, -⟩ := MapAlerts.getElem?_cancel.1 hget
    exact ⟨h, other, hget, hcancels, hnot⟩
  · rintro ⟨h, other, hget, hcancels, hnot⟩
    exact ⟨h, other, MapAlerts.getElem?_cancel.2
      ⟨hget, hnot, CUnsignedAlert.isInEffect_of_cancels hcancels⟩, hcancels⟩

/-- **A refused alert has no effect exactly if it cancels nothing.** For
every map, time and alert: where the call returns false, the map is as it
was but for expired alerts, if and only if the alert fails its own checks,
or is cancelled by none of those that it does not cancel, or cancels none
that is in effect. -/
theorem processAlert_refused_iff (nNow : Int64) (a : CAlert) (mapAlerts : MapAlerts) :
    (a.Refused nNow mapAlerts → KeepsInEffect nNow mapAlerts (a.processAlert nNow mapAlerts).2) ↔
      ∀ x, a.checkAlert nNow = .ok x → CancelledBy nNow mapAlerts x →
        ¬ CancelsSome nNow mapAlerts x := by
  rcases hcheck : a.checkAlert nNow with f | x
  · rw [CAlert.processAlert_of_error hcheck]
    refine iff_of_true (fun _ => ⟨fun _ _ h => h, fun _ _ h _ => h⟩) ?_
    exact fun x hx => absurd hx (by simp)
  unfold CAlert.Refused
  rw [CAlert.processAlert_of_ok hcheck]
  simp only [Except.ok.injEq, forall_eq']
  by_cases hcancelled : CancelledBy nNow mapAlerts x
  swap
  · -- the alert is accepted
    rw [if_neg (fun h => hcancelled (hasCancelled_cancel_iff.1 h))]
    refine iff_of_true ?_ (fun h => absurd h hcancelled)
    rintro ⟨f, hf, -⟩
    exact absurd hf (by simp)
  rw [if_pos (hasCancelled_cancel_iff.2 hcancelled)]
  constructor
  · rintro hkeeps - ⟨h, alert, hget, heffect, hcancels⟩
    have hleft := (hkeeps ⟨.quiet, rfl, rfl⟩).kept h alert hget heffect
    obtain ⟨-, hnot, -⟩ := MapAlerts.getElem?_cancel.1 hleft
    rw [hcancels] at hnot
    exact absurd hnot (by simp)
  · intro hnone _
    refine ⟨fun h alert hget => (MapAlerts.getElem?_cancel.1 hget).1, fun h alert hget heffect => ?_⟩
    refine MapAlerts.getElem?_cancel.2 ⟨hget, ?_, heffect⟩
    by_contra hcancels
    exact hnone hcancelled ⟨h, alert, hget, heffect, by simpa using hcancels⟩

namespace AlertExample

/-- What is signed for an alert without texts. Its relay time is its hash
below. -/
def vchMsg (nRelayUntil nID nCancel : ℕ) (setCancel : List ℕ) : List UInt8 :=
  leBytes 4 1 ++ leBytes 8 nRelayUntil ++ leBytes 8 2000 ++ leBytes 4 nID ++ leBytes 4 nCancel ++
    UInt8.ofNat setCancel.length :: setCancel.flatMap (leBytes 4) ++ leBytes 4 0 ++ leBytes 4 0 ++
    [0] ++ leBytes 4 0 ++ [0, 0, 0]

/-- As it comes in, with nothing read yet. -/
def incoming (vchMsg : List UInt8) : CAlert := ⟨⟨1, 0, 0, 0, 0, ∅, 0, 0, ∅, 0, [], [], []⟩, vchMsg, []⟩

/-- Alert 1, and alert 9 that cancels alert 5. -/
def calls : List CAlert := [incoming (vchMsg 11 1 0 []), incoming (vchMsg 12 9 0 [5])]

/-- What is in the map after them. -/
def held : MapAlerts :=
  letI := Platform.toy
  calls.foldl (fun m a => (a.processAlert 1000 m).2) ∅

/-- Alert 5, which cancels alert 1. -/
def refused : CAlert := incoming (vchMsg 13 5 1 [])

end AlertExample

open AlertExample in
omit P in
/-- Alert 5 is refused, and alert 1 is gone. -/
theorem not_keepsInEffect :
    letI := Platform.toy
    refused.Refused 1000 held ∧
      ¬ KeepsInEffect 1000 held (refused.processAlert 1000 held).2 := by
  letI := Platform.toy
  have hresult : (refused.processAlert 1000 held).1 = .error .quiet := by decide +kernel
  refine ⟨⟨.quiet, hresult, rfl⟩, fun hkeeps => ?_⟩
  have hmap : (held[(11 : Uint256)]?.map fun alert => alert.isInEffect 1000) = some true ∧
      (refused.processAlert 1000 held).2[(11 : Uint256)]? = none := by
    decide +kernel
  obtain ⟨alert, hget, heffect⟩ := Option.map_eq_some_iff.1 hmap.1
  have hkept := hkeeps.kept 11 alert hget heffect
  rw [hmap.2] at hkept
  exact absurd hkept (by simp)

end CryptoBullion
