import CryptoBullion.Common.Window
import CryptoBullion.Model.Clock
/-!
# How far and how long peers move the clock

The filter holds the last 200 of the offsets that were taken, one for each
address, behind the zero it starts with. Whenever that window has an odd
length from five on, the clock's offset is its median, cut down to nothing
when it is too large (`nTimeOffset_of_odd`). Both ends of this fail: the
least `int64` is its own absolute value, and a full window has an even
length.
-/

namespace CryptoBullion

namespace TimeData

open Window

variable {s : TimeData} {ip : CNetAddr} {nTime now n : Int64} {r : TimeReport}
variable {reports pre : List TimeReport}

/-! ## What is taken -/

/-- The offset a peer reports. -/
def offsetOf (r : TimeReport) : Int64 := r.nTime - r.now

/-- The reports that are taken: the first of each address. -/
def taken (reports : List TimeReport) : List TimeReport :=
  reports.foldl (fun t r => if r.ip ∈ t.map TimeReport.ip then t else t ++ [r]) []

/-- The window after some calls: the last of what was taken. -/
def window (reports : List TimeReport) : List Int64 := (0 :: (taken reports).map offsetOf).rtake 200

theorem taken_append : taken (reports ++ [r]) =
    if r.ip ∈ (taken reports).map TimeReport.ip then taken reports else taken reports ++ [r] := by
  unfold taken
  rw [List.foldl_append]
  rfl

/-- Nothing is taken that was not reported. -/
theorem mem_of_mem_taken (h : r ∈ taken reports) : r ∈ reports := by
  induction reports using List.reverseRecOn with
  | nil => exact h
  | append_singleton reports q ih =>
    rw [taken_append] at h
    split_ifs at h
    · exact List.mem_append_left _ (ih h)
    · rcases List.mem_append.1 h with h | h
      · exact List.mem_append_left _ (ih h)
      · exact List.mem_append_right _ h

/-- Of distinct addresses, everything is. -/
theorem taken_of_nodup (h : (reports.map TimeReport.ip).Nodup) : taken reports = reports := by
  induction reports using List.reverseRecOn with
  | nil => rfl
  | append_singleton reports r ih =>
    rw [List.map_append, List.nodup_append] at h
    obtain ⟨hpre, -, hne⟩ := h
    rw [taken_append, ih hpre, if_neg]
    exact fun hmem => hne _ hmem r.ip (by simp) rfl

theorem length_window : (window reports).length = min 200 ((taken reports).length + 1) := by
  unfold window
  rw [length_rtake, List.length_cons, List.length_map]

/-! ## One call -/

/-- The offset a median stands for. -/
def clamp64 (nMedian : Int64) : Int64 := if abs64 nMedian < 70 * 60 then nMedian else 0

@[simp] theorem warn_nTimeOffset : s.warn.nTimeOffset = s.nTimeOffset := by
  unfold warn
  dsimp only
  split_ifs <;> rfl

@[simp] theorem warn_setKnown : s.warn.setKnown = s.setKnown := by
  unfold warn
  dsimp only
  split_ifs <;> rfl

@[simp] theorem warn_vTimeOffsets : s.warn.vTimeOffsets = s.vTimeOffsets := by
  unfold warn
  dsimp only
  split_ifs <;> rfl

theorem follow_nTimeOffset : s.follow.nTimeOffset = clamp64 s.vTimeOffsets.median := by
  unfold follow clamp64
  dsimp only
  split_ifs
  · rfl
  · exact warn_nTimeOffset

@[simp] theorem follow_setKnown : s.follow.setKnown = s.setKnown := by
  unfold follow
  dsimp only
  split_ifs
  · rfl
  · exact warn_setKnown

@[simp] theorem follow_vTimeOffsets : s.follow.vTimeOffsets = s.vTimeOffsets := by
  unfold follow
  dsimp only
  split_ifs
  · rfl
  · exact warn_vTimeOffsets

/-- "Ignore duplicates" -/
theorem addTimeData_of_mem (h : ip ∈ s.setKnown) : s.addTimeData ip nTime now = s := if_pos h

/-- A new address is remembered. -/
theorem addTimeData_setKnown (h : ip ∉ s.setKnown) :
    (s.addTimeData ip nTime now).setKnown = insert ip s.setKnown := by
  unfold addTimeData
  simp only [if_neg h]
  split_ifs <;> simp

/-- What it reports goes into the filter. -/
theorem addTimeData_vTimeOffsets (h : ip ∉ s.setKnown) :
    (s.addTimeData ip nTime now).vTimeOffsets = s.vTimeOffsets.input (nTime - now) := by
  unfold addTimeData
  simp only [if_neg h]
  split_ifs <;> simp

/-- The offset changes with every other sample. -/
theorem addTimeData_nTimeOffset (h : ip ∉ s.setKnown) {f : CMedianFilter Int64}
    (hf : s.vTimeOffsets.input (nTime - now) = f) : (s.addTimeData ip nTime now).nTimeOffset =
      if 5 ≤ f.size ∧ f.size % 2 = 1 then clamp64 f.median else s.nTimeOffset := by
  subst hf
  unfold addTimeData
  simp only [if_neg h, Bool.and_eq_true, decide_eq_true_eq]
  split_ifs with hsize
  · rw [follow_nTimeOffset]
  · rfl

/-! ## The state after some calls -/

theorem after_append : after (reports ++ [r]) = (after reports).addTimeData r.ip r.nTime r.now := by
  unfold after
  rw [List.foldl_append]
  rfl

/-- The state reached says what was taken. -/
structure Tracks (s : TimeData) (reports : List TimeReport) : Prop where
  known : s.setKnown = ((taken reports).map TimeReport.ip).toFinset
  size : s.vTimeOffsets.nSize = 200
  values : s.vTimeOffsets.vValues = window reports

theorem Tracks.mem_iff (h : Tracks s reports) :
    r.ip ∈ s.setKnown ↔ r.ip ∈ (taken reports).map TimeReport.ip := by
  rw [h.known, List.mem_toFinset]

/-- A call keeps saying it. -/
theorem Tracks.addTimeData (h : Tracks s reports) :
    Tracks (s.addTimeData r.ip r.nTime r.now) (reports ++ [r]) := by
  by_cases hknown : r.ip ∈ (taken reports).map TimeReport.ip
  · have htaken : taken (reports ++ [r]) = taken reports := by rw [taken_append, if_pos hknown]
    rw [addTimeData_of_mem (h.mem_iff.2 hknown)]
    exact ⟨by rw [htaken]; exact h.known, h.size, by unfold window; rw [htaken]; exact h.values⟩
  · have htaken : taken (reports ++ [r]) = taken reports ++ [r] := by
      rw [taken_append, if_neg hknown]
    have hnew : r.ip ∉ s.setKnown := fun hmem => hknown (h.mem_iff.1 hmem)
    refine ⟨?_, ?_, ?_⟩
    · rw [addTimeData_setKnown hnew, h.known, htaken]
      ext ip
      simp [or_comm]
    · rw [addTimeData_vTimeOffsets hnew]
      exact h.size
    · rw [addTimeData_vTimeOffsets hnew, CMedianFilter.vValues_input, h.size, h.values]
      unfold window
      rw [htaken, List.map_append, List.map_singleton, ← List.cons_append,
        rtake_append_singleton (by decide)]
      rfl

theorem tracks_after (reports : List TimeReport) : Tracks (after reports) reports := by
  induction reports using List.reverseRecOn with
  | nil => exact ⟨rfl, rfl, rfl⟩
  | append_singleton reports r ih => exact after_append ▸ ih.addTimeData

theorem size_after : (after reports).vTimeOffsets.size = (window reports).length := by
  unfold CMedianFilter.size
  rw [(tracks_after reports).values]

/-- A known address changes nothing, a new one changes the offset where the
window has an odd length then. -/
theorem nTimeOffset_after_append : (after (reports ++ [r])).nTimeOffset =
    if r.ip ∉ (taken reports).map TimeReport.ip ∧ 5 ≤ (window (reports ++ [r])).length ∧
        (window (reports ++ [r])).length % 2 = 1 then
      clamp64 (after (reports ++ [r])).vTimeOffsets.median
    else (after reports).nTimeOffset := by
  have htracks := tracks_after reports
  by_cases hknown : r.ip ∈ (taken reports).map TimeReport.ip
  · rw [if_neg (fun h => h.1 hknown), after_append, addTimeData_of_mem (htracks.mem_iff.2 hknown)]
  · have hnew : r.ip ∉ (after reports).setKnown := fun hmem => hknown (htracks.mem_iff.1 hmem)
    have hfilter : (after reports).vTimeOffsets.input (r.nTime - r.now) =
        (after (reports ++ [r])).vTimeOffsets := by
      rw [after_append, addTimeData_vTimeOffsets hnew]
    have hstep := addTimeData_nTimeOffset hnew hfilter
    rw [← after_append, size_after] at hstep
    rw [hstep]
    simp only [hknown, not_false_eq_true, true_and]

/-- **At every odd length from five on** the offset is the median's. -/
theorem nTimeOffset_of_odd (hlen : 5 ≤ (window reports).length)
    (hodd : (window reports).length % 2 = 1) :
    (after reports).nTimeOffset = clamp64 (after reports).vTimeOffsets.median := by
  induction reports using List.reverseRecOn with
  | nil =>
    rw [length_window] at hlen
    exact absurd hlen (by decide)
  | append_singleton reports r ih =>
    rw [nTimeOffset_after_append]
    by_cases hknown : r.ip ∈ (taken reports).map TimeReport.ip
    · -- nothing has changed since the address was heard first
      have hsame : window (reports ++ [r]) = window reports := by
        unfold window
        rw [taken_append, if_pos hknown]
      have hstate : after (reports ++ [r]) = after reports := by
        rw [after_append, addTimeData_of_mem ((tracks_after _).mem_iff.2 hknown)]
      rw [if_neg (fun h => h.1 hknown), hstate]
      rw [hsame] at hlen hodd
      exact ih hlen hodd
    · rw [if_pos ⟨hknown, hlen, hodd⟩]

/-- At every other length it is what it was. -/
theorem nTimeOffset_of_not_odd (h : ¬ (5 ≤ (window (reports ++ [r])).length ∧
    (window (reports ++ [r])).length % 2 = 1)) :
    (after (reports ++ [r])).nTimeOffset = (after reports).nTimeOffset := by
  rw [nTimeOffset_after_append, if_neg (fun hall => h hall.2)]

/-! ## How far -/

/-- `abs64` is right but for the least number, which is its own negative. -/
theorem abs64_lt_iff : abs64 n < 70 * 60 ↔ n = Int64.minValue ∨ |n.toInt| < 70 * 60 := by
  have hlow := n.le_toInt
  have hmin : n = Int64.minValue ↔ n.toInt = -2 ^ 63 := by
    rw [← Int64.toInt_inj, Int64.toInt_minValue]
  have hbound : (70 * 60 : Int64).toInt = 70 * 60 := by decide
  have hsign : n ≥ 0 ↔ 0 ≤ n.toInt := by rw [ge_iff_le, Int64.le_iff_toInt_le, Int64.toInt_zero]
  rw [Int64.lt_iff_toInt_lt, hbound, hmin]
  unfold abs64
  by_cases hn : 0 ≤ n.toInt
  · rw [if_pos (hsign.2 hn), abs_of_nonneg hn]
    omega
  · rw [if_neg (fun h => hn (hsign.1 h)), abs_of_neg (by omega), Int64.toInt_neg]
    rcases eq_or_ne n.toInt (-2 ^ 63) with hleast | hne
    · rw [hleast]
      decide
    · rw [Int.bmod_eq_of_le (by omega) (by omega)]
      omega

/-- So the offset a median stands for is small, unless it is the least
number. -/
theorem abs_clamp64_lt (hn : n ≠ Int64.minValue) : |(clamp64 n).toInt| < 70 * 60 := by
  unfold clamp64
  split_ifs with h
  · exact (abs64_lt_iff.1 h).resolve_left hn
  · decide

theorem clamp64_minValue : clamp64 Int64.minValue = Int64.minValue := by decide

/-- A window of odd length, from five on, of which more than half is the
least `int64`. -/
def Overwhelmed (w : List Int64) : Prop :=
  5 ≤ w.length ∧ w.length % 2 = 1 ∧ w.length / 2 < w.count Int64.minValue

instance : DecidablePred Overwhelmed := fun w =>
  inferInstanceAs (Decidable (5 ≤ w.length ∧ w.length % 2 = 1 ∧ w.length / 2 < w.count Int64.minValue))

/-- The median of an odd window is the value in the middle. -/
theorem median_of_odd {f : CMedianFilter Int64} (hodd : f.vValues.length % 2 = 1) :
    ∃ h : f.vValues.length / 2 < (f.vValues.insertionSort (· ≤ ·)).length,
      f.median = (f.vValues.insertionSort (· ≤ ·))[f.vValues.length / 2] := by
  have hpos := f.length_pos
  rw [f.length_vSorted] at hpos
  refine ⟨by rw [List.length_insertionSort]; omega, ?_⟩
  unfold CMedianFilter.median
  simp only [f.vSorted_eq, List.length_insertionSort, if_pos hodd]

/-- It is the least `int64` exactly where more than half of the window
is. -/
theorem median_eq_minValue_iff {f : CMedianFilter Int64} (hodd : f.vValues.length % 2 = 1) :
    f.median = Int64.minValue ↔ f.vValues.length / 2 < f.vValues.count Int64.minValue := by
  obtain ⟨hlt, hmedian⟩ := median_of_odd hodd
  rw [hmedian]
  exact getElem_insertionSort_eq_iff Int64.minValue_le hlt

/-- **Peers push the clock far exactly by overwhelming the window.** In
every run of calls, whatever the addresses and times, the offset stays
below seventy minutes exactly if at no call with a window of odd length
from five on more than half of it is the least `int64`. -/
theorem nTimeOffset_bounded_iff (reports : List TimeReport) :
    (∀ pre, pre <+: reports → |(after pre).nTimeOffset.toInt| < 70 * 60) ↔
      ∀ pre, pre <+: reports → ¬ Overwhelmed (window pre) := by
  constructor
  · rintro h pre hpre ⟨hlen, hodd, hcount⟩
    have hvalues := (tracks_after pre).values
    have hmedian : (after pre).vTimeOffsets.median = Int64.minValue :=
      (median_eq_minValue_iff (by rw [hvalues]; exact hodd)).2 (by rw [hvalues]; exact hcount)
    have hfar := h pre hpre
    rw [nTimeOffset_of_odd hlen hodd, hmedian, clamp64_minValue] at hfar
    exact absurd hfar (by decide)
  · intro h pre
    induction pre using List.reverseRecOn with
    | nil => exact fun _ => by decide
    | append_singleton pre r ih =>
      intro hpre
      by_cases hsize : 5 ≤ (window (pre ++ [r])).length ∧ (window (pre ++ [r])).length % 2 = 1
      · obtain ⟨hlen, hodd⟩ := hsize
        have hvalues := (tracks_after (pre ++ [r])).values
        rw [nTimeOffset_of_odd hlen hodd]
        refine abs_clamp64_lt fun hmin => h _ hpre ⟨hlen, hodd, ?_⟩
        rw [← hvalues]
        exact (median_eq_minValue_iff (by rw [hvalues]; exact hodd)).1 hmin
      · rw [nTimeOffset_of_not_odd hsize]
        exact ih ((List.prefix_append _ _).trans hpre)

namespace FarTime

/-- Three peers whose offset is the least `int64`, and one on time. -/
def calls : List TimeReport :=
  [⟨1, Int64.minValue + 1000, 1000⟩, ⟨2, Int64.minValue + 1001, 1001⟩,
    ⟨3, Int64.minValue + 1002, 1002⟩, ⟨4, 1003, 1003⟩]

end FarTime

/-- Four peers put the clock off by all that an `int64` holds. -/
theorem not_nTimeOffset_bounded :
    ¬ ∀ pre, pre <+: FarTime.calls → |(after pre).nTimeOffset.toInt| < 70 * 60 := by
  intro h
  have hfar : |(after FarTime.calls).nTimeOffset.toInt| = 2 ^ 63 := by decide
  have hnear := h FarTime.calls (List.prefix_refl _)
  rw [hfar] at hnear
  exact absurd hnear (by norm_num)

end TimeData

end CryptoBullion
