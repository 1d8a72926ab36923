import CryptoBullion.Peers.Offset
/-!
# How long the clock follows its peers

Of distinct addresses every report is a sample, so the length of the window
grows by one with each call and is odd at every other one. The offset is
then the median's now, or was at the call before. That ends with the
window's growth: at 200 samples it is even, and stays so, and the offset
remains what the first 199 samples made it (`nTimeOffset_frozen`).
-/

namespace CryptoBullion

namespace TimeData

open Window

variable {r : TimeReport} {reports pre : List TimeReport} {n : Int64}

/-- "The median if its absolute value is below 70 minutes, else 0", without
a bound on the numbers. -/
def clamped (nMedian : Int64) : Int64 := if |nMedian.toInt| < 70 * 60 then nMedian else 0

/-- The median after some calls, clamped. -/
def clampedMedian (reports : List TimeReport) : Int64 :=
  clamped (after reports).vTimeOffsets.median

/-- The offset after each call is the clamped median of the window then or
just before, once it has five samples. -/
def Follows (reports : List TimeReport) : Prop :=
  ∀ pre, pre <+: reports → 5 ≤ (window pre).length →
    (after pre).nTimeOffset = clampedMedian pre ∨ (after pre).nTimeOffset = clampedMedian pre.dropLast

/-- Reports of distinct addresses, of offsets below `2 ^ 31`. -/
structure Distinct (reports : List TimeReport) : Prop where
  nodup : (reports.map TimeReport.ip).Nodup
  small : ∀ r ∈ reports, |(offsetOf r).toInt| < 2 ^ 31

theorem Distinct.mono (h : Distinct reports) (hpre : pre <+: reports) : Distinct pre :=
  ⟨h.nodup.sublist (hpre.sublist.map _), fun r hr => h.small r (hpre.subset hr)⟩

/-! ## The window -/

theorem Distinct.length_window (h : Distinct reports) :
    (window reports).length = min 200 (reports.length + 1) := by
  rw [TimeData.length_window, taken_of_nodup h.nodup]

/-- What is in the window is small. -/
theorem Distinct.small_of_mem (h : Distinct reports) (hn : n ∈ window reports) :
    |n.toInt| < 2 ^ 31 := by
  unfold window at hn
  rw [taken_of_nodup h.nodup] at hn
  have hmem : n ∈ 0 :: reports.map offsetOf := List.mem_of_mem_drop hn
  rcases List.mem_cons.1 hmem with rfl | hmem
  · decide
  · obtain ⟨r, hr, rfl⟩ := List.mem_map.1 hmem
    exact h.small r hr

/-- So there the clamp of the code is right. -/
theorem clamp64_eq_clamped (h : |n.toInt| < 2 ^ 31) : clamp64 n = clamped n := by
  have hmin : n ≠ Int64.minValue := by
    rintro rfl
    exact absurd h (by decide)
  unfold clamp64 clamped
  refine if_congr ?_ rfl rfl
  rw [abs64_lt_iff]
  exact or_iff_right hmin

/-- At odd lengths the offset is the clamped median. -/
theorem Distinct.nTimeOffset_of_odd (h : Distinct reports) (hlen : 5 ≤ (window reports).length)
    (hodd : (window reports).length % 2 = 1) :
    (after reports).nTimeOffset = clampedMedian reports := by
  have hvalues := (tracks_after reports).values
  obtain ⟨hlt, hmedian⟩ := median_of_odd (f := (after reports).vTimeOffsets) (by rw [hvalues]; exact hodd)
  rw [TimeData.nTimeOffset_of_odd hlen hodd]
  refine clamp64_eq_clamped (h.small_of_mem ?_)
  rw [hmedian, ← hvalues]
  exact (List.mem_insertionSort _).1 (List.getElem_mem hlt)

/-! ## Up to 199 calls -/

/-- **While the window grows** the offset is fresh. -/
theorem Distinct.fresh (h : Distinct reports) (hfew : reports.length < 200)
    (hlen : 5 ≤ (window reports).length) : (after reports).nTimeOffset = clampedMedian reports ∨
      (after reports).nTimeOffset = clampedMedian reports.dropLast := by
  have hwindow := h.length_window
  by_cases hodd : (window reports).length % 2 = 1
  · exact .inl (h.nTimeOffset_of_odd hlen hodd)
  · -- the window was odd before the last call, which did not change the offset
    right
    rcases List.eq_nil_or_concat reports with rfl | ⟨pre, r, rfl⟩
    · rw [hwindow] at hlen
      exact absurd hlen (by decide)
    · rw [List.concat_eq_append] at h hodd hwindow hlen hfew ⊢
      have hpre := h.mono (List.prefix_append pre [r])
      have hwindow' := hpre.length_window
      rw [List.length_append, List.length_singleton] at hwindow hfew
      rw [nTimeOffset_of_not_odd (fun hall => hodd hall.2), List.dropLast_concat]
      exact hpre.nTimeOffset_of_odd (by omega) (by omega)

/-! ## And later -/

/-- **From then on the offset stays** what the first 198 calls made it. -/
theorem Distinct.nTimeOffset_frozen (h : Distinct reports) (hmany : 198 ≤ reports.length) :
    (after reports).nTimeOffset = clampedMedian (reports.take 198) := by
  induction reports using List.reverseRecOn with
  | nil => exact absurd hmany (by decide)
  | append_singleton pre r ih =>
    rw [List.length_append, List.length_singleton] at hmany
    have hwindow := h.length_window
    rw [List.length_append, List.length_singleton] at hwindow
    rcases Nat.lt_or_ge pre.length 198 with hfirst | hlater
    · -- the last of them
      have htake : (pre ++ [r]).take 198 = pre ++ [r] :=
        List.take_of_length_le (by rw [List.length_append, List.length_singleton]; omega)
      rw [htake]
      exact h.nTimeOffset_of_odd (by omega) (by omega)
    · rw [nTimeOffset_of_not_odd (by omega), List.take_append_of_le_length hlater]
      exact ih (h.mono (List.prefix_append _ _)) hlater

/-- **The clock follows its peers for 199 calls.** In every run of calls
from distinct addresses with offsets below `2 ^ 31`, the offset is fresh
after each of the first 199 calls, whatever they report; after a later one
it is exactly if the clamped median of the first 199 samples happens to be
that of the window then or just before. -/
theorem follows_iff (reports : List TimeReport) (h : Distinct reports) :
    Follows reports ↔ ∀ pre, pre <+: reports → 200 ≤ pre.length →
      clampedMedian (reports.take 198) = clampedMedian pre ∨
        clampedMedian (reports.take 198) = clampedMedian pre.dropLast := by
  have hfrozen : ∀ pre, pre <+: reports → 200 ≤ pre.length →
      (after pre).nTimeOffset = clampedMedian (reports.take 198) := by
    rintro pre ⟨suf, rfl⟩ hmany
    rw [(h.mono (List.prefix_append _ _)).nTimeOffset_frozen (by omega),
      List.take_append_of_le_length (by omega)]
  constructor
  · intro hfollows pre hpre hmany
    have hwindow := (h.mono hpre).length_window
    rw [← hfrozen pre hpre hmany]
    exact hfollows pre hpre (by omega)
  · intro hlater pre hpre hlen
    by_cases hmany : 200 ≤ pre.length
    · rw [hfrozen pre hpre hmany]
      exact hlater pre hpre hmany
    · exact (h.mono hpre).fresh (by omega) hlen

/-- A window that is sorted has its median in the middle. -/
theorem median_of_pairwise {f : CMedianFilter Int64} {w : List Int64} (hf : f.vValues = w)
    (hw : w.Pairwise (· ≤ ·)) : f.median = if w.length % 2 = 1 then w.getD (w.length / 2) 0
      else (w.getD (w.length / 2 - 1) 0 + w.getD (w.length / 2) 0) / 2 := by
  subst hf
  have hpos := List.length_pos_iff.2 f.ne_nil
  have hsorted : f.vSorted = f.vValues := by
    rw [f.vSorted_eq]
    exact hw.insertionSort_eq
  unfold CMedianFilter.median
  simp only [hsorted]
  rw [List.getD_eq_getElem _ _ (by omega), List.getD_eq_getElem _ _ (by omega)]

namespace StaleTime

/-- One call a second: 99 peers on time, then 101 that are a minute ahead. -/
def calls : List TimeReport :=
  (List.range 200).map fun k => ⟨BitVec.ofNat 128 k, if k < 99 then 1000 else 1060, 1000⟩

theorem length_calls : calls.length = 200 := by
  rw [calls, List.length_map, List.length_range]

/-- No address reports twice. -/
theorem nodup_calls : (calls.map TimeReport.ip).Nodup := by
  unfold calls
  rw [List.map_map]
  refine List.nodup_range.map_on fun i hi j hj h => ?_
  have hi := List.mem_range.1 hi
  have hj := List.mem_range.1 hj
  have h := congrArg BitVec.toNat h
  simp only [Function.comp_apply, BitVec.toNat_ofNat] at h
  omega

theorem distinct_calls : Distinct calls := by
  refine ⟨nodup_calls, fun r hr => ?_⟩
  obtain ⟨k, -, rfl⟩ := List.mem_map.1 hr
  by_cases hk : k < 99
  · simp only [offsetOf, if_pos hk]
    decide
  · simp only [offsetOf, if_neg hk]
    decide

theorem pairwise_replicate (m n : ℕ) :
    (List.replicate m 0 ++ List.replicate n (60 : Int64)).Pairwise (· ≤ ·) := by
  refine List.pairwise_append.2 ⟨List.pairwise_replicate.2 (.inr (by decide)),
    List.pairwise_replicate.2 (.inr (by decide)), fun a ha b hb => ?_⟩
  rw [(List.mem_replicate.1 ha).2, (List.mem_replicate.1 hb).2]
  decide

/-- The window when the clock stops, and at the last two calls. -/
theorem window_calls : window (calls.take 198) = List.replicate 100 0 ++ List.replicate 99 60 ∧
    window calls.dropLast = List.replicate 100 0 ++ List.replicate 100 60 ∧
    window calls = List.replicate 99 0 ++ List.replicate 101 60 := by
  unfold window
  rw [taken_of_nodup nodup_calls, taken_of_nodup (nodup_calls.sublist ((List.take_sublist _ _).map _)),
    taken_of_nodup (nodup_calls.sublist ((List.dropLast_sublist _).map _))]
  decide +kernel

theorem clampedMedian_of_window {m n : ℕ} (h : window reports = .replicate m 0 ++ .replicate n 60) :
    clampedMedian reports = clamped
      (if (m + n) % 2 = 1 then (List.replicate m 0 ++ .replicate n 60).getD ((m + n) / 2) 0
        else ((List.replicate m 0 ++ .replicate n 60).getD ((m + n) / 2 - 1) 0 +
          (List.replicate m 0 ++ .replicate n 60).getD ((m + n) / 2) 0) / 2) := by
  unfold clampedMedian
  rw [median_of_pairwise ((tracks_after reports).values.trans h) (pairwise_replicate m n),
    List.length_append, List.length_replicate, List.length_replicate]

end StaleTime

/-- So runs of 199 calls are fresh. -/
theorem follows_iff_calls : Follows (StaleTime.calls.take 199) :=
  (follows_iff (StaleTime.calls.take 199) (StaleTime.distinct_calls.mono (List.take_prefix _ _))).2
    fun pre hpre hmany => by
    have hle := hpre.length_le
    have hlen : (StaleTime.calls.take 199).length = 199 := rfl
    omega

/-- The two hundredth call makes the median a minute, and the offset stays
nothing. -/
theorem not_follows : Distinct StaleTime.calls ∧ ¬ Follows StaleTime.calls := by
  refine ⟨StaleTime.distinct_calls, fun h => ?_⟩
  obtain ⟨hstop, hlast, hall⟩ := StaleTime.window_calls
  have hstale : (after StaleTime.calls).nTimeOffset = 0 ∧ clampedMedian StaleTime.calls = 60 ∧
      clampedMedian StaleTime.calls.dropLast = 30 ∧ 5 ≤ (window StaleTime.calls).length := by
    rw [StaleTime.distinct_calls.nTimeOffset_frozen (by rw [StaleTime.length_calls]; omega),
      StaleTime.clampedMedian_of_window hstop, StaleTime.clampedMedian_of_window hlast,
      StaleTime.clampedMedian_of_window hall, hall]
    decide +kernel
  obtain ⟨hoffset, hnow, hbefore, hlen⟩ := hstale
  have hfresh := h StaleTime.calls (List.prefix_refl _) hlen
  rw [hoffset, hnow, hbefore] at hfresh
  exact absurd hfresh (by decide)

end TimeData

end CryptoBullion
