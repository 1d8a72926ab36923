import Mathlib
/-!
# Network-adjusted time

`AddTimeData` takes what a peer says the time is, once for each address,
and moves this node's clock by the median of the differences. They are
`int64`s, computed without a check, and the filter keeps the last 200.
-/

namespace CryptoBullion

instance instLinearOrderInt64 : LinearOrder Int64 where
  le_refl a := Int64.le_refl a
  le_trans _ _ _ := Int64.le_trans
  lt_iff_le_not_ge a b := by
    rw [Int64.lt_iff_toInt_lt, Int64.le_iff_toInt_le, Int64.le_iff_toInt_le]
    omega
  le_antisymm _ _ h h' := Int64.le_antisymm h h'
  le_total := Int64.le_total
  toDecidableLE := inferInstance
  toDecidableEq := inferInstance

/-- `CNetAddr`: its sixteen bytes, in network order -/
abbrev CNetAddr := BitVec 128

/-! ## The median filter -/

/-- `CMedianFilter` -/
structure CMedianFilter (T : Type) [LinearOrder T] where
  nSize : ℕ
  vValues : List T
  vSorted : List T
  ne_nil : vValues ≠ []
  length_le : vValues.length ≤ nSize
  vSorted_eq : vSorted = vValues.insertionSort (· ≤ ·)

namespace CMedianFilter

variable {T : Type} [LinearOrder T]

/-- `CMedianFilter(size, initial_value)` -/
def init (size : ℕ) (initialValue : T) (h : 0 < size) : CMedianFilter T :=
  ⟨size, [initialValue], [initialValue], List.cons_ne_nil _ _, h, rfl⟩

/-- `input` -/
def input (f : CMedianFilter T) (value : T) : CMedianFilter T where
  nSize := f.nSize
  vValues := (if f.vValues.length = f.nSize then f.vValues.drop 1 else f.vValues) ++ [value]
  vSorted := ((if f.vValues.length = f.nSize then f.vValues.drop 1 else f.vValues) ++
    [value]).insertionSort (· ≤ ·)
  ne_nil := List.append_ne_nil_of_right_ne_nil _ (List.cons_ne_nil _ _)
  length_le := by
    have hne := List.length_pos_iff.2 f.ne_nil
    have hle := f.length_le
    rw [List.length_append, List.length_singleton]
    split_ifs
    · rw [List.length_drop]
      omega
    · omega
  vSorted_eq := rfl

theorem vValues_input (f : CMedianFilter T) (value : T) : (f.input value).vValues =
    (if f.vValues.length = f.nSize then f.vValues.drop 1 else f.vValues) ++ [value] := rfl

theorem length_vSorted (f : CMedianFilter T) : f.vSorted.length = f.vValues.length := by
  rw [f.vSorted_eq, List.length_insertionSort]

theorem length_pos (f : CMedianFilter T) : 0 < f.vSorted.length :=
  f.length_vSorted ▸ List.length_pos_iff.2 f.ne_nil

/-- `median` -/
def median [Add T] [Div T] [OfNat T 2] (f : CMedianFilter T) : T :=
  have h := f.length_pos
  if f.vSorted.length % 2 = 1 then f.vSorted[f.vSorted.length / 2]
  else (f.vSorted[f.vSorted.length / 2 - 1] + f.vSorted[f.vSorted.length / 2]) / 2

/-- `size` -/
def size (f : CMedianFilter T) : ℕ := f.vValues.length

/-- `sorted` -/
def sorted (f : CMedianFilter T) : List T := f.vSorted

end CMedianFilter

/-! ## The clock -/

/-- `abs64` -/
def abs64 (n : Int64) : Int64 := if n ≥ 0 then n else -n

/-- The globals of `util.cpp` and the statics of `AddTimeData`. -/
structure TimeData where
  nTimeOffset : Int64
  setKnown : Finset CNetAddr
  vTimeOffsets : CMedianFilter Int64
  fDone : Bool
  strMiscWarning : String

namespace TimeData

/-- As they are initialised. -/
def init : TimeData := ⟨0, ∅, .init 200 0 (by decide), false, ""⟩

/-- `GetAdjustedTime`, at the system's time `now` -/
def getAdjustedTime (s : TimeData) (now : Int64) : Int64 := now + s.nTimeOffset

/-- "Warning: Please check that your computer's date and time are
correct!", once, unless a peer has a different time within five minutes -/
def warn (s : TimeData) : TimeData :=
  let fMatch := s.vTimeOffsets.sorted.any fun nOffset => nOffset ≠ 0 && abs64 nOffset < 5 * 60
  if s.fDone || fMatch then s
  else { s with
    fDone := true
    strMiscWarning := "Warning: Please check that your computer's date and time are correct! " ++
      "If your clock is wrong CryptoBullion will not work properly." }

/-- "Only let other nodes change our time by so much" -/
def follow (s : TimeData) : TimeData :=
  let nMedian := s.vTimeOffsets.median
  if abs64 nMedian < 70 * 60 then { s with nTimeOffset := nMedian }
  else warn { s with nTimeOffset := 0 }

/-- `AddTimeData`, at the system's time `now` -/
def addTimeData (s : TimeData) (ip : CNetAddr) (nTime now : Int64) : TimeData :=
  let nOffsetSample := nTime - now
  if ip ∈ s.setKnown then s
  else
    let s := { s with
      setKnown := insert ip s.setKnown
      vTimeOffsets := s.vTimeOffsets.input nOffsetSample }
    if 5 ≤ s.vTimeOffsets.size && s.vTimeOffsets.size % 2 = 1 then s.follow else s

end TimeData

/-- A call of `AddTimeData`: the address, the time it reports and the time
it is. -/
structure TimeReport where
  ip : CNetAddr
  nTime : Int64
  now : Int64
  deriving DecidableEq

/-- The state after a list of calls. -/
def TimeData.after (reports : List TimeReport) : TimeData :=
  reports.foldl (fun s r => s.addTimeData r.ip r.nTime r.now) init

end CryptoBullion
