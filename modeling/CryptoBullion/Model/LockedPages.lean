import CryptoBullion.Model.Work
/-!
# Locked pages

`LockedPageManagerBase` of `allocators.h`: a count for each page that has
been locked, by the page's address. Addresses and sizes are `size_t`, the
counts are `int`.
-/

namespace CryptoBullion

/-- A call of the locker, on a page of the page size. -/
inductive LockerCall
  | lock (page page_size : BitVec 64)
  | unlock (page page_size : BitVec 64)
deriving DecidableEq, Repr

/-- `LockedPageManagerBase` -/
structure LockedPageManager where
  page_size : BitVec 64
  page_mask : BitVec 64
  histogram : Map (BitVec 64) ℤ
  /-- what the locker has been asked, first call first -/
  calls : List LockerCall

namespace LockedPageManager

/-- the constructor -/
def new (page_size : BitVec 64) : Except Failure LockedPageManager := do
  reject (page_size &&& (page_size - 1) ≠ 0) (.crash "!(page_size & (page_size-1))")
  .ok ⟨page_size, ~~~(page_size - 1), ∅, []⟩

/-- the body of `LockRange`'s loop -/
def lockPage (m : LockedPageManager) (page : BitVec 64) : Except Failure LockedPageManager :=
  match m.histogram[page]? with
  -- newly locked page
  | none => .ok { m with
      histogram := m.histogram.insert page 1
      calls := m.calls ++ [.lock page m.page_size] }
  -- page was already locked
  | some n => .ok { m with histogram := m.histogram.insert page (toInt32 (n + 1)) }

/-- the body of `UnlockRange`'s loop -/
def unlockPage (m : LockedPageManager) (page : BitVec 64) : Except Failure LockedPageManager :=
  match m.histogram[page]? with
  | none => .error (.crash "it != histogram.end()")
  | some n =>
    if toInt32 (n - 1) = 0 then .ok { m with
      histogram := m.histogram.erase page
      calls := m.calls ++ [.unlock page m.page_size] }
    else .ok { m with histogram := m.histogram.insert page (toInt32 (n - 1)) }

/-- `for (size_t page = start_page; page <= end_page; page += page_size)` -/
def pageLoop (body : LockedPageManager → BitVec 64 → Except Failure LockedPageManager)
    (end_page : BitVec 64) : ℕ → BitVec 64 → LockedPageManager → Except Failure LockedPageManager
  | 0, _, _ => .error (.crash "endless loop")
  | fuel + 1, page, m =>
    if page ≤ end_page then do
      let m' ← body m page
      pageLoop body end_page fuel (page + m.page_size) m'
    else .ok m

/-- What `LockRange` and `UnlockRange` do with their pages; the turns are
enough where `page` does not wrap around. -/
def eachPage (body : LockedPageManager → BitVec 64 → Except Failure LockedPageManager)
    (m : LockedPageManager) (p size : BitVec 64) : Except Failure LockedPageManager :=
  if size = 0 then .ok m
  else
    let start_page := p &&& m.page_mask
    let end_page := (p + size - 1) &&& m.page_mask
    pageLoop body end_page ((end_page - start_page).toNat / m.page_size.toNat + 2) start_page m

/-- `LockRange` -/
def lockRange (m : LockedPageManager) (p size : BitVec 64) : Except Failure LockedPageManager :=
  eachPage lockPage m p size

/-- `UnlockRange` -/
def unlockRange (m : LockedPageManager) (p size : BitVec 64) : Except Failure LockedPageManager :=
  eachPage unlockPage m p size

end LockedPageManager

end CryptoBullion
