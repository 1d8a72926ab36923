import CryptoBullion.Model.LockedPages
/-!
# Pages stay locked while a range is on them

Where no call reaches the last page of the address space, its loop goes
through the pages that the range meets, once each. So the histogram counts,
for every page, the live ranges that meet it, and the locker is called
exactly where that count leaves zero or comes back to it. The counts are
`int`: this is as far as they go.
-/

namespace CryptoBullion

open LockedPageManager

variable {k q e cnt fuel : ℕ} {x page_size p size page end_page : BitVec 64}
variable {m m' : LockedPageManager}

/-! ## Masks -/

/-- The lowest bits of a number set to zero. -/
theorem testBit_div_mul_two_pow (n k i : ℕ) :
    (n / 2 ^ k * 2 ^ k).testBit i = (decide (k ≤ i) && n.testBit i) := by
  rw [← Nat.shiftRight_eq_div_pow, ← Nat.shiftLeft_eq, Nat.testBit_shiftLeft]
  by_cases h : k ≤ i
  · rw [Nat.testBit_shiftRight, Nat.add_sub_cancel' h]
  · simp [h]

theorem toNat_sub_one (hsize : page_size.toNat = 2 ^ k) :
    (page_size - 1).toNat = 2 ^ k - 1 := by
  rw [BitVec.toNat_sub_of_le, hsize]
  · rfl
  · rw [BitVec.le_def, hsize]
    exact Nat.two_pow_pos k

/-- **Masking with a page size** gives the start of the page. -/
theorem toNat_and_mask (hsize : page_size.toNat = 2 ^ k) (x : BitVec 64) :
    (x &&& ~~~(page_size - 1)).toNat = x.toNat / 2 ^ k * 2 ^ k := by
  refine Nat.eq_of_testBit_eq fun i => ?_
  rw [testBit_div_mul_two_pow, BitVec.testBit_toNat, BitVec.getLsbD_and, BitVec.getLsbD_not,
    ← BitVec.testBit_toNat (page_size - 1), toNat_sub_one hsize, Nat.testBit_two_pow_sub_one,
    ← BitVec.testBit_toNat x]
  by_cases hi : i < 64
  · by_cases hik : i < k <;> simp [hi, hik, Nat.not_le.2, Nat.le_of_not_lt]
  · have hhigh : x.toNat.testBit i = false :=
      Nat.testBit_lt_two_pow (x.isLt.trans_le (Nat.pow_le_pow_right (by norm_num) (not_lt.1 hi)))
    simp [hhigh]

/-- A power of two passes the constructor's assertion. -/
theorem new_eq_ok (hsize : page_size.toNat = 2 ^ k) :
    new page_size = .ok ⟨page_size, ~~~(page_size - 1), ∅, []⟩ := by
  have hzero : page_size &&& (page_size - 1) = 0 := by
    refine BitVec.eq_of_toNat_eq ?_
    rw [BitVec.toNat_and, toNat_sub_one hsize, Nat.and_two_pow_sub_one_eq_mod, hsize, Nat.mod_self]
    rfl
  rw [new, hzero]
  rfl

/-! ## The pages of a range -/

/-- A range of memory, as `LockRange` is given it. -/
structure MemRange where
  p : BitVec 64
  size : BitVec 64
deriving DecidableEq

namespace MemRange

variable {r : MemRange}

/-- The range and the page have a byte in common. -/
def meets (page_size page : BitVec 64) (r : MemRange) : Bool :=
  r.size ≠ 0 && page.toNat < r.p.toNat + r.size.toNat && r.p.toNat < page.toNat + page_size.toNat

/-- The range does not reach the last page of the address space. -/
def Inside (page_size : BitVec 64) (r : MemRange) : Prop :=
  r.size ≠ 0 → r.p.toNat + r.size.toNat + page_size.toNat ≤ 2 ^ 64

end MemRange

/-- The start of a page. -/
def IsPage (page_size page : BitVec 64) : Prop := page_size.toNat ∣ page.toNat

instance : Decidable (IsPage page_size page) := Nat.decidable_dvd ..

/-- The `q`-th page. -/
def pageAt (k q : ℕ) : BitVec 64 := BitVec.ofNat 64 (q * 2 ^ k)

theorem toNat_pageAt (h : q * 2 ^ k < 2 ^ 64) : (pageAt k q).toNat = q * 2 ^ k := by
  rw [pageAt, BitVec.toNat_ofNat, Nat.mod_eq_of_lt h]

/-- The last byte of a range. -/
def MemRange.last (r : MemRange) : ℕ := r.p.toNat + r.size.toNat - 1

/-- The pages a range meets, first one first. -/
def MemRange.pages (k : ℕ) (r : MemRange) : List (BitVec 64) :=
  if r.size = 0 then []
  else (List.range' (r.p.toNat / 2 ^ k) (r.last / 2 ^ k + 1 - r.p.toNat / 2 ^ k)).map (pageAt k)

namespace MemRange

variable {r : MemRange}

/-- The pages lie in order below the last one of the address space. -/
theorem page_lt (hsize : page_size.toNat = 2 ^ k) (hin : r.Inside page_size) (hr : r.size ≠ 0)
    (hq : q ≤ r.last / 2 ^ k) : (q + 1) * 2 ^ k < 2 ^ 64 := by
  have hlast := hin hr
  have hpos : 0 < r.size.toNat := Nat.pos_of_ne_zero fun h => hr (BitVec.eq_of_toNat_eq h)
  have hmul : q * 2 ^ k ≤ r.last := (Nat.mul_le_mul_right _ hq).trans (Nat.div_mul_le_self _ _)
  rw [hsize] at hlast
  have hlt : r.last < r.p.toNat + r.size.toNat := by
    unfold last
    omega
  rw [Nat.add_mul, one_mul]
  omega

/-- **The pages of a range** are those that have a byte in common with it. -/
theorem mem_pages (hsize : page_size.toNat = 2 ^ k) (hin : r.Inside page_size) :
    page ∈ r.pages k ↔ IsPage page_size page ∧ r.meets page_size page = true := by
  have hpos := Nat.two_pow_pos k
  unfold pages
  split_ifs with hr
  · simp [meets, hr]
  have hsz : 0 < r.size.toNat := Nat.pos_of_ne_zero fun h => hr (BitVec.eq_of_toNat_eq h)
  have hle : r.p.toNat / 2 ^ k ≤ r.last / 2 ^ k := Nat.div_le_div_right (by unfold last; omega)
  simp only [List.mem_map, List.mem_range'_1, meets, hr, Bool.and_eq_true, decide_eq_true_eq, ne_eq,
    not_false_eq_true, decide_true, true_and, IsPage, hsize]
  constructor
  · rintro ⟨q, ⟨hq₁, hq₂⟩, rfl⟩
    have hq : q ≤ r.last / 2 ^ k := by omega
    have hlt := page_lt hsize hin hr hq
    rw [toNat_pageAt ((Nat.mul_le_mul_right _ (Nat.le_succ q)).trans_lt hlt)]
    have h₁ : q * 2 ^ k ≤ r.last := (Nat.mul_le_mul_right _ hq).trans (Nat.div_mul_le_self _ _)
    have h₂ : r.p.toNat < (q + 1) * 2 ^ k := (Nat.div_lt_iff_lt_mul hpos).1 (Nat.lt_succ_of_le hq₁)
    rw [Nat.add_mul, one_mul] at h₂
    unfold last at h₁
    exact ⟨Nat.dvd_mul_left .., by omega, h₂⟩
  · rintro ⟨⟨q, hq⟩, h₁, h₂⟩
    rw [hq] at h₁ h₂
    rw [mul_comm] at h₁ h₂ hq
    refine ⟨q, ⟨?_, ?_⟩, ?_⟩
    · refine Nat.le_of_lt_succ ((Nat.div_lt_iff_lt_mul hpos).2 ?_)
      rwa [Nat.succ_mul]
    · have : q ≤ r.last / 2 ^ k := (Nat.le_div_iff_mul_le hpos).2 (by unfold last; omega)
      omega
    · rw [pageAt, ← hq, BitVec.ofNat_toNat, BitVec.setWidth_eq]

theorem nodup_pages (hsize : page_size.toNat = 2 ^ k) (hin : r.Inside page_size) :
    (r.pages k).Nodup := by
  unfold pages
  split_ifs with hr
  · exact List.nodup_nil
  · refine List.Nodup.map_on (fun a ha b hb hab => ?_) (List.nodup_range' ..)
    rw [List.mem_range'_1] at ha hb
    have hlt := fun {q : ℕ} (hq : q ≤ r.last / 2 ^ k) =>
      (Nat.mul_le_mul_right (2 ^ k) (Nat.le_succ q)).trans_lt (page_lt hsize hin hr hq)
    have heq := congrArg BitVec.toNat hab
    rw [toNat_pageAt (hlt (by omega)), toNat_pageAt (hlt (by omega))] at heq
    exact Nat.eq_of_mul_eq_mul_right (Nat.two_pow_pos k) heq

end MemRange

/-! ## The loop -/

/-- **The loop goes through the pages** one after another, where the next
page always has an address. -/
theorem pageLoop_eq {body : LockedPageManager → BitVec 64 → Except Failure LockedPageManager}
    (hbody : ∀ {m m' : LockedPageManager} {page : BitVec 64}, body m page = .ok m' →
      m'.page_size = m.page_size)
    (hsize : m.page_size.toNat = 2 ^ k) (he : (e + 1) * 2 ^ k < 2 ^ 64) (hq : q + cnt = e + 1)
    (hfuel : cnt < fuel) : pageLoop body (pageAt k e) fuel (pageAt k q) m =
      ((List.range' q cnt).map (pageAt k)).foldlM body m := by
  have hpos := Nat.two_pow_pos k
  have hlt : ∀ {a}, a ≤ e + 1 → a * 2 ^ k < 2 ^ 64 := fun ha =>
    (Nat.mul_le_mul_right _ ha).trans_lt he
  induction cnt generalizing q fuel m with
  | zero =>
    obtain ⟨fuel, rfl⟩ := Nat.exists_eq_succ_of_ne_zero (Nat.ne_of_gt hfuel)
    have hout : ¬ pageAt k q ≤ pageAt k e := by
      rw [BitVec.le_def, toNat_pageAt (hlt (by omega)), toNat_pageAt (hlt (by omega)), not_le]
      exact (Nat.mul_lt_mul_right hpos).2 (by omega)
    rw [pageLoop, if_neg hout]
    rfl
  | succ cnt ih =>
    obtain ⟨fuel, rfl⟩ := Nat.exists_eq_succ_of_ne_zero (Nat.ne_of_gt (Nat.zero_lt_of_lt hfuel))
    have hin : pageAt k q ≤ pageAt k e := by
      rw [BitVec.le_def, toNat_pageAt (hlt (by omega)), toNat_pageAt (hlt (by omega))]
      exact Nat.mul_le_mul_right _ (by omega)
    have hnext : pageAt k q + m.page_size = pageAt k (q + 1) := by
      refine BitVec.eq_of_toNat_eq ?_
      rw [BitVec.toNat_add, toNat_pageAt (hlt (by omega)), toNat_pageAt (hlt (by omega)), hsize,
        ← Nat.succ_mul, Nat.mod_eq_of_lt (hlt (by omega))]
    rw [pageLoop, if_pos hin, List.range'_succ, List.map_cons, List.foldlM_cons, hnext]
    rcases hm : body m (pageAt k q) with f | m'
    · rfl
    · show pageLoop body (pageAt k e) fuel (pageAt k (q + 1)) m' = _
      exact ih ((congrArg BitVec.toNat (hbody hm)).trans hsize) (by omega) (by omega)

/-- **`LockRange` and `UnlockRange` visit the pages of their range.** -/
theorem eachPage_eq {body : LockedPageManager → BitVec 64 → Except Failure LockedPageManager}
    (hbody : ∀ {m m' : LockedPageManager} {page : BitVec 64}, body m page = .ok m' →
      m'.page_size = m.page_size)
    (hsize : m.page_size.toNat = 2 ^ k) (hmask : m.page_mask = ~~~(m.page_size - 1)) {r : MemRange}
    (hin : r.Inside m.page_size) : eachPage body m r.p r.size = (r.pages k).foldlM body m := by
  unfold eachPage MemRange.pages
  split_ifs with hr
  · rfl
  have hpos := Nat.two_pow_pos k
  have hsz : 0 < r.size.toNat := Nat.pos_of_ne_zero fun h => hr (BitVec.eq_of_toNat_eq h)
  have hle : r.p.toNat / 2 ^ k ≤ r.last / 2 ^ k := Nat.div_le_div_right (by
    unfold MemRange.last
    omega)
  have hlt := fun {q : ℕ} (hq : q ≤ r.last / 2 ^ k) =>
    (Nat.mul_le_mul_right (2 ^ k) (Nat.le_succ q)).trans_lt (MemRange.page_lt hsize hin hr hq)
  have hroom := hin hr
  -- the range does not wrap around
  have hlast : (r.p + r.size - 1).toNat = r.last := by
    have hsum : (r.p + r.size).toNat = r.p.toNat + r.size.toNat := by
      rw [BitVec.toNat_add, Nat.mod_eq_of_lt (by omega)]
    rw [BitVec.toNat_sub_of_le, hsum]
    · rfl
    · rw [BitVec.le_def, hsum]
      show 1 ≤ _
      omega
  have hstart : r.p &&& m.page_mask = pageAt k (r.p.toNat / 2 ^ k) := by
    refine BitVec.eq_of_toNat_eq ?_
    rw [hmask, toNat_and_mask hsize, toNat_pageAt (hlt hle)]
  have hend : (r.p + r.size - 1) &&& m.page_mask = pageAt k (r.last / 2 ^ k) := by
    refine BitVec.eq_of_toNat_eq ?_
    rw [hmask, toNat_and_mask hsize, hlast, toNat_pageAt (hlt le_rfl)]
  have hturns : (pageAt k (r.last / 2 ^ k) - pageAt k (r.p.toNat / 2 ^ k)).toNat /
      m.page_size.toNat = r.last / 2 ^ k - r.p.toNat / 2 ^ k := by
    rw [BitVec.toNat_sub_of_le, toNat_pageAt (hlt le_rfl), toNat_pageAt (hlt hle), hsize,
      ← Nat.sub_mul, Nat.mul_div_cancel _ hpos]
    rw [BitVec.le_def, toNat_pageAt (hlt hle), toNat_pageAt (hlt le_rfl)]
    exact Nat.mul_le_mul_right _ hle
  dsimp only
  rw [hstart, hend, hturns]
  exact pageLoop_eq hbody hsize (MemRange.page_lt hsize hin hr le_rfl) (by omega) (by omega)

/-! ## What a visit changes -/

/-- The loop's body at a page: the count there becomes `edit` of what it
was, where that is allowed, and the locker is told. -/
structure Edits (body : LockedPageManager → BitVec 64 → Except Failure LockedPageManager)
    (allowed : Option ℤ → Prop) (edit : Option ℤ → Option ℤ)
    (told : BitVec 64 → BitVec 64 → Option ℤ → List LockerCall) : Prop where
  spec : ∀ m page, allowed m.histogram[page]? → ∃ m', body m page = .ok m' ∧
    m'.page_size = m.page_size ∧ m'.page_mask = m.page_mask ∧
    (∀ page', m'.histogram[page']? =
      if page = page' then edit m.histogram[page]? else m.histogram[page']?) ∧
    m'.calls = m.calls ++ told m.page_size page m.histogram[page]?

/-- **A visit to each of several pages** changes each of them once. -/
theorem Edits.foldlM {body : LockedPageManager → BitVec 64 → Except Failure LockedPageManager}
    {allowed : Option ℤ → Prop} {edit : Option ℤ → Option ℤ}
    {told : BitVec 64 → BitVec 64 → Option ℤ → List LockerCall}
    (hb : Edits body allowed edit told) {l : List (BitVec 64)} (hl : l.Nodup)
    (hall : ∀ page ∈ l, allowed m.histogram[page]?) : ∃ m', l.foldlM body m = .ok m' ∧
      m'.page_size = m.page_size ∧ m'.page_mask = m.page_mask ∧
      (∀ page, m'.histogram[page]? =
        if page ∈ l then edit m.histogram[page]? else m.histogram[page]?) ∧
      m'.calls = m.calls ++ l.flatMap fun page => told m.page_size page m.histogram[page]? := by
  induction l generalizing m with
  | nil => exact ⟨m, rfl, rfl, rfl, fun _ => rfl, by simp⟩
  | cons page l ih =>
    obtain ⟨m₁, h₁, hsize₁, hmask₁, hhist₁, hcalls₁⟩ := hb.spec m page (hall page List.mem_cons_self)
    rw [List.nodup_cons] at hl
    -- the pages still to be visited are as they were
    have hsame : ∀ page' ∈ l, m₁.histogram[page']? = m.histogram[page']? := by
      intro page' hp
      rw [hhist₁, if_neg]
      rintro rfl
      exact hl.1 hp
    obtain ⟨m₂, h₂, hsize₂, hmask₂, hhist₂, hcalls₂⟩ := ih (m := m₁) hl.2 fun page' hp => by
      rw [hsame page' hp]
      exact hall page' (List.mem_cons_of_mem _ hp)
    refine ⟨m₂, ?_, hsize₂.trans hsize₁, hmask₂.trans hmask₁, fun page' => ?_, ?_⟩
    · rw [List.foldlM_cons, h₁]
      exact h₂
    · rw [hhist₂]
      by_cases hp : page' ∈ l
      · rw [if_pos hp, if_pos (List.mem_cons_of_mem _ hp), hsame page' hp]
      · rw [if_neg hp, hhist₁]
        by_cases heq : page = page'
        · rw [if_pos heq, if_pos (heq ▸ List.mem_cons_self), heq]
        · rw [if_neg heq, if_neg]
          rw [List.mem_cons, not_or]
          exact ⟨Ne.symm heq, hp⟩
    · rw [hcalls₂, hcalls₁, List.flatMap_cons, List.append_assoc, hsize₁]
      congr 2
      exact List.flatMap_congr fun page' hp => by rw [hsame page' hp]

/-- A page locked. -/
theorem edits_lockPage : Edits lockPage (fun _ => True)
    (fun n? => some (n?.elim 1 fun n => toInt32 (n + 1)))
    (fun page_size page n? => if n? = none then [.lock page page_size] else []) := by
  refine ⟨fun m page _ => ?_⟩
  unfold lockPage
  rcases m.histogram[page]? with _ | n
  · refine ⟨_, rfl, rfl, rfl, fun page' => ?_, rfl⟩
    show (m.histogram.insert page 1)[page']? = _
    rw [Std.ExtTreeMap.getElem?_insert]
    simp
  · refine ⟨_, rfl, rfl, rfl, fun page' => ?_, by simp⟩
    show (m.histogram.insert page _)[page']? = _
    rw [Std.ExtTreeMap.getElem?_insert]
    simp

/-- The count a page is left with, or none. -/
def released (n : ℤ) : Option ℤ := if toInt32 (n - 1) = 0 then none else some (toInt32 (n - 1))

/-- A page unlocked, where it is locked. -/
theorem edits_unlockPage : Edits unlockPage (fun n? => n?.isSome) (fun n? => n?.bind released)
    (fun page_size page n? => if n?.bind released = none then [.unlock page page_size] else []) := by
  refine ⟨fun m page hsome => ?_⟩
  unfold unlockPage
  obtain ⟨n, hn⟩ := Option.isSome_iff_exists.1 hsome
  rw [hn]
  dsimp only
  rw [Option.bind_some, released]
  by_cases hzero : toInt32 (n - 1) = 0
  · rw [if_pos hzero, if_pos hzero, if_pos rfl]
    refine ⟨_, rfl, rfl, rfl, fun page' => ?_, rfl⟩
    show (m.histogram.erase page)[page']? = _
    rw [Std.ExtTreeMap.getElem?_erase]
    simp
  · rw [if_neg hzero, if_neg hzero, if_neg (by simp)]
    refine ⟨_, rfl, rfl, rfl, fun page' => ?_, (List.append_nil _).symm⟩
    show (m.histogram.insert page _)[page']? = _
    rw [Std.ExtTreeMap.getElem?_insert]
    simp

theorem page_size_of_lockPage (h : lockPage m page = .ok m') : m'.page_size = m.page_size := by
  obtain ⟨m₁, h₁, hsize, -⟩ := edits_lockPage.spec m page trivial
  rw [h] at h₁
  rw [Except.ok.inj h₁, hsize]

theorem page_size_of_unlockPage (h : unlockPage m page = .ok m') : m'.page_size = m.page_size := by
  by_cases hsome : m.histogram[page]?.isSome
  · obtain ⟨m₁, h₁, hsize, -⟩ := edits_unlockPage.spec m page hsome
    rw [h] at h₁
    rw [Except.ok.inj h₁, hsize]
  · rw [Option.not_isSome_iff_eq_none] at hsome
    rw [unlockPage, hsome] at h
    exact absurd h (by simp)

/-! ## Runs -/

/-- How many of the live ranges meet a page. -/
def liveOn (page_size page : BitVec 64) (live : List MemRange) : ℕ :=
  live.countP (MemRange.meets page_size page)

/-- **A sequence of calls**, with the ranges that are locked and not yet
unlocked. No range reaches the last page of the address space, and a
condition on the live ranges can be asked for. -/
inductive LockRun (page_size : BitVec 64) (fits : List MemRange → Prop) :
    LockedPageManager → List MemRange → Prop
  | new {m : LockedPageManager} (h : LockedPageManager.new page_size = .ok m) :
      LockRun page_size fits m []
  | lock {m m' : LockedPageManager} {live : List MemRange} (r : MemRange)
      (h : LockRun page_size fits m live) (hin : r.Inside page_size) (hfits : fits (r :: live))
      (hrun : m.lockRange r.p r.size = .ok m') : LockRun page_size fits m' (r :: live)
  | unlock {m m' : LockedPageManager} {live : List MemRange} (r : MemRange)
      (h : LockRun page_size fits m live) (hr : r ∈ live)
      (hrun : m.unlockRange r.p r.size = .ok m') : LockRun page_size fits m' (live.erase r)

/-- Every page has fewer live ranges than an `int` can count. -/
def Countable (page_size : BitVec 64) (live : List MemRange) : Prop :=
  ∀ page, liveOn page_size page live < 2 ^ 31

/-- **The histogram counts the live ranges** on each page. -/
structure LockedPageManager.Counts (m : LockedPageManager) (page_size : BitVec 64)
    (live : List MemRange) : Prop where
  size : m.page_size = page_size
  mask : m.page_mask = ~~~(page_size - 1)
  count : ∀ page, m.histogram[page]? =
    if IsPage page_size page ∧ liveOn page_size page live ≠ 0 then
      some (liveOn page_size page live : ℤ)
    else none

section Steps

variable {live : List MemRange} {r : MemRange}

theorem liveOn_cons : liveOn page_size page (r :: live) =
    liveOn page_size page live + if r.meets page_size page then 1 else 0 :=
  List.countP_cons

/-- A live range is one of those counted. -/
theorem liveOn_erase (hr : r ∈ live) : liveOn page_size page live =
    liveOn page_size page (live.erase r) + if r.meets page_size page then 1 else 0 := by
  rw [← liveOn_cons]
  exact (List.perm_cons_erase hr).countP_eq _

theorem Countable.erase (h : Countable page_size live) : Countable page_size (live.erase r) :=
  fun page => (List.Sublist.countP_le (List.erase_sublist ..)).trans_lt (h page)

/-- A filter told from a choice made for each element. -/
theorem flatMap_ite_singleton {α β : Type} {c : α → Prop} [DecidablePred c] {f : α → β} (l : List α) :
    (l.flatMap fun a => if c a then [f a] else []) = (l.filter fun a => decide (c a)).map f := by
  induction l with
  | nil => rfl
  | cons a l ih =>
    rw [List.flatMap_cons, ih]
    by_cases hc : c a <;> simp [hc]

/-- **Locking a range** adds one to each of its pages, and the locker is
told of those that had none. -/
theorem LockedPageManager.Counts.lockRange (hsize : page_size.toNat = 2 ^ k)
    (hm : m.Counts page_size live) (hin : r.Inside page_size)
    (hfits : Countable page_size (r :: live)) :
    ∃ (m' : LockedPageManager) (ps : List (BitVec 64)), m.lockRange r.p r.size = .ok m' ∧ m'.Counts page_size (r :: live) ∧ ps.Nodup ∧
      (∀ page, page ∈ ps ↔ IsPage page_size page ∧ liveOn page_size page live = 0 ∧
        liveOn page_size page (r :: live) = 1) ∧
      m'.calls = m.calls ++ ps.map (.lock · page_size) := by
  obtain ⟨rfl, hmask, hhist⟩ := hm
  have hmem : ∀ {page}, page ∈ r.pages k ↔ IsPage m.page_size page ∧ r.meets m.page_size page = true :=
    MemRange.mem_pages hsize hin
  obtain ⟨m', hrun, hsize', hmask', hhist', hcalls⟩ := edits_lockPage.foldlM (m := m)
    (MemRange.nodup_pages hsize hin) fun _ _ => trivial
  rw [flatMap_ite_singleton] at hcalls
  refine ⟨m', _, ?_, ⟨hsize', hmask'.trans hmask, fun page => ?_⟩,
    (MemRange.nodup_pages hsize hin).filter _, fun page => ?_, hcalls⟩
  · rw [LockedPageManager.lockRange, eachPage_eq page_size_of_lockPage hsize hmask hin, hrun]
  · have hlt := hfits page
    rw [liveOn_cons] at hlt
    rw [hhist', hhist, liveOn_cons]
    by_cases hp : IsPage m.page_size page
    · by_cases hr : r.meets m.page_size page
      · rw [if_pos (hmem.2 ⟨hp, hr⟩)]
        simp only [hp, hr, if_true, true_and] at hlt ⊢
        by_cases hzero : liveOn m.page_size page live = 0
        · simp [hzero]
        · rw [if_pos hzero, if_pos (Nat.succ_ne_zero _)]
          have hself : toInt32 ((liveOn m.page_size page live : ℤ) + 1) =
              liveOn m.page_size page live + 1 := toInt32_eq_self_iff.2 (by omega)
          rw [Option.elim_some, hself, Nat.cast_add, Nat.cast_one]
      · rw [if_neg fun h => hr (hmem.1 h).2]
        simp [hr]
    · rw [if_neg fun h => hp (hmem.1 h).1, if_neg fun h => hp h.1, if_neg fun h => hp h.1]
  · rw [List.mem_filter, hmem, liveOn_cons, hhist, decide_eq_true_iff]
    by_cases hr : r.meets m.page_size page
    · by_cases hp : IsPage m.page_size page <;> simp [hp, hr]
    · simp only [hr, Bool.false_eq_true, and_false, false_and, if_false, false_iff]
      omega

/-- **Unlocking a live range** takes one from each of its pages, and the
locker is told of those that had no other. -/
theorem LockedPageManager.Counts.unlockRange (hsize : page_size.toNat = 2 ^ k)
    (hm : m.Counts page_size live) (hin : r.Inside page_size) (hr : r ∈ live)
    (hfits : Countable page_size live) :
    ∃ (m' : LockedPageManager) (ps : List (BitVec 64)), m.unlockRange r.p r.size = .ok m' ∧ m'.Counts page_size (live.erase r) ∧ ps.Nodup ∧
      (∀ page, page ∈ ps ↔ IsPage page_size page ∧ liveOn page_size page live = 1 ∧
        liveOn page_size page (live.erase r) = 0) ∧
      m'.calls = m.calls ++ ps.map (.unlock · page_size) := by
  obtain ⟨rfl, hmask, hhist⟩ := hm
  have hmem : ∀ {page}, page ∈ r.pages k ↔ IsPage m.page_size page ∧ r.meets m.page_size page = true :=
    MemRange.mem_pages hsize hin
  -- every page of the range has the range itself
  have hpos : ∀ {page}, r.meets m.page_size page = true → liveOn m.page_size page live =
      liveOn m.page_size page (live.erase r) + 1 := by
    intro page hmeets
    rw [liveOn_erase hr, if_pos hmeets]
  have hreleased : ∀ {page}, r.meets m.page_size page = true →
      released (liveOn m.page_size page live : ℤ) =
        if liveOn m.page_size page (live.erase r) = 0 then none
        else some (liveOn m.page_size page (live.erase r) : ℤ) := by
    intro page hmeets
    have hlt := hfits page
    have heq := hpos hmeets
    have hself : toInt32 ((liveOn m.page_size page live : ℤ) - 1) =
        liveOn m.page_size page (live.erase r) := by
      have hstays : toInt32 ((liveOn m.page_size page live : ℤ) - 1) =
          liveOn m.page_size page live - 1 := toInt32_eq_self_iff.2 (by omega)
      rw [hstays, heq, Nat.cast_add, Nat.cast_one, add_sub_cancel_right]
    rw [released, hself]
    simp
  have hpage : ∀ {page}, page ∈ r.pages k →
      m.histogram[page]? = some (liveOn m.page_size page live : ℤ) := by
    intro page hp
    obtain ⟨hp, hmeets⟩ := hmem.1 hp
    rw [hhist, if_pos ⟨hp, by rw [hpos hmeets]; exact Nat.succ_ne_zero _⟩]
  obtain ⟨m', hrun, hsize', hmask', hhist', hcalls⟩ := edits_unlockPage.foldlM (m := m)
    (MemRange.nodup_pages hsize hin) fun page hp => by
      rw [hpage hp]
      rfl
  rw [flatMap_ite_singleton] at hcalls
  refine ⟨m', _, ?_, ⟨hsize', hmask'.trans hmask, fun page => ?_⟩,
    (MemRange.nodup_pages hsize hin).filter _, fun page => ?_, hcalls⟩
  · rw [LockedPageManager.unlockRange, eachPage_eq page_size_of_unlockPage hsize hmask hin, hrun]
  · rw [hhist']
    by_cases hp : page ∈ r.pages k
    · obtain ⟨hisPage, hmeets⟩ := hmem.1 hp
      rw [if_pos hp, hpage hp, Option.bind_some, hreleased hmeets]
      by_cases hzero : liveOn m.page_size page (live.erase r) = 0 <;> simp [hzero, hisPage]
    · rw [if_neg hp, hhist]
      by_cases hisPage : IsPage m.page_size page
      · have hmeets : ¬ r.meets m.page_size page = true := fun h => hp (hmem.2 ⟨hisPage, h⟩)
        rw [liveOn_erase hr, if_neg hmeets, Nat.add_zero]
      · rw [if_neg fun h => hisPage h.1, if_neg fun h => hisPage h.1]
  · rw [List.mem_filter, decide_eq_true_iff]
    constructor
    · rintro ⟨hp, hnone⟩
      obtain ⟨hisPage, hmeets⟩ := hmem.1 hp
      rw [hpage hp, Option.bind_some, hreleased hmeets] at hnone
      have hzero : liveOn m.page_size page (live.erase r) = 0 := by
        by_contra hne
        rw [if_neg hne] at hnone
        exact absurd hnone (by simp)
      exact ⟨hisPage, by rw [hpos hmeets, hzero], hzero⟩
    · rintro ⟨hisPage, hone, hzero⟩
      have hmeets : r.meets m.page_size page = true := by
        by_contra hne
        rw [liveOn_erase hr, if_neg hne, hzero] at hone
        exact absurd hone (by decide)
      have hp := hmem.2 ⟨hisPage, hmeets⟩
      rw [hpage hp, Option.bind_some, hreleased hmeets, if_pos hzero]
      exact ⟨hp, rfl⟩

/-- **Along a run the histogram counts the live ranges.** -/
theorem counts_of_lockRun (hsize : page_size.toNat = 2 ^ k)
    (h : LockRun page_size (Countable page_size) m live) :
    m.Counts page_size live ∧ Countable page_size live ∧ ∀ r ∈ live, r.Inside page_size := by
  induction h with
  | new h =>
    rw [new_eq_ok hsize] at h
    obtain rfl := Except.ok.inj h
    refine ⟨⟨rfl, rfl, fun page => ?_⟩, fun page => by simp [liveOn], by simp⟩
    show (∅ : Map (BitVec 64) ℤ)[page]? = _
    rw [Std.ExtTreeMap.getElem?_empty, if_neg fun h => h.2 rfl]
  | lock r _ hin hfits hrun ih =>
    obtain ⟨hm, -, hall⟩ := ih
    obtain ⟨m₁, ps, hrun₁, hm₁, -⟩ := hm.lockRange hsize hin hfits
    rw [hrun] at hrun₁
    obtain rfl := Except.ok.inj hrun₁
    exact ⟨hm₁, hfits, List.forall_mem_cons.2 ⟨hin, hall⟩⟩
  | unlock r _ hr hrun ih =>
    obtain ⟨hm, hfits, hall⟩ := ih
    obtain ⟨m₁, ps, hrun₁, hm₁, -⟩ := hm.unlockRange hsize (hall r hr) hr hfits
    rw [hrun] at hrun₁
    obtain rfl := Except.ok.inj hrun₁
    exact ⟨hm₁, hfits.erase, fun r' hr' => hall r' (List.mem_of_mem_erase hr')⟩

end Steps

/-! ## Memory that is in use is locked -/

/-- What is asked of a state: its counts, and that the next call ends and
tells the locker of the pages whose number leaves zero or comes back. -/
structure LockedPageManager.Exact (m : LockedPageManager) (page_size : BitVec 64)
    (fits : List MemRange → Prop) (live : List MemRange) : Prop where
  count : ∀ page, m.histogram[page]? =
    if IsPage page_size page ∧ liveOn page_size page live ≠ 0 then
      some (liveOn page_size page live : ℤ)
    else none
  lock : ∀ r : MemRange, r.Inside page_size → fits (r :: live) →
    ∃ (m' : LockedPageManager) (ps : List (BitVec 64)), m.lockRange r.p r.size = .ok m' ∧ ps.Nodup ∧
      (∀ page, page ∈ ps ↔ IsPage page_size page ∧ liveOn page_size page live = 0 ∧
        liveOn page_size page (r :: live) = 1) ∧
      m'.calls = m.calls ++ ps.map (.lock · page_size)
  unlock : ∀ r ∈ live, ∃ (m' : LockedPageManager) (ps : List (BitVec 64)), m.unlockRange r.p r.size = .ok m' ∧ ps.Nodup ∧
    (∀ page, page ∈ ps ↔ IsPage page_size page ∧ liveOn page_size page live = 1 ∧
      liveOn page_size page (live.erase r) = 0) ∧
    m'.calls = m.calls ++ ps.map (.unlock · page_size)

namespace Overcounted

/-- One byte at the start of a page. -/
def byte : MemRange := ⟨0, 1⟩

/-- Each further lock of the byte adds one, as an `int` does. -/
theorem lockRun_replicate (n : ℕ) : ∃ m, LockRun 4096 (fun _ => True) m (List.replicate n byte) ∧
    m.page_size = 4096 ∧ m.page_mask = ~~~4095 ∧
      m.histogram[(0 : BitVec 64)]? = if n = 0 then none else some (toInt32 n) := by
  induction n with
  | zero =>
    exact ⟨_, .new (new_eq_ok (show (4096 : BitVec 64).toNat = 2 ^ 12 by decide)), rfl, rfl,
      Std.ExtTreeMap.getElem?_empty⟩
  | succ n ih =>
    obtain ⟨m, hrun, hsize, hmask, hhist⟩ := ih
    have hin : byte.Inside 4096 := fun _ => by decide
    have hpages : byte.pages 12 = [0] := by decide
    obtain ⟨m', hfold, hsize', hmask', hhist', -⟩ := edits_lockPage.foldlM (m := m)
      (List.nodup_singleton (0 : BitVec 64)) fun _ _ => trivial
    have heach : m.lockRange byte.p byte.size = .ok m' := by
      rw [LockedPageManager.lockRange, eachPage_eq page_size_of_lockPage
        (show m.page_size.toNat = 2 ^ 12 by rw [hsize]; decide) (by rw [hmask, hsize]; decide)
        (by rwa [hsize]), hpages, hfold]
    refine ⟨m', .lock byte hrun hin trivial heach, hsize'.trans hsize, hmask'.trans hmask, ?_⟩
    rw [hhist', if_pos (List.mem_singleton_self _), hhist, if_neg (Nat.succ_ne_zero n)]
    by_cases hn : n = 0
    · rw [if_pos hn, hn]
      rfl
    · rw [if_neg hn]
      rw [Option.elim_some, toInt32_toInt32_add, Nat.cast_add, Nat.cast_one]

end Overcounted

end CryptoBullion
