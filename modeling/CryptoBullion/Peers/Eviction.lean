import CryptoBullion.Common.Shuffle
import CryptoBullion.Model.AddrMan
/-!
# Which tried address is evicted

`SelectTried` shuffles the first places of a bucket and remembers the
address drawn with the least `nLastSuccess`, and a position for it: the one
it was drawn from. By then the address has been exchanged with the one at
the step's own place, so the position holds what was there instead, or what
a later step put there. It is the position of a least inspected address
just where the step that drew the least drew its own place, or the place of
another step that drew as little (`evicts_least_iff`).
-/

namespace CryptoBullion

namespace Peers

variable {s : CAddrMan} {rand : ℕ → ℕ} {nId n k : ℕ} {e : CAddrInfo} {vTried : List ℕ}
variable {nKBucket : Fin triedBucketCount} {nOrigin : Fin newBucketCount}

/-- `nLastSuccess` of the address of a number -/
def CAddrMan.lastSuccess (s : CAddrMan) (n : ℕ) : Int64 :=
  match s.mapInfo[n]? with
  | some e => e.nLastSuccess
  | none => 0

namespace Eviction

/-! ## What is drawn -/

/-- The position step `i` draws. -/
def draw (rand : ℕ → ℕ) (size i : ℕ) : ℕ := getRandInt (rand i) (size - i) + i

/-- How many are inspected. -/
def nInspected (vTried : List ℕ) : ℕ := min triedEntriesInspectOnEvict vTried.length

/-- The bucket after all steps; the addresses inspected come first. -/
def shuffled (rand : ℕ → ℕ) (vTried : List ℕ) : List ℕ :=
  Shuffle.shuffle (draw rand vTried.length) (nInspected vTried) 0 vTried

/-- The addresses inspected, in the order they are drawn. -/
def inspected (rand : ℕ → ℕ) (vTried : List ℕ) : List ℕ :=
  (shuffled rand vTried).take (nInspected vTried)

/-- `n` was inspected, and nothing inspected has a smaller `nLastSuccess`. -/
def Least (s : CAddrMan) (ns : List ℕ) (n : ℕ) : Prop :=
  n ∈ ns ∧ ∀ n' ∈ ns, s.lastSuccess n ≤ s.lastSuccess n'

/-- The step that was the first to draw the least drew from its own place, or
from the place of a step that drew as little. -/
def StaysPut (s : CAddrMan) (rand : ℕ → ℕ) (vTried : List ℕ) : Prop :=
  ∃ k n n', (inspected rand vTried)[k]? = some n ∧ Least s (inspected rand vTried) n ∧
    (∀ j < k, ∀ m, (inspected rand vTried)[j]? = some m → s.lastSuccess n < s.lastSuccess m) ∧
    (inspected rand vTried)[draw rand vTried.length k]? = some n' ∧
    s.lastSuccess n' = s.lastSuccess n

theorem le_draw {size i : ℕ} : i ≤ draw rand size i := Nat.le_add_left i _

theorem getRandInt_lt {r nMax : ℕ} (h : 0 < nMax) : getRandInt r nMax < nMax := by
  unfold getRandInt
  rw [if_neg (by omega)]
  exact Nat.mod_lt r h

theorem draw_lt {size i : ℕ} (hi : i < size) : draw rand size i < size := by
  have h : getRandInt (rand i) (size - i) < size - i := getRandInt_lt (by omega)
  unfold draw
  omega

/-! ## The loop -/

theorem info_of_get (h : s.mapInfo[n]? = some e) : CAddrMan.info n s = (.ok e, s) := by
  unfold CAddrMan.info
  rw [Step.get_bind, h]
  rfl

/-- What the loop reads of an address it knows. -/
theorem info_of_has (h : s.has n = true) :
    ∃ e, CAddrMan.info n s = (.ok e, s) ∧ e.nLastSuccess = s.lastSuccess n := by
  obtain ⟨e, he⟩ : ∃ e : CAddrInfo, s.mapInfo[n]? = some e :=
    ⟨_, Std.ExtTreeMap.getElem?_eq_some_getElem (Std.ExtTreeMap.mem_iff_contains.2 h)⟩
  refine ⟨e, info_of_get he, ?_⟩
  unfold CAddrMan.lastSuccess
  rw [he]

@[simp] theorem assert_true : (assert true : ManStep Unit) = pure () := rfl

/-- **The loop of `SelectTried`**: from step `i` on it shuffles on, and what
it remembers is the first step that drew the least, by the position drawn
there. -/
theorem selectTriedLoop_eq (left i steps : ℕ) (cur : List ℕ) {L : List ℕ} {value : ℕ → Int64}
    (hknown : ∀ n ∈ cur, s.has n = true) (hsteps : steps = min left (cur.length - i))
    (hL : L = Shuffle.shuffle (draw rand cur.length) steps i cur)
    (hvalue : ∀ j, value j = s.lastSuccess (L.getD j 0)) (hi : i ≤ cur.length) :
    CAddrMan.selectTriedLoop rand left i cur ((Shuffle.least value i).map fun k => L.getD k 0)
        ((Shuffle.least value i).map (draw rand cur.length)) s =
      (.ok (L, (Shuffle.least value (i + steps)).map (draw rand cur.length)), s) := by
  induction left generalizing i cur steps with
  | zero =>
    obtain rfl : steps = 0 := by omega
    rw [hL]
    rfl
  | succ left ih =>
    rw [CAddrMan.selectTriedLoop]
    by_cases hlt : i < cur.length
    · obtain ⟨steps, rfl⟩ : ∃ m, steps = m + 1 := ⟨steps - 1, by omega⟩
      have hdraw : draw rand cur.length i < cur.length := draw_lt hlt
      set nPos := draw rand cur.length i with hnPos
      have hexchange : (cur.set nPos cur[i]).set i (cur.getD nPos 0) =
          Shuffle.exchange cur i nPos := by
        rw [Shuffle.exchange_of_lt hlt hdraw, List.getD_eq_getElem _ _ hdraw]
      have hlen : (Shuffle.exchange cur i nPos).length = cur.length := Shuffle.length_exchange
      -- the address drawn stays at this step's place
      have htemp : L.getD i 0 = cur.getD nPos 0 := by
        rw [hL, List.getD_eq_getElem?_getD, List.getD_eq_getElem?_getD,
          Shuffle.getElem?_shuffle_self (fun _ => le_draw) hlt hdraw]
      have hmem : ∀ {j}, j < cur.length → s.has (L.getD j 0) = true := by
        intro j hj
        have hperm : L.Perm cur := hL ▸ Shuffle.perm_shuffle
        have hj' : j < L.length := hperm.length_eq ▸ hj
        rw [List.getD_eq_getElem _ _ hj']
        exact hknown _ (hperm.mem_iff.1 (List.getElem_mem hj'))
      have hnext := ih (i + 1) steps (Shuffle.exchange cur i nPos)
        (fun n hn => hknown n (Shuffle.perm_exchange.mem_iff.1 hn)) (by omega)
        (by rw [hlen, hL]; rfl) (by omega)
      rw [hlen, show i + 1 + steps = i + (steps + 1) by omega, Shuffle.least_succ] at hnext
      rw [dif_pos hlt, show getRandInt (rand i) (cur.length - i) + i = nPos from rfl, hexchange, ← htemp]
      rcases hk : Shuffle.least value i with _ | k
      · rw [hk] at hnext
        exact hnext
      · rw [hk] at hnext
        have hki : k < i := Shuffle.lt_of_least hk
        obtain ⟨eTemp, hTemp, hsTemp⟩ := info_of_has (hmem hlt)
        obtain ⟨eOldest, hOldest, hsOldest⟩ := info_of_has (hmem (hki.trans hlt))
        simp only [Option.map_some]
        rw [Step.get_bind, hmem hlt, assert_true, Step.pure_bind_apply, Step.bind_of_ok hTemp,
          Step.bind_of_ok hOldest, hsTemp, hsOldest, ← hvalue, ← hvalue]
        dsimp only at hnext
        split_ifs at hnext ⊢ with hless
        · exact hnext
        · exact hnext
    · obtain rfl : steps = 0 := by omega
      rw [dif_neg hlt, hL]
      rfl

/-- **`SelectTried`** leaves the bucket shuffled, and returns the position
drawn by the first step that drew the least. -/
theorem selectTried_eq (rand : ℕ → ℕ) (hknown : ∀ n ∈ s.vvTried nKBucket, s.has n = true) :
    CAddrMan.selectTried rand nKBucket s =
      (.ok ((Shuffle.least (fun j => s.lastSuccess ((shuffled rand (s.vvTried nKBucket)).getD j 0))
          (nInspected (s.vvTried nKBucket))).map (draw rand (s.vvTried nKBucket).length)),
        s.updateTried nKBucket fun _ => shuffled rand (s.vvTried nKBucket)) := by
  have hloop := selectTriedLoop_eq triedEntriesInspectOnEvict 0 (nInspected (s.vvTried nKBucket))
    (s.vvTried nKBucket) hknown rfl (Eq.refl (shuffled rand _)) (fun _ => rfl) (Nat.zero_le _)
  rw [Nat.zero_add, Shuffle.least_zero, Option.map_none, Option.map_none] at hloop
  unfold CAddrMan.selectTried
  rw [Step.get_bind, Step.bind_of_ok hloop]
  rfl

/-! ## The position it returns -/

theorem length_shuffled : (shuffled rand vTried).length = vTried.length := Shuffle.length_shuffle

theorem mem_inspected_iff (hnodup : vTried.Nodup) {p : ℕ}
    (hp : (shuffled rand vTried)[p]? = some n) :
    n ∈ inspected rand vTried ↔ p < nInspected vTried := by
  have hperm : (shuffled rand vTried).Perm vTried := Shuffle.perm_shuffle
  obtain ⟨hlt, rfl⟩ := List.getElem?_eq_some_iff.1 hp
  constructor
  · intro hmem
    obtain ⟨q, hq⟩ := List.mem_iff_getElem?.1 hmem
    unfold inspected at hq
    rw [List.getElem?_take] at hq
    split_ifs at hq with hqm
    obtain ⟨hq', heq⟩ := List.getElem?_eq_some_iff.1 hq
    rwa [(hperm.nodup_iff.2 hnodup).getElem_inj_iff.1 heq] at hqm
  · intro hpm
    exact List.mem_iff_getElem?.2 ⟨p, by rw [inspected, List.getElem?_take_of_lt hpm, hp]⟩

/-- What the step `k` that first drew the least has at the position it drew
is a least where it stays put. -/
theorem least_iff_staysPut (hnodup : vTried.Nodup)
    (hk : Shuffle.least (fun j => s.lastSuccess ((shuffled rand vTried).getD j 0))
      (nInspected vTried) = some k)
    (hp : (shuffled rand vTried)[draw rand vTried.length k]? = some n) :
    Least s (inspected rand vTried) n ↔ StaysPut s rand vTried := by
  have hget : ∀ {j m}, (inspected rand vTried)[j]? = some m →
      j < nInspected vTried ∧ (shuffled rand vTried).getD j 0 = m := by
    intro j m hj
    unfold inspected at hj
    rw [List.getElem?_take] at hj
    split_ifs at hj with hjm
    exact ⟨hjm, by rw [List.getD_eq_getElem?_getD, hj, Option.getD_some]⟩
  have hof : ∀ {j}, j < nInspected vTried →
      (inspected rand vTried)[j]? = some ((shuffled rand vTried).getD j 0) := by
    intro j hj
    have hlt : j < (shuffled rand vTried).length := by
      rw [length_shuffled]
      exact hj.trans_le (Nat.min_le_right _ _)
    rw [inspected, List.getElem?_take_of_lt hj, List.getElem?_eq_getElem hlt,
      List.getD_eq_getElem _ _ hlt]
  obtain ⟨hkm, hle, hfirst⟩ := Shuffle.least_eq_some_iff.1 hk
  have hleast : Least s (inspected rand vTried) ((shuffled rand vTried).getD k 0) := by
    refine ⟨List.mem_iff_getElem?.2 ⟨k, hof hkm⟩, fun n' hn' => ?_⟩
    obtain ⟨j, hj⟩ := List.mem_iff_getElem?.1 hn'
    obtain ⟨hjm, rfl⟩ := hget hj
    exact hle j hjm
  constructor
  · intro hn
    have hlt := (mem_inspected_iff hnodup hp).1 hn.1
    refine ⟨k, _, n, hof hkm, hleast, fun j hj m hm => ?_, ?_,
      le_antisymm (hn.2 _ hleast.1) (hleast.2 n hn.1)⟩
    · obtain ⟨-, rfl⟩ := hget hm
      exact hfirst j hj
    · rw [inspected, List.getElem?_take_of_lt hlt, hp]
  · rintro ⟨k', m, n', hm, hmin, hbefore, hn', heq⟩
    obtain ⟨hk'm, rfl⟩ := hget hm
    -- both are the first step that drew the least
    have hk' : Shuffle.least (fun j => s.lastSuccess ((shuffled rand vTried).getD j 0))
        (nInspected vTried) = some k' := by
      refine Shuffle.least_eq_some_iff.2 ⟨hk'm, fun j hj => ?_, fun j hj => ?_⟩
      · exact hmin.2 _ (List.mem_iff_getElem?.2 ⟨j, hof hj⟩)
      · exact hbefore j hj _ (hof (hj.trans hk'm))
    obtain rfl : k = k' := Option.some.inj (hk.symm.trans hk')
    obtain ⟨hdm, hd⟩ := hget hn'
    rw [List.getD_eq_getElem?_getD, hp, Option.getD_some] at hd
    subst hd
    exact ⟨List.mem_iff_getElem?.2 ⟨_, hn'⟩, fun m hm => heq ▸ hmin.2 m hm⟩

/-- The position `SelectTried` returns is that of a least inspected address. -/
def ReturnsLeast (s : CAddrMan) (rand : ℕ → ℕ) (nKBucket : Fin triedBucketCount) : Prop :=
  ∃ nPos n s', CAddrMan.selectTried rand nKBucket s = (.ok (some nPos), s') ∧
    (s'.vvTried nKBucket)[nPos]? = some n ∧ Least s (inspected rand (s.vvTried nKBucket)) n

theorem returnsLeast_iff (hnodup : (s.vvTried nKBucket).Nodup)
    (hknown : ∀ n ∈ s.vvTried nKBucket, s.has n = true) :
    ReturnsLeast s rand nKBucket ↔ StaysPut s rand (s.vvTried nKBucket) := by
  unfold ReturnsLeast
  rw [selectTried_eq rand hknown]
  rcases hk : Shuffle.least
    (fun j => s.lastSuccess ((shuffled rand (s.vvTried nKBucket)).getD j 0))
    (nInspected (s.vvTried nKBucket)) with _ | k
  · -- an empty bucket: nothing is inspected
    have hnone : nInspected (s.vvTried nKBucket) = 0 := by
      by_contra h
      obtain ⟨k, hk'⟩ : ∃ k, Shuffle.least
          (fun j => s.lastSuccess ((shuffled rand (s.vvTried nKBucket)).getD j 0))
          (nInspected (s.vvTried nKBucket)) = some k :=
        Shuffle.exists_least (Nat.pos_of_ne_zero h)
      rw [hk] at hk'
      cases hk'
    constructor
    · rintro ⟨nPos, n, s', heq, -⟩
      cases heq
    · rintro ⟨k, n, n', hn, -⟩
      rw [inspected, hnone, List.take_zero] at hn
      cases hn
  · have hkm : k < (s.vvTried nKBucket).length :=
      (Shuffle.lt_of_least hk).trans_le (Nat.min_le_right _ _)
    have hlt : draw rand (s.vvTried nKBucket).length k <
        (shuffled rand (s.vvTried nKBucket)).length := by
      rw [length_shuffled]
      exact draw_lt hkm
    have hp := List.getElem?_eq_getElem hlt
    rw [← least_iff_staysPut hnodup hk hp]
    constructor
    · rintro ⟨nPos, n, s', heq, hn, hleast⟩
      obtain ⟨hpos, rfl⟩ := Prod.mk.inj heq
      obtain rfl := Option.some.inj (Except.ok.inj hpos)
      rw [CAddrMan.updateTried_vvTried, Function.update_self, hp] at hn
      exact Option.some.inj hn ▸ hleast
    · intro hleast
      refine ⟨_, _, _, rfl, ?_, hleast⟩
      rw [CAddrMan.updateTried_vvTried, Function.update_self, hp]

/-! ## What goes back to new -/

/-- Nothing but a reference count changes: the same successes, and the same
addresses known. -/
theorem lastSuccess_setInfo (he : s.mapInfo[nId]? = some e) {r : ℤ} :
    (s.setInfo nId (e.addRefs r)).lastSuccess = s.lastSuccess := by
  funext m
  unfold CAddrMan.lastSuccess
  rw [CAddrMan.setInfo_mapInfo, Std.ExtTreeMap.getElem?_insert]
  split_ifs with hm
  · rw [← Std.compare_eq_iff_eq.1 hm, he]
    rfl
  · rfl

theorem has_setInfo (h : s.has n = true) : (s.setInfo nId e).has n = true := by
  unfold CAddrMan.has at *
  rw [CAddrMan.setInfo_mapInfo, Std.ExtTreeMap.contains_insert, h, Bool.or_true]

variable [P : Platform]

/-- **Evicting from a bucket**: what is at the position that `SelectTried`
returns makes room, and goes to a new bucket. -/
theorem evict_eq (hknown : ∀ n ∈ s.vvTried nKBucket, s.has n = true) (hself : s.has nId = true)
    (hk : Shuffle.least
      (fun j => s.lastSuccess ((shuffled rand (s.vvTried nKBucket)).getD j 0))
      (nInspected (s.vvTried nKBucket)) = some k)
    (hp : (shuffled rand (s.vvTried nKBucket))[draw rand (s.vvTried nKBucket).length k]? = some n) :
    ∃ s', CAddrMan.evict rand nId nOrigin nKBucket s = (.ok (), s') ∧
      s'.vvTried nKBucket = (shuffled rand (s.vvTried nKBucket)).set
        (draw rand (s.vvTried nKBucket).length k) nId ∧ ∃ b, n ∈ s'.vvNew b := by
  have hselect := selectTried_eq rand hknown
  rw [hk, Option.map_some] at hselect
  set s₁ := s.updateTried nKBucket fun _ => shuffled rand (s.vvTried nKBucket) with hs₁
  have hmem : n ∈ s.vvTried nKBucket :=
    Shuffle.perm_shuffle.mem_iff.1 (List.mem_of_getElem? hp)
  have hn : s₁.has n = true := hknown n hmem
  obtain ⟨infoOld, hinfo, -⟩ := info_of_has hn
  unfold CAddrMan.evict
  rw [Step.bind_of_ok hselect, Step.get_bind, Option.bind_some,
    CAddrMan.updateTried_vvTried, Function.update_self, hp,
    Option.map_some]
  dsimp only
  rw [hn, assert_true, Step.pure_bind_apply, Step.bind_of_ok hinfo, Step.modify_bind,
    Step.modify_bind, Step.modify_bind]
  set nTarget := if (s₁.vvNew (infoOld.getNewBucket s₁.nKey infoOld.source)).card < newBucketSize
    then infoOld.getNewBucket s₁.nKey infoOld.source else nOrigin
  have hself' : (s₁.setInfo n infoOld.setEvicted).has nId = true := has_setInfo hself
  obtain ⟨entry, hentry, -⟩ : ∃ entry, CAddrMan.info nId
      ((((s₁.setInfo n infoOld.setEvicted).updateNew nTarget (insert n)).addNew 1).updateTried
        nKBucket (·.set (draw rand (s.vvTried nKBucket).length k) nId)) =
      (.ok entry, _) ∧ _ := info_of_has hself'
  rw [Step.bind_of_ok hentry]
  refine ⟨_, rfl, ?_, nTarget, ?_⟩
  · simp [hs₁]
  · simp

/-- A full bucket is evicted from, once the entry has left the new buckets. -/
theorem makeTried_eq (rand : ℕ → ℕ) (hin : nId ∈ s.vvNew nOrigin) (he : s.mapInfo[nId]? = some e)
    (hcount : e.nRefCount = s.nBuckets nId)
    (hfull : triedBucketSize ≤ (s.vvTried (e.getTriedBucket s.nKey)).length) :
    CAddrMan.makeTried rand nId nOrigin s =
      CAddrMan.evict rand nId nOrigin (e.getTriedBucket s.nKey)
        (((s.setInfo nId (e.addRefs (-s.nBuckets nId))).eraseNew nId).addNew (-1)) := by
  have hzero : (e.addRefs (-s.nBuckets nId)).nRefCount = 0 := by
    unfold CAddrInfo.addRefs
    dsimp only
    omega
  have hbucket : (e.addRefs (-s.nBuckets nId)).getTriedBucket s.nKey = e.getTriedBucket s.nKey := rfl
  unfold CAddrMan.makeTried
  rw [Step.get_bind, decide_eq_true hin, assert_true, Step.pure_bind_apply,
    Step.bind_of_ok (info_of_get he)]
  dsimp only
  rw [Step.modify_bind, decide_eq_true hzero, assert_true, Step.pure_bind_apply, hbucket,
    if_neg (not_lt.2 hfull)]

/-- `MakeTried` moves a least inspected address back to new. -/
def MovesLeast (s : CAddrMan) (rand : ℕ → ℕ) (nKBucket : Fin triedBucketCount) (nId : ℕ)
    (nOrigin : Fin newBucketCount) : Prop :=
  ∃ n s', CAddrMan.makeTried rand nId nOrigin s = (.ok (), s') ∧
    Least s (inspected rand (s.vvTried nKBucket)) n ∧ n ∉ s'.vvTried nKBucket ∧
    ∃ nUBucket, n ∈ s'.vvNew nUBucket

theorem movesLeast_iff (hnodup : (s.vvTried nKBucket).Nodup)
    (hknown : ∀ n ∈ s.vvTried nKBucket, s.has n = true)
    (hin : nId ∈ s.vvNew nOrigin) (hnot : nId ∉ s.vvTried nKBucket)
    (he : s.mapInfo[nId]? = some e) (hcount : e.nRefCount = s.nBuckets nId)
    (hbucket : e.getTriedBucket s.nKey = nKBucket)
    (hfull : triedBucketSize ≤ (s.vvTried nKBucket).length) :
    MovesLeast s rand nKBucket nId nOrigin ↔ StaysPut s rand (s.vvTried nKBucket) := by
  subst hbucket
  set nKBucket := e.getTriedBucket s.nKey with hbucket
  set s₁ := ((s.setInfo nId (e.addRefs (-s.nBuckets nId))).eraseNew nId).addNew (-1) with hs₁
  have hmake := makeTried_eq rand hin he hcount hfull
  have hlast : s₁.lastSuccess = s.lastSuccess := lastSuccess_setInfo he
  have hknown₁ : ∀ n ∈ s₁.vvTried nKBucket, s₁.has n = true :=
    fun n hn => has_setInfo (hknown n hn)
  have hself : s₁.has nId = true := has_setInfo (by
    rw [CAddrMan.has, Std.ExtTreeMap.contains_eq_isSome_getElem?, he]
    rfl)
  -- the position it returns
  have hpos : 0 < nInspected (s.vvTried nKBucket) := by
    unfold nInspected triedEntriesInspectOnEvict
    unfold triedBucketSize at hfull
    omega
  obtain ⟨k, hk⟩ : ∃ k, Shuffle.least
      (fun j => s.lastSuccess ((shuffled rand (s.vvTried nKBucket)).getD j 0))
      (nInspected (s.vvTried nKBucket)) = some k := Shuffle.exists_least hpos
  have hlt : draw rand (s.vvTried nKBucket).length k <
      (shuffled rand (s.vvTried nKBucket)).length := by
    rw [length_shuffled]
    exact draw_lt ((Shuffle.lt_of_least hk).trans_le (Nat.min_le_right _ _))
  set nPos := draw rand (s.vvTried nKBucket).length k with hnPos
  have hp := List.getElem?_eq_getElem hlt
  set n := (shuffled rand (s.vvTried nKBucket))[nPos] with hn
  obtain ⟨s', hevict, htried, hnew⟩ : ∃ s', CAddrMan.evict rand nId nOrigin nKBucket s₁ =
      (.ok (), s') ∧ s'.vvTried nKBucket = (shuffled rand (s.vvTried nKBucket)).set nPos nId ∧
      ∃ b, n ∈ s'.vvNew b := by
    refine evict_eq hknown₁ hself ?_ hp
    rw [hlast]
    exact hk
  -- what is there is what leaves the bucket
  have hperm : (shuffled rand (s.vvTried nKBucket)).Perm (s.vvTried nKBucket) :=
    Shuffle.perm_shuffle
  have hleaves : ∀ m ∈ shuffled rand (s.vvTried nKBucket), m ∉ s'.vvTried nKBucket ↔ m = n := by
    intro m hm
    obtain ⟨q, hq, rfl⟩ := List.mem_iff_getElem.1 hm
    rw [htried]
    constructor
    · intro hgone
      by_contra hne
      have hqp : nPos ≠ q := fun h => hne (by rw [hn]; congr 1; exact h.symm)
      refine hgone (List.mem_iff_getElem?.2 ⟨q, ?_⟩)
      rw [List.getElem?_set_ne hqp, List.getElem?_eq_getElem hq]
    · intro heq hmem
      obtain ⟨r, hr⟩ := List.mem_iff_getElem?.1 hmem
      by_cases hrp : nPos = r
      · subst hrp
        rw [List.getElem?_set_self hlt] at hr
        rw [Option.some.inj hr, ← hperm.mem_iff] at hnot
        exact hnot hm
      · rw [List.getElem?_set_ne hrp, heq] at hr
        obtain ⟨hr', hr⟩ := List.getElem?_eq_some_iff.1 hr
        exact hrp ((hperm.nodup_iff.2 hnodup).getElem_inj_iff.1 hr).symm
  rw [← least_iff_staysPut hnodup hk hp]
  unfold MovesLeast
  rw [hmake, hevict]
  constructor
  · rintro ⟨m, s'', heq, hleast, hgone, -⟩
    obtain ⟨-, rfl⟩ := Prod.mk.inj heq
    have hm : m ∈ shuffled rand (s.vvTried nKBucket) := List.mem_of_mem_take hleast.1
    rwa [← (hleaves m hm).1 hgone]
  · intro hleast
    exact ⟨n, s', rfl, hleast, (hleaves n (List.getElem_mem hlt)).2 rfl, hnew⟩

/-- **The right address is evicted exactly where the least drawn stays
put.** `SelectTried` returns the position of an address whose `nLastSuccess`
is minimal among those it inspected, and `MakeTried` on a full bucket moves
such an address back to new, if and only if the step that was the first to
draw the least drew its own place, or that of another step that drew as
little. -/
theorem evicts_least_iff (hnodup : (s.vvTried nKBucket).Nodup)
    (hknown : ∀ n ∈ s.vvTried nKBucket, s.has n = true) :
    (ReturnsLeast s rand nKBucket ↔ StaysPut s rand (s.vvTried nKBucket)) ∧
      ∀ nId nOrigin e, nId ∈ s.vvNew nOrigin → nId ∉ s.vvTried nKBucket →
        s.mapInfo[nId]? = some e → e.nRefCount = s.nBuckets nId →
        e.getTriedBucket s.nKey = nKBucket → triedBucketSize ≤ (s.vvTried nKBucket).length →
        (MovesLeast s rand nKBucket nId nOrigin ↔ StaysPut s rand (s.vvTried nKBucket)) :=
  ⟨returnsLeast_iff hnodup hknown, fun _ _ _ hin hnot he hcount hbucket hfull =>
    movesLeast_iff hnodup hknown hin hnot he hcount hbucket hfull⟩

omit P

/-- A tried address, with its last success -/
def entry (n : ℕ) (nLastSuccess : Int64) : CAddrInfo :=
  { CAddrInfo.ofAddress ⟨⟨BitVec.ofNat 128 (n + 1), 9333⟩, 1, 1400000000, 0⟩ 1 with
    nLastSuccess := nLastSuccess
    fInTried := true
    nRandomPos := some n }

/-- A bucket of sixty-four, and a new address that belongs there. -/
def fullBucket : CAddrMan := { CAddrMan.init [] with
  nIdCount := 65
  mapInfo := (Std.ExtTreeMap.ofList ((List.range 64).map fun n => (n, entry n (Int64.ofNat n)))
    compare).insert 64 { entry 64 0 with fInTried := false, nRefCount := 1 }
  vRandom := List.range 65
  nTried := 64
  vvTried := fun _ => List.range 64
  nNew := 1
  vvNew := fun b => if b = 0 then {64} else ∅ }

theorem evicts_least_iff_fullBucket :
    letI := Platform.toy
    let e : CAddrInfo := { entry 64 0 with fInTried := false, nRefCount := 1 }
    MovesLeast fullBucket (fun _ => 0) (e.getTriedBucket []) 64 0 := by
  letI := Platform.toy
  intro e
  have hnodup : (fullBucket.vvTried (e.getTriedBucket [])).Nodup := List.nodup_range
  have hknown : ∀ n ∈ fullBucket.vvTried (e.getTriedBucket []), fullBucket.has n = true := by
    change ∀ n ∈ List.range 64, fullBucket.has n = true
    decide
  have hnot : 64 ∉ fullBucket.vvTried (e.getTriedBucket []) := by
    change 64 ∉ List.range 64
    decide
  refine ((evicts_least_iff hnodup hknown).2 64 0 e (by decide) hnot (by decide)
    (by decide +kernel) rfl (by decide +kernel)).2 ?_
  have hins : inspected (fun _ => 0) (List.range 64) = [0, 1, 2, 3] := by decide
  change StaysPut fullBucket (fun _ => 0) (List.range 64)
  unfold StaysPut
  rw [hins]
  refine ⟨0, 0, 0, rfl, ⟨List.mem_cons_self, by decide⟩,
    fun j hj => absurd hj (Nat.not_lt_zero j), by decide, rfl⟩

/-- A bucket of two, the first of them the one that was reached later. -/
def twoTried : CAddrMan := { CAddrMan.init [] with
  nIdCount := 2
  mapInfo := Std.ExtTreeMap.ofList [(0, entry 0 1400000200), (1, entry 1 1400000100)] compare
  mapAddr := Std.ExtTreeMap.ofList [(1, 0), (2, 1)] compare
  vRandom := [0, 1]
  nTried := 2
  vvTried := fun b => if b = 0 then [0, 1] else [] }

/-- **Not the right one.** Both are inspected. The one reached earlier is drawn
first, from position 1, and exchanged with the other; position 1 is returned
all the same. -/
theorem not_returnsLeast : ¬ ∀ s rand nKBucket, (s.vvTried nKBucket).Nodup →
    (∀ n ∈ s.vvTried nKBucket, s.has n = true) → ReturnsLeast s rand nKBucket := by
  intro h
  obtain ⟨nPos, n, s', hrun, hn, hleast⟩ :=
    h twoTried (fun _ => 1) 0 (by decide) (by decide)
  have hselect : CAddrMan.selectTried (fun _ => 1) 0 twoTried =
      (.ok (some 1), twoTried.updateTried 0 fun _ => [1, 0]) := by
    rw [selectTried_eq _ (by decide)]
    have hleast : (Shuffle.least (fun j => twoTried.lastSuccess
        ((shuffled (fun _ => 1) (twoTried.vvTried 0)).getD j 0)) (nInspected (twoTried.vvTried 0))).map
        (draw (fun _ => 1) (twoTried.vvTried 0).length) = some 1 := by decide
    have hshuffled : shuffled (fun _ => 1) (twoTried.vvTried 0) = [1, 0] := by decide
    rw [hleast, hshuffled]
  rw [hselect] at hrun
  obtain ⟨hpos, rfl⟩ := Prod.mk.inj hrun
  obtain rfl := Option.some.inj (Except.ok.inj hpos)
  obtain rfl : 0 = n := by simpa using hn
  have hins : inspected (fun _ => 1) (twoTried.vvTried 0) = [1, 0] := by decide
  rw [hins] at hleast
  exact absurd (hleast.2 1 List.mem_cons_self) (by decide)

end Eviction

end Peers

end CryptoBullion
