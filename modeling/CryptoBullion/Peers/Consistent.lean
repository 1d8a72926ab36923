import CryptoBullion.Common.Places
import CryptoBullion.Peers.Eviction
import CryptoBullion.Peers.Tables
/-!
# The five tables of the address manager agree

`Consistent` says that the order, the addresses and the buckets of the
manager all speak of the entries there are. Each function keeps it and
passes its assertions, so that they do over any sequence of requests.
`look` reads one thing off every entry: what a function leaves alone of
the entries it leaves alone of `look`, and each part of the invariant is
about one of them.
-/

namespace CryptoBullion

namespace Peers

open Buckets Eviction

variable {s s' : CAddrMan} {e e' : CAddrInfo} {m n p q : ℕ} {loose : Option ℕ} {k : ℤ}
variable {b : Fin triedBucketCount} {c : Fin newBucketCount} {rand : ℕ → ℕ}

/-! ## Reading the entries -/

/-- What `f` reads of the entry under each number. -/
def CAddrMan.look {α : Type} (s : CAddrMan) (f : CAddrInfo → α) (n : ℕ) : Option α :=
  (s.mapInfo[n]?).map f

section Look

variable {α : Type} {f : CAddrInfo → α}

theorem look_of_get (h : s.mapInfo[n]? = some e) : s.look f n = some (f e) := by
  unfold CAddrMan.look
  rw [h]
  rfl

theorem look_eq_some_iff {a : α} : s.look f n = some a ↔ ∃ e, s.mapInfo[n]? = some e ∧ f e = a :=
  Option.map_eq_some_iff

theorem look_congr (h : s'.mapInfo = s.mapInfo) : s'.look f = s.look f := by
  unfold CAddrMan.look
  rw [h]

theorem getElem?_setInfo : (s.setInfo n e).mapInfo[m]? = if m = n then some e else s.mapInfo[m]? := by
  rw [CAddrMan.setInfo_mapInfo, Std.ExtTreeMap.getElem?_insert]
  simp only [Std.compare_eq_iff_eq, @eq_comm _ n m]

theorem look_setInfo : (s.setInfo n e).look f = Function.update (s.look f) n (some (f e)) := by
  funext m
  unfold CAddrMan.look
  rw [getElem?_setInfo, Function.update_apply]
  split_ifs <;> rfl

/-- An entry replaced by one of which `f` reads the same. -/
theorem look_setInfo_of_eq (he : s.mapInfo[n]? = some e) (hf : f e' = f e) :
    (s.setInfo n e').look f = s.look f := by
  rw [look_setInfo, hf, ← look_of_get he, Function.update_eq_self]

theorem look_enter : (s.enter n e).look f = Function.update (s.look f) n (some (f e)) := by
  funext m
  unfold CAddrMan.look
  rw [CAddrMan.enter_mapInfo, Std.ExtTreeMap.getElem?_insert, Function.update_apply]
  simp only [Std.compare_eq_iff_eq, @eq_comm _ n m]
  split_ifs <;> rfl

theorem look_leave : (s.leave n e).look f = Function.update (s.look f) n none := by
  funext m
  unfold CAddrMan.look
  rw [CAddrMan.leave_mapInfo, Std.ExtTreeMap.getElem?_erase, Function.update_apply]
  simp only [Std.compare_eq_iff_eq, @eq_comm _ n m]
  split_ifs <;> rfl

end Look

theorem has_iff : s.has n = true ↔ ∃ e, s.mapInfo[n]? = some e := by
  unfold CAddrMan.has
  rw [← Std.ExtTreeMap.mem_iff_contains, Std.ExtTreeMap.mem_iff_isSome_getElem?,
    Option.isSome_iff_exists]

theorem has_of_get (h : s.mapInfo[n]? = some e) : s.has n = true := has_iff.2 ⟨e, h⟩

/-- An assertion that holds lets the rest run. -/
theorem assert_bind {α : Type} {x : ManStep α} {t : Bool} (ht : t = true) :
    (assert t >>= fun _ => x) s = x s := by
  rw [ht, assert_true, Step.pure_bind_apply]

/-! ## The order -/

/-- The entry without its place. -/
def CAddrInfo.unplaced (a : CAddrInfo) : CAddrInfo := a.setRandomPos 0

/-- Another state of the same entries in the same buckets, in whatever
order. -/
structure Reordered (s s' : CAddrMan) : Prop where
  nKey : s'.nKey = s.nKey
  nIdCount : s'.nIdCount = s.nIdCount
  mapAddr : s'.mapAddr = s.mapAddr
  length : s'.vRandom.length = s.vRandom.length
  nTried : s'.nTried = s.nTried
  vvTried : s'.vvTried = s.vvTried
  nNew : s'.nNew = s.nNew
  vvNew : s'.vvNew = s.vvNew
  look_unplaced : s'.look CAddrInfo.unplaced = s.look CAddrInfo.unplaced

theorem Reordered.refl : Reordered s s := ⟨rfl, rfl, rfl, rfl, rfl, rfl, rfl, rfl, rfl⟩

theorem Reordered.trans {s'' : CAddrMan} (h : Reordered s s') (h' : Reordered s' s'') :
    Reordered s s'' where
  nKey := h'.nKey.trans h.nKey
  nIdCount := h'.nIdCount.trans h.nIdCount
  mapAddr := h'.mapAddr.trans h.mapAddr
  length := h'.length.trans h.length
  nTried := h'.nTried.trans h.nTried
  vvTried := h'.vvTried.trans h.vvTried
  nNew := h'.nNew.trans h.nNew
  vvNew := h'.vvNew.trans h.vvNew
  look_unplaced := h'.look_unplaced.trans h.look_unplaced

/-- What does not depend on the order is read as before. -/
theorem Reordered.look {α : Type} {f : CAddrInfo → α} (h : Reordered s s')
    (hf : ∀ e, f e.unplaced = f e) : s'.look f = s.look f := by
  have hread : ∀ t : CAddrMan, t.look f = fun n => (t.look CAddrInfo.unplaced n).map f := by
    intro t
    funext n
    unfold CAddrMan.look
    rw [Option.map_map]
    exact congrFun (congrArg Option.map (funext fun e => (hf e).symm)) _
  rw [hread s', h.look_unplaced, ← hread]

/-- The places of the entries are noted. -/
def Ordered (s : CAddrMan) : Prop := Places.Noted (s.look (·.nRandomPos)) s.vRandom

/-- **`SwapRandom` exchanges two entries**, and asserts nothing that is not
so. -/
theorem swapRandom_spec (h : Ordered s) (hm : s.vRandom[p]? = some m) (hn : s.vRandom[q]? = some n) :
    ∃ s', CAddrMan.swapRandom (some p) (some q) s = (.ok (), s') ∧ Ordered s' ∧ Reordered s s' ∧
      s'.look (·.nRandomPos) m = some (some q) ∧ s'.vRandom[p]? = some n := by
  have hpm := (h.iff m p).2 hm
  have hqn := (h.iff n q).2 hn
  unfold CAddrMan.swapRandom
  by_cases hpq : p = q
  · subst hpq
    rw [if_pos rfl]
    exact ⟨s, rfl, h, Reordered.refl, hpm, hn⟩
  obtain ⟨e, he, -⟩ := look_eq_some_iff.1 hpm
  obtain ⟨e', he', -⟩ := look_eq_some_iff.1 hqn
  have hmn : n ≠ m := by
    rintro rfl
    rw [hpm] at hqn
    exact hpq (Option.some.inj (Option.some.inj hqn))
  have hget : (s.setInfo m (e.setRandomPos q)).mapInfo[n]? = some e' := by
    rw [getElem?_setInfo, if_neg hmn, he']
  rw [if_neg fun heq => hpq (Option.some.inj heq), Step.get_bind]
  dsimp only
  rw [hm, hn]
  dsimp only
  rw [assert_bind (has_of_get he), assert_bind (has_of_get he'), Step.bind_of_ok (info_of_get he),
    Step.modify_bind, Step.bind_of_ok (info_of_get hget), Step.modify_bind, Step.modify_apply]
  refine ⟨_, rfl, ?_, ⟨rfl, rfl, rfl, ?_, rfl, rfl, rfl, rfl, ?_⟩, ?_, ?_⟩
  · have hnoted := h.exchange hpm hqn
    show Places.Noted (((s.setInfo m (e.setRandomPos q)).setInfo n (e'.setRandomPos p)).look _) _
    rwa [look_setInfo, look_setInfo]
  · simp
  · show ((s.setInfo m (e.setRandomPos q)).setInfo n (e'.setRandomPos p)).look _ = _
    have hm' : CAddrInfo.unplaced (e.setRandomPos q) = e.unplaced := rfl
    have hn' : CAddrInfo.unplaced (e'.setRandomPos p) = e'.unplaced := rfl
    rw [look_setInfo_of_eq hget hn', look_setInfo_of_eq he hm']
  · show ((s.setInfo m (e.setRandomPos q)).setInfo n (e'.setRandomPos p)).look _ m = _
    rw [look_setInfo, look_setInfo, Function.update_of_ne hmn.symm, Function.update_self]
    rfl
  · have hp := h.lt_length hpm
    show ((s.vRandom.set p n).set q m)[p]? = some n
    rw [List.getElem?_set_ne (Ne.symm hpq), List.getElem?_set_self hp]

end Peers

end CryptoBullion
