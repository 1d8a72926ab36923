import Mathlib
/-!
# A list whose elements know their places

Beside a list without repetitions, each element's place in it is noted, so
that one can be taken out in one move: it is exchanged with the last, which
is then dropped. `Noted` says that the notes and the list agree; entering,
exchanging and taking out keep it.
-/

namespace CryptoBullion

namespace Places

variable {κ : Type} [DecidableEq κ] {pos : κ → Option (Option ℕ)} {l : List κ}
variable {m n : κ} {p q : ℕ}

/-- What is in the list has its place noted, and nothing else does. There
may be a note that is not filled in, of which `none` is the value. -/
structure Noted (pos : κ → Option (Option ℕ)) (l : List κ) : Prop where
  filled : ∀ n, pos n ≠ some none
  iff : ∀ n p, pos n = some (some p) ↔ l[p]? = some n

theorem noted_nil : Noted (fun _ : κ => none) [] := ⟨by simp, by simp⟩

namespace Noted

omit [DecidableEq κ] in
theorem mem_iff (h : Noted pos l) : n ∈ l ↔ pos n ≠ none := by
  rw [List.mem_iff_getElem?]
  constructor
  · rintro ⟨p, hp⟩
    rw [(h.iff n p).2 hp]
    exact Option.some_ne_none _
  · intro hn
    obtain ⟨o, ho⟩ := Option.ne_none_iff_exists'.1 hn
    cases o with
    | none => exact absurd ho (h.filled n)
    | some p => exact ⟨p, (h.iff n p).1 ho⟩

omit [DecidableEq κ] in
theorem nodup (h : Noted pos l) : l.Nodup := by
  refine List.nodup_iff_getElem?_ne_getElem?.2 fun p q hpq hq heq => ?_
  rw [List.getElem?_eq_getElem hq] at heq
  have hp := (h.iff _ p).2 heq
  have hq := (h.iff _ q).2 (List.getElem?_eq_getElem hq)
  rw [hp] at hq
  injection hq with hq
  injection hq with hq
  omega

omit [DecidableEq κ] in
/-- A place that is noted is in the list. -/
theorem lt_length (h : Noted pos l) (hn : pos n = some (some p)) : p < l.length :=
  (List.getElem?_eq_some_iff.1 ((h.iff n p).1 hn)).1

/-- **One more at the end.** -/
theorem push (h : Noted pos l) (hn : pos n = none) :
    Noted (Function.update pos n (some (some l.length))) (l ++ [n]) := by
  have hmem : n ∉ l := fun hn' => h.mem_iff.1 hn' hn
  constructor
  · intro m
    rw [Function.update_apply]
    split_ifs
    · simp
    · exact h.filled m
  · intro m p
    rw [Function.update_apply]
    rcases Nat.lt_trichotomy p l.length with hp | rfl | hp
    · rw [List.getElem?_append_left hp]
      split_ifs with hm
      · subst hm
        constructor
        · intro heq
          injection heq with heq
          injection heq with heq
          omega
        · exact fun hget => absurd (List.mem_of_getElem? hget) hmem
      · exact h.iff m p
    · rw [List.getElem?_append_right le_rfl, Nat.sub_self, List.getElem?_cons_zero]
      split_ifs with hm
      · simp [hm]
      · refine ⟨fun heq => absurd (h.lt_length heq) (lt_irrefl _), fun heq => ?_⟩
        injection heq with heq
        exact absurd heq.symm hm
    · rw [List.getElem?_eq_none (by rw [List.length_append, List.length_singleton]; omega)]
      split_ifs with hm
      · simp only [Option.some.injEq, reduceCtorEq, iff_false]
        omega
      · refine ⟨fun heq => ?_, fun heq => by cases heq⟩
        have := h.lt_length heq
        omega

/-- **Two exchanged**, places and notes. -/
theorem exchange (h : Noted pos l) (hm : pos m = some (some p)) (hn : pos n = some (some q)) :
    Noted (Function.update (Function.update pos m (some (some q))) n (some (some p)))
      ((l.set p n).set q m) := by
  have hp := h.lt_length hm
  have hq := h.lt_length hn
  have hget : ∀ r, ((l.set p n).set q m)[r]? =
      if r = q then some m else if r = p then some n else l[r]? := by
    intro r
    by_cases hr : r = q
    · rw [if_pos hr, hr, List.getElem?_set_self (by rwa [List.length_set])]
    · rw [if_neg hr, List.getElem?_set_ne (Ne.symm hr)]
      by_cases hr' : r = p
      · rw [if_pos hr', hr', List.getElem?_set_self hp]
      · rw [if_neg hr', List.getElem?_set_ne (Ne.symm hr')]
  constructor
  · intro k
    simp only [Function.update_apply]
    split_ifs
    · simp
    · simp
    · exact h.filled k
  · intro k r
    rw [hget]
    simp only [Function.update_apply]
    have hpm := (h.iff m p).1 hm
    have hqn := (h.iff n q).1 hn
    -- by the place asked for, then by whose it is
    by_cases hr : r = q
    · subst hr
      rw [if_pos rfl]
      split_ifs with hkn hkm
      · subst hkn
        constructor
        · intro heq
          injection heq with heq
          injection heq with heq
          subst heq
          rw [← hpm, hqn]
        · intro heq
          injection heq with heq
          subst heq
          rw [hm] at hn
          exact hn
      · simp [hkm]
      · refine ⟨fun heq => ?_, fun heq => ?_⟩
        · rw [h.iff, hqn] at heq
          injection heq with heq
          exact absurd heq.symm hkn
        · injection heq with heq
          exact absurd heq.symm hkm
    · rw [if_neg hr]
      by_cases hr' : r = p
      · subst hr'
        rw [if_pos rfl]
        split_ifs with hkn hkm
        · simp [hkn]
        · refine ⟨fun heq => ?_, fun heq => ?_⟩
          · injection heq with heq
            injection heq with heq
            exact absurd heq.symm hr
          · injection heq with heq
            exact absurd heq.symm hkn
        · refine ⟨fun heq => ?_, fun heq => ?_⟩
          · rw [h.iff, hpm] at heq
            injection heq with heq
            exact absurd heq.symm hkm
          · injection heq with heq
            exact absurd heq.symm hkn
      · rw [if_neg hr', ← h.iff]
        split_ifs with hkn hkm
        · subst hkn
          rw [hn]
          simp only [Option.some.injEq]
          omega
        · subst hkm
          rw [hm]
          simp only [Option.some.injEq]
          omega
        · exact Iff.rfl

/-- **The last taken out.** -/
theorem pop (h : Noted pos l) (hn : pos n = some (some (l.length - 1))) :
    Noted (Function.update pos n none) l.dropLast := by
  have hlt := h.lt_length hn
  constructor
  · intro m
    rw [Function.update_apply]
    split_ifs
    · simp
    · exact h.filled m
  · intro m p
    rw [Function.update_apply, List.getElem?_dropLast]
    split_ifs with hm hp hp
    · subst hm
      rw [← h.iff, hn]
      simp only [Option.some.injEq, reduceCtorEq, false_iff]
      omega
    · simp
    · exact h.iff m p
    · refine ⟨fun heq => ?_, fun heq => by cases heq⟩
      have hlt' := h.lt_length heq
      obtain rfl : p = l.length - 1 := by omega
      rw [h.iff] at heq hn
      rw [heq] at hn
      injection hn with hn
      exact absurd hn hm

end Noted

end Places

end CryptoBullion
