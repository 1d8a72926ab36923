import CryptoBullion.Model.Primitives
/-!
# Calls that come back

A C++ function that returns a flag can also not return at all. `Answers`
says of a call that it does return, and is closed under everything checks
are built from.
-/

namespace CryptoBullion

/-- The call comes back: it passes, or fails with `false`. -/
def Answers {α : Type} (r : Except Failure α) : Prop := ∀ f, r = .error f → f.returnsFalse = true

section Answers

variable {α β : Type} {r : Except Failure α} {k : α → Except Failure β} {f : Failure} {a : α}
variable {c : Prop} [Decidable c]

theorem answers_ok : Answers (.ok a : Except Failure α) := fun _ h => absurd h (by simp)

theorem answers_error_iff : Answers (.error f : Except Failure α) ↔ f.returnsFalse = true :=
  ⟨fun h => h f rfl, fun h _ hg => Except.error.inj hg ▸ h⟩

theorem except_ok_bind : ((.ok a : Except Failure α) >>= k) = k a := rfl

theorem except_error_bind : ((.error f : Except Failure α) >>= k) = .error f := rfl

/-- What a call that comes back passing has given. -/
theorem toOption_eq_some : r.toOption = some a ↔ r = .ok a := by
  cases r <;> simp [Except.toOption]

/-- A sequence of checks comes back when its checks do. -/
theorem Answers.bind (hr : Answers r) (hk : ∀ a, r = .ok a → Answers (k a)) :
    Answers (r >>= k) := by
  cases r with
  | error f => exact answers_error_iff.2 (hr f rfl)
  | ok a => exact hk a rfl

/-- And only when the first does. -/
theorem Answers.of_bind (h : Answers (r >>= k)) : Answers r := by
  intro f hf
  refine h f ?_
  rw [hf, except_error_bind]

theorem answers_reject (hf : f.returnsFalse = true) : Answers (reject c f) := by
  rw [reject]
  split
  · exact answers_error_iff.2 hf
  · exact answers_ok

/-- A check passes, or fails with what it says. -/
theorem reject_cases : reject c f = .ok () ∨ reject c f = .error f := by
  unfold reject
  split
  · exact .inr rfl
  · exact .inl rfl

theorem Answers.onFalse (hr : Answers r) (hf : f.returnsFalse = true) :
    Answers (onFalse r f) := by
  cases r with
  | error g =>
    refine answers_error_iff.2 ?_
    show (g.orElse f).returnsFalse = true
    rw [Failure.orElse, if_pos (hr g rfl)]
    exact hf
  | ok a => exact answers_ok

/-- Naming a failure of one's own does not bring a call back. -/
theorem answers_of_onFalse (h : Answers (onFalse r f)) : Answers r := by
  cases r with
  | error g =>
    exact answers_error_iff.2 (Failure.returnsFalse_of_orElse (answers_error_iff.1 h))
  | ok a => exact answers_ok

end Answers

end CryptoBullion
