import Mathlib.Data.List.Forall2
/-!
# A list split along a pattern

A pattern is a list of items, and a list splits along it where it can be
cut into consecutive pieces, one for each item, that go with their items.
-/

namespace CryptoBullion

variable {α β : Type} {R : α → List β → Prop} {a : α} {pattern : List α} {l : List β}

/-- The list in consecutive pieces, one for each item of the pattern. -/
def SplitsAlong (R : α → List β → Prop) (pattern : List α) (l : List β) : Prop :=
  ∃ pieces : List (List β), List.Forall₂ R pattern pieces ∧ pieces.flatten = l

theorem splitsAlong_nil : SplitsAlong R [] l ↔ l = [] := by
  constructor
  · rintro ⟨pieces, hall, hl⟩
    cases hall
    exact hl.symm
  · rintro rfl
    exact ⟨[], .nil, rfl⟩

/-- **The first piece goes with the first item.** -/
theorem splitsAlong_cons :
    SplitsAlong R (a :: pattern) l ↔ ∃ piece rest, l = piece ++ rest ∧ R a piece ∧ SplitsAlong R pattern rest := by
  constructor
  · rintro ⟨pieces, hall, hl⟩
    cases hall with
    | cons ha hall => exact ⟨_, _, hl.symm, ha, _, hall, rfl⟩
  · rintro ⟨piece, rest, rfl, ha, pieces, hall, rfl⟩
    exact ⟨piece :: pieces, .cons ha hall, rfl⟩

/-- An item for one element takes the first. -/
theorem splitsAlong_cons_of_one {p : β → Prop} (ha : ∀ piece, R a piece ↔ ∃ c, piece = [c] ∧ p c) :
    SplitsAlong R (a :: pattern) l ↔ ∃ c rest, l = c :: rest ∧ p c ∧ SplitsAlong R pattern rest := by
  rw [splitsAlong_cons]
  constructor
  · rintro ⟨piece, rest, rfl, hp, hrest⟩
    obtain ⟨c, rfl, hc⟩ := (ha piece).1 hp
    exact ⟨c, rest, rfl, hc, hrest⟩
  · rintro ⟨c, rest, rfl, hc, hrest⟩
    exact ⟨[c], rest, rfl, (ha [c]).2 ⟨c, rfl, hc⟩, hrest⟩

/-- **An item for anything** takes nothing, or the first element and then
anything again. -/
theorem splitsAlong_cons_of_any (ha : ∀ piece, R a piece) :
    SplitsAlong R (a :: pattern) l ↔
      SplitsAlong R pattern l ∨ ∃ c rest, l = c :: rest ∧ SplitsAlong R (a :: pattern) rest := by
  constructor
  · intro h
    obtain ⟨piece, rest, rfl, -, hrest⟩ := splitsAlong_cons.1 h
    rcases piece with _ | ⟨c, piece⟩
    · exact .inl hrest
    · exact .inr ⟨c, piece ++ rest, rfl, splitsAlong_cons.2 ⟨piece, rest, rfl, ha piece, hrest⟩⟩
  · rintro (h | ⟨c, rest, rfl, h⟩)
    · exact splitsAlong_cons.2 ⟨[], l, rfl, ha [], h⟩
    · obtain ⟨piece, rest, rfl, -, hrest⟩ := splitsAlong_cons.1 h
      exact splitsAlong_cons.2 ⟨c :: piece, rest, rfl, ha (c :: piece), hrest⟩

end CryptoBullion
