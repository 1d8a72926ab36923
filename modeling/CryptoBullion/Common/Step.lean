import Mathlib
/-!
# Fallible steps on a state

A step reads a state, gives a result or a failure, and leaves a state
either way: failing undoes nothing. Sequencing stops at the first failure
and keeps the state it left.

Ways of reasoning are set up here. Inversion (`bind_eq_ok`,
`bind_eq_error`) takes a sequence apart into the states it went through;
`Preserves` proves of a step that the state it starts from and the state
it leaves are related, whatever the outcome, and is closed under
everything steps are built from. So are `Keeps`, for an invariant, and
`Settled`, for an answer that does not depend on what the invariant leaves
open.
-/

namespace CryptoBullion

/-- A step on states `σ`, failing with `ε`. -/
def Step (σ ε α : Type) := σ → Except ε α × σ

namespace Step

variable {σ ε α β : Type}

instance : Monad (Step σ ε) where
  pure a := fun s => (.ok a, s)
  bind x f := fun s =>
    match x s with
    | (.ok a, s') => f a s'
    | (.error e, s') => (.error e, s')

/-- The state itself. -/
def get : Step σ ε σ := fun s => (.ok s, s)

/-- Change the state. -/
def modify (f : σ → σ) : Step σ ε Unit := fun s => (.ok (), f s)

/-- Give up. -/
def fail (e : ε) : Step σ ε α := fun s => (.error e, s)

/-- A result that needs no state. -/
def lift (r : Except ε α) : Step σ ε α := fun s => (r, s)

/-- Run a step and look at how it ended. -/
def attempt (x : Step σ ε α) : Step σ ε (Except ε α) := fun s => (.ok (x s).1, (x s).2)

/-- Rename a failure. -/
def mapError (g : ε → ε) (x : Step σ ε α) : Step σ ε α := fun s => ((x s).1.mapError g, (x s).2)

/-- A step on a part of the state. -/
def zoom {τ : Type} (view : σ → τ) (put : τ → σ → σ) (x : Step τ ε α) : Step σ ε α :=
  fun s => ((x (view s)).1, put (x (view s)).2 s)

/-- A step for each element, in order. -/
def forEach (f : α → Step σ ε Unit) : List α → Step σ ε Unit
  | [] => pure ()
  | a :: as => do
    f a
    forEach f as

/-- A step for each element, in order, and the list of their results. -/
def collect (f : α → Step σ ε β) : List α → Step σ ε (List β)
  | [] => pure []
  | a :: as => do
    let b ← f a
    let bs ← collect f as
    pure (b :: bs)

variable {x : Step σ ε α} {f : α → Step σ ε β} {s s' s'' : σ} {a : α} {b : β} {e e' : ε}
variable {r : Except ε α}

/-! ## What a step does -/

@[simp] theorem pure_apply : (pure a : Step σ ε α) s = (.ok a, s) := rfl
@[simp] theorem get_apply : (get : Step σ ε σ) s = (.ok s, s) := rfl
@[simp] theorem modify_apply {g : σ → σ} : (modify g : Step σ ε Unit) s = (.ok (), g s) := rfl
@[simp] theorem fail_apply : (fail e : Step σ ε α) s = (.error e, s) := rfl
@[simp] theorem lift_apply : (lift r : Step σ ε α) s = (r, s) := rfl
@[simp] theorem attempt_apply : x.attempt s = (.ok (x s).1, (x s).2) := rfl
@[simp] theorem mapError_apply {g : ε → ε} :
    x.mapError g s = ((x s).1.mapError g, (x s).2) := rfl

@[simp] theorem zoom_apply {τ : Type} {view : σ → τ} {put : τ → σ → σ} {y : Step τ ε α} :
    zoom view put y s = ((y (view s)).1, put (y (view s)).2 s) := rfl

@[simp] theorem forEach_nil {g : α → Step σ ε Unit} : forEach g [] = pure () := rfl

theorem forEach_cons {g : α → Step σ ε Unit} {as : List α} :
    forEach g (a :: as) = (g a >>= fun _ => forEach g as) := rfl

theorem bind_of_ok (h : x s = (.ok a, s')) : (x >>= f) s = f a s' := by
  change (match x s with
    | (.ok a, s') => f a s'
    | (.error e, s') => (.error e, s')) = _
  rw [h]

theorem bind_of_error (h : x s = (.error e, s')) : (x >>= f) s = (.error e, s') := by
  change (match x s with
    | (.ok a, s') => f a s'
    | (.error e, s') => (.error e, s')) = _
  rw [h]

@[simp] theorem get_bind {f : σ → Step σ ε β} : ((get : Step σ ε σ) >>= f) s = f s s := rfl
@[simp] theorem modify_bind {g : σ → σ} {f : Unit → Step σ ε β} :
    ((modify g : Step σ ε Unit) >>= f) s = f () (g s) := rfl
@[simp] theorem fail_bind : ((fail e : Step σ ε α) >>= f) s = (.error e, s) := rfl
@[simp] theorem pure_bind_apply : ((pure a : Step σ ε α) >>= f) s = f a s := rfl
@[simp] theorem attempt_bind {f : Except ε α → Step σ ε β} :
    (x.attempt >>= f) s = f (x s).1 (x s).2 := rfl
@[simp] theorem lift_ok_bind : ((lift (.ok a) : Step σ ε α) >>= f) s = f a s := rfl
@[simp] theorem lift_error_bind :
    ((lift (.error e) : Step σ ε α) >>= f) s = (.error e, s) := rfl

theorem snd_bind_pure {g : α → β} : ((x >>= fun a => (pure (g a) : Step σ ε β)) s).2 = (x s).2 := by
  rcases h : x s with ⟨e | a, s'⟩
  · rw [bind_of_error h]
  · rw [bind_of_ok h]
    rfl

/-! ## Taking a sequence apart -/

/-- **A sequence that succeeds is two steps that do.** -/
theorem bind_eq_ok : (x >>= f) s = (.ok b, s'') ↔
    ∃ a s', x s = (.ok a, s') ∧ f a s' = (.ok b, s'') := by
  rcases h : x s with ⟨_ | a, s'⟩
  · rw [bind_of_error h]
    simp
  · rw [bind_of_ok h]
    constructor
    · exact fun h' => ⟨a, s', rfl, h'⟩
    · rintro ⟨a', s₁, heq, h'⟩
      obtain ⟨⟨⟩, rfl⟩ := Prod.mk.inj heq
      exact h'

/-- **A sequence that fails failed at one of its steps.** -/
theorem bind_eq_error : (x >>= f) s = (.error e, s'') ↔
    x s = (.error e, s'') ∨ ∃ a s', x s = (.ok a, s') ∧ f a s' = (.error e, s'') := by
  rcases h : x s with ⟨e' | a, s'⟩
  · rw [bind_of_error h]
    simp
  · rw [bind_of_ok h]
    constructor
    · exact fun h' => .inr ⟨a, s', rfl, h'⟩
    · rintro (heq | ⟨a', s₁, heq, h'⟩)
      · exact absurd heq (by simp)
      · obtain ⟨⟨⟩, rfl⟩ := Prod.mk.inj heq
        exact h'

/-- A run is its result and the state it leaves. -/
theorem eq_of_fst_eq {p : Except ε α × σ} (h : p.1 = r) : p = (r, p.2) := Prod.ext h rfl

theorem lift_eq_ok : (lift r : Step σ ε α) s = (.ok a, s') ↔ r = .ok a ∧ s = s' := by
  rw [lift_apply, Prod.mk.injEq]

theorem lift_bind_eq_ok : ((lift r : Step σ ε α) >>= f) s = (.ok b, s') ↔
    ∃ a, r = .ok a ∧ f a s = (.ok b, s') := by
  rcases r with e | a <;> simp

theorem lift_bind_eq_error : ((lift r : Step σ ε α) >>= f) s = (.error e, s') ↔
    (r = .error e ∧ s = s') ∨ ∃ a, r = .ok a ∧ f a s = (.error e, s') := by
  rcases r with e' | a <;> simp

theorem mapError_eq_ok {g : ε → ε} : x.mapError g s = (.ok a, s') ↔ x s = (.ok a, s') := by
  rw [mapError_apply, Prod.mk.injEq]
  rcases h : x s with ⟨_ | b, s₁⟩
  · simp [Except.mapError]
  · simp [Except.mapError]

theorem mapError_eq_error {g : ε → ε} :
    x.mapError g s = (.error e, s') ↔ ∃ e', x s = (.error e', s') ∧ g e' = e := by
  rw [mapError_apply, Prod.mk.injEq]
  rcases h : x s with ⟨e₁ | b, s₁⟩
  · simp [Except.mapError, and_comm]
  · simp [Except.mapError]

/-! ## Relating the states before and after -/

/-- Whatever the outcome, the state left is `R`-related to the state
before. -/
def Preserves (R : σ → σ → Prop) (x : Step σ ε α) : Prop := ∀ s, R s (x s).2

namespace Preserves

variable {R : σ → σ → Prop} {g : α → Step σ ε Unit}

theorem pure [Std.Refl R] : Preserves R (Pure.pure a : Step σ ε α) := fun s => Std.Refl.refl s

theorem get [Std.Refl R] : Preserves R (Step.get : Step σ ε σ) := fun s => Std.Refl.refl s

theorem fail [Std.Refl R] : Preserves R (Step.fail e : Step σ ε α) := fun s => Std.Refl.refl s

theorem lift [Std.Refl R] : Preserves R (Step.lift r : Step σ ε α) := fun s => Std.Refl.refl s

/-- What a run has been related by. -/
theorem of_eq (hx : Preserves R x) (h : x s = (r, s')) : R s s' := by
  have hs := hx s
  rwa [h] at hs

theorem modify {h : σ → σ} (hR : ∀ s, R s (h s)) :
    Preserves R (Step.modify h : Step σ ε Unit) := hR

theorem mono {R' : σ → σ → Prop} (hR : ∀ {s s'}, R s s' → R' s s') (hx : Preserves R x) :
    Preserves R' x :=
  fun s => hR (hx s)

theorem attempt (hx : Preserves R x) : Preserves R x.attempt := hx

theorem mapError {h : ε → ε} (hx : Preserves R x) : Preserves R (x.mapError h) := hx

/-- **Sequencing composes the relation.** -/
theorem bind [IsTrans σ R] (hx : Preserves R x) (hf : ∀ a, Preserves R (f a)) :
    Preserves R (x >>= f) := by
  intro s
  have hs := hx s
  rcases h : x s with ⟨e | a, s'⟩
  · rw [bind_of_error h]
    rwa [h] at hs
  · rw [bind_of_ok h]
    rw [h] at hs
    exact IsTrans.trans _ _ _ hs (hf a s')

theorem forEach [Std.Refl R] [IsTrans σ R] (hg : ∀ a, Preserves R (g a)) :
    ∀ as : List α, Preserves R (Step.forEach g as)
  | [] => pure
  | a :: as => bind (hg a) fun _ => forEach hg as

theorem collect [Std.Refl R] [IsTrans σ R] (hf : ∀ a, Preserves R (f a)) :
    ∀ as : List α, Preserves R (Step.collect f as)
  | [] => pure
  | a :: as => bind (hf a) fun _ => bind (collect hf as) fun _ => pure

end Preserves

/-! ## Invariants -/

/-- Whatever the outcome, `I` still holds; what the step gives, if it gives
something, satisfies `Q`. -/
def Keeps (I : σ → Prop) (x : Step σ ε α) (Q : α → Prop) : Prop :=
  ∀ s, I s → I (x s).2 ∧ ∀ a, (x s).1 = .ok a → Q a

namespace Keeps

variable {I : σ → Prop} {Q : α → Prop} {Q' : β → Prop} {g : α → Step σ ε Unit}

theorem pure (h : Q a) : Keeps I (Pure.pure a : Step σ ε α) Q := fun _ hs =>
  ⟨hs, fun _ ha => Except.ok.inj ha ▸ h⟩

theorem get : Keeps I (Step.get : Step σ ε σ) I := fun _ hs => ⟨hs, fun _ ha => Except.ok.inj ha ▸ hs⟩

theorem fail : Keeps I (Step.fail e : Step σ ε α) Q := fun _ hs => ⟨hs, fun _ ha => by cases ha⟩

theorem lift (h : ∀ a, r = .ok a → Q a) : Keeps I (Step.lift r : Step σ ε α) Q :=
  fun _ hs => ⟨hs, h⟩

theorem modify {k : σ → σ} (h : ∀ s, I s → I (k s)) :
    Keeps I (Step.modify k : Step σ ε Unit) (fun _ => True) := fun s hs => ⟨h s hs, fun _ _ => trivial⟩

/-- **Sequencing hands on what the first step gives.** -/
theorem bind (hx : Keeps I x Q) (hf : ∀ a, Q a → Keeps I (f a) Q') : Keeps I (x >>= f) Q' := by
  intro s hs
  obtain ⟨hs', hQ⟩ := hx s hs
  rcases h : x s with ⟨e | a, s'⟩
  · rw [bind_of_error h]
    rw [h] at hs'
    exact ⟨hs', fun _ ha => absurd ha (by simp)⟩
  · rw [bind_of_ok h]
    rw [h] at hs' hQ
    exact hf a (hQ a rfl) s' hs'

/-- And what follows may keep less, of the states the first step leaves. -/
theorem bind_of_le {J : σ → Prop} (hx : Keeps I x Q) (hIJ : ∀ s, I s → J s)
    (hf : ∀ a, Q a → ∀ s, I s → J (f a s).2) (hs : I s) : J ((x >>= f) s).2 := by
  obtain ⟨hs', hQ⟩ := hx s hs
  rcases h : x s with ⟨e | a, s'⟩
  · rw [bind_of_error h]
    rw [h] at hs'
    exact hIJ s' hs'
  · rw [bind_of_ok h]
    rw [h] at hs' hQ
    exact hf a (hQ a rfl) s' hs'

theorem forEach : ∀ {as : List α}, (∀ a ∈ as, Keeps I (g a) (fun _ => True)) →
    Keeps I (Step.forEach g as) (fun _ => True)
  | [], _ => pure trivial
  | a :: _, hg => bind (hg a List.mem_cons_self) fun _ _ =>
      forEach fun b hb => hg b (List.mem_cons_of_mem a hb)

end Keeps

/-! ## Settled answers -/

/-- Whatever state of `I` it starts from, the step gives one answer, and
leaves a state of `I`. -/
def Settled (I : σ → Prop) (x : Step σ ε α) : Prop := ∃ r, ∀ s, I s → (x s).1 = r ∧ I (x s).2

namespace Settled

variable {I : σ → Prop} {Q : α → Prop}

theorem pure : Settled I (Pure.pure a : Step σ ε α) := ⟨.ok a, fun _ hs => ⟨rfl, hs⟩⟩

theorem lift : Settled I (Step.lift r : Step σ ε α) := ⟨r, fun _ hs => ⟨rfl, hs⟩⟩

/-- **What the states of `I` have in common can be read.** -/
theorem get_bind {g : σ → Step σ ε β} {y : Step σ ε β} (hg : ∀ s, I s → g s = y)
    (hy : Settled I y) : Settled I (Step.get >>= g) := by
  obtain ⟨r, hr⟩ := hy
  refine ⟨r, fun s hs => ?_⟩
  rw [Step.get_bind, hg s hs]
  exact hr s hs

/-- **Sequencing settled steps is settled.** -/
theorem bind (hx : Settled I x) (hf : ∀ a, Settled I (f a)) : Settled I (x >>= f) := by
  obtain ⟨r, hr⟩ := hx
  cases r with
  | error e =>
    refine ⟨.error e, fun s hs => ?_⟩
    obtain ⟨hxs, hs'⟩ := hr s hs
    rw [bind_of_error (eq_of_fst_eq hxs)]
    exact ⟨rfl, hs'⟩
  | ok a =>
    obtain ⟨r', hr'⟩ := hf a
    refine ⟨r', fun s hs => ?_⟩
    obtain ⟨hxs, hs'⟩ := hr s hs
    rw [bind_of_ok (eq_of_fst_eq hxs)]
    exact hr' _ hs'

/-- Two states of `I` are told the same. -/
theorem eq (hx : Settled I x) (hs : I s) (hs' : I s') : (x s).1 = (x s').1 := by
  obtain ⟨r, hr⟩ := hx
  rw [(hr s hs).1, (hr s' hs').1]

theorem keeps (hx : Settled I x) : Keeps I x (fun _ => True) := by
  obtain ⟨r, hr⟩ := hx
  exact fun s hs => ⟨(hr s hs).2, fun _ _ => trivial⟩

end Settled

end Step

end CryptoBullion
