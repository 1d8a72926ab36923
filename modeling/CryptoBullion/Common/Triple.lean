import CryptoBullion.Common.Step
/-!
# Pre- and postconditions of steps

`Triple I x Q E`: started in a state of `I`, the step `x` either gives an
`a` and leaves a state of `Q a`, or fails with an `e` and leaves a state of
`E e`. The rules follow the way steps are built: one for each of the basic
steps, one for sequencing, one for a condition. What a step gives can
carry a fact of its own next to what holds of the state (`and_pre`).
-/

namespace CryptoBullion

namespace Step

variable {σ ε α β : Type}

/-- Sequences can be regrouped. -/
instance : LawfulMonad (Step σ ε) := by
  refine LawfulMonad.mk' (Step σ ε) ?_ ?_ ?_
  · intro α x
    funext s
    change (x >>= fun a => Pure.pure a) s = x s
    rcases h : x s with ⟨e | a, s'⟩
    · rw [bind_of_error h]
    · rw [bind_of_ok h]
      rfl
  · intro α β a f
    rfl
  · intro α β γ x f g
    funext s
    rcases h : x s with ⟨e | a, s'⟩
    · rw [bind_of_error (bind_of_error h), bind_of_error h]
    · rw [bind_of_ok h]
      rcases h' : f a s' with ⟨e | b, s''⟩
      · rw [bind_of_error ((bind_of_ok h).trans h'), bind_of_error h']
      · rw [bind_of_ok ((bind_of_ok h).trans h'), bind_of_ok h']

/-- Whatever the outcome, it is as it should be. -/
def Triple (I : σ → Prop) (x : Step σ ε α) (Q : α → σ → Prop) (E : ε → σ → Prop) : Prop :=
  ∀ s, I s → (∀ a s', x s = (.ok a, s') → Q a s') ∧ ∀ e s', x s = (.error e, s') → E e s'

namespace Triple

variable {I J : σ → Prop} {x : Step σ ε α} {f : α → Step σ ε β} {Q R : α → σ → Prop}
variable {Q' : β → σ → Prop} {E : ε → σ → Prop} {a : α} {e : ε} {p : Prop}

theorem pure : Triple (Q a) (Pure.pure a : Step σ ε α) Q E := by
  intro s hs
  refine ⟨fun b s' h => ?_, fun e s' h => ?_⟩
  · obtain ⟨hb, rfl⟩ := Prod.mk.inj h
    obtain rfl := Except.ok.inj hb
    exact hs
  · exact absurd (congrArg Prod.fst h) (by simp)

theorem get : Triple I (Step.get : Step σ ε σ) (fun t s => t = s ∧ I s) E := by
  intro s hs
  refine ⟨fun t s' h => ?_, fun e s' h => ?_⟩
  · obtain ⟨ht, rfl⟩ := Prod.mk.inj h
    exact ⟨(Except.ok.inj ht).symm, hs⟩
  · exact absurd (congrArg Prod.fst h) (by simp)

theorem modify {g : σ → σ} {K : Unit → σ → Prop} :
    Triple (fun s => K () (g s)) (Step.modify g : Step σ ε Unit) K E := by
  intro s hs
  refine ⟨fun t s' h => ?_, fun e s' h => ?_⟩
  · obtain ⟨-, rfl⟩ := Prod.mk.inj h
    exact hs
  · exact absurd (congrArg Prod.fst h) (by simp)

theorem fail : Triple (E e) (Step.fail e : Step σ ε α) Q E := by
  intro s hs
  refine ⟨fun t s' h => ?_, fun e' s' h => ?_⟩
  · exact absurd (congrArg Prod.fst h) (by simp)
  · obtain ⟨he, rfl⟩ := Prod.mk.inj h
    obtain rfl := Except.error.inj he
    exact hs

/-- **Consequence.** -/
theorem imp {E' : ε → σ → Prop} (hx : Triple I x Q E) (hI : ∀ s, J s → I s)
    (hQ : ∀ a s, Q a s → R a s) (hE : ∀ e s, E e s → E' e s) : Triple J x R E' := by
  intro s hs
  obtain ⟨hok, herr⟩ := hx s (hI s hs)
  exact ⟨fun a s' h => hQ a s' (hok a s' h), fun e s' h => hE e s' (herr e s' h)⟩

theorem pre (hx : Triple I x Q E) (hI : ∀ s, J s → I s) : Triple J x Q E :=
  hx.imp hI (fun _ _ h => h) (fun _ _ h => h)

theorem post (hx : Triple I x Q E) (hQ : ∀ a s, Q a s → R a s) : Triple I x R E :=
  hx.imp (fun _ h => h) hQ (fun _ _ h => h)

/-- **Sequencing**: what the first step leaves, the second starts from. -/
theorem bind (hx : Triple I x Q E) (hf : ∀ a, Triple (Q a) (f a) Q' E) :
    Triple I (x >>= f) Q' E := by
  intro s hs
  obtain ⟨hok, herr⟩ := hx s hs
  refine ⟨fun b s'' h => ?_, fun e s'' h => ?_⟩
  · obtain ⟨a, s', h₁, h₂⟩ := bind_eq_ok.1 h
    exact (hf a s' (hok a s' h₁)).1 b s'' h₂
  · rcases bind_eq_error.1 h with h₁ | ⟨a, s', h₁, h₂⟩
    · exact herr e s'' h₁
    · exact (hf a s' (hok a s' h₁)).2 e s'' h₂

/-- One state at a time. -/
theorem of_forall (h : ∀ t, I t → Triple (· = t) x Q E) : Triple I x Q E :=
  fun s hs => h s hs s rfl

/-- **What is read is the state there is.** -/
theorem get_bind {g : σ → Step σ ε β} (hg : ∀ t, I t → Triple (· = t) (g t) Q' E) :
    Triple I (Step.get >>= g) Q' E := by
  intro s hs
  rw [Step.get_bind]
  exact hg s hs s rfl

/-- A fact beside the state's is a hypothesis. -/
theorem and_pre (hx : p → Triple I x Q E) : Triple (fun s => p ∧ I s) x Q E :=
  fun s hs => hx hs.1 s hs.2

theorem ite [Decidable p] {y : Step σ ε α} (hx : p → Triple I x Q E) (hy : ¬ p → Triple I y Q E) :
    Triple I (if p then x else y) Q E := by
  split
  · rename_i hp
    exact hx hp
  · rename_i hp
    exact hy hp

/-- **A step for each element**, each keeping `I`. -/
theorem forEach {g : α → Step σ ε Unit} :
    ∀ {l : List α}, (∀ b ∈ l, Triple I (g b) (fun _ => I) E) →
      Triple I (Step.forEach g l) (fun _ => I) E
  | [], _ => pure (Q := fun _ => I)
  | b :: l, hg => bind (hg b List.mem_cons_self) fun _ =>
      forEach fun c hc => hg c (List.mem_cons_of_mem b hc)

/-- What holds of every outcome holds of this one. -/
theorem of_ok {s s' : σ} (hx : Triple I x Q E) (hs : I s) (h : x s = (.ok a, s')) : Q a s' :=
  (hx s hs).1 a s' h

theorem of_error {s s' : σ} (hx : Triple I x Q E) (hs : I s) (h : x s = (.error e, s')) : E e s' :=
  (hx s hs).2 e s' h

end Triple

end Step

end CryptoBullion
