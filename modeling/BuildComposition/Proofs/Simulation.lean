/-!
# Two runs side by side

Two steps that start in related states end alike: both succeed or both fail, with related results
and in related states.

## Main definitions

* `Matches`: two outcomes are of the same kind and related
* `outcomeOf`: what is made of the end of a step
* `EndsLike`, `Simulates`: the same for the ends of two steps, and for two steps in related states
-/

namespace BuildComposition

variable {ε ε' α β γ δ σ τ : Type}

/-- Both outcomes are successes, or both are failures, and they are related. -/
inductive Matches (E : ε → ε' → Prop) (A : α → β → Prop) : Except ε α → Except ε' β → Prop
  | ok {a b} (h : A a b) : Matches E A (.ok a) (.ok b)
  | error {e e'} (h : E e e') : Matches E A (.error e) (.error e')

theorem Matches.map {E : ε → ε' → Prop} {A : α → β → Prop} {C : γ → δ → Prop} {f : α → γ}
    {f' : β → δ} {x : Except ε α} {y : Except ε' β} (h : Matches E A x y)
    (hf : ∀ a b, A a b → C (f a) (f' b)) : Matches E C (x.map f) (y.map f') := by
  cases h with
  | ok h => exact .ok (hf _ _ h)
  | error h => exact .error h

/-- Both ends are successes, or both are failures, and results and states are related. -/
inductive EndsLike (R : σ → τ → Prop) (E : ε → ε' → Prop) (A : α → β → Prop) :
    EStateM.Result ε σ α → EStateM.Result ε' τ β → Prop
  | ok {a b s t} (h : A a b) (hst : R s t) : EndsLike R E A (.ok a s) (.ok b t)
  | error {e e' s t} (h : E e e') (hst : R s t) : EndsLike R E A (.error e s) (.error e' t)

theorem EndsLike.refl {R : σ → σ → Prop} {E : ε → ε → Prop} {A : α → α → Prop} (hR : ∀ s, R s s)
    (hE : ∀ e, E e e) (hA : ∀ a, A a a) (r : EStateM.Result ε σ α) : EndsLike R E A r r := by
  cases r with
  | ok a s => exact .ok (hA a) (hR s)
  | error e s => exact .error (hE e) (hR s)

/-- What is made of a step's result and of the state in which it ends. -/
def outcomeOf (f : α → σ → γ) : EStateM.Result ε σ α → Except ε γ
  | .ok a s => .ok (f a s)
  | .error e _ => .error e

theorem exists_ok_of_outcomeOf {f : α → σ → γ} {r : EStateM.Result ε σ α} {c : γ}
    (h : (outcomeOf f r).toOption = some c) : ∃ a s, r = .ok a s ∧ f a s = c := by
  cases r with
  | ok a s => exact ⟨a, s, rfl, Option.some.inj h⟩
  | error => cases h

theorem EndsLike.outcomeOf {R : σ → τ → Prop} {E : ε → ε' → Prop} {A : α → β → Prop}
    {C : γ → δ → Prop} {f : α → σ → γ} {f' : β → τ → δ} {r : EStateM.Result ε σ α}
    {r' : EStateM.Result ε' τ β} (h : EndsLike R E A r r')
    (hf : ∀ a b s t, A a b → R s t → C (f a s) (f' b t)) :
    Matches E C (BuildComposition.outcomeOf f r) (BuildComposition.outcomeOf f' r') := by
  cases h with
  | ok h hst => exact .ok (hf _ _ _ _ h hst)
  | error h => exact .error h

theorem EndsLike.mono {R R' : σ → τ → Prop} {E : ε → ε' → Prop} {A : α → β → Prop}
    {r : EStateM.Result ε σ α} {r' : EStateM.Result ε' τ β} (h : EndsLike R E A r r')
    (hR : ∀ s t, R s t → R' s t) : EndsLike R' E A r r' := by
  cases h with
  | ok h hst => exact .ok h (hR _ _ hst)
  | error h hst => exact .error h (hR _ _ hst)

theorem EndsLike.symm {R : σ → τ → Prop} {r : EStateM.Result ε σ α} {r' : EStateM.Result ε τ α}
    (h : EndsLike R Eq Eq r r') : EndsLike (fun t s => R s t) Eq Eq r' r := by
  cases h with
  | ok h hst => exact .ok h.symm hst
  | error h hst => exact .error h.symm hst

/-- In related states both steps end alike. -/
def Simulates (R : σ → τ → Prop) (E : ε → ε' → Prop) (A : α → β → Prop) (x : EStateM ε σ α)
    (y : EStateM ε' τ β) : Prop :=
  ∀ s t, R s t → EndsLike R E A (x.run s) (y.run t)

/-- What is done next starts in the states in which the ends leave off. -/
theorem EndsLike.bind {R : σ → τ → Prop} {E : ε → ε' → Prop} {A : α → β → Prop} {B : γ → δ → Prop}
    {x : EStateM ε σ α} {y : EStateM ε' τ β} {s : σ} {t : τ} (h : EndsLike R E A (x.run s) (y.run t))
    {f : α → EStateM ε σ γ} {f' : β → EStateM ε' τ δ}
    (hf : ∀ a b, A a b → Simulates R E B (f a) (f' b)) :
    EndsLike R E B ((x >>= f).run s) ((y >>= f').run t) := by
  rw [EStateM.run_bind, EStateM.run_bind]
  generalize x.run s = r, y.run t = r' at h
  cases h with
  | ok h hst => exact hf _ _ h _ _ hst
  | error h hst => exact .error h hst

namespace Simulates

variable {R : σ → τ → Prop} {E : ε → ε' → Prop} {A : α → β → Prop} {B : γ → δ → Prop}

theorem pure {a : α} {b : β} (h : A a b) :
    Simulates R E A (Pure.pure a) (Pure.pure b : EStateM ε' τ β) := fun _ _ hst => .ok h hst

theorem bind {x : EStateM ε σ α} {y : EStateM ε' τ β} {f : α → EStateM ε σ γ}
    {f' : β → EStateM ε' τ δ} (hxy : Simulates R E A x y)
    (hf : ∀ a b, A a b → Simulates R E B (f a) (f' b)) : Simulates R E B (x >>= f) (y >>= f') :=
  fun s t hst => (hxy s t hst).bind hf

theorem adaptExcept {φ φ' : Type} {F : φ → φ' → Prop} {x : EStateM ε σ α} {y : EStateM ε' τ β}
    (hxy : Simulates R E A x y) {f : ε → φ} {f' : ε' → φ'} (hf : ∀ e e', E e e' → F (f e) (f' e')) :
    Simulates R F A (x.adaptExcept f) (y.adaptExcept f') := by
  intro s t hst
  have hends := hxy s t hst
  rw [EStateM.run_adaptExcept, EStateM.run_adaptExcept]
  generalize x.run s = r, y.run t = r' at hends
  cases hends with
  | ok h hst => exact .ok h hst
  | error h hst => exact .error (hf _ _ h) hst

theorem modified {f : σ → σ} {f' : τ → τ} (hf : ∀ s t, R s t → R (f s) (f' t)) :
    Simulates R E (fun _ _ => True) (modify f : EStateM ε σ PUnit)
      (modify f' : EStateM ε' τ PUnit) := fun s t hst => .ok trivial (hf s t hst)

end Simulates

end BuildComposition
