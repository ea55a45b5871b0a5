import BuildComposition.Script.Machine

/-!
# Actions that keep a condition

A script can be interrupted anywhere, and what it has done until then stays.  A condition on
machines is thus kept by an action only if it holds also where the action is interrupted.

## Main definitions

* `Ends`: how a run of an action has ended
* `Keeps`: an action that keeps a condition on machines, however it ends

## Main results

* `Keeps.bind`, `Keeps.tryCatch`, `Keeps.iterate`: actions that are made of others
-/

namespace BuildComposition.Script

variable {σ α β : Type} {I : Machine σ → Prop} {P Q : α → Prop} {R : β → Prop}

/-- A run has ended on a machine that satisfies a condition, and what it gives satisfies another
one. -/
def Ends (I : Machine σ → Prop) (Q : α → Prop) : EStateM.Result Fault (Machine σ) α → Prop
  | .ok a m => I m ∧ Q a
  | .error _ m => I m

/-- Nothing has to be done about an action that succeeds. -/
theorem run_tryCatch_of_ok {x : Run σ α} {handler : Fault → Run σ α} {m t : Machine σ} {a : α}
    (h : x.run m = .ok a t) : (MonadExcept.tryCatch x handler : Run σ α).run m = .ok a t := by
  show EStateM.tryCatch x handler m = _
  unfold EStateM.tryCatch
  rw [EStateM.run] at h
  rw [h]

/-- What is done about a fault starts where the action was interrupted. -/
theorem run_tryCatch_of_error {x : Run σ α} {handler : Fault → Run σ α} {m t : Machine σ}
    {fault : Fault} (h : x.run m = .error fault t) :
    (MonadExcept.tryCatch x handler : Run σ α).run m = (handler fault).run t := by
  show EStateM.tryCatch x handler m = _
  unfold EStateM.tryCatch
  rw [EStateM.run] at h
  rw [h]
  rfl

theorem Ends.bind {x : Run σ α} {f : α → Run σ β} {m : Machine σ} (hx : Ends I Q (x.run m))
    (hf : ∀ a t, Q a → I t → Ends I R ((f a).run t)) : Ends I R ((x >>= f).run m) := by
  rw [EStateM.run_bind]
  cases hrun : x.run m with
  | ok a t =>
    rw [hrun] at hx
    exact hf a t hx.2 hx.1
  | error e t =>
    rw [hrun] at hx
    exact hx

theorem Ends.tryCatch {x : Run σ α} {handler : Fault → Run σ α} {m : Machine σ}
    (hx : Ends I Q (x.run m)) (hhandler : ∀ fault t, I t → Ends I Q ((handler fault).run t)) :
    Ends I Q ((MonadExcept.tryCatch x handler : Run σ α).run m) := by
  cases hrun : x.run m with
  | ok a t =>
    rw [hrun] at hx
    rw [run_tryCatch_of_ok hrun]
    exact hx
  | error e t =>
    rw [hrun] at hx
    rw [run_tryCatch_of_error hrun]
    exact hhandler e t hx

/-- A whole run leaves the memory and the host of the machine that it ends on. -/
theorem Ends.exists_machine {memory : Memory} {host : σ} {act : Run σ α}
    (h : Ends I Q ((guarded 0 act).run (.start memory host))) :
    ∃ m, I m ∧ (Machine.run memory host act).2 = (m.memory, m.host) := by
  unfold Machine.run
  cases hrun : (guarded 0 act).run (.start memory host) with
  | ok a m =>
    rw [hrun] at h
    exact ⟨m, h.1, rfl⟩
  | error fault m =>
    rw [hrun] at h
    cases fault <;> exact ⟨m, h, rfl⟩

/-- An action that keeps a condition on machines, however it ends, and gives something that
satisfies another one. -/
def Keeps (I : Machine σ → Prop) (Q : α → Prop) (act : Run σ α) : Prop :=
  ∀ m, I m → Ends I Q (act.run m)

/-- An action of which nothing is needed but that it keeps a condition. -/
abbrev KeepsAny (I : Machine σ → Prop) (act : Run σ α) : Prop := Keeps I (fun _ => True) act

namespace Keeps

theorem pure {a : α} (h : Q a) : Keeps I Q (Pure.pure a : Run σ α) := fun _ hm => ⟨hm, h⟩

theorem throw (fault : Fault) : Keeps I Q (MonadExcept.throw fault : Run σ α) := fun _ hm => hm

theorem bind {x : Run σ α} {f : α → Run σ β} (hx : Keeps I Q x) (hf : ∀ a, Q a → Keeps I R (f a)) :
    Keeps I R (x >>= f) :=
  fun m hm => (hx m hm).bind fun a t ha ht => hf a ha t ht

/-- What the first action gives does not matter. -/
theorem andThen {x : Run σ α} {y : Run σ β} (hx : KeepsAny I x) (hy : Keeps I R y) :
    Keeps I R (x >>= fun _ => y) :=
  bind hx fun _ _ => hy

theorem mono {x : Run σ α} (hx : Keeps I P x) (h : ∀ a, P a → Q a) : Keeps I Q x := by
  intro m hm
  have hend := hx m hm
  cases hrun : x.run m with
  | ok a t =>
    rw [hrun] at hend
    exact ⟨hend.1, h a hend.2⟩
  | error e t =>
    rw [hrun] at hend
    exact hend

theorem map {x : Run σ α} {f : α → β} (hx : Keeps I Q x) (h : ∀ a, Q a → R (f a)) :
    Keeps I R (f <$> x) := by
  rw [map_eq_pure_bind]
  exact bind hx fun a ha => pure (h a ha)

theorem tryCatch {x : Run σ α} {handler : Fault → Run σ α} (hx : Keeps I Q x)
    (hhandler : ∀ fault, Keeps I Q (handler fault)) :
    Keeps I Q (MonadExcept.tryCatch x handler) :=
  fun m hm => (hx m hm).tryCatch fun fault t ht => hhandler fault t ht

theorem get : Keeps I I (MonadState.get : Run σ (Machine σ)) := fun _ hm => ⟨hm, hm⟩

theorem modify {f : Machine σ → Machine σ} (h : ∀ m, I m → I (f m)) :
    KeepsAny I (modify f : Run σ Unit) :=
  fun m hm => ⟨h m hm, trivial⟩

theorem load {f : Memory → α} (h : ∀ m, I m → Q (f m.memory)) : Keeps I Q (load f : Run σ α) :=
  fun m hm => ⟨hm, h m hm⟩

theorem store {f : Memory → Memory} (h : ∀ m, I m → I { m with memory := f m.memory }) :
    KeepsAny I (Script.store f : Run σ Unit) :=
  fun m hm => ⟨h m hm, trivial⟩

theorem allocate {f : Memory → α × Memory}
    (h : ∀ m, I m → I { m with memory := (f m.memory).2 } ∧ Q (f m.memory).1) :
    Keeps I Q (allocate f : Run σ α) :=
  fun m hm => h m hm

theorem fail (e : ScriptError) (h : ∀ m, I m → I { m with memory := (m.memory.newFailure e).2 }) :
    Keeps I Q (Script.fail e : Run σ α) :=
  bind (allocate fun m hm => ⟨h m hm, trivial⟩) fun _ (_ : True) => throw _

theorem raise (sites : Sites) (message : String) : Keeps I Q (raise sites message : Run σ α) :=
  throw _

theorem orRaise (sites : Sites) {x : Except String α} (h : ∀ a, x = .ok a → Q a) :
    Keeps I Q (orRaise sites x : Run σ α) := by
  cases x with
  | ok a => exact pure (h a rfl)
  | error message => exact raise sites message

/-- A step that keeps a condition can be repeated. -/
theorem iterate {step : α → Run σ (Sum α β)}
    (hstep : ∀ a, P a → Keeps I (Sum.elim P R) (step a)) (fuel : Nat) {a : α} (ha : P a) :
    Keeps I R (iterate step fuel a) := by
  induction fuel generalizing a with
  | zero => exact throw _
  | succ fuel ih =>
    refine bind (hstep a ha) fun next hnext => ?_
    cases next with
    | inl a => exact ih hnext
    | inr b => exact pure hnext

end Keeps

end BuildComposition.Script
