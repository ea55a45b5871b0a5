import BuildComposition.Proofs.Script.Watching

/-!
# Watched runs of scripts

A script does the same whether it is watched or not: every instruction, every call and every whole
source.  The record that a watched run leaves explains the fields of all tables that were there before
it, at each of its snapshots and at its end.

## Main results

* `Mirrors.watchedStep`: an instruction that is noted and executed
* `Mirrors.watchedInvoke`: a call of a value
* `Machine.run_watched`: a whole run
-/

namespace BuildComposition.Script

variable {σ α β : Type} {base : Memory} {invoke : Invoke (Watched σ)} {invoke' : Invoke σ}

/-! ## Assignments -/

section

variable {m : Machine σ} {p : Snapshot} (hmemory : p.memory = m.memory) (hstack : p.stack = m.stack)

include hmemory hstack

/-- Reading changes nothing. -/
theorem Activation.run_read (a : Activation) (arg : Arg) : (a.read arg).run m = .ok (p.value a arg) m := by
  cases arg with
  | register r =>
    rw [Snapshot.value, hstack]
    rfl
  | constant v => rfl
  | cell c =>
    rw [Snapshot.value, hmemory, hstack]
    show (readCell (a.cells.getD c 0)).run m = .ok (m.memory.cellValue m.stack (a.cells.getD c 0)) m
    unfold readCell Memory.cellValue
    rw [EStateM.run_bind, EStateM.run_get]
    dsimp only
    cases m.memory.cells[a.cells.getD c 0]? with
    | none => rfl
    | some cell => cases cell <;> rfl

/-- An assignment puts the values that it reads. -/
theorem Activation.run_execute_set (a : Activation) (invoke : Invoke σ) (sites : Sites)
    (object key value : Arg) : (a.execute invoke sites (.set object key value)).run m =
      (do
        assignIndex invoke ⟨sites, a.limit⟩ (p.value a object) (p.value a key) (p.value a value)
        return Flow.next : Run σ Flow).run m := by
  simp only [execute, EStateM.run_bind, a.run_read hmemory hstack]

end

/-- An access to a name leaves no trace on its way through the metatables. -/
theorem run_reach_str (m : Machine σ) (event : String) (sites : Sites) (name : Bytes) (fuel : Nat)
    (v : Value) : (reach event sites (.str name) fuel v).run m =
      (orRaise sites (m.memory.reached event name fuel v)).run m := by
  have hown : ∀ v, (ownValue (.str name) v : Run σ Value).run m = .ok (m.memory.ownField name v) m := by
    intro v
    cases v <;> rfl
  induction fuel generalizing v with
  | zero =>
    unfold reach Memory.reached
    rw [EStateM.run_bind, hown]
    cases m.memory.ownField name v <;> rfl
  | succ fuel ih =>
    unfold reach Memory.reached
    rw [EStateM.run_bind, hown]
    cases m.memory.ownField name v with
    | nil =>
      have hload : (load (·.metafield event v) : Run σ Value).run m = .ok (m.memory.metafield event v) m := rfl
      unfold handler?
      dsimp only
      rw [EStateM.run_bind, EStateM.run_bind, hload]
      cases m.memory.metafield event v with
      | nil => cases v <;> rfl
      | _ => first | rfl | exact ih _
    | _ => rfl

theorem Value.eq_str_of_key? {v : Value} {s : Bytes} (h : v.key? = some (.str s)) : v = .str s := by
  cases v with
  | str t =>
    cases h
    rfl
  | float x =>
    simp only [key?] at h
    split at h
    · cases h
    · split at h <;> cases h
  | _ => cases h

theorem Snapshot.assignment?_eq {p : Snapshot} {a : Activation} {object key value : Arg}
    (hdeed : p.deed = .instruction a)
    (hi : a.code.instructions[a.place]? = some (.set object key value)) :
    p.assignment? = match p.value a key with
      | .str name => (p.memory.assignee? name (p.value a object)).map (·, name, p.value a value)
      | _ => none := by
  have hinstruction : p.instruction? = some (a, .set object key value) := by
    rw [instruction?, hdeed]
    exact congrArg (Option.map (a, ·)) hi
  unfold assignment?
  generalize p.instruction? = i at hinstruction
  subst hinstruction
  rfl

theorem Snapshot.assignment?_eq_none {p : Snapshot} {a : Activation} (hdeed : p.deed = .instruction a)
    (hi : ∀ object key value, a.code.instructions[a.place]? ≠ some (.set object key value)) :
    p.assignment? = none := by
  rw [assignment?, instruction?, hdeed]
  dsimp only
  cases hcode : a.code.instructions[a.place]? with
  | none => rfl
  | some i => cases i <;> first | rfl | exact absurd hcode (hi _ _ _)

namespace Mirrors

/-- What is no assignment to a field can be noted before it happens. -/
theorem noted {deed : Deed} (hdeed : ∀ memory stack, Snapshot.assignment? ⟨memory, stack, deed⟩ = none)
    {x : Run (Watched σ) α} {y : Run σ α} (h : Mirrors (Watches base) x y) :
    Mirrors (Watches base) (watch deed >>= fun _ => x) y := by
  rintro s _ ⟨hs, rfl⟩
  exact h _ _ ⟨hs.concat rfl (hs.now.quiet (hdeed _ _)), rfl⟩

/-- What is put under anything but a name is no assignment to a field. -/
theorem assignOwn_watches (sites : Sites) (id : Nat) {key : Value} (hkey : ∀ name, key ≠ .str name)
    (v : Value) : Mirrors (Watches base) (assignOwn sites id key v : Run (Watched σ) Unit)
      (assignOwn sites id key v) := by
  unfold assignOwn
  cases hk : key.key? with
  | some k =>
    rintro s _ ⟨hs, rfl⟩
    refine .ok rfl ⟨⟨hs.now.rawSet_of_ne_str hk fun name heq => ?_, hs.before⟩, rfl⟩
    subst heq
    exact hkey name (Value.eq_str_of_key? hk)
  | none => cases key <;> exact raise _ _

/-- What is assigned to a name is explained by the snapshot before it. -/
theorem assignIndex_str_noting (h : MirrorsCalls (Watches base) invoke invoke') (caller : Caller)
    {s : Machine (Watched σ)} (hs : s.Explained base) {p : Snapshot} (hp : p.memory = s.memory)
    (object : Value) (name : Bytes) (value : Value)
    (hassignment : p.assignment? = (s.memory.assignee? name object).map (·, name, value)) :
    EndsLike (Watches base) Eq Eq ((Script.assignIndex invoke caller object (.str name) value).run (s.noting p))
      ((Script.assignIndex invoke' caller object (.str name) value).run s.forget) := by
  have hquiet : p.assignment? = none → Watches base (s.noting p) s.forget :=
    fun hnone => ⟨hs.concat hp (hs.now.quiet hnone), rfl⟩
  have hreach : ∀ {ρ : Type} (m : Machine ρ), m.memory = s.memory →
      (Script.reach "__newindex" caller.sites (.str name) maxChain object).run m =
        (Script.orRaise caller.sites (s.memory.reached "__newindex" name maxChain object)).run m :=
    fun m hm => hm ▸ run_reach_str m ..
  unfold Script.assignIndex
  rw [EStateM.run_bind, EStateM.run_bind, hreach (s.noting p) rfl, hreach s.forget rfl]
  rw [Memory.assignee?] at hassignment
  generalize s.memory.reached "__newindex" name maxChain object = outcome at hassignment
  cases outcome with
  | error message => exact .error rfl (hquiet hassignment)
  | ok reached =>
    cases reached with
    | function f o =>
      exact (bind (h f [o, .str name, value] caller) fun _ => pure PUnit.unit) _ _ (hquiet hassignment)
    | own holder found =>
      cases holder with
      | table id => exact .ok rfl ⟨hs.concat hp (hs.now.assigned hassignment), rfl⟩
      | _ => exact .ok rfl (hquiet hassignment)

/-- An assignment that is noted before it happens explains what it changes. -/
theorem assign (h : MirrorsCalls (Watches base) invoke invoke') (sites : Sites) {a : Activation}
    {object key value : Arg} (hi : a.code.instructions[a.place]? = some (.set object key value)) :
    Mirrors (Watches base) (watch (.instruction a) >>= fun _ => a.execute invoke sites (.set object key value))
      (a.execute invoke' sites (.set object key value)) := by
  rintro s _ ⟨hs, rfl⟩
  let p : Snapshot := ⟨s.memory, s.stack, .instruction a⟩
  have hassignment := Snapshot.assignment?_eq (p := p) rfl hi
  show EndsLike _ _ _ ((a.execute invoke sites (.set object key value)).run (s.noting p)) _
  rw [a.run_execute_set (m := s.noting p) (p := p) rfl rfl,
    a.run_execute_set (m := s.forget) (p := p) rfl rfl]
  refine EndsLike.bind (A := Eq) ?_ fun _ _ _ => pure _
  by_cases hname : ∃ name, p.value a key = .str name
  · obtain ⟨name, hname⟩ := hname
    rw [hname] at hassignment ⊢
    exact assignIndex_str_noting h _ hs rfl _ name _ hassignment
  · have hother : ∀ name, p.value a key ≠ .str name := fun name heq => hname ⟨name, heq⟩
    have hnone : p.assignment? = none := by
      rw [hassignment]
      cases hkey : p.value a key <;> first | rfl | exact absurd hkey (hother _)
    exact assignIndex h _ _ _ _ (fun id => assignOwn_watches _ id hother _) _ _
      ⟨hs.concat rfl (hs.now.quiet hnone), rfl⟩

/-! ## Functions that call one another -/

variable [Host σ]

theorem watchedLibrary (h : MirrorsCalls (Watches base) invoke invoke') :
    MirrorsLibrary (Watches base) (Script.runBuiltin invoke) (Script.runBuiltin invoke') :=
  runBuiltin_of_perform h perform

/-- An instruction does the same when it is noted first. -/
theorem watchedStep (h : MirrorsCalls (Watches base) invoke invoke') (outer : Sites) (c : Calls) :
    Mirrors (Watches base) (c.watchedStep invoke outer) (c.step invoke' outer) := by
  unfold Calls.watchedStep
  rw [Calls.step_eq_stepBy, Calls.step_eq_stepBy]
  unfold Calls.stepBy
  cases hi : c.current.code.instructions[c.current.place]? with
  | none =>
    have hquiet : ∀ memory stack,
        Snapshot.assignment? ⟨memory, stack, .instruction c.current⟩ = none :=
      fun _ _ => Snapshot.assignment?_eq_none rfl (by simp [hi])
    exact noted hquiet (finish c [])
  | some i =>
    dsimp only
    rw [← bind_assoc]
    refine bind ?_ fun flow => goOnBy (watchedLibrary h) c _ flow
    by_cases hset : ∃ object key value, i = .set object key value
    · obtain ⟨object, key, value, rfl⟩ := hset
      exact assign h _ hi
    · have hset : ∀ object key value, i ≠ .set object key value :=
        fun object key value heq => hset ⟨object, key, value, heq⟩
      exact noted (fun _ _ => Snapshot.assignment?_eq_none rfl (by simpa [hi] using hset))
        (execute c.current h _ fun object key value heq => absurd heq (hset object key value))

/-- A call of a value does the same whether it is watched or not. -/
theorem watchedWithin (levels : Nat) :
    MirrorsCalls (Watches base) (Script.watchedWithin levels) (callWithin levels : Invoke σ) := by
  induction levels with
  | zero => exact fun _ _ _ => raise _ _
  | succ levels ih =>
    intro f args caller
    cases f with
    | closure id =>
      exact bind (load _) fun f => bind (grow _) fun _ => bind (putAll _ args) fun _ =>
        bind (activate f _ _ _ _) fun a => iterate (watchedStep ih caller.sites) _ _
    | builtin b => exact noted (fun _ _ => rfl) (watchedLibrary ih b args caller)
    | _ => exact refuse _ _

theorem watchedInvoke : MirrorsCalls (Watches base) Script.watchedInvoke (Script.invoke : Invoke σ) :=
  watchedWithin maxLevels

end Mirrors

/-- A whole run does the same when it is watched, and leaves a record that explains what it leaves. -/
theorem Machine.run_watched {x : Run (Watched σ) α} {y : Run σ α} (h : Mirrors (Watches base) x y)
    {memory : Memory} {w : Watched σ} (hw : Recorded base w.record memory) :
    Machine.run memory w.host y = ((Machine.run memory w x).1, (Machine.run memory w x).2.1,
      (Machine.run memory w x).2.2.host) ∧
    Recorded base (Machine.run memory w x).2.2.record (Machine.run memory w x).2.1 := by
  have hends := Mirrors.guarded 0 h (.start memory w) (.start memory w.host) ⟨hw, rfl⟩
  unfold Machine.run
  generalize (guarded 0 x).run (.start memory w) = r, (guarded 0 y).run (.start memory w.host) = r' at hends
  cases hends with
  | ok heq hst =>
    obtain ⟨hexplained, rfl⟩ := hst
    exact ⟨by rw [heq]; rfl, hexplained⟩
  | @error fault fault' s t heq hst =>
    obtain ⟨hexplained, rfl⟩ := hst
    subst heq
    cases fault with
    | thrown v => exact ⟨rfl, hexplained⟩
    | exhausted => exact ⟨rfl, hexplained⟩

end BuildComposition.Script
