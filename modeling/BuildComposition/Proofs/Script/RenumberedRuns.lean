import BuildComposition.Proofs.Script.LockstepRuns

/-!
# Runs under other numbers

A run that starts from a memory that holds the same under other numbers is the same run: it gives the same,
the host sees the same requests, and the memories that are left hold the same again.

## Main definitions

* `Alike`: machines that are the same under other numbers, with one host

## Main results

* `Renames.invoke`: a call of a value
* `Machine.run_renumbers`, `run_evaluateFile_renumbers`: whole runs
-/

namespace BuildComposition.Script

variable {σ α α' : Type} {ρ : Renumbering}

/-- The machines are the same under other numbers, and have the same host. -/
def Alike (ρ : Renumbering) (s t : Machine σ) : Prop := s.Renumbers ρ t ∧ t.host = s.host

instance : LockstepUnder ρ (Alike (σ := σ) ρ) where
  renumbers h := h.1
  moved h _ _ _ _ hmemory _ := ⟨⟨hmemory, rfl, rfl⟩, h.2⟩

namespace Renames

/-- Any value can be put into a table. -/
theorem assignOwn (sites : Sites) (id : Nat) (key v : Value) :
    Repeats ρ (Alike ρ) (assignOwn sites id key v : Run σ Unit)
      (assignOwn sites (ρ.table id) (key.renumber ρ) (v.renumber ρ)) := by
  unfold Script.assignOwn
  rw [Value.key?_renumber]
  cases hkey : key.key? with
  | some k => exact fun s t hst => .ok rfl ⟨⟨hst.1.memory.rawSet id key v, hst.1.stack, hst.1.captured⟩, hst.2⟩
  | none => cases key <;> exact raise _ _

theorem perform [Host σ] (r : Request) :
    Repeats ρ (Alike ρ) (perform r : Run σ Unit) (perform r) := by
  refine get fun s t hst => ?_
  rw [hst.2]
  cases Host.perform s.host r with
  | error e => exact fail (.refused e)
  | ok host => exact fun s t hst => .ok rfl ⟨⟨hst.1.memory, hst.1.stack, hst.1.captured⟩, rfl⟩

variable [Host σ]

theorem step {invoke invoke' : Invoke σ} (h : RenamesCalls ρ (Alike ρ) invoke invoke') (outer : Sites)
    (c : Calls) : Renames ρ (Alike ρ) (Sum.map (Calls.renumber ρ) (renumberAll ρ)) (c.step invoke outer)
      ((c.renumber ρ).step invoke' outer) := by
  rw [Calls.step_eq_stepBy, Calls.step_eq_stepBy]
  exact stepBy (runBuiltin_of_perform h perform) h outer c fun object key value =>
    executeSet c.current h _ object key value (assignOwn _)

theorem callWithin (levels : Nat) :
    RenamesCalls ρ (Alike (σ := σ) ρ) (Script.callWithin levels) (Script.callWithin levels) := by
  induction levels with
  | zero => exact fun _ _ _ => raise _ _
  | succ levels ih =>
    intro f args caller
    cases f with
    | closure id =>
      refine bind (load fun _ _ h => h.closure id) fun f => ?_
      rw [List.length_map]
      exact bind (grow _) fun _ => bind (putAll _ args) fun _ => bind (activate f _ _ _ _) fun a =>
        iterate (step ih caller.sites) _ ⟨a, []⟩
    | builtin b => exact runBuiltin_of_perform ih perform b args caller
    | _ => exact refuse _ _

/-- A call of a value does the same under other numbers. -/
theorem invoke : RenamesCalls ρ (Alike (σ := σ) ρ) Script.invoke Script.invoke := callWithin maxLevels

end Renames

/-- A whole run does the same under other numbers. -/
theorem Machine.run_renumbers {g : α → α'} {x : Run σ α} {y : Run σ α'} (h : Renames ρ (Alike ρ) g x y)
    {m n : Memory} (hm : m.Renumbers ρ n) (host : σ) :
    (Machine.run n host y).1 = (Machine.run m host x).1.map g ∧
      (Machine.run m host x).2.1.Renumbers ρ (Machine.run n host y).2.1 ∧
      (Machine.run n host y).2.2 = (Machine.run m host x).2.2 := by
  have hends := Renames.guarded 0 h (.start m host) (.start n host)
    ⟨⟨hm, Array.map_empty.symm, rfl⟩, rfl⟩
  unfold Machine.run
  generalize (guarded 0 x).run (.start m host) = r, (guarded 0 y).run (.start n host) = r' at hends
  cases hends with
  | ok heq hst => exact ⟨congrArg Except.ok heq, hst.1.memory, hst.2⟩
  | @error fault fault' s t heq hst =>
    subst heq
    cases fault with
    | thrown v => exact ⟨congrArg Except.error (hst.1.memory.failureOf v), hst.1.memory, hst.2⟩
    | exhausted => exact ⟨rfl, hst.1.memory, hst.2⟩

/-- A file does the same under other numbers. -/
theorem run_evaluateFile_renumbers [Host σ] (tree : FileTree) (path : Path) {m n : Memory}
    (hm : m.Renumbers ρ n) (host : σ) :
    (Machine.run n host (evaluateFile tree path)).1 =
        (Machine.run m host (evaluateFile tree path)).1.map (Value.renumber ρ) ∧
      (Machine.run m host (evaluateFile tree path)).2.1.Renumbers ρ
        (Machine.run n host (evaluateFile tree path)).2.1 ∧
      (Machine.run n host (evaluateFile tree path)).2.2 = (Machine.run m host (evaluateFile tree path)).2.2 :=
  Machine.run_renumbers (Renames.fileValue Renames.invoke tree path) hm host

end BuildComposition.Script
