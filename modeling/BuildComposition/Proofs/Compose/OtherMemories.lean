import BuildComposition.Compose
import BuildComposition.Proofs.Graph.OtherMemories
import BuildComposition.Proofs.Script.RenumberedRuns

/-!
# Compositions on other memories

The units of a run depend on memory only through what its descriptors do with it.  Descriptors cannot see the
numbers of what memory holds, so that a run goes on alike from two memories that differ in these alone.

## Main definitions

* `Interchangeable`: memories from which every run goes on alike

## Main results

* `Graph.Tracks.composeUnits`: the units of a run, if descriptors do the same on related memories
* `Interchangeable.of_renumbers`: memories that hold the same under other numbers
-/

namespace BuildComposition

open Script

theorem Graph.Tracks.composeUnits {μ ν : Type} {R : μ → ν → Prop} {g : Graph μ} {run : Runner ν}
    (h : Runner.Tracks R g.evaluator.run run) (spec : RootSpec) (options : Options)
    (source : DefaultsSource) : Graph.Tracks R (composeUnits g spec options source)
      (composeUnits (g.on run) spec options source) := by
  have hfirst : Graph.Tracks R (applyDefaults g spec options source)
      (applyDefaults (g.on run) spec options source) := by
    cases source with
    | builtin =>
      exact .bind (.modified fun s t h => ⟨h.memory, by rw [h.session_eq], h.visited_eq⟩) fun _ => .pure _
    | localOverride path =>
      refine .bind (Simulates.adaptExcept (Graph.Tracks.evaluateOverride h _) fun _ _ => congrArg _)
        fun _ => .bind (.modified fun s t h => ?_) fun _ => .pure _
      rw [h.session_eq]
      split
      · exact ⟨h.memory, rfl, h.visited_eq⟩
      · exact h
  refine .bind hfirst fun first => .bind ?_ fun rest => .bind (.modified fun s t h => ?_) fun _ => .pure _
  · exact Simulates.adaptExcept (Graph.Tracks.evaluateAll h _) fun _ _ => congrArg _
  · exact ⟨h.memory, by rw [h.session_eq], h.visited_eq⟩

/-- Runs that start from these memories end alike and leave the same session. -/
def Interchangeable (tree : FileTree) (m n : Memory) : Prop :=
  ∀ (root : Root) (options : Options) (spec : RootSpec) (source : DefaultsSource) (session : Session),
    EndsLike (fun s t : GraphState Memory => s.session = t.session) Eq Eq
      ((composeUnits (root.graph tree options) spec options source).run ⟨m, session, []⟩)
      ((composeUnits (root.graph tree options) spec options source).run ⟨n, session, []⟩)

/-- Descriptors do the same under other numbers. -/
theorem tracks_scriptEvaluator (ρ : Renumbering) (tree : FileTree) :
    Runner.Tracks (Memory.Renumbers ρ) (scriptEvaluator tree).run (scriptEvaluator tree).run := by
  have hrun : ∀ path (m n : Memory) (session : Session), m.Renumbers ρ n →
      ((scriptEvaluator tree).run path m session).1 = ((scriptEvaluator tree).run path n session).1 ∧
      ((scriptEvaluator tree).run path m session).2.1.Renumbers ρ
        ((scriptEvaluator tree).run path n session).2.1 ∧
      ((scriptEvaluator tree).run path m session).2.2 = ((scriptEvaluator tree).run path n session).2.2 := by
    intro path m n session h
    obtain ⟨hresult, hleft, hhost⟩ := run_evaluateFile_renumbers tree path h
      (Performed.start (.blank session.frame))
    refine ⟨?_, hleft, ?_⟩
    · simp only [scriptEvaluator, hresult]
      cases (Machine.run m (Performed.start (.blank session.frame))
        (evaluateFile tree path)).1 <;> rfl
    · simp only [scriptEvaluator, hhost]
  exact ⟨fun path m n session h => (hrun path m n session h).1,
    fun path m n session h => (hrun path m n session h).2.1,
    fun path m n session h => (hrun path m n session h).2.2⟩

namespace Interchangeable

variable {tree : FileTree} {m n : Memory}

/-- No run depends on the numbers in memory. -/
theorem of_renumbers {ρ : Renumbering} (h : m.Renumbers ρ n) : Interchangeable tree m n := by
  intro root options spec source session
  have hends := Graph.Tracks.composeUnits (g := root.graph tree options) (tracks_scriptEvaluator ρ tree) spec
    options source ⟨m, session, []⟩ ⟨n, session, []⟩ ⟨h, rfl, rfl⟩
  exact hends.mono fun _ _ h => h.session_eq

theorem refl : Interchangeable tree m m := of_renumbers (ρ := 1) (Memory.renumbers_one_iff.mpr rfl)

theorem symm (h : Interchangeable tree m n) : Interchangeable tree n m :=
  fun root options spec source session =>
    (h root options spec source session).symm.mono fun _ _ h => h.symm

end Interchangeable

end BuildComposition
