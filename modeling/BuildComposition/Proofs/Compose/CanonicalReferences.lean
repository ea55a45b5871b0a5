import BuildComposition.Proofs.Compose.Course
import BuildComposition.Proofs.Graph.Aliases

/-!
# Only the canonical identity of references matters

The references of a root may be written in different ways: with dots, through links, or as absolute
paths.  As long as they lead to the same files, in the same order, the runs do the same: the plans
differ only in how the references of units and of their parents are written, and errors only in how
they name them.

## Main definitions

* `SameFile`: two references lead to the same canonical file
* `Plan.Alike`, `ComposeError.Alike`: what differs at most in how references are written

## Main results

* `blind_scriptEvaluator`: a script sees of a session the frame alone
* `compose_sameFile`: roots whose references lead to the same files
-/

namespace BuildComposition

/-- Both references, as seen from a directory, lead to the same file. -/
def SameFile (tree : FileTree) (runDir : Path) (reference reference' : String) : Prop :=
  ∃ file, tree.canonicalFile? (runDir.joinText reference) = some file ∧
    tree.canonicalFile? (runDir.joinText reference') = some file

/-- A script sees of a session the frame alone. -/
theorem blind_scriptEvaluator (tree : FileTree) : (scriptEvaluator tree).Blind := by
  intro path memory s t hframe
  obtain ⟨config, frame, journal, hsettings⟩ := s
  obtain ⟨config', frame', journal', hsettings'⟩ := t
  obtain rfl : frame = frame' := hframe
  exact ⟨rfl, rfl, _, rfl, rfl⟩

section

variable {μ : Type} (g : Graph μ)

/-- The plans differ at most in how the references of units and of their parents are written. -/
structure Plan.Alike (p q : Plan) : Prop where
  name_eq : p.name = q.name
  toolset_eq : p.toolset = q.toolset
  runDir_eq : p.runDir = q.runDir
  defaults_eq : p.defaults = q.defaults
  config_eq : p.config = q.config
  units : List.Forall₂ g.UnitAlike p.units q.units

/-- The errors are of the same kind and about the same reference, and differ at most in how
references are written. -/
inductive ComposeError.Alike : ComposeError → ComposeError → Prop
  | root (e : RootError) : Alike (.root e) (.root e)
  | graph {e e'} (h : g.ErrorAlike e e') : Alike (.graph e) (.graph e')
  | malformedOverride {e e'} (path : Path) (h : g.ErrorAlike e e') :
      Alike (.malformedOverride path e) (.malformedOverride path e')

end

theorem Session.Alike.writeAll {s t : Session} (h : s.Alike t) (changes : List Change) :
    (s.writeAll changes).Alike (t.writeAll changes) := by
  induction changes generalizing s t with
  | nil => exact h
  | cons c changes ih => exact ih ⟨congrArg (·.apply c) h.config_eq, h.frame_eq⟩

section

variable {g : Graph Script.Memory} {spec : RootSpec} {references : List String}

/-- The defaults of a run depend on nothing that was noted. -/
theorem simulates_applyDefaults (hg : g.evaluator.Blind) (options : Options)
    (source : DefaultsSource) :
    Simulates GraphState.Alike (ComposeError.Alike g) (List.Forall₂ g.UnitAlike)
      (applyDefaults g spec options source)
      (applyDefaults g { spec with required := references } options source) := by
  cases source with
  | builtin =>
    refine .bind (.modified ?_) fun _ _ _ => .pure .nil
    intro s t hst
    exact ⟨hst.memory_eq, hst.visited_eq, hst.session.writeAll _⟩
  | localOverride path =>
    have hcall : Simulates GraphState.Alike g.ErrorAlike (List.Forall₂ g.UnitAlike)
        (g.call (.override spec.overrideFile)) (g.call (.override spec.overrideFile)) :=
      Graph.simulates_call hg (.one (.refl _))
    refine .bind (.adaptExcept hcall fun _ _ he => .malformedOverride path he) fun _ _ hunits => ?_
    refine .bind (.modified ?_) fun _ _ _ => .pure hunits
    intro s t hst
    rw [hst.session.config_eq]
    split
    · exact hst.note _ _ rfl rfl
    · exact hst

theorem simulates_composeUnits (hg : g.evaluator.Blind)
    (h : List.Forall₂ g.Alias spec.required references) (options : Options)
    (source : DefaultsSource) :
    Simulates GraphState.Alike (ComposeError.Alike g) (List.Forall₂ g.UnitAlike)
      (composeUnits g spec options source)
      (composeUnits g { spec with required := references } options source) := by
  have hcall : Simulates GraphState.Alike g.ErrorAlike (List.Forall₂ g.UnitAlike)
      (g.call (.all spec.required)) (g.call (.all references)) :=
    Graph.simulates_call hg (.all h)
  refine .bind (simulates_applyDefaults hg options source) fun first first' hfirst => ?_
  refine .bind (.adaptExcept hcall fun _ _ he => .graph he) fun rest rest' hrest => ?_
  refine .bind (.modified ?_) fun _ _ _ => .pure (List.rel_append hfirst hrest)
  intro s t hst
  exact hst.note _ _ rfl rfl

end

/-- Runs of two specifications that differ only in how their references are written both give a plan
or both fail.  The plans have the same name, directory, defaults and settings, and their units
differ only in how they name references; the errors are of the same kind and about the same
reference. -/
theorem compose_sameFile {tree : FileTree} {spec : RootSpec} {references : List String}
    {runDir : Path} (h : List.Forall₂ (SameFile tree runDir) spec.required references)
    (toolset : Toolset) (options : Options) {layout : Layout} :
    Matches (ComposeError.Alike (Root.graph tree ⟨.spec spec, runDir⟩ options))
      (Plan.Alike (Root.graph tree ⟨.spec spec, runDir⟩ options))
      (compose tree ⟨.spec spec, runDir⟩ toolset options layout).1
      (compose tree ⟨.spec { spec with required := references }, runDir⟩ toolset options layout).1 := by
  have haliases : List.Forall₂ (Root.graph tree ⟨.spec spec, runDir⟩ options).Alias spec.required
      references := by
    refine h.imp ?_
    rintro reference reference' ⟨file, hfile, hfile'⟩
    exact .inr ⟨file, leads_graph_iff.mpr hfile, leads_graph_iff.mpr hfile'⟩
  have hends := simulates_composeUnits (blind_scriptEvaluator tree) haliases options
    (DefaultsSource.resolve tree runDir spec.overrideFile)
    (Root.ready tree ⟨.spec spec, runDir⟩ toolset spec layout)
    (Root.ready tree ⟨.spec spec, runDir⟩ toolset spec layout) ⟨rfl, rfl, .refl _⟩
  have hread : (Root.read tree ⟨.spec spec, runDir⟩ toolset layout).1 = .ok spec := rfl
  have hread' : (Root.read tree ⟨.spec { spec with required := references }, runDir⟩ toolset layout).1 =
      .ok { spec with required := references } := rfl
  rw [compose_eq_outcomeOf hread, compose_eq_outcomeOf hread']
  refine hends.outcomeOf ?_
  intro units units' t t' hunits ht
  exact ⟨rfl, rfl, rfl, rfl, ht.session.config_eq, hunits⟩

/-- A tree in which `b` requires `a`, and `l` is a link to `a`. -/
def linkedTree : FileTree :=
  ((FileTree.empty.putEntry [['a']] (.file (Utf8.encode "prj.lib(__dir)"))).putEntry
    [['b']] (.file (Utf8.encode "prj.required(\"a\")"))).putEntry [['l']] (.link ⟨['a']⟩)

/-- The same files are required through the link and with a dot, and the second way to `a` is
skipped in both runs. -/
theorem compose_sameFile_linkedTree :
    Matches (ComposeError.Alike (Root.graph linkedTree
        (topRoot { RootSpec.empty with required := ["a", "b"] }) .standard))
      (Plan.Alike (Root.graph linkedTree
        (topRoot { RootSpec.empty with required := ["a", "b"] }) .standard))
      (compose linkedTree (topRoot { RootSpec.empty with required := ["a", "b"] }) ⟨"gcc"⟩ .standard).1
      (compose linkedTree (topRoot { RootSpec.empty with required := ["l", "./b"] }) ⟨"gcc"⟩
        .standard).1 ∧
    (compose linkedTree (topRoot { RootSpec.empty with required := ["l", "./b"] }) ⟨"gcc"⟩
      .standard).1.toOption.map (·.references) = some ["l", "./b"] := by
  have hsame : List.Forall₂ (SameFile linkedTree ⟨['/']⟩) ["a", "b"] ["l", "./b"] :=
    .cons ⟨⟨['/', 'a']⟩, by decide +kernel⟩ (.cons ⟨⟨['/', 'b']⟩, by decide +kernel⟩ .nil)
  have hfirst : { RootSpec.empty with required := ["a", "b"] }.required = ["a", "b"] := rfl
  rw [← hfirst] at hsame
  exact ⟨compose_sameFile hsame ⟨"gcc"⟩ .standard, by decide +kernel⟩

end BuildComposition
