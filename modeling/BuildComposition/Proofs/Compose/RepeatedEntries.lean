import BuildComposition.Proofs.Compose.CanonicalReferences
import BuildComposition.Proofs.Graph.RepeatedReferences

/-!
# Required projects that are named twice

A root that requires a file which it has required before can do without the second entry.  The run then
evaluates the same descriptors, and gives the same plan or fails for the same reason; where the reason is
about an entry behind the one that is left out, its position is smaller by one.

## Main definitions

* `composeWith`: the outcome of a run that goes on with some specification
* `ComposeError.MovedUp`: errors that differ in the position of an entry at most

## Main results

* `compose_eq_composeWith`: a run goes on with the specification that it has read
* `required_again`: required files that are required again
-/

namespace BuildComposition

/-- The outcome of a run that has read its root and goes on with a specification. -/
def composeWith (tree : FileTree) (root : Root) (toolset : Toolset) (options : Options)
    (spec : RootSpec) (layout : Layout := .standard) : Except ComposeError Plan :=
  outcomeOf (fun units t => root.plan tree toolset spec t.session.config units)
    ((composeUnits (root.graph tree options) spec options
      (DefaultsSource.resolve tree root.runDir spec.overrideFile)).run
        (root.ready tree toolset spec layout))

/-- A run goes on with the specification that it has read. -/
theorem compose_eq_composeWith {tree : FileTree} {root : Root} {toolset : Toolset} {layout : Layout}
    {spec : RootSpec} (hspec : (root.read tree toolset layout).1 = .ok spec) (options : Options) :
    (compose tree root toolset options layout).1 = composeWith tree root toolset options spec layout :=
  compose_eq_outcomeOf hspec options

/-- An error is the same, or it is about an entry of the root that has moved up by one position. -/
inductive ComposeError.MovedUp (chain : List String) : ComposeError → ComposeError → Prop
  | same (e : ComposeError) : MovedUp chain e e
  | graph {e e'} (h : Graph.MovedUp chain e e') : MovedUp chain (.graph e) (.graph e')

section

variable {g : Graph Script.Memory} {spec : RootSpec}

theorem applyDefaults_withRequired (options : Options) (source : DefaultsSource)
    (references : List String) :
    applyDefaults g { spec with required := references } options source =
      applyDefaults g spec options source := by
  cases source <;> rfl

/-- An entry of the root can be left out if an earlier one leads to the same descriptor. -/
theorem endsLike_withoutRepeated (hg : g.evaluator.Blind) {first last : List String} {a b : String}
    {d : Path} (ha : a ∈ first) (hleads : g.Leads a d) (hleads' : g.Leads b d)
    (hrequired : spec.required = first ++ b :: last) (options : Options) (source : DefaultsSource)
    (s : GraphState Script.Memory) :
    EndsLike GraphState.Alike (ComposeError.MovedUp (g.chain [])) Eq
      ((composeUnits g spec options source).run s)
      ((composeUnits g { spec with required := first ++ last } options source).run s) := by
  -- up to the required projects both runs are the same
  have hdefaults : EndsLike GraphState.Alike (ComposeError.MovedUp (g.chain [])) Eq
      ((applyDefaults g spec options source).run s)
      ((applyDefaults g { spec with required := first ++ last } options source).run s) := by
    rw [applyDefaults_withRequired]
    exact .refl (fun _ => ⟨rfl, rfl, .refl _⟩) .same (fun _ => rfl) _
  have hcall : Simulates GraphState.Alike (Graph.MovedUp (g.chain [])) Eq
      (g.evaluateAll spec.required) (g.evaluateAll (first ++ last)) := by
    rw [hrequired]
    exact Graph.simulates_repeated hg ha hleads hleads' last
  refine hdefaults.bind ?_
  rintro units - rfl
  refine .bind (hcall.adaptExcept fun _ _ he => .graph he) ?_
  rintro rest - rfl
  exact .bind (.modified fun _ _ ht => ht.note _ _ rfl rfl) fun _ _ _ => .pure rfl

end

/-- A run whose specification names a file twice can do without the second entry. -/
theorem composeWith_withoutRepeated (tree : FileTree) (root : Root) (toolset : Toolset)
    (options : Options) {layout : Layout} {spec : RootSpec} {xs ys zs : List String} {a b : String}
    (hrequired : spec.required = xs ++ a :: ys ++ b :: zs) (hsame : SameFile tree root.runDir a b) :
    Matches (ComposeError.MovedUp [root.label]) Eq (composeWith tree root toolset options spec layout)
      (composeWith tree root toolset options { spec with required := xs ++ a :: ys ++ zs } layout) := by
  obtain ⟨d, hd, hd'⟩ := hsame
  have ha : a ∈ xs ++ a :: ys := by simp
  have hends := endsLike_withoutRepeated (g := root.graph tree options)
    (blind_scriptEvaluator tree) ha (leads_graph_iff.mpr hd) (leads_graph_iff.mpr hd') hrequired
    options (DefaultsSource.resolve tree root.runDir spec.overrideFile)
    (root.ready tree toolset spec layout)
  rw [chain_graph] at hends
  refine hends.outcomeOf ?_
  rintro units - t t' rfl ht
  simp only [Root.plan, ht.session.config_eq]

/-- Calls that have all succeeded leave a graph on which references to what was evaluated are skipped:
they give no units, and memory, settings, frame, visited descriptors and the stack stay as they are.

So an entry of a root that leads to the same file as an earlier entry can be left out.  The run still
gives the same plan or fails, and an error differs at most in the position of an entry behind it. -/
theorem required_again :
    (∀ {μ : Type} {g : Graph μ} {declared : List String} {es : List Evaluation} {w : Walk μ},
      g.History declared es w.state → w.stack = g.root.toList →
      ∀ references : List String, (∀ y ∈ references, ∃ e ∈ es, g.Leads y e.descriptor) →
      ∃ t more, (g.evaluateAll references).run w.state = .ok [] t ∧
        (g.walk (.all references)).run w = .ok [] ⟨t, w.stack, w.moments ++ more⟩ ∧
        t.memory = w.state.memory ∧ t.visited = w.state.visited ∧
        t.session.config = w.state.session.config ∧ t.session.frame = w.state.session.frame ∧
        t.session.journal = w.state.session.journal ++ references.map .skipped) ∧
    ∀ (tree : FileTree) (toolset : Toolset) (options : Options) (layout : Layout) (spec : RootSpec)
      (xs ys zs : List String) (a b : String), spec.required = xs ++ a :: ys ++ b :: zs →
      (∀ root : Root, SameFile tree root.runDir a b →
        Matches (ComposeError.MovedUp [root.label]) Eq (composeWith tree root toolset options spec layout)
          (composeWith tree root toolset options
            { spec with required := xs ++ a :: ys ++ zs } layout)) ∧
      ∀ dir : Path, SameFile tree dir a b →
        Matches (ComposeError.MovedUp ["<root>"]) Eq (compose tree ⟨.spec spec, dir⟩ toolset options layout).1
          (compose tree ⟨.spec { spec with required := xs ++ a :: ys ++ zs }, dir⟩ toolset
            options layout).1 := by
  refine ⟨?_, fun tree toolset options layout spec xs ys zs a b hrequired => ⟨fun root hsame => ?_, ?_⟩⟩
  · intro μ g declared es w h hstack references hys
    obtain ⟨more, hwalk⟩ := h.walk_eq hstack hys
    obtain ⟨hstate, hconfig, hframe, hjournal⟩ := w.state.skip_eq references
    exact ⟨_, more, h.evaluateAll_eq hys, hwalk, by rw [hstate], by rw [hstate], hconfig, hframe,
      hjournal⟩
  · exact composeWith_withoutRepeated tree root toolset options hrequired hsame
  · intro dir hsame
    have hread : ∀ spec, (Root.read tree ⟨.spec spec, dir⟩ toolset layout).1 = .ok spec := fun _ => rfl
    rw [compose_eq_composeWith (hread spec), compose_eq_composeWith (hread _)]
    exact composeWith_withoutRepeated tree ⟨.spec spec, dir⟩ toolset options hrequired hsame

/-- After `b`, which requires `a`, a link to `a` is skipped.  A root that requires `a` and `b` can do
without the link. -/
theorem required_again_linkedTree :
    (∃ units t u, ((scriptGraph linkedTree ⟨['/']⟩ 64 none).call (.all ["b"])).run .initial =
        .ok units t ∧
      ((scriptGraph linkedTree ⟨['/']⟩ 64 none).evaluateAll ["l"]).run t = .ok [] u ∧
      u.visited = t.visited) ∧
    Matches (ComposeError.MovedUp ["<root>"]) Eq
      (compose linkedTree (topRoot { RootSpec.empty with required := ["a", "b", "l"] }) ⟨"gcc"⟩
        .standard).1
      (compose linkedTree (topRoot { RootSpec.empty with required := ["a", "b"] }) ⟨"gcc"⟩
        .standard).1 := by
  constructor
  · have hevaluated : (match ((scriptGraph linkedTree ⟨['/']⟩ 64 none).call (.all ["b"])).run
        .initial with
        | .ok _ t => some ((GraphState.initial.evaluated t).map (·.descriptor))
        | .error _ _ => none) = some [⟨['/', 'b']⟩, ⟨['/', 'a']⟩] := by
      decide +kernel
    cases hrun : ((scriptGraph linkedTree ⟨['/']⟩ 64 none).call (.all ["b"])).run .initial with
    | error e t =>
      rw [hrun] at hevaluated
      cases hevaluated
    | ok units t =>
      rw [hrun] at hevaluated
      simp only [Option.some.injEq] at hevaluated
      have hhistory := (Graph.History.fresh (g := scriptGraph linkedTree ⟨['/']⟩ 64 none)
        GraphState.initial.memory GraphState.initial.session).call (.all ["b"]) hrun
      -- the second evaluation was that of `a`
      have ha : (⟨['/', 'a']⟩ : Path) ∈ (GraphState.initial.evaluated t).map (·.descriptor) := by
        rw [hevaluated]
        decide
      obtain ⟨e, he, hdescriptor⟩ := List.mem_map.mp ha
      have hleads : (scriptGraph linkedTree ⟨['/']⟩ 64 none).Leads "l" e.descriptor := by
        rw [hdescriptor]
        unfold Graph.Leads
        decide +kernel
      obtain ⟨u, -, hskipped, -, -, hvisited, -⟩ := required_again.1 (w := ⟨t, [], []⟩) hhistory rfl
        ["l"] (fun y hy => ⟨e, he, List.mem_singleton.mp hy ▸ hleads⟩)
      exact ⟨units, t, u, rfl, hskipped, hvisited⟩
  · exact (required_again.2 linkedTree ⟨"gcc"⟩ .standard .standard
      { RootSpec.empty with required := ["a", "b", "l"] } [] ["b"] [] "a" "l" rfl).2 ⟨['/']⟩
      ⟨⟨['/', 'a']⟩, by decide +kernel⟩

end BuildComposition
