import BuildComposition.Proofs.Compose.Course
import BuildComposition.Proofs.Graph.Determinacy

/-!
# The depth limit

The limit on the depth of references is a safeguard and nothing else: a run either fails because it is
too deep, or it does what it would do with any larger limit, whether it gives a plan or fails for another
reason.

The limit is looked at between two other checks, and only to refuse a reference.  A derivation in which
nothing is refused as too deep is thus also one of the graph with the larger limit.

## Main definitions

* `Graph.withLimit`: the same graph with another limit
* `ComposeError.IsTooDeep`: a run has failed because it was too deep
* `SameUnlessTooDeep`: two steps do the same unless the first one fails in this way

## Main results

* `Graph.Follows.withLimit`: derivations of a graph with a larger limit
* `Graph.run_withLimit`: calls on a graph with a larger limit
-/

namespace BuildComposition

namespace Graph

variable {μ : Type} {g : Graph μ} {below : List Link} {s t : GraphState μ}

/-- The same graph with another limit on the depth of references. -/
def withLimit (g : Graph μ) (limit : Nat) : Graph μ := { g with maxDepth := limit }

theorem Admits.withLimit {link : Link} {limit : Nat} (h : g.Admits below link)
    (hle : g.maxDepth ≤ limit) : (g.withLimit limit).Admits below link :=
  ⟨h.leads, h.apart, Nat.lt_of_lt_of_le h.depth_lt hle⟩

/-- What a descriptor does is no matter of the limit. -/
theorem Enters.withLimit {kind : DescriptorKind} {depth : Nat} {link : Link}
    {requests : List Request} {result : Except ScriptError Frame}
    (h : g.Enters kind depth link s requests result t) (limit : Nat) :
    (g.withLimit limit).Enters kind depth link s requests result t :=
  ⟨h.enter_eq, h.visited_eq, h.idle, h.frame_eq, h.journal_eq⟩

/-- A reference is refused as too deep, or for a reason that has nothing to do with the limit. -/
theorem Refuses.withLimit {position : Nat} {reference : String} {e : GraphError}
    (h : g.Refuses below position reference e) (limit : Nat) :
    (∃ chain, e = .tooDeep g.maxDepth chain) ∨
      (g.withLimit limit).Refuses below position reference e := by
  cases h with
  | notFound h => exact .inr (.notFound h)
  | cycle h hlink hagrees => exact .inr (.cycle h hlink hagrees)
  | tooDeep => exact .inl ⟨_, rfl⟩

/-- A derivation ends where a reference is too deep, or is one with every larger limit. -/
theorem Follows.withLimit {task : Task} {es : List Evaluation}
    {outcome : Except GraphError (List ResolvedUnit)} (h : g.Follows below task s es outcome t)
    {limit : Nat} (hle : g.maxDepth ≤ limit) :
    (∃ chain, outcome = .error (.tooDeep g.maxDepth chain)) ∨
      (g.withLimit limit).Follows below task s es outcome t := by
  induction h with
  | refused h =>
    rcases h.withLimit limit with ⟨chain, rfl⟩ | h
    · exact .inl ⟨chain, rfl⟩
    · exact .inr (.refused h)
  | skipped ha hv => exact .inr (.skipped (ha.withLimit hle) hv)
  | failed ha hv hr => exact .inr (.failed (ha.withLimit hle) hv (hr.withLimit limit))
  | evaluated ha hv hr _ ih =>
    rcases ih with ⟨chain, rfl⟩ | h
    · exact .inl ⟨chain, rfl⟩
    · exact .inr (.evaluated (ha.withLimit hle) hv (hr.withLimit limit) h)
  | nil => exact .inr .nil
  | cons _ _ ih ih' =>
    -- the first reference has not failed
    rcases ih with ⟨chain, hfirst⟩ | h
    · cases hfirst
    · rcases ih' with ⟨chain, rfl⟩ | h'
      · exact .inl ⟨chain, rfl⟩
      · exact .inr (.cons h h')
  | stop _ ih =>
    rcases ih with ⟨chain, hfirst⟩ | h
    · exact .inl ⟨chain, hfirst⟩
    · exact .inr (.stop h)

/-- A call fails because it is too deep, or does the same with every larger limit. -/
theorem run_withLimit {limit : Nat} (hle : g.maxDepth ≤ limit) (c : Call) (s : GraphState μ) :
    (∃ chain t, (g.call c).run s = .error (.tooDeep g.maxDepth chain) t) ∨
      ((g.withLimit limit).call c).run s = (g.call c).run s := by
  obtain ⟨es, outcome, t, h, hrun⟩ := g.call_derives c s
  rcases h.withLimit hle with ⟨chain, rfl⟩ | h'
  · exact .inl ⟨chain, t, hrun⟩
  · exact .inr ((run_eq_of_follows h').trans hrun.symm)

end Graph

/-! ## Steps of a run -/

/-- A run has failed because the references of its root, or those of its override, were too deep. -/
inductive ComposeError.IsTooDeep (limit : Nat) : ComposeError → Prop
  | projects (chain : List String) : IsTooDeep limit (.graph (.tooDeep limit chain))
  | override (path : Path) (chain : List String) :
      IsTooDeep limit (.malformedOverride path (.tooDeep limit chain))

/-- The steps do the same in every state, unless the first one fails because it is too deep. -/
def SameUnlessTooDeep {σ α : Type} (limit : Nat) (x y : EStateM ComposeError σ α) : Prop :=
  ∀ s, (∃ e t, x.run s = .error e t ∧ e.IsTooDeep limit) ∨ y.run s = x.run s

namespace SameUnlessTooDeep

variable {σ α β : Type} {limit : Nat}

theorem refl (x : EStateM ComposeError σ α) : SameUnlessTooDeep limit x x := fun _ => .inr rfl

theorem bind {x y : EStateM ComposeError σ α} {f h : α → EStateM ComposeError σ β}
    (hxy : SameUnlessTooDeep limit x y) (hfh : ∀ a, SameUnlessTooDeep limit (f a) (h a)) :
    SameUnlessTooDeep limit (x >>= f) (y >>= h) := by
  intro s
  rcases hxy s with ⟨e, t, hx, he⟩ | hx
  · refine .inl ⟨e, t, ?_, he⟩
    rw [EStateM.run_bind, hx]
  · simp only [EStateM.run_bind, hx]
    cases x.run s with
    | ok a t => exact hfh a t
    | error e t => exact .inr rfl

/-- A call that fails as too deep makes the run fail in this way. -/
theorem adaptExcept_call {μ : Type} {g : Graph μ} {limit : Nat} (hle : g.maxDepth ≤ limit)
    (c : Graph.Call) {f : GraphError → ComposeError}
    (hf : ∀ chain, (f (.tooDeep g.maxDepth chain)).IsTooDeep g.maxDepth) :
    SameUnlessTooDeep g.maxDepth ((g.call c).adaptExcept f)
      (((g.withLimit limit).call c).adaptExcept f) := by
  intro s
  simp only [EStateM.run_adaptExcept]
  rcases Graph.run_withLimit hle c s with ⟨chain, t, hrun⟩ | hrun
  · exact .inl ⟨_, t, by rw [hrun], hf chain⟩
  · exact .inr (by rw [hrun])

end SameUnlessTooDeep

section

variable {g : Graph Script.Memory} {limit : Nat}

theorem applyDefaults_withLimit (hle : g.maxDepth ≤ limit) (spec : RootSpec) (options options' : Options)
    (hdefaults : options'.defaults = options.defaults) (source : DefaultsSource) :
    SameUnlessTooDeep g.maxDepth (applyDefaults g spec options source)
      (applyDefaults (g.withLimit limit) spec options' source) := by
  cases source with
  | builtin =>
    simp only [applyDefaults, hdefaults]
    exact .refl _
  | localOverride path =>
    simp only [applyDefaults]
    exact .bind (.adaptExcept_call hle (.override spec.overrideFile) (.override path))
      fun _ => .refl _

theorem composeUnits_withLimit (hle : g.maxDepth ≤ limit) (spec : RootSpec) (options options' : Options)
    (hdefaults : options'.defaults = options.defaults) (source : DefaultsSource) :
    SameUnlessTooDeep g.maxDepth (composeUnits g spec options source)
      (composeUnits (g.withLimit limit) spec options' source) := by
  unfold composeUnits
  refine .bind (applyDefaults_withLimit hle spec options options' hdefaults source) fun first => ?_
  exact .bind (.adaptExcept_call hle (.all spec.required) .projects) fun _ => .refl _

end

/-- With a limit on the depth of references, a run fails because it is too deep for this limit, or does
the same as with every larger one: it gives the same plan, or fails with the same error, and leaves the
same session.  A plan is thus the plan with every larger limit. -/
theorem compose_maxDepth (tree : FileTree) (root : Root) (toolset : Toolset)
    (defaults : BuiltinDefaults) {layout : Layout} {limit limit' : Nat} (hle : limit ≤ limit') :
    ((∃ e, (compose tree root toolset ⟨limit, defaults⟩ layout).1 = .error e ∧ e.IsTooDeep limit) ∨
      compose tree root toolset ⟨limit', defaults⟩ layout =
        compose tree root toolset ⟨limit, defaults⟩ layout) ∧
    ∀ plan, (compose tree root toolset ⟨limit, defaults⟩ layout).1 = .ok plan →
      (compose tree root toolset ⟨limit', defaults⟩ layout).1 = .ok plan := by
  have hsame : (∃ e, (compose tree root toolset ⟨limit, defaults⟩ layout).1 = .error e ∧ e.IsTooDeep limit) ∨
      compose tree root toolset ⟨limit', defaults⟩ layout =
        compose tree root toolset ⟨limit, defaults⟩ layout := by
    rcases hread : root.read tree toolset layout with ⟨_ | spec, memory, session⟩
    -- no reference of a root is followed that cannot be read
    · exact .inr (by simp only [compose, composition, hread])
    · have hunits := composeUnits_withLimit (g := root.graph tree ⟨limit, defaults⟩) hle spec
        ⟨limit, defaults⟩ ⟨limit', defaults⟩ rfl
        (DefaultsSource.resolve tree root.runDir spec.overrideFile)
      rcases hunits (root.ready tree toolset spec layout) with ⟨e, t, hrun, he⟩ | hrun
      · refine .inl ⟨e, ?_, he⟩
        simp only [Root.ready, hread] at hrun
        simp only [compose, composition, hread, hrun]
      · refine .inr ?_
        simp only [Root.ready, hread, Graph.withLimit, Root.graph] at hrun
        simp only [compose, composition, hread, Root.graph, hrun]
  refine ⟨hsame, fun plan hplan => ?_⟩
  rcases hsame with ⟨e, he, -⟩ | heq
  · rw [he] at hplan
    cases hplan
  · rw [heq, hplan]

/-- A tree in which `a` requires `b`, which requires `c`. -/
def nestedTree : FileTree :=
  ((FileTree.empty.putEntry [['a']] (.file (Utf8.encode "prj.required(\"b\")"))).putEntry
    [['b']] (.file (Utf8.encode "prj.required(\"c\")"))).putEntry [['c']] (.file (Utf8.encode ""))

/-- Two nested references need a limit of three, and a larger one changes nothing. -/
theorem compose_maxDepth_nestedTree :
    (compose nestedTree (topRoot { RootSpec.empty with required := ["a"] }) ⟨"gcc"⟩
      ⟨2, .standard⟩).1 = .error (.graph (.tooDeep 2 ["<root>", "a", "b", "c"])) ∧
    ∃ plan,
      (compose nestedTree (topRoot { RootSpec.empty with required := ["a"] }) ⟨"gcc"⟩
        ⟨3, .standard⟩).1 = .ok plan ∧
      (compose nestedTree (topRoot { RootSpec.empty with required := ["a"] }) ⟨"gcc"⟩
        ⟨64, .standard⟩).1 = .ok plan ∧
      plan.references = ["a", "b", "c"] := by
  have hplan : (compose nestedTree (topRoot { RootSpec.empty with required := ["a"] }) ⟨"gcc"⟩
      ⟨3, .standard⟩).1.toOption.map (·.references) = some ["a", "b", "c"] := by
    decide +kernel
  obtain ⟨plan, hplan, hreferences⟩ := exists_ok_of_toOption_map hplan
  have hle : 3 ≤ 64 := by decide
  have hlarger := (compose_maxDepth nestedTree (topRoot { RootSpec.empty with required := ["a"] })
    ⟨"gcc"⟩ .standard hle).2 plan hplan
  exact ⟨by decide +kernel, plan, hplan, hlarger, hreferences⟩

end BuildComposition
