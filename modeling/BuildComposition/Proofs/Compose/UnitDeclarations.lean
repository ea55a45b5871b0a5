import BuildComposition.Proofs.Compose.Course
import BuildComposition.Proofs.Graph.Traversals
import BuildComposition.Proofs.Script.ProjectCalls

/-!
# What the units of a plan hold

There is one frame at a time, and all functions of a run share it, also those that one descriptor has
defined and another one calls.  A unit nevertheless holds what was declared while its own descriptor ran
and nothing else: the frame is fresh when the descriptor starts, stays the same while it runs, and is
taken away before the next one starts.

## Main definitions

* `Noted`: the journal of a run as the traversals that it has made
* `OwnDeclarations`: the units of a plan are what their own descriptors have declared

## Main results

* `Graph.exists_frame`: a descriptor that returns leaves its frame
* `Course.noted`: the journal of a run consists of its traversals
* `requests_of_plan`: all requests of a run are those of its descriptors
-/

namespace BuildComposition

/-- A descriptor that returns leaves its frame, so that running it fails only if the descriptor does. -/
theorem Graph.exists_frame {μ : Type} (g : Graph μ) (descriptor : Path) (kind : DescriptorKind)
    (s : GraphState μ) : ∃ frame, frame.kind = kind ∧ (g.runDescriptor descriptor kind s).1 =
      (g.evaluator.run descriptor s.memory (s.session.openFrame kind)).1.map fun _ => frame := by
  rcases hrun : g.evaluator.run descriptor s.memory (s.session.openFrame kind)
    with ⟨result, memory, performed⟩
  obtain ⟨chunk, -, hframe, -⟩ := performed.performs.exists_chunk (f := .fresh kind) rfl
  refine ⟨(chunk.filterMap Event.request?).foldl Frame.after (.fresh kind),
    Frame.kind_foldl_after .., ?_⟩
  simp only [runDescriptor, hrun]
  cases result with
  | error e => rfl
  | ok => simp [hframe, Except.map]

/-! ## The journal of a run -/

/-- The journal of a run that gives a plan: what the run itself has noted, and in between the traversals
of the override, if there is one, and of the references of the root. -/
inductive Noted (spec : RootSpec) : DefaultsSource → List Event → List Evaluation → Prop
  | builtin {before events after es} (hbefore : ∀ e ∈ before, e.isOfRun = true)
      (h : Traverses .project 0 spec.required events es) (hafter : ∀ e ∈ after, e.isOfRun = true) :
      Noted spec .builtin (before ++ events ++ after) es
  | override {path before events between more after es fs}
      (hbefore : ∀ e ∈ before, e.isOfRun = true)
      (h : Traverses .override 0 [spec.overrideFile] events es)
      (hbetween : ∀ e ∈ between, e.isOfRun = true)
      (h' : Traverses .project 0 spec.required more fs) (hafter : ∀ e ∈ after, e.isOfRun = true) :
      Noted spec (.localOverride path) (before ++ events ++ between ++ more ++ after) (es ++ fs)

/-- The run itself makes no requests. -/
theorem Shows.ofRun {events : List Event} (h : ∀ e ∈ events, e.isOfRun = true) : Shows events [] := by
  refine .quiet fun e he => ?_
  have hrun := h e he
  cases e <;> first | rfl | cases hrun

/-- The journal of a run shows its evaluations. -/
theorem Noted.shows {spec : RootSpec} {source : DefaultsSource} {journal : List Event}
    {es : List Evaluation} (h : Noted spec source journal es) : Shows journal es := by
  cases h with
  | builtin hbefore h hafter =>
    have hshows := ((Shows.ofRun hbefore).append h.shows).append (.ofRun hafter)
    simpa using hshows
  | override hbefore h hbetween h' hafter =>
    have hfirst := ((Shows.ofRun hbefore).append h.shows).append (.ofRun hbetween)
    have hshows := (hfirst.append h'.shows).append (.ofRun hafter)
    simpa using hshows

theorem Course.noted {g : Graph Script.Memory} {spec : RootSpec} {options : Options}
    {source : DefaultsSource} {s t : GraphState Script.Memory} {es fs : List Evaluation}
    {units : List ResolvedUnit} (h : Course g spec options s source es fs (.ok units) t)
    (hs : ∀ e ∈ s.session.journal, e.isOfRun = true) :
    Noted spec source t.session.journal (es ++ fs) := by
  have hfinished : ∀ (count : Nat), ∀ e ∈ [Event.finished count], e.isOfRun = true := by
    simp [Event.isOfRun]
  cases h with
  | builtin h =>
    obtain ⟨events, hj, htraverses⟩ := h.completes.traverses
    rw [GraphState.journal_writeAll] at hj
    have hbefore : ∀ e ∈ s.session.journal ++ options.defaults.changes.map .changed,
        e.isOfRun = true := by
      intro e he
      rcases List.mem_append.mp he with he | he
      · exact hs e he
      · obtain ⟨_, -, rfl⟩ := List.mem_map.mp he
        rfl
    have hnoted : Noted spec .builtin _ fs :=
      .builtin hbefore htraverses (hfinished units.length)
    rw [← hj] at hnoted
    exact hnoted
  | @override path _ first t _ rest u h h' =>
    obtain ⟨events, hj, htraverses⟩ := h.completes.traverses
    obtain ⟨between, hb, hsetup⟩ := t.continues_checkMode path
    obtain ⟨more, hm, htraverses'⟩ := h'.completes.traverses
    have hnoted : Noted spec (.localOverride path) _ (es ++ fs) :=
      .override hs htraverses (fun e he => Event.isOfRun_of_isSetup (hsetup e he)) htraverses'
        (hfinished (first ++ rest).length)
    rw [← hj, ← hb, ← hm] at hnoted
    exact hnoted

/-- All requests of a run that gives a plan are those that its descriptors have made. -/
theorem requests_of_plan {tree : FileTree} {root : Root} {toolset : Toolset} {layout : Layout}
    {options : Options} {plan : Plan} (h : (compose tree root toolset options layout).1 = .ok plan) :
    (compose tree root toolset options layout).2.journal.filterMap Event.request? =
      (evaluations (compose tree root toolset options layout).2.journal).flatMap (·.requests) := by
  obtain ⟨spec, es, fs, t, hspec, hcourse, -, hes⟩ := course_of_plan h
  have hnoted := hcourse.noted fun e he =>
    Event.isOfRun_of_isSetup (setup_ready tree root toolset spec layout e he)
  rw [hes, hcourse.compose_eq hspec]
  exact hnoted.shows.requests_eq

/-! ## The units of a plan -/

/-- Every unit of a run is what a descriptor has declared that the run has evaluated. -/
theorem Yields.declared {g : Graph Script.Memory} {spec : RootSpec} {source : DefaultsSource}
    {es : List Evaluation} {units : List ResolvedUnit} (h : Yields g spec source es units) :
    ∀ u ∈ units, ∃ e ∈ es, u.DeclaredBy e := by
  cases h with
  | builtin _ h => exact h.declared
  | override _ h _ h' =>
    intro u hu
    rcases List.mem_append.mp hu with hu | hu
    · obtain ⟨e, he, hdeclared⟩ := h.declared u hu
      exact ⟨e, List.mem_append_left _ he, hdeclared⟩
    · obtain ⟨e, he, hdeclared⟩ := h'.declared u hu
      exact ⟨e, List.mem_append_right _ he, hdeclared⟩

/-- The units of a plan are what their own descriptors have declared while they ran. -/
structure OwnDeclarations (g : Graph Script.Memory) (spec : RootSpec) (source : DefaultsSource)
    (journal : List Event) (units : List ResolvedUnit) : Prop where
  noted : Noted spec source journal (evaluations journal)
  /-- One evaluation is that of the descriptor of a unit.  The unit is what it has declared, and what
  was followed below it is its queue. -/
  declared : ∀ u ∈ units, ∃ e ∈ evaluations journal, u.DeclaredBy e ∧ e.PartOf journal ∧
    ∀ e' ∈ evaluations journal, e'.descriptor = u.descriptor → e' = e
  /-- Every request took effect while a descriptor ran, to which it belongs. -/
  requests_eq : journal.filterMap Event.request? = (evaluations journal).flatMap (·.requests)
  /-- The frame of a descriptor is there when the descriptor returns. -/
  frame_kept : ∀ descriptor kind s, ∃ frame, frame.kind = kind ∧
    (g.runDescriptor descriptor kind s).1 =
      (g.evaluator.run descriptor s.memory (s.session.openFrame kind)).1.map fun _ => frame

/-- A tree with `a`, which defines a function and requires `b`, and with `b`, which calls it. -/
def sharingTree : FileTree :=
  (FileTree.empty.putEntry [['a']] (.file (Utf8.encode
    "function prj.own(name) prj.lib(name) end prj.own(\"x\") prj.required(\"b\")"))).putEntry
    [['b']] (.file (Utf8.encode "prj.own(\"y\")"))

end BuildComposition
