import BuildComposition.Compose
import BuildComposition.Proofs.Graph.Determinacy
import BuildComposition.Proofs.Graph.Reachability
import BuildComposition.Proofs.Simulation

/-!
# The course of a run

A run reads its root, applies what the root declares, and then follows the override and the required
projects.  Here is the part from the choice of the defaults on as a relation, with one rule for each
way in which it can end, and what is known of the session before it.

## Main definitions

* `Event.isPlain`: an event of the run itself that writes no governed setting
* `Session.Continues`: how the journal of a session grows
* `Course`: the course of a run from the choice of its defaults on
* `Yields`: what a run evaluates that gives a plan, and the units of the plan

## Main results

* `read_session`: reading a root leaves nothing in the session
* `continues_arrange`: the settings and the rules of a root are plain events
* `Course.run_eq`, `Course.compose_eq`: a run ends as its course does
* `compose_course`: every run whose root can be read has a course
* `course_of_plan`, `yields_of_plan`: what is known of a run that gives a plan
-/

namespace BuildComposition

open BuildComposition.Graph (ending)

/-! ## The session before the choice of the defaults -/

/-- The event belongs to the run and not to a descriptor, and writes no governed setting. -/
def Event.isPlain : Event → Bool
  | .evaluating .. | .opened _ | .performed .. | .closed => false
  | .changed c => !c.isGoverned
  | _ => true

theorem Event.isStart_of_isPlain {e : Event} (h : e.isPlain = true) : e.isStart = false := by
  cases e <;> first | rfl | cases h

/-- The event is one of the run itself, and not about a reference or a descriptor. -/
def Event.isOfRun : Event → Bool
  | .composing .. | .changed _ | .ruleFired .. | .rulesApplied _ | .overrideFound _ | .noOverride _
  | .modeUnset _ | .finished _ => true
  | _ => false

/-- The event is one of the run itself, and writes no governed setting. -/
def Event.isSetup (e : Event) : Bool := e.isOfRun && e.isPlain

theorem Event.isOfRun_of_isSetup {e : Event} (h : e.isSetup = true) : e.isOfRun = true :=
  (Bool.and_eq_true_iff.mp h).1

theorem Event.isPlain_of_isSetup {e : Event} (h : e.isSetup = true) : e.isPlain = true :=
  (Bool.and_eq_true_iff.mp h).2

/-- The session `t` continues `s` with events that satisfy a condition. -/
def Session.Continues (P : Event → Bool) (s t : Session) : Prop :=
  ∃ events, t.journal = s.journal ++ events ∧ ∀ e ∈ events, P e = true

namespace Session.Continues

variable {P Q : Event → Bool}

theorem refl (s : Session) : s.Continues P s := ⟨[], by simp, by simp⟩

theorem trans {s t u : Session} (h : s.Continues P t) (h' : t.Continues P u) :
    s.Continues P u := by
  obtain ⟨events, hj, hp⟩ := h
  obtain ⟨more, hj', hp'⟩ := h'
  refine ⟨events ++ more, by rw [hj', hj, List.append_assoc], fun e he => ?_⟩
  exact (List.mem_append.mp he).elim (hp e) (hp' e)

theorem mono (hPQ : ∀ e, P e = true → Q e = true) {s t : Session} (h : s.Continues P t) :
    s.Continues Q t := by
  obtain ⟨events, hj, hp⟩ := h
  exact ⟨events, hj, fun e he => hPQ e (hp e he)⟩

theorem note (s : Session) {e : Event} (h : e.change? = none) (hp : P e = true) :
    s.Continues P (s.note e h) := ⟨[e], rfl, by simpa using hp⟩

theorem writeAll (s : Session) {changes : List Change} (h : ∀ c ∈ changes, P (.changed c) = true) :
    s.Continues P (s.writeAll changes) := by
  induction changes generalizing s with
  | nil => exact .refl s
  | cons c changes ih =>
    have hwrite : s.Continues P (s.write c) := ⟨[.changed c], rfl, by simp [h c]⟩
    exact hwrite.trans (ih (s.write c) fun c' hc' => h c' (List.mem_cons_of_mem c hc'))

end Session.Continues

theorem isSetup_of_mem_changes {spec : RootSpec} {c : Change} (h : c ∈ spec.changes) :
    (Event.changed c).isSetup = true := by
  simp only [RootSpec.changes, List.mem_append, Option.mem_toList, Option.map_eq_some_iff,
    List.mem_map] at h
  rcases h with ((⟨_, _, rfl⟩ | ⟨_, _, rfl⟩) | ⟨_, _, rfl⟩) | ⟨_, _, rfl⟩ <;> rfl

theorem isSetup_change (c : Contribution) : (Event.changed c.change).isSetup = true := by
  cases c <;> rfl

/-- The rules of a run write no governed setting. -/
theorem continues_applyRules (s : Session) (rules : List ToolsetRule) (t : Toolset) :
    s.Continues Event.isSetup (s.applyRules rules t) := by
  unfold Session.applyRules
  refine .trans ?_ (.note _ rfl rfl)
  induction firing rules t generalizing s with
  | nil => exact .refl s
  | cons r rules ih =>
    have hfired : s.Continues Event.isSetup (s.note (.ruleFired t r.condition)) :=
      .note s rfl rfl
    refine hfired.trans (.trans (.writeAll _ fun c hc => ?_) (ih _))
    obtain ⟨contribution, -, rfl⟩ := List.mem_map.mp hc
    exact isSetup_change contribution

/-- What comes before the choice of the defaults is set up by the run itself. -/
theorem continues_arrange (s : Session) (spec : RootSpec) (toolset : Toolset) (runDir : Path)
    (source : DefaultsSource) :
    s.Continues Event.isSetup (s.arrange spec toolset runDir source) := by
  have hwrites : s.Continues Event.isSetup (s.writeAll spec.changes) :=
    .writeAll s fun _ hc => isSetup_of_mem_changes hc
  refine (hwrites.trans (continues_applyRules _ spec.allRules toolset)).trans ?_
  cases source with
  | localOverride => exact .note _ rfl rfl
  | builtin => exact .note _ rfl rfl

/-- Reading a root leaves nothing in the session, whatever the root file does. -/
theorem read_session (tree : FileTree) (root : Root) (toolset : Toolset) {layout : Layout} :
    (root.read tree toolset layout).2.2 = Session.start.note (.composing toolset root.runDir) := by
  unfold Root.read
  cases root.source with
  | spec => rfl
  | file path =>
    -- no frame is open, so that every request of the root file is refused
    exact (loadSpec tree path _ _).2.2.performs.eq_of_idle rfl

/-! ## The choice of the defaults and what follows -/

namespace GraphState

variable {μ : Type}

/-- Writes to the global settings in order. -/
def writeAll (s : GraphState μ) (changes : List Change) : GraphState μ :=
  { s with session := s.session.writeAll changes }

theorem change?_modeUnset (path : Path) : (Event.modeUnset path).change? = none := rfl

/-- Notes that an override has left the runtime mode unset. -/
def checkMode (s : GraphState μ) (path : Path) : GraphState μ :=
  if s.session.config.runtimeMode.isNone then s.note (.modeUnset path) (change?_modeUnset path) else s

@[simp] theorem visited_checkMode (s : GraphState μ) (path : Path) :
    (s.checkMode path).visited = s.visited := by
  unfold checkMode
  split <;> rfl

theorem journal_writeAll (s : GraphState μ) (changes : List Change) :
    (s.writeAll changes).session.journal = s.session.journal ++ changes.map .changed := by
  -- each write changes the session, so that the induction is over all of them
  suffices h : ∀ session : Session,
      (session.writeAll changes).journal = session.journal ++ changes.map .changed from h s.session
  induction changes with
  | nil => simp [Session.writeAll]
  | cons c changes ih =>
    intro session
    show ((session.write c).writeAll changes).journal = _
    rw [ih (session.write c), List.map_cons]
    simp [Session.write]

theorem continues_checkMode (s : GraphState μ) (path : Path) :
    s.session.Continues Event.isSetup (s.checkMode path).session := by
  unfold checkMode
  split
  · exact .note _ rfl rfl
  · exact .refl _

end GraphState

/-- The course of a run from the choice of its defaults on: what is evaluated for the override, and
then for the references of the root.  The two lists are the evaluations. -/
inductive Course (g : Graph Script.Memory) (spec : RootSpec) (options : Options)
    (s : GraphState Script.Memory) : DefaultsSource → List Evaluation → List Evaluation →
    Except ComposeError (List ResolvedUnit) → GraphState Script.Memory → Prop
  | builtin {es units t}
      (h : g.Follows [] (.all 1 spec.required) (s.writeAll options.defaults.changes) es (.ok units) t) :
      Course g spec options s .builtin [] es (.ok units) (t.note (.finished units.length))
  | builtinFailed {es e t}
      (h : g.Follows [] (.all 1 spec.required) (s.writeAll options.defaults.changes) es (.error e) t) :
      Course g spec options s .builtin [] es (.error (.graph e)) t
  | override {path es first t fs rest u}
      (h : g.Follows [] (.one .override 1 spec.overrideFile) s es (.ok first) t)
      (h' : g.Follows [] (.all 1 spec.required) (t.checkMode path) fs (.ok rest) u) :
      Course g spec options s (.localOverride path) es fs (.ok (first ++ rest))
        (u.note (.finished (first ++ rest).length))
  | overrideFailed {path es e t}
      (h : g.Follows [] (.one .override 1 spec.overrideFile) s es (.error e) t) :
      Course g spec options s (.localOverride path) es [] (.error (.malformedOverride path e)) t
  | projectsFailed {path es first t fs e u}
      (h : g.Follows [] (.one .override 1 spec.overrideFile) s es (.ok first) t)
      (h' : g.Follows [] (.all 1 spec.required) (t.checkMode path) fs (.error e) u) :
      Course g spec options s (.localOverride path) es fs (.error (.graph e)) u

/-- The units of a run are decided by its course. -/
theorem Course.run_eq {g : Graph Script.Memory} {spec : RootSpec} {options : Options}
    {source : DefaultsSource} {s t : GraphState Script.Memory} {es fs : List Evaluation}
    {outcome : Except ComposeError (List ResolvedUnit)}
    (h : Course g spec options s source es fs outcome t) :
    (composeUnits g spec options source).run s = ending outcome t := by
  have hall : ∀ {u es outcome t}, g.Follows [] (.all 1 spec.required) u es outcome t →
      (g.evaluateAll spec.required).run u = ending outcome t :=
    fun h => Graph.run_eq_of_follows (c := .all spec.required) h
  have hoverride : ∀ {es outcome t},
      g.Follows [] (.one .override 1 spec.overrideFile) s es outcome t →
      (g.evaluateOverride spec.overrideFile).run s = ending outcome t :=
    fun h => Graph.run_eq_of_follows (c := .override spec.overrideFile) h
  simp only [composeUnits, EStateM.run_bind, EStateM.run_adaptExcept]
  cases h with
  | builtin h | builtinFailed h =>
    have hrun := hall h
    simp only [GraphState.writeAll] at hrun
    simp only [applyDefaults, EStateM.run_bind, EStateM.run_modify, EStateM.run_pure, hrun]
    rfl
  | overrideFailed h =>
    simp only [applyDefaults, EStateM.run_bind, EStateM.run_adaptExcept, hoverride h]
    rfl
  | override h h' | projectsFailed h h' =>
    -- the references of the root are followed from the state that the override has left
    have hrun := hall h'
    simp only [GraphState.checkMode, GraphState.note] at hrun
    simp only [applyDefaults, EStateM.run_bind, EStateM.run_adaptExcept, hoverride h, ending,
      EStateM.run_modify, EStateM.run_pure]
    rw [hrun]
    rfl

theorem exists_course (g : Graph Script.Memory) (spec : RootSpec) (options : Options)
    (source : DefaultsSource) (s : GraphState Script.Memory) :
    ∃ es fs outcome t, Course g spec options s source es fs outcome t := by
  cases source with
  | builtin =>
    obtain ⟨es, outcome, t, h, -⟩ :=
      g.call_derives (.all spec.required) (s.writeAll options.defaults.changes)
    cases outcome with
    | error e => exact ⟨_, _, _, _, .builtinFailed h⟩
    | ok units => exact ⟨_, _, _, _, .builtin h⟩
  | localOverride path =>
    obtain ⟨es, outcome, t, h, -⟩ := g.call_derives (.override spec.overrideFile) s
    cases outcome with
    | error e => exact ⟨_, _, _, _, .overrideFailed h⟩
    | ok first =>
      obtain ⟨fs, outcome, u, h', -⟩ := g.call_derives (.all spec.required) (t.checkMode path)
      cases outcome with
      | error e => exact ⟨_, _, _, _, .projectsFailed h h'⟩
      | ok rest => exact ⟨_, _, _, _, .override h h'⟩

/-- A graph looks for a reference where the run directory joined with it leads. -/
theorem resolvePath_graph (tree : FileTree) (root : Root) (options : Options) (reference : String) :
    (root.graph tree options).resolvePath reference = root.runDir.joinText reference := by
  simp only [Graph.resolvePath, Root.graph, Path.joinText]
  split
  · next habsolute => rw [Path.join, if_pos habsolute]
  · rfl

/-- A reference of a run leads to the file at its path as seen from the run directory. -/
theorem leads_graph_iff {tree : FileTree} {root : Root} {options : Options} {reference : String}
    {descriptor : Path} : (root.graph tree options).Leads reference descriptor ↔
      tree.canonicalFile? (root.runDir.joinText reference) = some descriptor := by
  rw [← resolvePath_graph tree root options]
  rfl

/-- The chains of a graph start with the root. -/
theorem chain_graph (tree : FileTree) (root : Root) (options : Options) :
    (root.graph tree options).chain [] = [root.label] := by
  obtain ⟨source, runDir⟩ := root
  cases source <;> rfl

theorem eq_joinText_of_resolve {tree : FileTree} {runDir path : Path} {file : String}
    (h : DefaultsSource.resolve tree runDir file = .localOverride path) :
    path = runDir.joinText file := by
  unfold DefaultsSource.resolve at h
  split at h
  · cases h
    rfl
  · cases h

/-- The state in which a run chooses its defaults. -/
def Root.ready (tree : FileTree) (root : Root) (toolset : Toolset) (spec : RootSpec)
    (layout : Layout := .standard) : GraphState Script.Memory :=
  let (_, memory, session) := root.read tree toolset layout
  ⟨memory, session.arrange spec toolset root.runDir
    (DefaultsSource.resolve tree root.runDir spec.overrideFile), []⟩

/-- Nothing has happened yet but what the run itself has set up. -/
theorem setup_ready (tree : FileTree) (root : Root) (toolset : Toolset) (spec : RootSpec)
    (layout : Layout) :
    ∀ e ∈ (root.ready tree toolset spec layout).session.journal, e.isSetup = true := by
  obtain ⟨events, hj, hp⟩ := continues_arrange (root.read tree toolset layout).2.2 spec toolset root.runDir
    (DefaultsSource.resolve tree root.runDir spec.overrideFile)
  intro e he
  have he : e ∈ (root.read tree toolset layout).2.2.journal ++ events := hj ▸ he
  rw [read_session] at he
  rcases List.mem_append.mp he with he | he
  · rw [List.mem_singleton.mp he]
    rfl
  · exact hp e he

/-- Nothing but plain events has happened yet. -/
theorem journal_ready (tree : FileTree) (root : Root) (toolset : Toolset) (spec : RootSpec)
    (layout : Layout) :
    ∀ e ∈ (root.ready tree toolset spec layout).session.journal, e.isPlain = true :=
  fun e he => Event.isPlain_of_isSetup (setup_ready tree root toolset spec layout e he)

/-- The plan of a run with these units, which ends in a session. -/
def Root.plan (tree : FileTree) (root : Root) (toolset : Toolset) (spec : RootSpec) (config : Config)
    (units : List ResolvedUnit) : Plan :=
  ⟨spec.name, toolset, root.runDir, DefaultsSource.resolve tree root.runDir spec.overrideFile, config,
    units⟩

theorem defaults_plan (tree : FileTree) (root : Root) (toolset : Toolset) (spec : RootSpec)
    (config : Config) (units : List ResolvedUnit) :
    (root.plan tree toolset spec config units).defaults =
      DefaultsSource.resolve tree root.runDir spec.overrideFile := by
  rw [Root.plan]

theorem units_plan (tree : FileTree) (root : Root) (toolset : Toolset) (spec : RootSpec)
    (config : Config) (units : List ResolvedUnit) :
    (root.plan tree toolset spec config units).units = units := rfl

theorem visited_ready (tree : FileTree) (root : Root) (toolset : Toolset) (spec : RootSpec)
    (layout : Layout) :
    (root.ready tree toolset spec layout).visited = [] := rfl

/-- A run whose root can be read ends as its course does. -/
theorem Course.compose_eq {tree : FileTree} {root : Root} {toolset : Toolset} {layout : Layout}
    {spec : RootSpec}
    {options : Options} {es fs : List Evaluation} {outcome : Except ComposeError (List ResolvedUnit)}
    {t : GraphState Script.Memory} (hspec : (root.read tree toolset layout).1 = .ok spec)
    (h : Course (root.graph tree options) spec options (root.ready tree toolset spec layout)
      (DefaultsSource.resolve tree root.runDir spec.overrideFile) es fs outcome t) :
    compose tree root toolset options layout =
      (outcome.map (root.plan tree toolset spec t.session.config), t.session) := by
  have hrun := h.run_eq
  rcases hread : root.read tree toolset layout with ⟨result, memory, session⟩
  rw [hread] at hspec
  simp only at hspec
  subst hspec
  simp only [Root.ready, hread] at hrun
  simp only [compose, composition, hread, hrun]
  cases outcome <;> rfl

/-- Every run whose root can be read has a course. -/
theorem compose_course {tree : FileTree} {root : Root} {toolset : Toolset} {layout : Layout}
    {spec : RootSpec}
    (hspec : (root.read tree toolset layout).1 = .ok spec) (options : Options) :
    ∃ es fs outcome t,
      Course (root.graph tree options) spec options (root.ready tree toolset spec layout)
        (DefaultsSource.resolve tree root.runDir spec.overrideFile) es fs outcome t ∧
      compose tree root toolset options layout =
        (outcome.map (root.plan tree toolset spec t.session.config), t.session) := by
  obtain ⟨es, fs, outcome, t, hcourse⟩ := exists_course (root.graph tree options) spec options
    (DefaultsSource.resolve tree root.runDir spec.overrideFile) (root.ready tree toolset spec layout)
  exact ⟨es, fs, outcome, t, hcourse, hcourse.compose_eq hspec⟩

/-- A run whose root can be read ends as its units do. -/
theorem compose_eq_outcomeOf {tree : FileTree} {root : Root} {toolset : Toolset} {layout : Layout}
    {spec : RootSpec}
    (hspec : (root.read tree toolset layout).1 = .ok spec) (options : Options) :
    (compose tree root toolset options layout).1 =
      outcomeOf (fun units t => root.plan tree toolset spec t.session.config units)
        ((composeUnits (root.graph tree options) spec options
          (DefaultsSource.resolve tree root.runDir spec.overrideFile)).run
            (root.ready tree toolset spec layout)) := by
  obtain ⟨es, fs, outcome, t, hcourse, hrun⟩ := compose_course hspec options
  rw [hrun, hcourse.run_eq]
  cases outcome <;> rfl

/-! ## Runs that give a plan -/

/-- What a run evaluates that gives a plan, and the units of the plan. -/
inductive Yields (g : Graph Script.Memory) (spec : RootSpec) :
    DefaultsSource → List Evaluation → List ResolvedUnit → Prop
  | builtin {s es units t} (hs : s.visited = [])
      (h : g.Completes [] (.all 1 spec.required) s es units t) : Yields g spec .builtin es units
  | override {path s es first t u fs rest v} (hs : s.visited = [])
      (h : g.Completes [] (.one .override 1 spec.overrideFile) s es first t)
      (hu : u.visited = t.visited) (h' : g.Completes [] (.all 1 spec.required) u fs rest v) :
      Yields g spec (.localOverride path) (es ++ fs) (first ++ rest)

theorem Session.Continues.records {s t : Session} {es : List Evaluation}
    (h : s.Continues (fun e => !e.isStart) t) (hs : Records s.journal es) :
    Records t.journal es := by
  obtain ⟨events, hj, hquiet⟩ := h
  rw [hj, ← es.append_nil]
  exact hs.append (.quiet fun e he => by simpa using hquiet e he)

namespace Course

variable {g : Graph Script.Memory} {spec : RootSpec} {options : Options}
  {source : DefaultsSource} {s t : GraphState Script.Memory} {es fs : List Evaluation}

theorem yields {units : List ResolvedUnit} (h : Course g spec options s source es fs (.ok units) t)
    (hs : s.visited = []) : Yields g spec source (es ++ fs) units := by
  cases h with
  | builtin h => exact .builtin (s := s.writeAll options.defaults.changes) hs h.completes
  | override h h' => exact .override hs h.completes (GraphState.visited_checkMode ..) h'.completes

/-- The journal of a run tells of its evaluations. -/
theorem records {outcome : Except ComposeError (List ResolvedUnit)}
    (h : Course g spec options s source es fs outcome t) (hs : Records s.session.journal []) :
    Records t.session.journal (es ++ fs) := by
  have hwritten : Records (s.writeAll options.defaults.changes).session.journal [] :=
    (Session.Continues.writeAll s.session fun _ _ => rfl).records hs
  -- what is noted between the calls and after them starts no descriptor
  have hcheck : ∀ {t : GraphState Script.Memory} {path es}, Records t.session.journal es →
      Records (t.checkMode path).session.journal es := fun ht =>
    ((GraphState.continues_checkMode ..).mono fun e he => by
      simp [Event.isStart_of_isPlain (Event.isPlain_of_isSetup he)]).records ht
  have hfinish : ∀ {u : GraphState Script.Memory} {es} (count : Nat), Records u.session.journal es →
      Records (u.note (.finished count)).session.journal es := fun _ hu =>
    (Session.Continues.note _ rfl rfl).records hu
  cases h with
  | builtin h => exact hfinish _ (h.records hwritten)
  | builtinFailed h => exact h.records hwritten
  | override h h' => exact hfinish _ (h'.records (hcheck (h.records hs)))
  | overrideFailed h =>
    rw [List.append_nil]
    exact h.records hs
  | projectsFailed h h' => exact h'.records (hcheck (h.records hs))

end Course

/-- A run that gives a plan has read its root. -/
theorem exists_spec_of_plan {tree : FileTree} {root : Root} {toolset : Toolset} {layout : Layout}
    {options : Options} {plan : Plan} (h : (compose tree root toolset options layout).1 = .ok plan) :
    ∃ spec, (root.read tree toolset layout).1 = .ok spec := by
  rcases hread : root.read tree toolset layout with ⟨_ | spec, memory, session⟩
  · simp only [compose, composition, hread] at h
    cases h
  · exact ⟨spec, rfl⟩

/-- The references of a root: the file of the override, if the run has one, and the required ones. -/
def RootSpec.references (spec : RootSpec) : DefaultsSource → List String
  | .builtin => spec.required
  | .localOverride _ => spec.overrideFile :: spec.required

/-- A run that gives a plan has a course, whose evaluations are those that its journal tells of. -/
theorem course_of_plan {tree : FileTree} {root : Root} {toolset : Toolset} {layout : Layout}
    {options : Options} {plan : Plan} (h : (compose tree root toolset options layout).1 = .ok plan) :
    ∃ spec es fs t, (root.read tree toolset layout).1 = .ok spec ∧
      Course (root.graph tree options) spec options (root.ready tree toolset spec layout)
        (DefaultsSource.resolve tree root.runDir spec.overrideFile) es fs (.ok plan.units) t ∧
      plan = root.plan tree toolset spec t.session.config plan.units ∧
      evaluations (compose tree root toolset options layout).2.journal = es ++ fs := by
  obtain ⟨spec, hspec⟩ := exists_spec_of_plan h
  obtain ⟨es, fs, outcome, t, hcourse, hrun⟩ := compose_course hspec options
  have hquiet : Records (root.ready tree toolset spec layout).session.journal [] :=
    .quiet fun e he => Event.isStart_of_isPlain (journal_ready tree root toolset spec layout e he)
  rw [hrun] at h ⊢
  cases outcome with
  | error e => cases h
  | ok units =>
    have hplan : root.plan tree toolset spec t.session.config units = plan := Except.ok.inj h
    rw [← hplan, units_plan]
    exact ⟨spec, es, fs, t, hspec, hcourse, rfl, (hcourse.records hquiet).evaluations_eq⟩

/-- What a run that gives a plan has evaluated, and the units of the plan. -/
theorem yields_of_plan {tree : FileTree} {root : Root} {toolset : Toolset} {layout : Layout}
    {options : Options} {plan : Plan} (h : (compose tree root toolset options layout).1 = .ok plan) :
    ∃ spec, (root.read tree toolset layout).1 = .ok spec ∧
      plan.defaults = DefaultsSource.resolve tree root.runDir spec.overrideFile ∧
      Yields (root.graph tree options) spec plan.defaults
        (evaluations (compose tree root toolset options layout).2.journal) plan.units := by
  obtain ⟨spec, es, fs, t, hspec, hcourse, hplan, hes⟩ := course_of_plan h
  have hdefaults : plan.defaults = DefaultsSource.resolve tree root.runDir spec.overrideFile := by
    rw [hplan, defaults_plan]
  rw [hdefaults, hes]
  exact ⟨spec, hspec, rfl, hcourse.yields (visited_ready ..)⟩

/-- The calls of a run that gives a plan are one series. -/
theorem Yields.series {g : Graph Script.Memory} {spec : RootSpec} {source : DefaultsSource}
    {es : List Evaluation} {units : List ResolvedUnit} (h : Yields g spec source es units) :
    ∃ visited, g.Series (spec.references source) es units visited := by
  cases h with
  | builtin hs h => exact ⟨_, .call (c := .all spec.required) .nil hs h⟩
  | override hs h hu h' =>
    have hfirst := Graph.Series.call (c := .override spec.overrideFile) .nil hs h
    exact ⟨_, .call (c := .all spec.required) hfirst hu h'⟩

/-- A root at the top of a tree. -/
def topRoot (spec : RootSpec) : Root := ⟨.spec spec, ⟨['/']⟩⟩

theorem exists_ok_of_toOption_map {ε α β : Type} {x : Except ε α} {f : α → β} {b : β}
    (h : x.toOption.map f = some b) : ∃ a, x = .ok a ∧ f a = b := by
  cases x with
  | error e => cases h
  | ok a => exact ⟨a, rfl, Option.some.inj h⟩

end BuildComposition
