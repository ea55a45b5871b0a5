import BuildComposition.Proofs.Compose.EvaluatedDescriptors
import BuildComposition.Proofs.Compose.UnitDeclarations
import BuildComposition.Proofs.Config.Histories
import BuildComposition.Proofs.Script.ProjectCalls
import BuildComposition.Proofs.Session.Writes

/-!
# The order of the settings

The settings of a plan have three origins, which follow one another: what the root declares, what the
rules contribute that fire, and what descriptors request while they run.  Descriptors come in the order
in which they were evaluated, so that all requests of one that requires others come before theirs, and
each descriptor has its requests in the order in which it made them.  Nothing else writes to the lists.

## Main definitions

* `Evaluation.writes`: the writes of the requests of a descriptor
* `ListSetting.declared`, `ListSetting.contributed?`, `ListSetting.requested?`: what the three origins give
  to a list
* `ComposedInOrder`: the lists and the standard hold the contributions in order

## Main results

* `Graph.Follows.config_eq`: the settings along a traversal
* `config_of_plan`: the settings of a plan as writes in order
-/

namespace BuildComposition

/-- The writes that the requests of the descriptor have made, in order. -/
def Evaluation.writes (e : Evaluation) : List Change := e.requests.filterMap Request.write?

/-! ## The settings along a traversal -/

namespace GraphState

variable {μ : Type}

@[simp] theorem config_descend (s : GraphState μ) (reference : String) (queue : List String) :
    (s.descend reference queue).session.config = s.session.config := by
  unfold descend
  split <;> rfl

@[simp] theorem config_writeAll (s : GraphState μ) (changes : List Change) :
    (s.writeAll changes).session.config = s.session.config.applyAll changes :=
  Session.config_writeAll ..

@[simp] theorem config_checkMode (s : GraphState μ) (path : Path) :
    (s.checkMode path).session.config = s.session.config := by
  unfold checkMode
  split <;> rfl

end GraphState

namespace Graph

variable {μ : Type} {g : Graph μ}

/-- What a descriptor writes are the writes of its requests. -/
theorem Enters.config_eq {kind : DescriptorKind} {depth : Nat} {link : Link} {s t : GraphState μ}
    {requests : List Request} {result : Except ScriptError Frame}
    (h : g.Enters kind depth link s requests result t) :
    t.session.config = s.session.config.applyAll (link.evaluation depth kind requests).writes := by
  obtain ⟨_, performed, chunk, rfl, hperforms, hj, rfl, hsession, -⟩ := h.exists_performs
  rw [hsession, Session.config_closeFrame, hperforms.config_eq hj]
  rfl

/-- The settings along a traversal are changed by the writes of the descriptors in the order in which
they were evaluated. -/
theorem Follows.config_eq {below : List Link} {task : Task} {s t : GraphState μ}
    {es : List Evaluation} {outcome : Except GraphError (List ResolvedUnit)}
    (h : g.Follows below task s es outcome t) :
    t.session.config = s.session.config.applyAll (es.flatMap Evaluation.writes) := by
  induction h with
  | refused | skipped | nil => rfl
  | failed _ _ hr => simp [hr.config_eq]
  | evaluated _ _ hr _ ih =>
    -- all that the descriptor has written comes before what is below it
    rw [ih, GraphState.config_descend, hr.config_eq, List.flatMap_cons, Config.applyAll_append]
  | cons _ _ ih ih' => rw [ih', ih, List.flatMap_append, Config.applyAll_append]
  | stop _ ih => exact ih

end Graph

/-! ## The settings of a plan -/

/-- The writes of a source of defaults itself. -/
def DefaultsSource.changes (defaults : BuiltinDefaults) : DefaultsSource → List Change
  | .builtin => defaults.changes
  | .localOverride _ => []

theorem Course.config_eq {g : Graph Script.Memory} {spec : RootSpec} {options : Options}
    {source : DefaultsSource} {s t : GraphState Script.Memory} {es fs : List Evaluation}
    {units : List ResolvedUnit} (h : Course g spec options s source es fs (.ok units) t) :
    t.session.config = s.session.config.applyAll
      (source.changes options.defaults ++ (es ++ fs).flatMap Evaluation.writes) := by
  cases h with
  | @builtin _ _ t h =>
    show t.session.config = _
    rw [h.config_eq, GraphState.config_writeAll, Config.applyAll_append]
    rfl
  | @override _ _ _ _ _ _ u h h' =>
    show u.session.config = _
    rw [h'.config_eq, GraphState.config_checkMode, h.config_eq, List.flatMap_append,
      Config.applyAll_append, Config.applyAll_append]
    rfl

theorem config_foldl_fired (rules : List ToolsetRule) (t : Toolset) (s : Session) :
    (rules.foldl (fun s r =>
      (s.note (.ruleFired t r.condition)).writeAll (r.contributions.map (·.change))) s).config =
      s.config.applyAll ((rules.flatMap (·.contributions)).map (·.change)) := by
  induction rules generalizing s with
  | nil => rfl
  | cons r rules ih =>
    rw [List.foldl_cons, ih, Session.config_writeAll, List.flatMap_cons, List.map_append,
      Config.applyAll_append]
    rfl

/-- The settings before the choice of the defaults are those of the root and its rules. -/
theorem config_arrange (s : Session) (spec : RootSpec) (toolset : Toolset) (runDir : Path)
    (source : DefaultsSource) :
    (s.arrange spec toolset runDir source).config =
      s.config.applyAll (spec.changes ++ (contributed spec.allRules toolset).map (·.change)) := by
  have hrules : ∀ s : Session, (s.applyRules spec.allRules toolset).config =
      s.config.applyAll ((contributed spec.allRules toolset).map (·.change)) :=
    config_foldl_fired _ toolset
  have hnoted : (s.arrange spec toolset runDir source).config =
      ((s.writeAll spec.changes).applyRules spec.allRules toolset).config := by
    cases source <;> rfl
  rw [hnoted, hrules, Session.config_writeAll, Config.applyAll_append]

/-- The settings of a plan are what the root, its rules, the defaults and the descriptors have written,
in this order. -/
theorem config_of_plan {tree : FileTree} {root : Root} {toolset : Toolset} {layout : Layout}
    {options : Options} {plan : Plan} (h : (compose tree root toolset options layout).1 = .ok plan) :
    ∃ spec, (root.read tree toolset layout).1 = .ok spec ∧
      plan.config = Config.empty.applyAll (spec.changes ++
        (contributed spec.allRules toolset).map (·.change) ++
        (plan.defaults.changes options.defaults ++
          (evaluations (compose tree root toolset options layout).2.journal).flatMap Evaluation.writes)) := by
  obtain ⟨spec, es, fs, t, hspec, hcourse, hplan, hes⟩ := course_of_plan h
  refine ⟨spec, hspec, ?_⟩
  have hready : (root.ready tree toolset spec layout).session.config = Config.empty.applyAll
      (spec.changes ++ (contributed spec.allRules toolset).map (·.change)) := by
    rw [Root.ready, config_arrange, read_session]
    rfl
  rw [hes, Config.applyAll_append, ← hready]
  rw [hplan, defaults_plan]
  exact hcourse.config_eq

/-! ## The three origins -/

/-- What a root declares for a list. -/
def ListSetting.declared (spec : RootSpec) : ListSetting → List String
  | includePaths => spec.includePaths
  | compilerOptions => spec.compilerOptions
  | linkerOptions => spec.linkerOptions
  | defines => []

/-- What a contribution of a rule adds to a list. -/
def ListSetting.contributed? : ListSetting → Contribution → Option String
  | includePaths, .includePath p => some p
  | compilerOptions, .compilerOption o => some o
  | linkerOptions, .linkerOption o => some o
  | _, _ => none

/-- What a request of a descriptor adds to a list. -/
def ListSetting.requested? : ListSetting → Request → Option String
  | includePaths, .globalIncludePath p => some p
  | compilerOptions, .globalCompilerOption o => some o
  | linkerOptions, .globalLinkerOption o => some o
  | defines, .globalDefine name value => some (defineText name value)
  | _, _ => none

/-- The standard that a request of a descriptor sets. -/
def Request.cppStd? : Request → Option String
  | .cppStd s => some s
  | _ => none

/-- The lists of the settings hold what the root declares, what the rules contribute that fire, and what
the descriptors have requested, in this order and with nothing else.  The standard is the last one in the
same order. -/
structure ComposedInOrder (spec : RootSpec) (toolset : Toolset) (es : List Evaluation)
    (config : Config) : Prop where
  values_eq : ∀ setting : ListSetting, setting.values config =
    setting.declared spec ++
    (firing ((if spec.builtinRules then builtinRules else []) ++ spec.rules) toolset).flatMap
      (·.contributions.filterMap setting.contributed?) ++
    es.flatMap (·.requests.filterMap setting.requested?)
  cppStd_eq : config.cppStd =
    (spec.cppStd.toList ++ es.flatMap (·.requests.filterMap Request.cppStd?)).getLast?

namespace ListSetting

variable (setting : ListSetting)

theorem filterMap_value?_changes (spec : RootSpec) :
    spec.changes.filterMap setting.value? = setting.declared spec := by
  cases setting <;> cases hstd : spec.cppStd <;>
    simp [RootSpec.changes, value?, declared, hstd, List.filterMap_cons, List.filterMap_map,
      Function.comp_def]

theorem filterMap_value?_contributions (contributions : List Contribution) :
    (contributions.map (·.change)).filterMap setting.value? =
      contributions.filterMap setting.contributed? := by
  rw [List.filterMap_map]
  congr 1
  funext c
  cases setting <;> cases c <;> rfl

/-- Defaults write to no list. -/
theorem filterMap_value?_defaults (defaults : BuiltinDefaults) (source : DefaultsSource) :
    (source.changes defaults).filterMap setting.value? = [] := by
  cases setting <;> cases source <;> rfl

theorem bind_write? (r : Request) : r.write?.bind setting.value? = setting.requested? r := by
  cases r with
  | runtimeMode name =>
    cases setting <;> cases h : RuntimeMode.ofName? name <;>
      simp [Request.write?, h, value?, requested?]
  | _ => cases setting <;> rfl

end ListSetting

theorem bind_write?_cppStd? (r : Request) : r.write?.bind Change.cppStd? = r.cppStd? := by
  cases r with
  | runtimeMode name =>
    cases h : RuntimeMode.ofName? name <;>
      simp [Request.write?, h, Change.cppStd?, Request.cppStd?]
  | _ => rfl

/-- What the writes of descriptors are to a part of the settings, their requests are to it. -/
theorem filterMap_flatMap_writes {f : Change → Option String} {h : Request → Option String}
    (hfh : ∀ r : Request, r.write?.bind f = h r) (es : List Evaluation) :
    (es.flatMap Evaluation.writes).filterMap f = es.flatMap (·.requests.filterMap h) := by
  rw [List.filterMap_flatMap]
  congr 1
  funext e
  rw [Evaluation.writes, List.filterMap_filterMap]
  congr 1
  funext r
  exact hfh r

theorem filterMap_cppStd?_changes (spec : RootSpec) :
    spec.changes.filterMap Change.cppStd? = spec.cppStd.toList := by
  cases hstd : spec.cppStd <;>
    simp [RootSpec.changes, Change.cppStd?, hstd, List.filterMap_map, Function.comp_def]

/-- Neither rules nor defaults set the standard. -/
theorem filterMap_cppStd?_eq_nil (contributions : List Contribution) (defaults : BuiltinDefaults)
    (source : DefaultsSource) :
    (contributions.map (·.change)).filterMap Change.cppStd? = [] ∧
      (source.changes defaults).filterMap Change.cppStd? = [] := by
  constructor
  · rw [List.filterMap_map, List.filterMap_eq_nil_iff]
    intro c _
    cases c <;> rfl
  · cases source <;> rfl

theorem composedInOrder_applyAll (spec : RootSpec) (toolset : Toolset) (defaults : BuiltinDefaults)
    (source : DefaultsSource) (es : List Evaluation) :
    ComposedInOrder spec toolset es (Config.empty.applyAll (spec.changes ++
      (contributed spec.allRules toolset).map (·.change) ++
      (source.changes defaults ++ es.flatMap Evaluation.writes))) where
  values_eq setting := by
    rw [ListSetting.values_applyAll, ListSetting.values_empty, List.nil_append,
      List.filterMap_append, List.filterMap_append, List.filterMap_append,
      setting.filterMap_value?_changes, setting.filterMap_value?_contributions,
      setting.filterMap_value?_defaults, List.nil_append,
      filterMap_flatMap_writes setting.bind_write?, contributed, List.filterMap_flatMap]
    rfl
  cppStd_eq := by
    obtain ⟨hrules, hdefaults⟩ :=
      filterMap_cppStd?_eq_nil (contributed spec.allRules toolset) defaults source
    rw [cppStd_applyAll, List.filterMap_append, List.filterMap_append, List.filterMap_append,
      filterMap_cppStd?_changes, hrules, hdefaults, filterMap_flatMap_writes bind_write?_cppStd?,
      List.append_nil, List.nil_append]
    exact Option.or_none

/-- A tree with an override that makes a definition, and with `a`, which requires `b` before it adds an
include path; `b` adds the same one again. -/
def contributingTree : FileTree :=
  ((FileTree.empty.putEntry [standardOverride.toList]
    (.file (Utf8.encode "prj.global_define(\"N\", 1) prj.cpp_std(\"c++17\")"))).putEntry
    [['a']] (.file (Utf8.encode "prj.required(\"b\") prj.global_include_path(\"p\")"))).putEntry
    [['b']] (.file (Utf8.encode "prj.global_include_path(\"q\") prj.global_include_path(\"p\")"))

/-- A root that requires `a`, and whose declarations and rule add an include path each. -/
def contributingRoot : RootSpec :=
  { RootSpec.empty with
    cppStd := some "c++20", includePaths := ["r"], builtinRules := false,
    rules := [⟨⟨["gcc"]⟩, [.includePath "s"]⟩, ⟨⟨["clang"]⟩, [.includePath "t"]⟩], required := ["a"] }

end BuildComposition
