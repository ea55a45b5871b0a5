import BuildComposition.Graph
import BuildComposition.Plan
import BuildComposition.RootSpec

/-!
# Composition

A run composes the declarations of a root and of all projects that it requires into a plan: the
root's own settings come first, then its rules, then the source of defaults (built-in values, or an
override that is evaluated like a project), and last the required projects in order.

## Main definitions

* `Root`: a root file or a specification, with its run directory
* `ComposeError`, `ComposeError.message`, `ComposeError.causes`: why there is no plan
* `Options`: the choices of a run
* `Root.read`, `Root.graph`: the specification of a root, and the graph that a run follows
* `Session.countRules`, `Session.applyRules`: rules in a loop with a counter, and all at once
* `composition`, `compose`: the outcome of a run, with all that it leaves or with its session alone
-/

namespace BuildComposition

/-- Why a root cannot be used. -/
inductive RootError where
  | notFound (path : Path)
  | runDirNotFound (path : Path)
  /-- The root file failed. -/
  | script (path : Path) (cause : ScriptError)
  | notTable (path : Path)
  | invalidField (path : Path) (fault : FieldFault)
  deriving DecidableEq, Repr

/-- The wording of a root error. -/
def RootError.message : RootError → String
  | notFound p => s!"root descriptor not found: {p.text}"
  | runDirNotFound p => s!"run directory not found: {p.text}"
  | script p _ => s!"failed to evaluate root descriptor {p.text}"
  | notTable p => s!"root descriptor {p.text} must return a table"
  | invalidField p f => s!"root descriptor {p.text}: field '{f.field}' {f.problem.message}"

/-- Why there is no plan. -/
inductive ComposeError where
  | root (e : RootError)
  | graph (e : GraphError)
  /-- The override failed, or something that it requires. -/
  | malformedOverride (path : Path) (cause : GraphError)
  deriving DecidableEq, Repr

/-- The wording of an error. -/
def ComposeError.message : ComposeError → String
  | root e => e.message
  | graph e => e.message
  | malformedOverride p _ => s!"local override descriptor {p.text} failed"

/-- Where a root comes from. -/
inductive RootSource where
  /-- The root file at a canonical path. -/
  | file (path : Path)
  | spec (spec : RootSpec)
  deriving DecidableEq, Repr

/-- A root and the directory that it runs in. -/
structure Root where
  source : RootSource
  runDir : Path
  deriving DecidableEq, Repr

namespace Root

/-- The root in a file, which runs in the directory of that file. -/
def ofFile (tree : FileTree) (path : Path) : Except RootError Root :=
  match tree.canonicalFile? path with
  | some file => .ok ⟨.file file, file.parent⟩
  | none => .error (.notFound path)

/-- A specification that runs in a directory. -/
def ofSpec (tree : FileTree) (spec : RootSpec) (runDir : Path) : Except RootError Root :=
  match tree.canonicalize runDir with
  | .ok dir => if tree.isDirectory dir then .ok ⟨.spec spec, dir⟩ else .error (.runDirNotFound runDir)
  | .error _ => .error (.runDirNotFound runDir)

/-- The reference that stands for the root in chains. -/
def label (r : Root) : String :=
  match r.source with
  | .file path => path.fileName?.getD path.text
  | .spec _ => "<root>"

/-- What may not be required: the root file, or the run directory, which no reference leads to. -/
def link (r : Root) : Link :=
  match r.source with
  | .file path => ⟨r.label, path⟩
  | .spec _ => ⟨r.label, r.runDir⟩

end Root

/-- The choices of a run. -/
structure Options where
  maxDepth : Nat
  defaults : BuiltinDefaults
  deriving DecidableEq, Repr

/-- The choices unless a run is given others. -/
def Options.standard : Options := ⟨64, .standard⟩

/-- Descriptors that are scripts in a file tree.  Of the session they see the frame alone. -/
def scriptEvaluator (tree : FileTree) : Evaluator Script.Memory where
  find? := tree.canonicalFile?
  run path memory session :=
    let (result, memory, performed) := Script.Machine.run memory
      (Performed.start (.blank session.frame)) (Script.evaluateFile tree path)
    (result.map fun _ => (), memory, performed.onto session)

/-- The specification that the value of a root file is, if it is a table. -/
def evaluateRoot {σ : Type} (invoke : Script.Invoke σ) (tree : FileTree) (path : Path) :
    Script.Run σ (Option (Except FieldFault RootSpec)) := do
  match ← Script.fileValue invoke tree path with
  | .table id => some <$> (RootSpec.readTable invoke id).run
  | _ => return none

/-- The specification that a root file gives. -/
def loadSpec (tree : FileTree) (path : Path) (memory : Script.Memory) (session : Session) :
    Except RootError RootSpec × Script.Memory × Performed session :=
  let (result, memory, performed) := Script.Machine.run memory (Performed.start session)
    (evaluateRoot Script.invoke tree path)
  let spec := match result with
    | .error e => .error (.script path e)
    | .ok none => .error (.notTable path)
    | .ok (some (.error fault)) => .error (.invalidField path fault)
    | .ok (some (.ok spec)) => .ok spec
  (spec, memory, performed)

/-- Where the tables and functions of a run lie: those that are there before the first descriptor, and those
that descriptors make, from the first one on.  It is nothing that the run decides, but scripts see it where they
turn a table or a function into text. -/
structure Layout where
  early : Script.Addresses
  late : Script.Places

/-- One address after another. -/
def Layout.standard : Layout := ⟨Script.Memory.empty.addresses, .from 0x10000000⟩

/-- The specification of a root, and the memory and the session that reading it leaves.  Descriptors run in the
same memory as the root file, with all that the file has made in it. -/
def Root.read (tree : FileTree) (root : Root) (toolset : Toolset) (layout : Layout := .standard) :
    Except RootError RootSpec × Script.Memory × Session :=
  let session := Session.start.note (.composing toolset root.runDir)
  let memory := (Script.Memory.withProject toolset root.runDir).withAddresses layout.early
  match root.source with
  | .file path =>
    let (spec, left, performed) := loadSpec tree path memory session
    (spec, left.settle layout.late, performed.session)
  | .spec spec => (.ok spec, memory.settle layout.late, session)

/-- The graph of a run, in which nothing may require the root. -/
def Root.graph (tree : FileTree) (root : Root) (options : Options) : Graph Script.Memory :=
  ⟨scriptEvaluator tree, root.runDir, options.maxDepth, some root.link⟩

namespace Session

/-- Makes a contribution and counts it. -/
def countContribution (made : Nat × Session) (c : Contribution) : Nat × Session :=
  (made.1 + 1, made.2.write c.change)

/-- Notes that a rule is applied. -/
def noteFired (s : Session) (t : Toolset) (condition : ToolsetPredicate) : Session :=
  s.note (.ruleFired t condition)

/-- Applies a rule, if it is one for the toolset, and counts its contributions. -/
def countRule (t : Toolset) (made : Nat × Session) (r : ToolsetRule) : Nat × Session :=
  if r.condition.holds t then
    r.contributions.foldl countContribution (made.1, made.2.noteFired t r.condition)
  else made

/-- Applies rules in a loop, and counts the contributions that they make. -/
def countRules (s : Session) (rules : List ToolsetRule) (t : Toolset) : Nat × Session :=
  rules.foldl (countRule t) (0, s)

/-- Applies the rules that fire for a toolset, and notes how many contributions they have made. -/
def applyRules (s : Session) (rules : List ToolsetRule) (t : Toolset) : Session :=
  let fired := (firing rules t).foldl
    (fun s r => (s.note (.ruleFired t r.condition)).writeAll (r.contributions.map (·.change))) s
  fired.note (.rulesApplied (contributed rules t).length)

end Session

/-- Notes where the governed settings come from. -/
def Session.noteDefaults (s : Session) (source : DefaultsSource) (candidate : Path) : Session :=
  match source with
  | .localOverride _ => s.note (.overrideFound candidate)
  | .builtin => s.note (.noOverride candidate)

/-- The settings of the defaults: those of the override with the units that it leads to, or the
built-in ones. -/
def applyDefaults {μ : Type} (g : Graph μ) (spec : RootSpec) (options : Options)
    (source : DefaultsSource) : EStateM ComposeError (GraphState μ) (List ResolvedUnit) :=
  match source with
  | .builtin => do
    modify fun s => { s with session := s.session.writeAll options.defaults.changes }
    return []
  | .localOverride path => do
    let units ← (g.evaluateOverride spec.overrideFile).adaptExcept (.malformedOverride path)
    modify fun s =>
      if s.session.config.runtimeMode.isNone then
        { s with session := s.session.note (.modeUnset path) }
      else s
    return units

/-- The units of a run: those that the override leads to come before those of the root. -/
def composeUnits {μ : Type} (g : Graph μ) (spec : RootSpec) (options : Options)
    (source : DefaultsSource) : EStateM ComposeError (GraphState μ) (List ResolvedUnit) := do
  let first ← applyDefaults g spec options source
  let rest ← (g.evaluateAll spec.required).adaptExcept .graph
  modify fun s => { s with session := s.session.note (.finished (first ++ rest).length) }
  return first ++ rest

/-- The session of a run that has its specification, up to the choice of the defaults: the root's own
settings come first, then its rules. -/
def Session.arrange (s : Session) (spec : RootSpec) (toolset : Toolset) (runDir : Path)
    (source : DefaultsSource) : Session :=
  ((s.writeAll spec.changes).applyRules spec.allRules toolset).noteDefaults source
    (DefaultsSource.candidate runDir spec.overrideFile)

/-- The outcome of a run, and the memory and the session that it leaves. -/
def composition (tree : FileTree) (root : Root) (toolset : Toolset) (options : Options)
    (layout : Layout := .standard) : Except ComposeError Plan × Script.Memory × Session :=
  match root.read tree toolset layout with
  | (.error e, memory, session) => (.error (.root e), memory, session)
  | (.ok spec, memory, session) =>
    let source := DefaultsSource.resolve tree root.runDir spec.overrideFile
    let start := session.arrange spec toolset root.runDir source
    match (composeUnits (root.graph tree options) spec options source).run ⟨memory, start, []⟩ with
    | .error e s => (.error e, s.memory, s.session)
    | .ok units s =>
      (.ok ⟨spec.name, toolset, root.runDir, source, s.session.config, units⟩, s.memory, s.session)

/-- The outcome of a run and the session that it leaves. -/
def compose (tree : FileTree) (root : Root) (toolset : Toolset) (options : Options)
    (layout : Layout := .standard) : Except ComposeError Plan × Session :=
  let (result, _, session) := composition tree root toolset options layout
  (result, session)

end BuildComposition
