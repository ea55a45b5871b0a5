import BuildComposition.Script.Assembly.Term
import BuildComposition.Script.Execution
import BuildComposition.Script.Grammar

/-!
# The interpreter

The variables that every script finds, and the evaluation of whole sources and files.

## Main definitions

* `Memory.initial`, `Memory.withProject`: memory before the first script
* `compile?`: the code of a source
* `evaluateSource`, `evaluateFile`: the value of a source
* `callProject`: a call of a function of the table `prj`
-/

namespace BuildComposition.Script

/-! ## Memory before the first script -/

namespace Memory

/-- A table of library functions under their names. -/
def functionTable (functions : List Builtin) : Table :=
  .ofFields (functions.map fun b => (b.name, .builtin b))

/-- The number of the table of table functions. -/
def lists : Nat := 3

/-- The number of the table of mathematical values. -/
def mathematics : Nat := 4

/-- The table of global variables. -/
def globalTable : Table :=
  .ofFields <|
    [("_G", .table globals), ("_VERSION", .ofString "Lua 5.4"), ("string", .table strings),
      ("table", .table lists), ("math", .table mathematics)] ++
    [Builtin.type, .tostring, .tonumber, .ipairs, .select, .error, .pcall, .assert, .setmetatable,
      .getmetatable, .rawget, .print].map fun b => (b.name, .builtin b)

/-- Memory with the library. -/
def initial : Memory :=
  { Memory.empty with
    tables := #[globalTable, functionTable [.format, .rep, .sub, .upper],
      .ofFields [("__index", .table strings)],
      functionTable [.concat, .insert, .remove, .sort, .unpack],
      .ofFields [("maxinteger", .int Int64.maxValue)]] }

/-- Memory with the library and the table `prj` of a run. -/
def withProject (toolset : Toolset) (runDir : Path) : Memory :=
  let (toolsetId, m) := initial.newTable (.ofFields [("name", .ofString toolset.name)])
  let (id, m) := m.newTable <| .ofFields <|
    [("toolset", .table toolsetId), ("run_dir", .ofString runDir.text)] ++
      Operation.all.map fun o => (o.name, .builtin (.request o))
  m.rawSet globals (.ofString "prj") (.table id)

end Memory

/-! ## Sources and files -/

/-- The number of octets of a source name that positions show. -/
def shownOctets : Nat := 59

/-- The name of a source as positions show it: a long one is cut at its beginning. -/
def shownName (name : String) : Bytes :=
  let s := bytes name
  if s.length ≤ shownOctets then s
  else bytes "..." ++ s.drop (s.length - (shownOctets - 3))

/-- The code of a text. -/
def assemble? (source : String) : Option Code := do (← parse? source).assemble?

/-- The code of a source: that of an expression if it can be one, and of statements otherwise. -/
def compile? (source : String) : Option Code :=
  (assemble? ("return " ++ source)).or (assemble? source)

/-- From where the composition calls functions: a function of its own stands below them. -/
def outside : Caller := ⟨.none, 2⟩

section

variable {σ : Type}

/-- The value of a source in an environment, with a way to call functions. -/
def sourceValue (invoke : Invoke σ) (source : String) (name : Bytes) (environment : Nat) :
    Run σ Value := do
  match compile? source with
  | none => fail .malformed
  | some code =>
    let cell ← allocate (·.newCell (.apart (.table environment)))
    let id ← allocate (·.newClosure ⟨code, #[cell], name⟩)
    return first (← invoke (.closure id) [] outside)

/-- An environment for a file in a directory.  It knows the directory, and falls back on the global
variables. -/
def newEnvironment (dir : Path) : Run σ Nat := do
  let mt ← allocate (·.newTable (.ofFields [("__index", .table Memory.globals)]))
  allocate (·.newTable { Table.ofFields [("__dir", .ofString dir.text)] with metatable := some mt })

/-- The value of a file, which runs in an environment of its own, with a way to call functions. -/
def fileValue (invoke : Invoke σ) (tree : FileTree) (path : Path) : Run σ Value := do
  match tree.canonicalize path with
  | .error e => fail (.unresolved path e)
  | .ok canonical =>
    match tree.readText canonical with
    | .error e => fail (.unreadable canonical e)
    | .ok source =>
      sourceValue invoke source (shownName canonical.text) (← newEnvironment canonical.parent)

variable [Host σ]

/-- The value of a source in an environment. -/
def evaluateSource (source : String) (name : Bytes) (environment : Nat) : Run σ Value :=
  sourceValue invoke source name environment

/-- The value of a file. -/
def evaluateFile (tree : FileTree) (path : Path) : Run σ Value := fileValue invoke tree path

/-- Calls a function of the table `prj`, as it is found among the global variables, and gives its first
result. -/
def callProject (name : String) (args : List Value) : Run σ Value := do
  match ← fieldOf invoke outside Memory.globals "prj" with
  | .table id =>
    match ← fieldOf invoke outside id name with
    | .closure f => return first (← invoke (.closure f) args outside)
    | .builtin b => return first (← invoke (.builtin b) args outside)
    | v => fail (.conversion (.notFunction v.kind))
  | v => fail (.conversion (.notTable v.kind))

end

end BuildComposition.Script
