import BuildComposition.Script.Interpreter

/-!
# Root specifications

What a root descriptor declares: the settings of the root itself, its rules, where an override is
looked for, and the projects that it requires.  A specification is read from a table, field by field
in a fixed order; the first field that is wrong is reported.

## Main definitions

* `RootSpec`: the declarations
* `FieldFault`: a wrong field and what is wrong with it
* `RootSpec.ofTable`: the specification that a table is
-/

namespace BuildComposition

/-- The name of the override file unless a root gives another one. -/
def standardOverride : String := "local-build.lua"

/-- What a root declares. -/
structure RootSpec where
  name : Option String
  cppStd : Option String
  includePaths : List String
  compilerOptions : List String
  linkerOptions : List String
  /-- The built-in rules come before the root's own. -/
  builtinRules : Bool
  rules : List ToolsetRule
  /-- The override file, relative to the run directory. -/
  overrideFile : String
  required : List String
  deriving DecidableEq, Repr

namespace RootSpec

/-- A root that declares nothing. -/
def empty : RootSpec := ⟨none, none, [], [], [], true, [], standardOverride, []⟩

/-- The rules of a run, the built-in ones first. -/
def allRules (s : RootSpec) : List ToolsetRule :=
  (if s.builtinRules then BuildComposition.builtinRules else []) ++ s.rules

/-- The writes of the root's own settings, in order. -/
def changes (s : RootSpec) : List Change :=
  (s.cppStd.map Change.cppStd).toList ++ s.includePaths.map .includePath ++
    s.compilerOptions.map .compilerOption ++ s.linkerOptions.map .linkerOption

/-- The names of the fields. -/
def fields : List String :=
  ["name", "cpp_std", "include_paths", "compiler_options", "linker_options", "builtin_rules", "rules",
    "override", "required"]

end RootSpec

/-- What is wrong with a field of a root. -/
inductive FieldProblem where
  | notName
  | unrecognised
  | notString
  | notStrings
  | notRules
  | noToolsets
  | notBoolean
  deriving DecidableEq, Repr

/-- The wording of a problem, to be read behind the name of the field. -/
def FieldProblem.message : FieldProblem → String
  | notName => "is not a valid field name"
  | unrecognised => "is not a recognised root field"
  | notString => "must be a string"
  | notStrings => "must be an array of strings"
  | notRules => "must be an array of rule tables"
  | noToolsets => "each rule needs a non-empty 'toolsets' list"
  | notBoolean => "must be a boolean"

/-- A wrong field and what is wrong with it. -/
structure FieldFault where
  field : String
  problem : FieldProblem
  deriving DecidableEq, Repr

namespace Script

/-- The text of a key that is no string. -/
def Key.text (a : Addresses) : Key → String
  | .bool b => s!"Boolean({b})"
  | .int n => s!"Integer({n.toInt})"
  | .float bits => s!"Number({Decimal.positional (Float.ofBits bits)})"
  | .str s => Utf8.lossy s
  | .table id => s!"Table(Ref({addressText (a.table id)}))"
  | .closure id => s!"Function(Ref({addressText (a.closure id)}))"
  | .builtin b => s!"Function(Ref({addressText (a.builtin b)}))"
  | .failure _ => "Error"

/-- What is wrong with a key of a root table. -/
def Key.fault? (a : Addresses) (k : Key) : Option FieldFault :=
  match k with
  | .str s =>
    if RootSpec.fields.contains (Utf8.lossy s) then none else some ⟨Utf8.lossy s, .unrecognised⟩
  | k => some ⟨k.text a, .notName⟩

/-- The text of a string; nothing for another value. -/
def lossyText? : Value → Option String
  | .str s => some (Utf8.lossy s)
  | _ => none

end Script

namespace RootSpec

open Script

section

variable {σ : Type}

/-- Reading that stops at the first wrong field. -/
abbrev Reading (σ : Type) := ExceptT FieldFault (Run σ)

/-- Stops at a field. -/
def stop {α : Type} (field : String) (problem : FieldProblem) : Reading σ α :=
  ExceptT.mk (return .error ⟨field, problem⟩)

variable (invoke : Invoke σ)

/-- The value of a field, and nothing if looking it up raises an error. -/
def fieldValue? (id : Nat) (name : String) : Reading σ (Option Value) :=
  ExceptT.lift <| tryCatch (guarded 0 (some <$> fieldOf invoke outside id name)) fun
    | .thrown _ => return none
    | .exhausted => throw .exhausted

/-- The value of a field as some kind of value. -/
def fieldAs {α : Type} (id : Nat) (name : String) (problem : FieldProblem)
    (read : Value → Option α) : Reading σ α := do
  match (← fieldValue? invoke id name).bind read with
  | some a => return a
  | none => stop name problem

/-- An optional text. -/
def optionalText : Value → Option (Option String)
  | .nil => some none
  | v => (lossyText? v).map some

/-- A truth value that may be left out. -/
def optionalBool : Value → Option (Option Bool)
  | .nil => some none
  | .bool b => some (some b)
  | _ => none

/-- A list of texts in a field, which may be left out. -/
def textsField (id : Nat) (name : String) : Reading σ (List String) := do
  match ← fieldValue? invoke id name with
  | some .nil => return []
  | some (.table list) =>
    match (← ExceptT.lift (items list)).mapM lossyText? with
    | some ts => return ts
    | none => stop name .notStrings
  | _ => stop name .notStrings

/-- A rule in a table. -/
def readRule (id : Nat) : Reading σ ToolsetRule := do
  let toolsets ← textsField invoke id "toolsets"
  if toolsets.isEmpty then stop "rules" .noToolsets
  let includePaths ← textsField invoke id "include_paths"
  let compilerOptions ← textsField invoke id "compiler_options"
  let linkerOptions ← textsField invoke id "linker_options"
  return ⟨⟨toolsets⟩, includePaths.map .includePath ++ compilerOptions.map .compilerOption ++
    linkerOptions.map .linkerOption⟩

/-- At most so many rules under `n, n + 1, …` of a list up to the first `nil`, behind those read
already, which are kept in reverse.  Reading a rule can run scripts that add further ones. -/
def readRules (list : Nat) : Nat → Nat → List ToolsetRule → Reading σ (List ToolsetRule)
  | 0, _, read => return read.reverse
  | fuel + 1, n, read => do
    match ← ExceptT.lift (peek list (.int (Int64.ofNat n))) with
    | .nil => return read.reverse
    | .table id => do readRules list fuel (n + 1) ((← readRule invoke id) :: read)
    | _ => stop "rules" .notRules

/-- The rules in the field of a root. -/
def rulesField (id : Nat) : Reading σ (List ToolsetRule) := do
  match ← fieldValue? invoke id "rules" with
  | some .nil => return []
  | some (.table list) => readRules invoke list lastIndex 1 []
  | _ => stop "rules" .notRules

/-- The specification that a table is.  All keys are looked at before any value. -/
def readTable (id : Nat) : Reading σ RootSpec := do
  let keys ← ExceptT.lift (load (·.keys id))
  match keys.findSome? (Key.fault? (← ExceptT.lift (load (·.addresses)))) with
  | some fault => stop fault.field fault.problem
  | none =>
    let name ← fieldAs invoke id "name" .notString optionalText
    let cppStd ← fieldAs invoke id "cpp_std" .notString optionalText
    let includePaths ← textsField invoke id "include_paths"
    let compilerOptions ← textsField invoke id "compiler_options"
    let linkerOptions ← textsField invoke id "linker_options"
    -- the order of the fields decides which fault is reported
    let rules ← rulesField invoke id
    let required ← textsField invoke id "required"
    let builtinRules ← fieldAs invoke id "builtin_rules" .notBoolean optionalBool
    let overrideFile ← fieldAs invoke id "override" .notString optionalText
    return {
      name, cppStd, includePaths, compilerOptions, linkerOptions, rules, required
      builtinRules := builtinRules.getD true
      overrideFile := overrideFile.getD standardOverride }

/-- The specification that a table is, or the first field that is wrong. -/
def ofTable [Host σ] (id : Nat) : Run σ (Except FieldFault RootSpec) :=
  (readTable Script.invoke id).run

end

end RootSpec

end BuildComposition
