import BuildComposition.Path

/-!
# Units

A unit is what one project descriptor contributes to a plan: the target that it declares, its own
settings, and its place among the references.

## Main definitions

* `TargetKind`, `Target`: the declared target
* `LocalSettings`: the settings of one unit
* `ResolvedUnit`: a unit and the reference that led to it
-/

namespace BuildComposition

/-- What is linked. -/
inductive TargetKind where
  | exe
  | lib
  | dll
  deriving DecidableEq, Repr

namespace TargetKind

/-- The name of a kind. -/
def name : TargetKind → String
  | .exe => "exe"
  | .lib => "lib"
  | .dll => "dll"

/-- The kind with a name. -/
def ofName? : String → Option TargetKind
  | "exe" => some .exe
  | "lib" => some .lib
  | "dll" => some .dll
  | _ => none

@[simp] theorem ofName?_name (k : TargetKind) : ofName? k.name = some k := by
  cases k <;> rfl

/-- The wording for a name that no kind has. -/
def unknown (text : String) : String :=
  s!"unknown target kind '{text}' (expected 'exe', 'lib' or 'dll')"

end TargetKind

/-- A declared target. -/
structure Target where
  name : String
  kind : TargetKind
  sources : List String
  deriving DecidableEq, Repr

/-- The settings of one unit. -/
structure LocalSettings where
  includePaths : List String
  compilerOptions : List String
  linkerOptions : List String
  libs : List String
  deriving DecidableEq, Repr

namespace LocalSettings

/-- No settings. -/
def empty : LocalSettings := ⟨[], [], [], []⟩

/-- There are no settings. -/
def isEmpty (s : LocalSettings) : Bool :=
  s.includePaths.isEmpty && s.compilerOptions.isEmpty && s.linkerOptions.isEmpty && s.libs.isEmpty

end LocalSettings

/-- A unit of a plan. -/
structure ResolvedUnit where
  /-- The reference as written. -/
  reference : String
  /-- The canonical path of the descriptor. -/
  descriptor : Path
  /-- The reference of the descriptor that required this one, unless the root did. -/
  parent : Option String
  depth : Nat
  target : Option Target
  settings : LocalSettings
  deriving DecidableEq, Repr

end BuildComposition
