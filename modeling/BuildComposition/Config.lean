import BuildComposition.Path

/-!
# Build configuration

The global settings of a build and the changes that a run makes to them.  Lists only ever grow at
their end and keep duplicates; a setting with one value keeps the last one written.

## Main definitions

* `RuntimeMode`, `Placement`: the settings that a run's defaults govern
* `Config`: the settings
* `Change`, `Config.apply`: one write and its effect
* `Placement.objectDir`, `Placement.targetDir`: where a unit's files go
-/

namespace BuildComposition

/-- The flavour that the toolchain builds for. -/
inductive RuntimeMode where
  | debug
  | release
  deriving DecidableEq, Repr

namespace RuntimeMode

/-- The name of a mode. -/
def name : RuntimeMode → String
  | .debug => "debug"
  | .release => "release"

/-- The mode with a name. -/
def ofName? : String → Option RuntimeMode
  | "debug" => some .debug
  | "release" => some .release
  | _ => none

@[simp] theorem ofName?_name (m : RuntimeMode) : ofName? m.name = some m := by
  cases m <;> rfl

/-- The wording for a name that no mode has. -/
def unknown (text : String) : String :=
  s!"unknown runtime mode '{text}' (expected 'debug' or 'release')"

end RuntimeMode

/-- Where object files and linked targets go. -/
inductive Placement where
  /-- Objects next to their sources, targets in the descriptor's directory. -/
  | default
  /-- Objects in a subdirectory of each source directory. -/
  | sourceSubdir (subdir : String)
  /-- Everything below a directory for the runtime mode, objects in a tree of their own. -/
  | runtimeSubdir (root : String)
  deriving DecidableEq, Repr

namespace Placement

/-- The text of a placement. -/
def text : Placement → String
  | .default => "default"
  | .sourceSubdir subdir => s!"source_subdir({subdir})"
  | .runtimeSubdir root => s!"runtime_subdir({root})"

/-- The directory of a runtime mode below a root. -/
def modeDir (root : String) (mode : Option RuntimeMode) : Path :=
  (Path.ofString root).joinText ((mode.map RuntimeMode.name).getD "default")

/-- The directory for objects compiled from the sources in `sourceDir`. -/
def objectDir (p : Placement) (sourceDir : Path) (mode : Option RuntimeMode) : Path :=
  match p with
  | .default => sourceDir
  | .sourceSubdir subdir => sourceDir.joinText subdir
  | .runtimeSubdir root => ((modeDir root mode).joinText "_objs").join sourceDir

/-- The directory for linked targets of a unit that is declared in `sourceDir`. -/
def targetDir (p : Placement) (sourceDir : Path) (mode : Option RuntimeMode) : Path :=
  match p with
  | .runtimeSubdir root => modeDir root mode
  | _ => sourceDir

end Placement

/-- The global settings of a build. -/
structure Config where
  includePaths : List String
  compilerOptions : List String
  linkerOptions : List String
  /-- Preprocessor definitions, `NAME` or `NAME=VALUE`. -/
  defines : List String
  cppStd : Option String
  /-- Unset until a source of defaults writes it. -/
  runtimeMode : Option RuntimeMode
  placement : Option Placement
  /-- Ask for a brief summary. -/
  showBrief : Bool
  deriving DecidableEq, Repr

/-- One write to the global settings. -/
inductive Change where
  | includePath (path : String)
  | compilerOption (option : String)
  | linkerOption (option : String)
  | define (name : String) (value : Option String)
  | cppStd (std : String)
  | runtimeMode (mode : RuntimeMode)
  | placement (placement : Placement)
  | showBrief
  deriving DecidableEq, Repr

/-- A definition as it is written. -/
def defineText (name : String) : Option String → String
  | some value => name ++ "=" ++ value
  | none => name

namespace Config

/-- Settings that nothing has written to. -/
def empty : Config := ⟨[], [], [], [], none, none, none, false⟩

/-- The effect of one write. -/
def apply (c : Config) : Change → Config
  | .includePath p => { c with includePaths := c.includePaths ++ [p] }
  | .compilerOption o => { c with compilerOptions := c.compilerOptions ++ [o] }
  | .linkerOption o => { c with linkerOptions := c.linkerOptions ++ [o] }
  | .define name value => { c with defines := c.defines ++ [defineText name value] }
  | .cppStd s => { c with cppStd := some s }
  | .runtimeMode m => { c with runtimeMode := some m }
  | .placement p => { c with placement := some p }
  | .showBrief => { c with showBrief := true }

/-- The effect of writes in order. -/
def applyAll (c : Config) (changes : List Change) : Config := changes.foldl apply c

@[simp] theorem applyAll_nil (c : Config) : c.applyAll [] = c := rfl

@[simp] theorem applyAll_cons (c : Config) (d : Change) (ds : List Change) :
    c.applyAll (d :: ds) = (c.apply d).applyAll ds := rfl

@[simp] theorem applyAll_append (c : Config) (ds es : List Change) :
    c.applyAll (ds ++ es) = (c.applyAll ds).applyAll es := List.foldl_append ..

/-- The placement in effect. -/
def effectivePlacement (c : Config) : Placement := c.placement.getD .default

end Config

end BuildComposition
