import BuildComposition.FileTree
import BuildComposition.Config

/-!
# Defaults

Runtime mode, placement and brief output come either from a local override descriptor, if there is
one in the run directory, or from built-in values.  The choice is made once per run.

## Main definitions

* `DefaultsSource`, `DefaultsSource.resolve`: the choice
* `BuiltinDefaults`, `BuiltinDefaults.changes`: the built-in values and the writes they make
-/

namespace BuildComposition

/-- Where the governed settings of a run come from. -/
inductive DefaultsSource where
  /-- The override descriptor at this path. -/
  | localOverride (path : Path)
  | builtin
  deriving DecidableEq, Repr

namespace DefaultsSource

/-- The governed settings come from an override. -/
def isOverride : DefaultsSource → Bool
  | .localOverride _ => true
  | .builtin => false

/-- The path at which an override is looked for. -/
def candidate (runDir : Path) (file : String) : Path := runDir.joinText file

/-- The override is chosen exactly if a file stands at the candidate path. -/
def resolve (tree : FileTree) (runDir : Path) (file : String) : DefaultsSource :=
  if tree.isFile (candidate runDir file) then .localOverride (candidate runDir file) else .builtin

end DefaultsSource

/-- The values of the governed settings in a run without override. -/
structure BuiltinDefaults where
  runtimeMode : RuntimeMode
  placement : Placement
  deriving DecidableEq, Repr

namespace BuiltinDefaults

/-- The values that hold unless a run is given others. -/
def standard : BuiltinDefaults := ⟨.release, .runtimeSubdir "target"⟩

/-- The writes of the built-in values; brief output is always among them. -/
def changes (d : BuiltinDefaults) : List Change :=
  [.runtimeMode d.runtimeMode, .showBrief, .placement d.placement]

end BuiltinDefaults

end BuildComposition
