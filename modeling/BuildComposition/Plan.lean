import BuildComposition.Defaults
import BuildComposition.Toolset
import BuildComposition.Unit

/-!
# Build plans

A plan is the outcome of a run: the final settings and the units in build order.

## Main definitions

* `Plan`
* `Plan.sourceDir`, `Plan.objectDir`, `Plan.targetDir`: the directories of a unit
-/

namespace BuildComposition

/-- The final settings of a run and the units to build, in order. -/
structure Plan where
  name : Option String
  toolset : Toolset
  runDir : Path
  defaults : DefaultsSource
  config : Config
  units : List ResolvedUnit
  deriving DecidableEq, Repr

namespace Plan

/-- The references of the units, in order. -/
def references (p : Plan) : List String := p.units.map (·.reference)

/-- The first unit with a reference. -/
def unit? (p : Plan) (reference : String) : Option ResolvedUnit :=
  p.units.find? (·.reference == reference)

/-- The directory of a unit's descriptor: relative to the run directory if it lies below it, and as
it is otherwise. -/
def sourceDir (p : Plan) (u : ResolvedUnit) : Path :=
  let dir := u.descriptor.parent
  (Path.stripBase? p.runDir dir).getD dir

/-- Where the object files of a unit go. -/
def objectDir (p : Plan) (u : ResolvedUnit) : Path :=
  p.config.effectivePlacement.objectDir (p.sourceDir u) p.config.runtimeMode

/-- Where the linked target of a unit goes. -/
def targetDir (p : Plan) (u : ResolvedUnit) : Path :=
  p.config.effectivePlacement.targetDir (p.sourceDir u) p.config.runtimeMode

end Plan

end BuildComposition
