import BuildComposition.Encoding.Rules
import BuildComposition.Encoding.Settings
import BuildComposition.Plan

/-!
# Plans as JSON

The written form of units and plans, and how it is read.

## Main results

* `Target.ofJson?_json`, `LocalSettings.ofJson?_json`, `ResolvedUnit.ofJson?_json`,
  `Plan.ofJson?_json`: reading gives back what was written, as long as depths fit into 64 bits
-/

namespace BuildComposition

namespace TargetKind

/-- The written form of a kind. -/
def json (k : TargetKind) : Json := .str k.name

/-- Reads a kind. -/
def ofJson? (j : Json) : Option TargetKind := j.choice?.bind ofName?

@[simp] theorem ofJson?_json (k : TargetKind) : ofJson? k.json = some k := by
  simp [ofJson?, json]

end TargetKind

namespace Target

/-- The written form of a target. -/
def json (t : Target) : Json :=
  .obj [("name", .str t.name), ("kind", t.kind.json), ("sources", .ofStrings t.sources)]

/-- Reads a target. -/
def ofJson? (j : Json) : Option Target := do
  let j ← j.record? ["name", "kind", "sources"]
  return {
    name := ← j.required "name" Json.text?
    kind := ← j.required "kind" TargetKind.ofJson?
    sources := ← j.required "sources" Json.texts? }

@[simp] theorem ofJson?_json (t : Target) : ofJson? t.json = some t := by
  simp [ofJson?, json, Json.required, List.lookup_cons]

end Target

namespace LocalSettings

/-- The written form of the settings of a unit. -/
def json (s : LocalSettings) : Json :=
  .obj [("include_paths", .ofStrings s.includePaths),
    ("compiler_options", .ofStrings s.compilerOptions),
    ("linker_options", .ofStrings s.linkerOptions),
    ("libs", .ofStrings s.libs)]

/-- Reads the settings of a unit. -/
def ofJson? (j : Json) : Option LocalSettings := do
  let j ← j.record? ["include_paths", "compiler_options", "linker_options", "libs"]
  return {
    includePaths := ← j.required "include_paths" Json.texts?
    compilerOptions := ← j.required "compiler_options" Json.texts?
    linkerOptions := ← j.required "linker_options" Json.texts?
    libs := ← j.required "libs" Json.texts? }

@[simp] theorem ofJson?_json (s : LocalSettings) : ofJson? s.json = some s := by
  simp [ofJson?, json, Json.required, List.lookup_cons]

end LocalSettings

namespace ResolvedUnit

/-- The fields of the written form. -/
def fields : List String := ["reference", "descriptor", "parent", "depth", "target", "local"]

/-- The written form of a unit. -/
def json (u : ResolvedUnit) : Json :=
  .obj [("reference", .str u.reference),
    ("descriptor", .str u.descriptor.text),
    ("parent", .ofOption .str u.parent),
    ("depth", .int u.depth),
    ("target", .ofOption Target.json u.target),
    ("local", u.settings.json)]

/-- Reads a unit. -/
def ofJson? (j : Json) : Option ResolvedUnit := do
  let j ← j.record? fields
  return {
    reference := ← j.required "reference" Json.text?
    descriptor := Path.ofString (← j.required "descriptor" Json.text?)
    parent := ← j.optional "parent" Json.text?
    depth := ← j.required "depth" Json.word?
    target := ← j.optional "target" Target.ofJson?
    settings := ← j.required "local" LocalSettings.ofJson? }

theorem ofJson?_json {u : ResolvedUnit} (h : u.depth < Word.count) : ofJson? u.json = some u := by
  have parent := Json.present?_ofOption Json.text?_str (by simp) u.parent
  have target := Json.present?_ofOption Target.ofJson?_json (by simp [Target.json]) u.target
  have depth := Json.word?_int h
  simp [ofJson?, json, Json.required, Json.optional, List.lookup_cons, parent, target, depth]

end ResolvedUnit

namespace Plan

/-- The fields of the written form. -/
def fields : List String := ["name", "toolset", "run_dir", "defaults", "config", "units"]

/-- The written form of a plan. -/
def json (p : Plan) : Json :=
  .obj [("name", .ofOption .str p.name),
    ("toolset", p.toolset.json),
    ("run_dir", .str p.runDir.text),
    ("defaults", p.defaults.json),
    ("config", p.config.json),
    ("units", .arr (p.units.map (·.json)))]

/-- Reads a plan. -/
def ofJson? (j : Json) : Option Plan := do
  let j ← j.record? fields
  return {
    name := ← j.optional "name" Json.text?
    toolset := ← j.required "toolset" Toolset.ofJson?
    runDir := Path.ofString (← j.required "run_dir" Json.text?)
    defaults := ← j.required "defaults" DefaultsSource.ofJson?
    config := ← j.required "config" Config.ofJson?
    units := ← j.required "units" (Json.items? ResolvedUnit.ofJson?) }

theorem ofJson?_json {p : Plan} (h : ∀ u ∈ p.units, u.depth < Word.count) :
    ofJson? p.json = some p := by
  have units := Json.items?_map p.units fun u hu => ResolvedUnit.ofJson?_json (h u hu)
  have name := Json.present?_ofOption Json.text?_str (by simp) p.name
  simp [ofJson?, json, Json.required, Json.optional, List.lookup_cons, name, units]

end Plan

end BuildComposition
