import BuildComposition.Defaults
import BuildComposition.Encoding.Record

/-!
# Settings as JSON

The written form of runtime modes, placements, the global settings and the sources of defaults, and
how it is read.  Absent values are written as `null`.

## Main results

* `RuntimeMode.ofJson?_json`, `Placement.ofJson?_json`, `Config.ofJson?_json`,
  `DefaultsSource.ofJson?_json`, `BuiltinDefaults.ofJson?_json`: reading gives back what was written
-/

namespace BuildComposition

namespace RuntimeMode

/-- The written form of a mode. -/
def json (m : RuntimeMode) : Json := .str m.name

/-- Reads a mode. -/
def ofJson? (j : Json) : Option RuntimeMode := j.choice?.bind ofName?

@[simp] theorem ofJson?_json (m : RuntimeMode) : ofJson? m.json = some m := by
  simp [ofJson?, json]

end RuntimeMode

namespace Placement

/-- The written form of a placement. -/
def json : Placement → Json
  | .default => .obj [("kind", .str "default")]
  | .sourceSubdir subdir => .obj [("kind", .str "source_subdir"), ("subdir", .str subdir)]
  | .runtimeSubdir root => .obj [("kind", .str "runtime_subdir"), ("root", .str root)]

/-- Reads the placement of a kind from its record. -/
def ofKind? (j : Json) : String → Option Placement
  | "default" => (j.record? ["kind"]).map fun _ => .default
  | "source_subdir" => do
    return .sourceSubdir (← (← j.record? ["kind", "subdir"]).required "subdir" Json.text?)
  | "runtime_subdir" => do
    return .runtimeSubdir (← (← j.record? ["kind", "root"]).required "root" Json.text?)
  | _ => none

/-- Reads a placement. -/
def ofJson? (j : Json) : Option Placement :=
  match j with
  | .arr (kind :: _) => kind.text?.bind (ofKind? j)
  | _ => (j.required "kind" Json.text?).bind (ofKind? j)

@[simp] theorem ofJson?_json (p : Placement) : ofJson? p.json = some p := by
  cases p <;> simp [ofJson?, json, ofKind?, Json.required, List.lookup_cons]

end Placement

namespace Config

/-- The fields of the written form. -/
def fields : List String :=
  ["include_paths", "compiler_options", "linker_options", "defines", "cpp_std", "runtime_mode",
    "obj_placement", "show_brief"]

/-- The written form of the global settings. -/
def json (c : Config) : Json :=
  .obj [("include_paths", .ofStrings c.includePaths),
    ("compiler_options", .ofStrings c.compilerOptions),
    ("linker_options", .ofStrings c.linkerOptions),
    ("defines", .ofStrings c.defines),
    ("cpp_std", .ofOption .str c.cppStd),
    ("runtime_mode", .ofOption RuntimeMode.json c.runtimeMode),
    ("obj_placement", .ofOption Placement.json c.placement),
    ("show_brief", .bool c.showBrief)]

/-- Reads the global settings. -/
def ofJson? (j : Json) : Option Config := do
  let j ← j.record? fields
  return {
    includePaths := ← j.required "include_paths" Json.texts?
    compilerOptions := ← j.required "compiler_options" Json.texts?
    linkerOptions := ← j.required "linker_options" Json.texts?
    defines := ← j.required "defines" Json.texts?
    cppStd := ← j.optional "cpp_std" Json.text?
    runtimeMode := ← j.optional "runtime_mode" RuntimeMode.ofJson?
    placement := ← j.optional "obj_placement" Placement.ofJson?
    showBrief := ← j.required "show_brief" Json.bool? }

@[simp] theorem ofJson?_json (c : Config) : ofJson? c.json = some c := by
  have std := Json.present?_ofOption Json.text?_str (by simp) c.cppStd
  have mode := Json.present?_ofOption RuntimeMode.ofJson?_json (by simp [RuntimeMode.json])
    c.runtimeMode
  have placement := Json.present?_ofOption Placement.ofJson?_json
    (by intro p; cases p <;> simp [Placement.json]) c.placement
  simp [ofJson?, json, Json.required, Json.optional, List.lookup_cons, std, mode, placement]

end Config

namespace DefaultsSource

/-- The written form of a source of defaults. -/
def json : DefaultsSource → Json
  | .localOverride path => .obj [("source", .str "local_override"), ("path", .str path.text)]
  | .builtin => .obj [("source", .str "builtin_defaults")]

/-- Reads a source of defaults.  The built-in values have no path. -/
def ofJson? (j : Json) : Option DefaultsSource := do
  let j ← j.record? ["source", "path"]
  match ← j.required "source" Json.choice? with
  | "local_override" => return .localOverride (Path.ofString (← j.required "path" Json.text?))
  | "builtin_defaults" =>
    match ← j.optional "path" some with
    | none => return .builtin
    | some _ => none
  | _ => none

@[simp] theorem ofJson?_json (s : DefaultsSource) : ofJson? s.json = some s := by
  cases s <;> simp [ofJson?, json, Json.required, Json.optional, Json.present?, List.lookup_cons]

end DefaultsSource

namespace BuiltinDefaults

/-- The written form of built-in values. -/
def json (d : BuiltinDefaults) : Json :=
  .obj [("runtime_mode", d.runtimeMode.json), ("obj_placement", d.placement.json)]

/-- Reads built-in values. -/
def ofJson? (j : Json) : Option BuiltinDefaults := do
  let j ← j.record? ["runtime_mode", "obj_placement"]
  return {
    runtimeMode := ← j.required "runtime_mode" RuntimeMode.ofJson?
    placement := ← j.required "obj_placement" Placement.ofJson? }

@[simp] theorem ofJson?_json (d : BuiltinDefaults) : ofJson? d.json = some d := by
  simp [ofJson?, json, Json.required, List.lookup_cons]

end BuiltinDefaults

end BuildComposition
