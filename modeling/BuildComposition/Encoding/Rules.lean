import BuildComposition.Encoding.Record
import BuildComposition.Toolset

/-!
# Toolset rules as JSON

The written form of toolsets and rules, and how it is read.

## Main results

* `Toolset.ofJson?_json`, `ToolsetPredicate.ofJson?_json`, `Contribution.ofJson?_json`,
  `ToolsetRule.ofJson?_json`: reading gives back what was written
-/

namespace BuildComposition

namespace Toolset

/-- The written form of a toolset. -/
def json (t : Toolset) : Json := .obj [("name", .str t.name)]

/-- Reads a toolset. -/
def ofJson? (j : Json) : Option Toolset := do
  return ⟨← (← j.record? ["name"]).required "name" Json.text?⟩

@[simp] theorem ofJson?_json (t : Toolset) : ofJson? t.json = some t := by
  simp [ofJson?, json, Json.required]

end Toolset

namespace ToolsetPredicate

/-- The written form of a predicate. -/
def json (p : ToolsetPredicate) : Json := .obj [("names", .ofStrings p.names)]

/-- Reads a predicate. -/
def ofJson? (j : Json) : Option ToolsetPredicate := do
  return ⟨← (← j.record? ["names"]).required "names" Json.texts?⟩

@[simp] theorem ofJson?_json (p : ToolsetPredicate) : ofJson? p.json = some p := by
  simp [ofJson?, json, Json.required]

end ToolsetPredicate

namespace Contribution

/-- The written form of a contribution. -/
def json : Contribution → Json
  | .includePath p => .obj [("kind", .str "include_path"), ("value", .str p)]
  | .compilerOption o => .obj [("kind", .str "compiler_option"), ("value", .str o)]
  | .linkerOption o => .obj [("kind", .str "linker_option"), ("value", .str o)]

/-- The contribution of a kind. -/
def ofKind? (value : String) : String → Option Contribution
  | "include_path" => some (.includePath value)
  | "compiler_option" => some (.compilerOption value)
  | "linker_option" => some (.linkerOption value)
  | _ => none

/-- Reads a contribution. -/
def ofJson? (j : Json) : Option Contribution := do
  let j ← j.record? ["kind", "value"]
  ofKind? (← j.required "value" Json.text?) (← j.required "kind" Json.choice?)

@[simp] theorem ofJson?_json (c : Contribution) : ofJson? c.json = some c := by
  cases c <;> simp [ofJson?, json, Json.required, List.lookup_cons, ofKind?]

end Contribution

namespace ToolsetRule

/-- The written form of a rule. -/
def json (r : ToolsetRule) : Json :=
  .obj [("when", r.condition.json), ("contributions", .arr (r.contributions.map (·.json)))]

/-- Reads a rule. -/
def ofJson? (j : Json) : Option ToolsetRule := do
  let j ← j.record? ["when", "contributions"]
  return {
    condition := ← j.required "when" ToolsetPredicate.ofJson?
    contributions := ← j.required "contributions" (Json.items? Contribution.ofJson?) }

@[simp] theorem ofJson?_json (r : ToolsetRule) : ofJson? r.json = some r := by
  have h := Json.items?_map r.contributions fun c _ => Contribution.ofJson?_json c
  simp [ofJson?, json, Json.required, List.lookup_cons, h]

end ToolsetRule

end BuildComposition
