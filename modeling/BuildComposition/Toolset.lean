import BuildComposition.Config

/-!
# Toolsets and their rules

A rule contributes options for the toolsets that it names.  Rules are independent of one another:
every rule that names the toolset fires, in declaration order.

## Main definitions

* `Toolset`, `ToolsetPredicate`, `Contribution`, `ToolsetRule`
* `builtinRules`: the rules for GNU-compatible toolsets
* `firing`: the rules that fire for a toolset
* `contributed`: the contributions that they make
-/

namespace BuildComposition

/-- A family of compilers and linkers. -/
structure Toolset where
  name : String
  deriving DecidableEq, Repr

/-- Holds of the toolsets with one of the names. -/
structure ToolsetPredicate where
  names : List String
  deriving DecidableEq, Repr

namespace ToolsetPredicate

/-- The toolset has one of the names. -/
def holds (p : ToolsetPredicate) (t : Toolset) : Bool := p.names.contains t.name

/-- The text of a predicate. -/
def text (p : ToolsetPredicate) : String :=
  "name in \x7b" ++ ", ".intercalate p.names ++ "\x7d"

end ToolsetPredicate

/-- One option that a rule contributes. -/
inductive Contribution where
  | includePath (path : String)
  | compilerOption (option : String)
  | linkerOption (option : String)
  deriving DecidableEq, Repr

namespace Contribution

/-- The write that a contribution makes. -/
def change : Contribution → Change
  | .includePath p => .includePath p
  | .compilerOption o => .compilerOption o
  | .linkerOption o => .linkerOption o

/-- The text of a contribution. -/
def text : Contribution → String
  | .includePath p => s!"include path {p}"
  | .compilerOption o => s!"compiler option {o}"
  | .linkerOption o => s!"linker option {o}"

end Contribution

/-- The contributions for the toolsets of a predicate. -/
structure ToolsetRule where
  condition : ToolsetPredicate
  contributions : List Contribution
  deriving DecidableEq, Repr

/-- The rules for GNU-compatible toolsets: threads, a static runtime and a relative library path for
both compilers, and more warnings for one of them. -/
def builtinRules : List ToolsetRule :=
  [⟨⟨["gcc", "clang"]⟩,
    [.linkerOption "-pthread", .linkerOption "-static-libstdc++",
      .linkerOption "-Wl,-rpath='$ORIGIN'"]⟩,
   ⟨⟨["gcc"]⟩, [.compilerOption "-Wextra", .compilerOption "-Wall"]⟩]

/-- The rules that fire for a toolset, in declaration order. -/
def firing (rules : List ToolsetRule) (t : Toolset) : List ToolsetRule :=
  rules.filter (·.condition.holds t)

/-- The contributions for a toolset, rule by rule. -/
def contributed (rules : List ToolsetRule) (t : Toolset) : List Contribution :=
  (firing rules t).flatMap (·.contributions)

@[simp] theorem contributed_append (rs ss : List ToolsetRule) (t : Toolset) :
    contributed (rs ++ ss) t = contributed rs t ++ contributed ss t := by
  simp [contributed, firing]

end BuildComposition
