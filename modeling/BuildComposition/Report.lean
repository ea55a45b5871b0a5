import BuildComposition.Compose
import BuildComposition.Fingerprint

/-!
# Reports

What is printed about a plan, about rules, and about a failure.  A plan is written as indented JSON
or as text; the text lists the units in plan order, either one line each or in detail, indented by
their depth.  The texts are those for an output that is no terminal, where nothing is coloured.

## Main definitions

* `Plan.report`: the text about a plan
* `Toolset.report`: which built-in rules fire for a toolset
* `ComposeError.causes`, `failureReport`: a failure with everything that led to it
-/

namespace BuildComposition

/-- A line of statistics. -/
def statLine (label value : String) : String := s!"  {label}: {value}"

/-- Texts in one line, or a remark that there are none. -/
def listed : List String → String
  | [] => "(none)"
  | ts => " ".intercalate ts

/-- Lines as a text. -/
def unlines (lines : List String) : String := String.join (lines.map (· ++ "\n"))

/-! ## Plans -/

/-- The text of a source of defaults. -/
def DefaultsSource.text : DefaultsSource → String
  | .builtin => "built-in"
  | .localOverride path => s!"local override ({path.text})"

/-- The text of the settings of a unit. -/
def LocalSettings.text (s : LocalSettings) : String :=
  " ".intercalate (s.includePaths.map ("-I" ++ ·) ++ s.compilerOptions ++ s.linkerOptions ++
    s.libs.map ("-l" ++ ·))

namespace Plan

/-- The lines about the global settings. -/
def settingLines (p : Plan) : List String :=
  let c := p.config
  (p.name.map (statLine "Name")).toList ++
  [statLine "Toolset" p.toolset.name,
    statLine "Defaults" p.defaults.text,
    statLine "Runtime mode" ((c.runtimeMode.map RuntimeMode.name).getD "(unset)"),
    statLine "Object placement" c.effectivePlacement.text] ++
  (c.cppStd.map (statLine "C++ standard")).toList ++
  [statLine "Include paths" (listed c.includePaths),
    statLine "Compiler options" (listed c.compilerOptions),
    statLine "Linker options" (listed c.linkerOptions)] ++
  (if c.defines.isEmpty then [] else [statLine "Defines" (listed c.defines)])

/-- The line about a unit in a brief report. -/
def briefLine (u : ResolvedUnit) : String := s!"  → {u.reference}"

/-- The lines about the unit with a number in a detailed report. -/
def detailLines (p : Plan) (number : Nat) (u : ResolvedUnit) : List String :=
  let indent := String.join (List.replicate u.depth "  ")
  let heading := s!"  {indent}{number}. {u.reference}"
  (match u.target with
    | none => [heading]
    | some t =>
      [s!"{heading} → {t.name} ({t.kind.name})",
        s!"  {indent}   objects: {(p.objectDir u).text}",
        s!"  {indent}   output:  {(p.targetDir u).text}"]) ++
  (if u.settings.isEmpty then [] else [s!"  {indent}   local:   {u.settings.text}"])

/-- The lines about all units from a number on. -/
def detailsFrom (p : Plan) : Nat → List ResolvedUnit → List String
  | _, [] => []
  | number, u :: us => p.detailLines number u ++ detailsFrom p (number + 1) us

/-- The lines about the units. -/
def unitLines (p : Plan) : List String :=
  if p.config.showBrief then p.units.map briefLine else p.detailsFrom 1 p.units

/-- The text about a plan. -/
def report (p : Plan) : String :=
  unlines ([s!"• Plan: {p.fingerprint}"] ++ p.settingLines ++
    ["", s!"✓ Units: {p.units.length}"] ++ p.unitLines)

end Plan

/-! ## Rules -/

/-- The lines about a rule. -/
def ToolsetRule.lines (t : Toolset) (r : ToolsetRule) : List String :=
  if r.condition.holds t then
    s!"✓ {r.condition.text}" :: r.contributions.map fun c => statLine "contributes" c.text
  else [s!"- {r.condition.text}"]

/-- Which built-in rules fire for a toolset. -/
def Toolset.report (t : Toolset) : String :=
  unlines ([s!"• Built-in rules for toolset '{t.name}'"] ++ builtinRules.flatMap (·.lines t) ++
    if (firing builtinRules t).isEmpty then
      ["• No rules fire; no toolset options are contributed"]
    else [])

/-! ## Failures -/

/-- The failure came out of a running script, so that a traceback belongs to it. -/
def ScriptError.isTraced : ScriptError → Bool
  | raised _ | argument _ _ | conversion _ | description _ | refused _ => true
  | malformed | unresolved _ _ | unreadable _ _ | frameLost | exhausted => false

/-- The text of a script failure as a cause.  The heading of a traceback follows where one belongs;
the calls themselves are not listed. -/
def ScriptError.cause (e : ScriptError) : String :=
  if e.isTraced then e.message ++ "\nstack traceback:" else e.message

/-- A graph error and what led to it. -/
def GraphError.causes (e : GraphError) : List String :=
  e.message :: match e with
    | descriptor _ _ _ cause => [cause.cause]
    | _ => []

/-- A root error and what led to it. -/
def RootError.causes (e : RootError) : List String :=
  e.message :: match e with
    | script _ cause => [cause.cause]
    | _ => []

/-- An error and what led to it. -/
def ComposeError.causes : ComposeError → List String
  | root e => e.causes
  | graph e => e.causes
  | malformedOverride path e => (malformedOverride path e).message :: e.causes

/-- A cause behind a margin; further lines of it stand below the first one. -/
def causeLines (margin : String) (further : Nat) (cause : String) : List String :=
  match cause.splitOn "\n" with
  | [] => [margin]
  | first :: rest => (margin ++ first) :: rest.map (String.ofList (List.replicate further ' ') ++ ·)

/-- Causes with numbers from a number on. -/
def numberedCauses : Nat → List String → List String
  | _, [] => []
  | n, cause :: rest =>
    let number := toString n
    let margin := String.ofList (List.replicate (5 - number.length) ' ') ++ number ++ ": "
    causeLines margin 7 cause ++ numberedCauses (n + 1) rest

/-- A failure with its causes; several causes are numbered. -/
def failureReport (what : String) (causes : List String) : String :=
  unlines <|
    s!"Error: {what}" ::
      match causes with
      | [] => []
      | [cause] => ["", "Caused by:"] ++ causeLines "    " 4 cause
      | causes => ["", "Caused by:"] ++ numberedCauses 0 causes

end BuildComposition
