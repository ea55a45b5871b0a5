import BuildComposition.FileTree
import BuildComposition.Request

/-!
# Script failures

Descriptors are Lua scripts.  A script fails because its source is malformed, because it raised an
error, or because the composition turned a call down: the arguments could not be converted, the
request was refused, or a file could not be loaded.

## Main definitions

* `ValueKind`: the kinds of values, as conversions tell them apart
* `ConversionFault`: why an argument cannot be converted
* `ScriptError`, `ScriptError.message`: why a script fails, and the wording
-/

namespace BuildComposition

/-- The kinds of values, as conversions tell them apart. -/
inductive ValueKind where
  | nil
  | boolean
  | integer
  | number
  | string
  | table
  | function
  /-- A failure that a script has caught. -/
  | error
  deriving DecidableEq, Repr

namespace ValueKind

/-- The name that conversions use. -/
def name : ValueKind → String
  | nil => "nil"
  | boolean => "boolean"
  | integer => "integer"
  | number => "number"
  | string => "string"
  | table => "table"
  | function => "function"
  | error => "error"

/-- The name that scripts use. -/
def scriptName : ValueKind → String
  | integer => "number"
  | error => "userdata"
  | k => k.name

end ValueKind

/-- Why a value cannot be converted. -/
inductive ConversionFault where
  /-- Only strings and numbers are texts. -/
  | notString (kind : ValueKind)
  /-- The octets of a string are not text. -/
  | notText (fault : Utf8.Fault)
  | notTable (kind : ValueKind)
  | notFunction (kind : ValueKind)
  deriving DecidableEq, Repr

/-- The wording of a conversion fault. -/
def ConversionFault.message : ConversionFault → String
  | notString k => s!"error converting Lua {k.name} to String (expected string or number)"
  | notText f => s!"error converting Lua string to String ({f.message})"
  | notTable k => s!"error converting Lua {k.name} to table"
  | notFunction k => s!"error converting Lua {k.name} to function"

/-- Why a table does not describe a target or a placement. -/
inductive DescriptionFault where
  /-- The operation expects a table. -/
  | tableExpected (operation : Operation) (kind : ValueKind)
  | placementKindMissing
  | unknownPlacement (kind : String)
  | targetNameMissing
  | targetNameEmpty
  | unknownTargetKind (kind : String)
  | sourcesNotList
  deriving DecidableEq, Repr

/-- The wording of a description fault. -/
def DescriptionFault.message : DescriptionFault → String
  | tableExpected o k => s!"prj.{o.name} expects a table, got {k.name}"
  | placementKindMissing => "obj_placement requires a 'kind' field"
  | unknownPlacement kind =>
    s!"unknown obj_placement kind '{kind}' " ++
      "(expected 'default', 'source_subdir' or 'runtime_subdir')"
  | targetNameMissing => "target requires a 'name' field"
  | targetNameEmpty => "target name cannot be empty"
  | unknownTargetKind kind => TargetKind.unknown kind
  | sourcesNotList => "target 'sources' must be an array of strings"

/-- Why a script fails. -/
inductive ScriptError where
  /-- The source is not a script. -/
  | malformed
  /-- The script raised an error with this text. -/
  | raised (text : String)
  /-- The argument at a position, counted from one, could not be converted. -/
  | argument (position : Nat) (cause : ScriptError)
  | conversion (fault : ConversionFault)
  | description (fault : DescriptionFault)
  | refused (refusal : Refusal)
  /-- The path of a script file does not resolve. -/
  | unresolved (path : Path) (cause : FileError)
  /-- A script file cannot be read. -/
  | unreadable (path : Path) (cause : FileError)
  /-- The frame was gone when the descriptor returned. -/
  | frameLost
  /-- The script took more steps than any script may. -/
  | exhausted
  deriving DecidableEq, Repr

/-- The wording of a script failure. -/
def ScriptError.message : ScriptError → String
  | malformed => "syntax error"
  | raised text => s!"runtime error: {text}"
  | argument position cause => s!"bad argument #{position}: {cause.message}"
  | conversion f => f.message
  | description f => f.message
  | refused r => r.message
  | unresolved p e => s!"cannot resolve '{p.text}': {e.message}"
  | unreadable p e => s!"cannot read '{p.text}': {e.message}"
  | frameLost => "descriptor frame was lost during evaluation"
  | exhausted => "the script did not finish"

end BuildComposition
