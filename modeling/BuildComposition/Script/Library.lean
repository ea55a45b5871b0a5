import BuildComposition.Script.Library.General
import BuildComposition.Script.Library.Strings
import BuildComposition.Script.Library.Tables
import BuildComposition.Script.Requests

/-!
# The library

The functions that every script finds, by their names and by what they do.

## Main definitions

* `Builtin.name`: the name of a function, as failures show it
* `Call.run`: what a function does
* `runBuiltin`: a call of a function whose arguments stand on the stack
-/

namespace BuildComposition.Script

/-- The name of a library function. -/
def Builtin.name : Builtin → String
  | type => "type"
  | tostring => "tostring"
  | tonumber => "tonumber"
  | ipairs => "ipairs"
  | ipairsStep => "for iterator"
  | select => "select"
  | error => "error"
  | pcall => "pcall"
  | assert => "assert"
  | setmetatable => "setmetatable"
  | getmetatable => "getmetatable"
  | rawget => "rawget"
  | print => "print"
  | format => "format"
  | upper => "upper"
  | rep => "rep"
  | sub => "sub"
  | concat => "concat"
  | insert => "insert"
  | remove => "remove"
  | sort => "sort"
  | unpack => "unpack"
  | access => "?"
  | request o => o.name

section

variable {σ : Type} [Host σ]

/-- What a library function does. -/
def Call.run (c : Call σ) : Builtin → Run σ (List Value)
  | .type => c.type
  | .tostring => c.tostring
  | .tonumber => c.tonumber
  | .ipairs => c.ipairs
  | .ipairsStep => c.ipairsStep
  | .select => c.select
  | .error => c.error
  | .pcall => c.pcall
  | .assert => c.assert
  | .setmetatable => c.setmetatable
  | .getmetatable => c.getmetatable
  | .rawget => c.rawget
  | .print => c.print
  | .format => c.format
  | .upper => c.upper
  | .rep => c.rep
  | .sub => c.sub
  | .concat => c.concat
  | .insert => c.insert
  | .remove => c.remove
  | .sort => c.sort
  | .unpack => c.unpack
  | .access => c.access
  | .request o => c.request o

/-- The room on the stack that a library function needs behind its arguments. -/
def libraryRoom : Nat := 20

/-- Calls a library function that stands at a position of the stack with its arguments behind it. -/
def runBuiltin (invoke : Invoke σ) (b : Builtin) (args : List Value) (caller : Caller) :
    Run σ (List Value) :=
  let height := caller.height + 1 + args.length
  if maxStack < height + libraryRoom then raise caller.sites "stack overflow"
  else Call.run ⟨invoke, b.name, args, caller.sites, height⟩ b

end

end BuildComposition.Script
