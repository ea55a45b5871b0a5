import BuildComposition.Number.Binary64
import BuildComposition.Number.Decimal
import BuildComposition.Number.Word
import BuildComposition.Script.Failure

/-!
# Script values

The values of Lua scripts.  Strings are byte strings, and numbers are either 64-bit integers or
doubles; an integer and a double that are equal as numbers are equal as values and as keys of
tables.

## Main definitions

* `Builtin`: the functions that every script finds
* `Value`: the values
* `Key`, `Value.key?`: values as keys of tables
* `Value.equal`: equality
* `Constant`: the values that a source can name
* `Value.text?`: numbers and strings as strings
-/

namespace BuildComposition

/-- The byte string of a text. -/
def bytes (s : String) : Bytes := Utf8.encode s

namespace Script

/-- An array with another element at a place.  This is never expanded where it is used, so that an array
in a structure is changed in place. -/
@[noinline] def replaced {α : Type} (as : Array α) (i : Nat) (a : α) : Array α :=
  as.setIfInBounds i a

/-- An array with a changed element at a place, changed in place like `replaced`. -/
@[noinline] def altered {α : Type} (as : Array α) (i : Nat) (f : α → α) : Array α := as.modify i f

/-- The functions that every script finds. -/
inductive Builtin where
  | type
  | tostring
  | tonumber
  | ipairs
  /-- The step of the iteration that `ipairs` starts. -/
  | ipairsStep
  | select
  | error
  | pcall
  | assert
  | setmetatable
  | getmetatable
  | rawget
  | print
  | format
  | upper
  | rep
  | sub
  | concat
  | insert
  | remove
  | sort
  | unpack
  /-- The access to a field that the composition makes. -/
  | access
  /-- A request to the composition. -/
  | request (operation : Operation)
  deriving DecidableEq, Repr

/-- A value. -/
inductive Value where
  | nil
  | bool (b : Bool)
  | int (n : Int64)
  | float (x : Float)
  | str (s : Bytes)
  /-- The table with a number in memory. -/
  | table (id : Nat)
  /-- The function with a number in memory. -/
  | closure (id : Nat)
  | builtin (b : Builtin)
  /-- The failure of the composition with a number in memory, which a script has caught. -/
  | failure (id : Nat)
  deriving Inhabited, Repr

/-- A value as a key of a table. -/
inductive Key where
  | bool (b : Bool)
  | int (n : Int64)
  /-- A double that is no integer, by its bits. -/
  | float (bits : UInt64)
  | str (s : Bytes)
  | table (id : Nat)
  | closure (id : Nat)
  | builtin (b : Builtin)
  | failure (id : Nat)
  deriving DecidableEq, Repr

/-- The integer of 64 bits that a double is equal to. -/
def exactInt? (x : Float) : Option Int64 := do
  let n ← Binary64.toInt? x
  if Word.least ≤ n ∧ n ≤ Word.greatest then some (Int64.ofInt n) else none

namespace Value

/-- The string of a text. -/
def ofString (s : String) : Value := .str (bytes s)

/-- The kind of a value. -/
def kind : Value → ValueKind
  | nil => .nil
  | bool _ => .boolean
  | int _ => .integer
  | float _ => .number
  | str _ => .string
  | table _ => .table
  | closure _ | builtin _ => .function
  | failure _ => .error

/-- Everything but `nil` and `false` holds as a condition. -/
def holds : Value → Bool
  | nil | bool false => false
  | _ => true

/-- A value as a key.  Neither `nil` nor a double that is not a number is one. -/
def key? : Value → Option Key
  | nil => none
  | bool b => some (.bool b)
  | int n => some (.int n)
  | float x =>
    match exactInt? x with
    | some n => some (.int n)
    | none => if x.isNaN then none else some (.float x.toBits)
  | str s => some (.str s)
  | table id => some (.table id)
  | closure id => some (.closure id)
  | builtin b => some (.builtin b)
  | failure id => some (.failure id)

/-- Equality.  Integers and doubles are compared as numbers. -/
def equal : Value → Value → Bool
  | nil, nil => true
  | bool a, bool b => a == b
  | int a, int b => a == b
  | float x, float y => x == y
  | int n, float x | float x, int n => Binary64.compareInt? x n.toInt == some .eq
  | str s, str t => s == t
  | table a, table b => a == b
  | closure a, closure b => a == b
  | builtin a, builtin b => a == b
  | failure a, failure b => a == b
  | _, _ => false

/-- A double as text: up to 14 significant digits, and a fraction where an integer would stand. -/
def floatText (x : Float) : String :=
  let s := Decimal.general 14 x
  if s.toList.all fun c => c.isDigit || c == '-' then s ++ ".0" else s

/-- A number or a string as a string. -/
def text? : Value → Option Bytes
  | int n => some (bytes (toString n.toInt))
  | float x => some (bytes (floatText x))
  | str s => some s
  | _ => none

end Value

/-- A value that a source can name: it refers to nothing in memory. -/
inductive Constant where
  | nil
  | bool (b : Bool)
  | int (n : Int64)
  | float (x : Float)
  | str (s : Bytes)
  deriving Inhabited, Repr

namespace Constant

/-- The value that a constant stands for. -/
def value : Constant → Value
  | nil => .nil
  | bool b => .bool b
  | int n => .int n
  | float x => .float x
  | str s => .str s

/-- A number as a constant. -/
def ofNumber? : Value → Option Constant
  | .int n => some (.int n)
  | .float x => some (.float x)
  | _ => none

/-- A constant holds as a condition. -/
def holds (c : Constant) : Bool := c.value.holds

end Constant

/-- The value of a key. -/
def Key.value : Key → Value
  | bool b => .bool b
  | int n => .int n
  | float bits => .float (Float.ofBits bits)
  | str s => .str s
  | table id => .table id
  | closure id => .closure id
  | builtin b => .builtin b
  | failure id => .failure id

end Script

end BuildComposition
