import BuildComposition.Script.Code
import BuildComposition.Script.Table

/-!
# Memory of scripts

What outlives a single script: tables, captured variables, functions and caught failures.  Each of
the four is numbered in the order of its creation, and nothing is ever taken away.  What scripts have
printed is kept too.

The numbers are names within the memory, and scripts do not see them.  What they can see of a table or a
function is its address.

## Main definitions

* `Cell`: a captured variable
* `Closure`: a function with the variables that it captures
* `Addresses`: where tables and functions lie
* `Output`: what scripts print, some of which stays in a buffer
* `Memory`: tables, variables, functions and failures by their numbers, and what was printed
* `Memory.rawGet`, `Memory.rawSet`: access without metatables
* `Memory.display`: any value as a string
* `Memory.print`, `Memory.endLine`: a part of a line that is printed, and its end
-/

namespace BuildComposition.Script

/-- A captured variable. -/
inductive Cell where
  /-- The variable still stands on the stack, at a position. -/
  | onStack (position : Nat)
  | apart (v : Value)
  deriving Inhabited

/-- A function with the variables that it captures. -/
structure Closure where
  code : Code
  cells : Array Nat
  /-- The name of the source, for positions. -/
  source : Bytes

/-- Where tables and functions lie, by their numbers. -/
structure Places where
  table : Nat → Nat
  closure : Nat → Nat

/-- Where tables and functions lie, those of the library included. -/
structure Addresses extends Places where
  builtin : Builtin → Nat

/-- Tables and functions that lie in turn from an address on. -/
def Places.from (start : Nat) : Places := ⟨fun id => start + 128 * id, fun id => start + 128 * id + 64⟩

/-- The places that come behind so many tables and functions. -/
def Places.behind (p : Places) (tables closures : Nat) (late : Places) : Places where
  table id := if id < tables then p.table id else late.table (id - tables)
  closure id := if id < closures then p.closure id else late.closure (id - closures)

/-- An address as text. -/
def addressText (address : Nat) : String := "0x" ++ String.ofList (Nat.toDigits 16 address)

/-- What scripts print.  A part of a line stays in a buffer until the line ends or the buffer is full. -/
structure Output where
  flushed : Array Bytes
  pending : Bytes
  deriving DecidableEq, Inhabited, Repr

namespace Output

/-- The octets for which the buffer has room. -/
def capacity : Nat := 4096

/-- Nothing was printed. -/
def empty : Output := ⟨#[], []⟩

/-- Writes octets.  If they are too many the buffer is emptied, and keeps what is no whole buffer. -/
def write (o : Output) (s : Bytes) : Output :=
  let waiting := o.pending ++ s
  if waiting.length ≤ capacity then { o with pending := waiting }
  else
    let gone := waiting.length - (waiting.length - capacity) % capacity
    ⟨o.flushed.push (waiting.take gone), waiting.drop gone⟩

/-- Empties the buffer. -/
def flush (o : Output) : Output := ⟨o.flushed.push o.pending, []⟩

/-- What has left the buffer. -/
def before (o : Output) : Bytes := o.flushed.toList.flatten

/-- Everything that was printed. -/
def octets (o : Output) : Bytes := o.before ++ o.pending

end Output

/-- Tables, variables, functions and failures by their numbers, and what was printed. -/
structure Memory where
  tables : Array Table
  cells : Array Cell
  closures : Array Closure
  failures : Array ScriptError
  printed : Output
  addresses : Addresses

namespace Memory

/-- The number of the table of global variables. -/
def globals : Nat := 0

/-- The number of the table of string functions. -/
def strings : Nat := 1

/-- The number of the metatable of all strings. -/
def stringMetatable : Nat := 2

/-- Memory without anything.  The first variable is one that no function captures. -/
def empty : Memory := ⟨#[], #[.apart .nil], #[], #[], .empty, ⟨.from 0x100000, fun _ => 0x1000⟩⟩

/-- Memory with other addresses. -/
def withAddresses (m : Memory) (addresses : Addresses) : Memory := { m with addresses }

/-- Memory in which what is made from now on lies at certain places. -/
def settle (m : Memory) (late : Places) : Memory :=
  m.withAddresses ⟨m.addresses.behind m.tables.size m.closures.size late, m.addresses.builtin⟩

/-- The table with a number. -/
def table (m : Memory) (id : Nat) : Table := m.tables.getD id .empty

/-- Makes a table. -/
def newTable (m : Memory) (t : Table) : Nat × Memory :=
  (m.tables.size, { m with tables := m.tables.push t })

/-- Makes a variable. -/
def newCell (m : Memory) (c : Cell) : Nat × Memory :=
  (m.cells.size, { m with cells := m.cells.push c })

/-- Makes a function. -/
def newClosure (m : Memory) (c : Closure) : Nat × Memory :=
  (m.closures.size, { m with closures := m.closures.push c })

/-- Notes a failure. -/
def newFailure (m : Memory) (e : ScriptError) : Nat × Memory :=
  (m.failures.size, { m with failures := m.failures.push e })

/-- Changes a table. -/
def modifyTable (m : Memory) (id : Nat) (f : Table → Table) : Memory :=
  { m with tables := altered m.tables id f }

/-- The value under a key in a table. -/
def rawGet (m : Memory) (id : Nat) (key : Value) : Value :=
  match key.key? with
  | some k => (m.table id).get k
  | none => .nil

/-- Memory after an access to a key of a table. -/
def touch (m : Memory) (id : Nat) (k : Key) : Memory :=
  match (m.table id).slot? k with
  | some i => if (m.table id).limit ≤ i then m.modifyTable id (·.touch k) else m
  | none => m

/-- Puts a value under a key in a table.  Nothing happens if the value is no key. -/
def rawSet (m : Memory) (id : Nat) (key value : Value) : Memory :=
  match key.key? with
  | some k => m.modifyTable id (·.set k value)
  | none => m

/-- The length of a table. -/
def length (m : Memory) (id : Nat) : Nat × Memory :=
  let (n, t) := (m.table id).length
  (n, if t.limit = (m.table id).limit then m else m.modifyTable id fun _ => t)

/-- The keys of a table. -/
def keys (m : Memory) (id : Nat) : List Key := (m.table id).keys

/-- The metatable of a table. -/
def metatable (m : Memory) (id : Nat) : Option Nat := (m.table id).metatable

/-- Gives a table a metatable. -/
def setMetatable (m : Memory) (id : Nat) (mt : Option Nat) : Memory :=
  m.modifyTable id fun t => { t with metatable := mt }

/-- What the metatable of a value has under a name. -/
def metafield (m : Memory) (name : String) : Value → Value
  | .table id =>
    match m.metatable id with
    | some mt => m.rawGet mt (.ofString name)
    | none => .nil
  | .str _ => m.rawGet stringMetatable (.ofString name)
  | _ => .nil

/-- The function with a number. -/
def closure (m : Memory) (id : Nat) : Closure := m.closures.getD id ⟨.trivial, #[], []⟩

/-- The failure with a number. -/
def failure (m : Memory) (id : Nat) : ScriptError := m.failures.getD id .exhausted

/-- The name of the type of a table: its metatable may give it one, up to the first zero octet. -/
def typeName (m : Memory) (id : Nat) : Bytes :=
  match m.metafield "__name" (.table id) with
  | .str name => name.takeWhile (· ≠ 0)
  | _ => bytes "table"

/-- Any value as a string, where no function is asked for it. -/
def display (m : Memory) : Value → Bytes
  | .nil => bytes "nil"
  | .bool true => bytes "true"
  | .bool false => bytes "false"
  | .int n => bytes (toString n.toInt)
  | .float x => bytes (Value.floatText x)
  | .str s => s
  | .table id => m.typeName id ++ bytes s!": {addressText (m.addresses.table id)}"
  | .closure id => bytes s!"function: {addressText (m.addresses.closure id)}"
  | .builtin b => bytes s!"function: {addressText (m.addresses.builtin b)}"
  | .failure id => bytes (m.failure id).message

/-- The failure that an error with a value is.  The text of a string ends before its first zero
octet. -/
def failureOf (m : Memory) : Value → ScriptError
  | .failure id => m.failure id
  | v => .raised (Utf8.lossy ((m.display v).takeWhile (· ≠ 0)))

/-- Prints a part of a line. -/
def print (m : Memory) (s : Bytes) : Memory := { m with printed := m.printed.write s }

/-- Ends a line that is printed. -/
def endLine (m : Memory) : Memory := { m with printed := (m.printed.write [10]).flush }

end Memory

end BuildComposition.Script
