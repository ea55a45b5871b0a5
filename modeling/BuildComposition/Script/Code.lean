import BuildComposition.Script.Term

/-!
# Code

What scripts run as: a list of instructions for each function.  An instruction works on registers,
which hold the local variables of the function and the values on the way, and on captured variables
of the functions around it.  Which operand of an instruction stands in a register decides when it is
read, and the number of registers decides how deep functions can call one another, so code is part
of what a script means.

## Main definitions

* `Arg`, `Instruction`: instructions
* `Capture`, `Code`: functions
* `Instruction.withTarget`, `Instruction.withDestination`: instructions that are completed later
-/

namespace BuildComposition.Script

/-- Where an instruction reads a value. -/
inductive Arg where
  | register (r : Nat)
  /-- A captured variable of the function. -/
  | cell (c : Nat)
  | constant (c : Constant)
  deriving Inhabited, Repr

/-- An instruction.  A number of values that is left open reaches to the end of the values that the
instruction before has left. -/
inductive Instruction where
  | move (dest : Nat) (source : Arg)
  /-- Gives registers in a row the value `nil`. -/
  | clear (first count : Nat)
  /-- Gives a captured variable a value. -/
  | assign (cell source : Nat)
  | get (dest : Nat) (object key : Arg)
  | set (object key value : Arg)
  /-- Looks up a method and puts the object behind it. -/
  | method (dest object : Nat) (key : Arg)
  /-- Makes a table with room for so many items and entries. -/
  | newTable (dest items entries : Nat)
  /-- Puts the values behind a table into it as items behind so many others. -/
  | setItems (table : Nat) (count : Option Nat) (offset : Nat)
  | arithmetic (op : ArithmeticOp) (dest : Nat) (left right : Arg)
  | unary (op : UnaryOp) (dest source : Nat)
  | concat (first count : Nat)
  | jump (target : Nat)
  /-- Jumps if a comparison turns out as expected. -/
  | compare (relation : Relation) (left right : Arg) (expected : Bool) (target : Nat)
  /-- Jumps if a value counts as the expected truth value. -/
  | test (source : Nat) (expected : Bool) (target : Nat)
  /-- Copies a value and jumps if it counts as the expected truth value. -/
  | choose (dest source : Nat) (expected : Bool) (target : Nat)
  /-- Calls the function in a register with the values behind it; its results take its place. -/
  | call (base : Nat) (args results : Option Nat)
  /-- Calls a function and gives its results as those of this one. -/
  | tailCall (base : Nat) (args : Option Nat)
  /-- Ends the function with results. -/
  | give (first : Nat) (count : Option Nat)
  /-- Begins a loop over numbers, or jumps behind it. -/
  | rangeStart (base target : Nat)
  /-- Jumps to the next round of a loop over numbers, if there is one. -/
  | rangeNext (base target : Nat)
  /-- Begins a loop over an iteration with a jump to its first call. -/
  | eachStart (base target : Nat)
  /-- Calls an iteration for so many values. -/
  | eachCall (base count : Nat)
  /-- Jumps to the next round of a loop over an iteration, if there is one. -/
  | eachNext (base target : Nat)
  /-- Makes a function out of the inner function with a number. -/
  | closure (dest function : Nat)
  /-- The further arguments of the function. -/
  | varargs (dest : Nat) (count : Option Nat)
  /-- Captured variables from a register on get a place of their own. -/
  | close (first : Nat)
  deriving Inhabited, Repr

namespace Instruction

/-- A jump with another target. -/
def withTarget (target : Nat) : Instruction → Instruction
  | jump _ => jump target
  | compare r a b expected _ => compare r a b expected target
  | test r expected _ => test r expected target
  | choose dest r expected _ => choose dest r expected target
  | rangeStart base _ => rangeStart base target
  | rangeNext base _ => rangeNext base target
  | eachStart base _ => eachStart base target
  | eachNext base _ => eachNext base target
  | i => i

/-- An instruction with another register for its result. -/
def withDestination (dest : Nat) : Instruction → Instruction
  | move _ source => move dest source
  | get _ object key => get dest object key
  | arithmetic op _ a b => arithmetic op dest a b
  | unary op _ source => unary op dest source
  | concat first count => concat first count
  | closure _ f => closure dest f
  | varargs _ count => varargs dest count
  | i => i

/-- A call or a list of arguments with another number of results. -/
def withResults (count : Option Nat) : Instruction → Instruction
  | call base args _ => call base args count
  | varargs dest _ => varargs dest count
  | i => i

/-- A call as a tail call. -/
def asTail : Instruction → Instruction
  | call base args _ => tailCall base args
  | i => i

/-- A comparison that jumps in the other case. -/
def negated : Instruction → Instruction
  | compare r a b expected target => compare r a b (!expected) target
  | i => i

end Instruction

/-- Where a captured variable comes from when a function is made. -/
inductive Capture where
  /-- A local variable of the function around it. -/
  | register (r : Nat)
  /-- A captured variable of the function around it. -/
  | cell (c : Nat)
  deriving Inhabited, DecidableEq, Repr

/-- A function as instructions. -/
structure Code where
  instructions : Array Instruction
  /-- The lines that failures of the instructions are reported on. -/
  lines : Array Nat
  params : Nat
  variadic : Bool
  /-- The line of the parameters. -/
  line : Nat
  /-- The number of registers. -/
  frameSize : Nat
  captures : List Capture
  /-- The functions inside this one. -/
  functions : Array Code

/-- The function that does nothing. -/
def Code.trivial : Code := ⟨#[], #[], 0, false, 0, 2, [], #[]⟩

instance : Inhabited Code := ⟨.trivial⟩

end BuildComposition.Script
