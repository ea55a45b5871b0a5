import BuildComposition.Script.Access
import BuildComposition.Script.Operators

/-!
# Arguments of library functions

How the functions of the library check what they are called with.

## Main definitions

* `Call`: the call of a library function
* `Call.integer`, `Call.text`, `Call.table`: arguments of a certain kind
* `Call.described`: any value as a string
* `Call.item`, `Call.setItem`: access to tables by the library
-/

namespace BuildComposition.Script

/-- The call of a library function. -/
structure Call (σ : Type) where
  invoke : Invoke σ
  /-- The name of the function. -/
  name : String
  args : List Value
  /-- Where the calling functions stand. -/
  callers : Sites
  /-- The position of the stack behind the arguments. -/
  height : Nat

/-- The length of a table. -/
def lengthOf {σ : Type} (id : Nat) : Run σ Int := return (← allocate (·.length id) : Nat)

namespace Call

variable {σ : Type} (c : Call σ)

/-- The sites seen from inside the function. -/
def sites : Sites := c.callers.below 1

/-- The function as the caller of another one. -/
def caller : Caller := ⟨c.sites, c.height⟩

/-- An argument, counted from one; `nil` if it is missing. -/
def arg (n : Nat) : Value := c.args.getD (n - 1) .nil

/-- An argument is given and is not `nil`. -/
def given (n : Nat) : Bool := !(c.arg n matches .nil)

/-- Refuses an argument. -/
def reject {α : Type} (n : Nat) (why : String) : Run σ α :=
  raise c.callers s!"bad argument #{n} to '{c.name}' ({why})"

/-- Refuses an argument of the wrong kind. -/
def mistyped {α : Type} (n : Nat) (expected : String) : Run σ α :=
  let got := if n ≤ c.args.length then (c.arg n).kind.scriptName else "no value"
  c.reject n s!"{expected} expected, got {got}"

/-- An argument of any kind that has to be there. -/
def any (n : Nat) : Run σ Value :=
  if n ≤ c.args.length then return c.arg n else c.reject n "value expected"

/-- An integer. -/
def integer (n : Nat) : Run σ Int :=
  match integer? (c.arg n), number? (c.arg n) with
  | some i, _ => return i.toInt
  | none, some _ => c.reject n "number has no integer representation"
  | none, none => c.mistyped n "number"

/-- An integer, or else a default. -/
def integerD (n : Nat) (default : Int) : Run σ Int :=
  if c.given n then c.integer n else return default

/-- A string or a number as a string. -/
def text (n : Nat) : Run σ Bytes :=
  match (c.arg n).text? with
  | some s => return s
  | none => c.mistyped n "string"

/-- A table. -/
def table (n : Nat) : Run σ Nat :=
  match c.arg n with
  | .table id => return id
  | _ => c.mistyped n "table"

/-- A value as a string, which a function gives. -/
def describedBy (f v : Value) : Run σ Bytes := do
  match (first (← c.invoke f [v] c.caller)).text? with
  | some s => return s
  | none => raise c.callers "'__tostring' must return a string"

/-- A value as a string: what the function under `__tostring` of its metatable makes of it, or else its own
text. -/
def described (v : Value) : Run σ Bytes := do
  match ← load (·.metafield "__tostring" v) with
  | .nil => load (·.display v)
  | f => c.describedBy f v

/-- The value under an integer in a table. -/
def item (id : Nat) (i : Int) : Run σ Value :=
  index c.invoke c.caller (.int (Int64.ofInt i)) (.table id)

/-- Puts a value under an integer in a table. -/
def setItem (id : Nat) (i : Int) (v : Value) : Run σ Unit :=
  assignIndex c.invoke c.caller (.table id) (.int (Int64.ofInt i)) v

end Call

end BuildComposition.Script
