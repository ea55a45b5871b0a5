import BuildComposition.Script.Library.Arguments

/-!
# General library functions

## Main definitions

* `Call.tostring`, `Call.print`: values as strings, and a line of them
* `Call.tonumber`, `Call.select`: conversions and choices
* `Call.error`, `Call.assert`, `Call.pcall`: raising and catching errors
* `Call.ipairsStep`: iteration over the items of a table
* `Call.setmetatable`, `Call.getmetatable`: metatables
* `Call.access`: fields with metatables
-/

namespace BuildComposition.Script.Call

variable {σ : Type} (c : Call σ)

/-- The name of the type of a value. -/
def type : Run σ (List Value) := do
  return [.ofString (← c.any 1).kind.scriptName]

/-- A value as a string. -/
def tostring : Run σ (List Value) := do
  let v ← c.any 1
  return [.str (← c.described v)]

/-- Prints values one after another, each behind a separator. -/
def printAll : Bytes → List Value → Run σ Unit
  | _, [] => return ()
  | separator, v :: vs => do
    -- a value that cannot be described leaves what was printed before it
    let s ← c.described v
    store (·.print separator)
    store (·.print s)
    printAll [9] vs

/-- Prints the arguments in one line, with tabs between them. -/
def print : Run σ (List Value) := do
  c.printAll [] c.args
  store (·.endLine)
  return []

/-- The value of a letter or digit in any base. -/
def digitIn? (base : Nat) (b : UInt8) : Option Nat :=
  let ch := Char.ofNat b.toNat
  let d :=
    if '0' ≤ ch ∧ ch ≤ '9' then some (ch.toNat - '0'.toNat)
    else if 'a' ≤ ch ∧ ch ≤ 'z' then some (ch.toNat - 'a'.toNat + 10)
    else if 'A' ≤ ch ∧ ch ≤ 'Z' then some (ch.toNat - 'A'.toNat + 10)
    else none
  d.filter (· < base)

/-- The integer that a string spells in a base, with an optional sign. -/
def inBase? (base : Nat) (s : Bytes) : Option Int64 := do
  let blank (b : UInt8) : Bool := Numeral.isBlank (Char.ofNat b.toNat)
  let s := ((s.dropWhile blank).reverse.dropWhile blank).reverse
  let (negative, ds) := match s with
    | 45 :: ds => (true, ds)
    | 43 :: ds => (false, ds)
    | ds => (false, ds)
  if ds.isEmpty then none
  else
    let n := Int64.ofNat (Numeral.ofDigits base (← ds.mapM (digitIn? base)))
    return if negative then -n else n

/-- The number that a value stands for, or `nil`. -/
def tonumber : Run σ (List Value) := do
  if c.given 2 then
    let base ← c.integer 2
    match c.arg 1 with
    | .str s =>
      if base < 2 ∨ 36 < base then c.reject 2 "base out of range"
      else return [((inBase? base.toNat s).map Value.int).getD .nil]
    | _ => c.mistyped 1 "string"
  else return [(number? (← c.any 1)).getD .nil]

/-- The iteration over the items of a table. -/
def ipairs : Run σ (List Value) := do
  return [.builtin .ipairsStep, ← c.any 1, .int 0]

/-- The next item of a table. -/
def ipairsStep : Run σ (List Value) := do
  let i := (← c.integer 2) + 1
  match ← index c.invoke c.caller (.int (Int64.ofInt i)) (c.arg 1) with
  | .nil => return [.nil]
  | v => return [.int (Int64.ofInt i), v]

/-- The arguments from some position on, or their number if a number sign asks for it. -/
def select : Run σ (List Value) := do
  let others := c.args.tail
  match c.arg 1 with
  | .str (35 :: _) => return [.int (Int64.ofNat others.length)]
  | _ =>
    let n ← c.integer 1
    if n < 0 then
      if others.length < n.natAbs then c.reject 1 "index out of range"
      else return others.drop (others.length - n.natAbs)
    else if n = 0 then c.reject 1 "index out of range"
    else return others.drop (n.toNat - 1)

/-- Raises an error with a value.  A string gets the position of the function at a level in front. -/
def raiseValue {α : Type} (v : Value) (level : Int) : Run σ α :=
  match v with
  | .str s =>
    if 0 < level then throw (.thrown (.str (c.callers.text level.toNat ++ s)))
    else throw (.thrown v)
  | v => throw (.thrown v)

/-- Raises an error. -/
def error : Run σ (List Value) := do c.raiseValue (c.arg 1) (← c.integerD 2 1)

/-- Raises an error unless a condition holds. -/
def assert : Run σ (List Value) := do
  if (← c.any 1).holds then return c.args
  else
    match c.args with
    | [_] => c.raiseValue (.ofString "assertion failed!") 1
    | _ => c.raiseValue (c.arg 2) 1

/-- Calls a function and catches its error.  The function takes the place of the first argument.  The
bound on the number of steps is not caught. -/
def pcall : Run σ (List Value) :=
  match c.args with
  | [] => throw (.thrown (.ofString "not enough arguments to pcall"))
  | f :: args =>
    let height := c.height - c.args.length
    let protected_ : Run σ (List Value) := do
      return .bool true :: (← guarded height (c.invoke f args ⟨c.sites, height⟩))
    tryCatch protected_ fun
      | .thrown v => return [.bool false, v]
      | .exhausted => throw .exhausted

/-- The field that protects a metatable. -/
def protection (id : Nat) : Run σ Value := do
  match ← load (·.metatable id) with
  | some mt => load (·.rawGet mt (.ofString "__metatable"))
  | none => return .nil

/-- Gives a table a metatable.  Whatever it has for operators, lengths, calls or the release of values is
kept, but nothing asks for it. -/
def setmetatable : Run σ (List Value) := do
  let id ← c.table 1
  let mt ← match c.arg 2 with
    | .table mt => pure (some mt)
    | .nil => if 2 ≤ c.args.length then pure none else c.mistyped 2 "nil or table"
    | _ => c.mistyped 2 "nil or table"
  match ← protection id with
  | .nil =>
    store (·.setMetatable id mt)
    return [.table id]
  | _ => raise c.callers "cannot change a protected metatable"

/-- The metatable of a value. -/
def getmetatable : Run σ (List Value) := do
  match ← c.any 1 with
  | .table id =>
    match ← protection id, ← load (·.metatable id) with
    | .nil, some mt => return [.table mt]
    | .nil, none => return [.nil]
    | v, _ => return [v]
  | .str _ => return [.table Memory.stringMetatable]
  | _ => return [.nil]

/-- The value under a key, with metatables. -/
def access : Run σ (List Value) := do
  return [← index c.invoke c.caller (c.arg 2) (c.arg 1)]

/-- The value under a key of a table, without its metatable. -/
def rawget : Run σ (List Value) := do
  let id ← c.table 1
  let key ← c.any 2
  return [← load (·.rawGet id key)]

end BuildComposition.Script.Call
