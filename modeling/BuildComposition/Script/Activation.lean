import BuildComposition.Script.Access
import BuildComposition.Script.Range

/-!
# Activations

A function that runs: its code, where its registers stand, and the place that it has reached.  The
registers stand on the stack behind the function itself.  If a function takes further arguments these
stand in between, and the parameters are copied behind them.

What an instruction does to memory and stack is done here; what it means for the course of the script
is its `Flow`.

## Main definitions

* `Activation`, `activate`: functions that run
* `Flow`: what an instruction means for the course of the script
* `Activation.execute`: an instruction
-/

namespace BuildComposition.Script

/-- A function that runs. -/
structure Activation where
  code : Code
  cells : Array Nat
  /-- The name of the source. -/
  source : Bytes
  /-- The position of the function, where its results go. -/
  home : Nat
  /-- The position of the first register. -/
  base : Nat
  /-- The number of further arguments; they end one position before the first register. -/
  extras : Nat
  /-- The place of the instruction that is executed. -/
  place : Nat
  /-- The end of values of open number. -/
  opened : Nat
  /-- The number of results that the calling function wants, if it does not want all. -/
  wanted : Option Nat

/-- What an instruction means for the course of the script. -/
inductive Flow where
  /-- The next instruction follows. -/
  | next
  | jump (target : Nat)
  /-- The next instruction follows; values of open number end at a position. -/
  | opened (stop : Nat)
  /-- The function at a position is called with the values behind it. -/
  | call (position count : Nat) (wanted : Option Nat)
  /-- The function at a position takes the place of this one. -/
  | tailCall (position count : Nat)
  /-- The function ends with the values from a position on. -/
  | give (position count : Nat)

namespace Activation

/-- The site of a function that runs. -/
def site (a : Activation) : Site := ⟨a.source, a.code.lines.getD a.place 0⟩

/-- The first position behind the registers. -/
def limit (a : Activation) : Nat := a.base + a.code.frameSize

/-- The number of positions that further arguments take up. -/
def shift (a : Activation) : Nat := a.base - (a.home + 1)

/-- The number of values from a position on, if it was left open. -/
def countFrom (a : Activation) (position : Nat) (count : Option Nat) : Nat :=
  count.getD (a.opened - position)

/-- The function at the place where it goes on. -/
def follow (a : Activation) : Flow → Activation
  | .jump target => { a with place := target }
  | .opened stop => { a with place := a.place + 1, opened := stop }
  | _ => { a with place := a.place + 1 }

end Activation

section

variable {σ : Type}

/-! ## The beginning and the end of a function -/

/-- The site of a function that has not begun yet, seen from inside. -/
def Closure.entrance (f : Closure) : Sites := fun level =>
  if level = 1 then some ⟨f.source, f.code.line⟩ else none

/-- Begins a function at a position, with so many arguments behind it. -/
def Closure.begin (f : Closure) (home count : Nat) (wanted : Option Nat) : Run σ Activation := do
  let code := f.code
  if code.variadic then
    let behind := home + 1 + max count code.params
    if maxStack < behind + code.frameSize + 1 then raise f.entrance "stack overflow"
    let base := behind + 1
    grow (base + code.frameSize)
    clear (home + 1 + count) (code.params - count)
    putAll base (← taken (home + 1) code.params)
    return ⟨code, f.cells, f.source, home, base, count - code.params, 0, 0, wanted⟩
  else
    let base := home + 1
    grow (base + code.frameSize)
    clear (base + count) (code.params - count)
    return ⟨code, f.cells, f.source, home, base, 0, 0, 0, wanted⟩

/-- Begins a function if there is room for its registers. -/
def Closure.activate (f : Closure) (home count : Nat) (wanted : Option Nat) (sites : Sites) :
    Run σ Activation := do
  if maxStack < home + 1 + count + f.code.frameSize then raise sites "stack overflow"
  f.begin home count wanted

/-- Puts the results of a function where they are wanted. -/
def receive (position : Nat) (values : List Value) : Option Nat → Run σ Flow
  | some wanted => do
    putAll position (values.take wanted)
    clear (position + values.length) (wanted - values.length)
    return .next
  | none => do
    let stop := position + values.length
    grow stop
    putAll position values
    return .opened stop

/-! ## Instructions -/

/-- Several values in a row as one text; the last two are put together first. -/
def joined (sites : Sites) : List Value → Run σ Value
  | [] => return .nil
  | [v] => return v
  | v :: vs => do orRaise sites (concat v (← joined sites vs))

/-- An operator before an operand. -/
def unary (sites : Sites) : UnaryOp → Value → Run σ Value
  | .not, v => return .bool (!v.holds)
  | .negate, v => orRaise sites (negate v)
  | .length, .str s => return .int (Int64.ofNat s.length)
  | .length, .table id => return .int (Int64.ofNat (← allocate (·.length id)))
  | .length, v => raise sites s!"attempt to get length of a {v.kind.scriptName} value"

/-- Keeps the values of a loop over numbers from a position on, and the counter once more behind
them. -/
def keep (position : Nat) (r : Range) : Run σ Unit :=
  putAll position [r.counter, r.bound, r.step, r.counter]

namespace Activation

variable (a : Activation)

/-- The value that an instruction reads. -/
def read : Arg → Run σ Value
  | .register r => top (a.base + r)
  | .cell c => readCell (a.cells.getD c 0)
  | .constant c => return c.value

/-- Puts a value into a register. -/
def write (r : Nat) (v : Value) : Run σ Flow := do
  put (a.base + r) v
  return .next

/-- The variables that a function captures when it is made, behind those captured already. -/
def captured : List Capture → Array Nat → Run σ (Array Nat)
  | [], cells => return cells
  | .register r :: rest, cells => do captured rest (cells.push (← captureAt (a.base + r)))
  | .cell c :: rest, cells => captured rest (cells.push (a.cells.getD c 0))

/-- Jumps if a truth value is the expected one. -/
def jumpIf (truth expected : Bool) (target : Nat) : Flow :=
  if truth == expected then .jump target else .next

/-- Executes an instruction. -/
def execute (invoke : Invoke σ) (sites : Sites) : Instruction → Run σ Flow
  | .move dest source => do a.write dest (← a.read source)
  | .clear first count => do
    Script.clear (a.base + first) count
    return .next
  | .assign cell source => do
    writeCell (a.cells.getD cell 0) (← top (a.base + source))
    return .next
  | .get dest object key => do
    let v ← a.read object
    let key ← a.read key
    a.write dest (← index invoke ⟨sites, a.limit⟩ key v)
  | .set object key value => do
    assignIndex invoke ⟨sites, a.limit⟩ (← a.read object) (← a.read key) (← a.read value)
    return .next
  | .method dest object key => do
    let v ← top (a.base + object)
    put (a.base + dest + 1) v
    let key ← a.read key
    a.write dest (← index invoke ⟨sites, a.limit⟩ key v)
  | .newTable dest items entries => do
    a.write dest (.table (← allocate (·.newTable (.make items entries))))
  | .setItems table count offset => do
    let position := a.base + table
    match ← top position with
    | .table id =>
      let vs ← taken (position + 1) (a.countFrom (position + 1) count)
      store (·.modifyTable id (·.setItems offset vs))
      return .next
    | _ => return .next
  | .arithmetic op dest left right => do
    let v ← a.read left
    a.write dest (← orRaise sites (arithmetic op v (← a.read right)))
  | .unary op dest source => do a.write dest (← unary sites op (← top (a.base + source)))
  | .concat first count => do a.write first (← joined sites (← taken (a.base + first) count))
  | .jump target => return .jump target
  | .compare relation left right expected target => do
    let v ← a.read left
    return jumpIf (← orRaise sites (relation.holds v (← a.read right))) expected target
  | .test source expected target => do
    return jumpIf (← top (a.base + source)).holds expected target
  | .choose dest source expected target => do
    let v ← top (a.base + source)
    if v.holds == expected then
      put (a.base + dest) v
      return .jump target
    else return .next
  | .call base args results =>
    let position := a.base + base
    return .call position (a.countFrom (position + 1) args) results
  | .tailCall base args =>
    let position := a.base + base
    return .tailCall position (a.countFrom (position + 1) args)
  | .give first count =>
    let position := a.base + first
    return .give position (a.countFrom position count)
  | .rangeStart base target => do
    let position := a.base + base
    let start ← top position
    let limit ← top (position + 1)
    match ← orRaise sites (Range.begin start limit (← top (position + 2))) with
    | none => return .jump target
    | some r =>
      keep position r
      return .next
  | .rangeNext base target => do
    let position := a.base + base
    let counter ← top position
    let bound ← top (position + 1)
    match Range.next? ⟨counter, bound, ← top (position + 2)⟩ with
    | none => return .next
    | some r =>
      keep position r
      return .jump target
  | .eachStart base target => do
    if (← top (a.base + base + 3)).holds then
      raise sites "variable '(for state)' got a non-closable value"
    else return .jump target
  | .eachCall base count => do
    let position := a.base + base
    let f ← top position
    let state ← top (position + 1)
    let vs ← invoke f [state, ← top (position + 2)] ⟨sites, position + 4⟩
    receive (position + 4) vs count
  | .eachNext base target => do
    let position := a.base + base
    match ← top (position + 4) with
    | .nil => return .next
    | v =>
      put (position + 2) v
      return .jump target
  | .closure dest number => do
    let code := a.code.functions.getD number .trivial
    let cells ← a.captured code.captures #[]
    a.write dest (.closure (← allocate (·.newClosure ⟨code, cells, a.source⟩)))
  | .varargs dest count => do
    if count.isNone ∧ maxStack < a.limit + a.extras then raise sites "stack overflow"
    receive (a.base + dest) (← taken (a.base - 1 - a.extras) a.extras) count
  | .close first => do
    closeFrom (a.base + first)
    return .next

end Activation

end

end BuildComposition.Script
