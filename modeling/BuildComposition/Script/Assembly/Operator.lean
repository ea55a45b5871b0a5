import BuildComposition.Script.Assembly.Operand
import BuildComposition.Script.Operators

/-!
# Operators on operands

How operators are assembled.  The left operand is prepared once the operator is known, and the
operator itself is assembled after the right operand.  Arithmetic on constants is carried out at
once.  A small constant, or one of the first constants of a function, is part of the instruction; it
takes no register.

## Main definitions

* `prepare`, `complete`: an operator after its left and its right operand
* `applyUnary`: an operator before an operand
-/

namespace BuildComposition.Script.Assembly

/-- The number that an operand is, if it is a constant. -/
def Operand.numeral? (e : Operand) : Option Constant :=
  match e.place, e.hasJumps with
  | .constant (.int n), false => some (.int n)
  | .constant (.float x), false => some (.float x)
  | _, _ => none

/-- An integer is part of an instruction. -/
def fitsInstruction (n : Int) : Bool := -127 ≤ n && n ≤ 128

/-- The small integer that an operand is. -/
def Operand.smallInteger? (e : Operand) : Option Int :=
  match e.numeral? with
  | some (.int n) => if fitsInstruction n.toInt then some n.toInt else none
  | _ => none

/-- The small number without a fraction that an operand is. -/
def Operand.smallNumber? (e : Operand) : Option Constant :=
  match e.numeral? with
  | some (.int n) => if fitsInstruction n.toInt then some (.int n) else none
  | some (.float x) =>
    match exactInt? x with
    | some n => if fitsInstruction n.toInt then some (.float x) else none
    | none => none
  | _ => none

/-- The left operand of an operator, as it is kept while the right one is assembled. -/
def prepare (op : InfixOp) (e : Operand) : Assembly Operand := do
  let e ← discharge e
  match op with
  | .conj => return ⟨e.place, [], ← goIfTrue e⟩
  | .disj => return ⟨e.place, ← goIfFalse e, []⟩
  | .concat => return .plain (.register (← toNext e))
  | .arithmetic _ =>
    match e.numeral? with
    | some _ => return e
    | none => return .plain (.register (← toAny e))
  | .equal | .notEqual =>
    match e.numeral? with
    | some _ => return e
    | none =>
      match ← heldConstant? e with
      | some v => return .plain (.constant v)
      | none => return .plain (.register (← toAny e))
  | .less | .lessEqual | .greater | .greaterEqual =>
    match e.smallNumber? with
    | some _ => return e
    | none => return .plain (.register (← toAny e))

/-- The result of an instruction whose arguments are no longer needed. -/
def result (line : Nat) (i : Instruction) (args : List Arg) : Assembly Nat := do
  let place ← emitAt line i
  args.forM freeArg
  return place

/-- The constant that the second operand of arithmetic is, if the instruction holds it. -/
def heldOperand? (op : ArithmeticOp) (e : Operand) : Assembly (Option Constant) := do
  match e.numeral?, e.smallInteger? with
  | none, _ => return none
  | some v, some n =>
    match op with
    | .add => return some v
    | .subtract => if fitsInstruction (-n) then return some v else heldConstant? e
    | _ => heldConstant? e
  | some _, none => heldConstant? e

/-- Arithmetic that is left for when the script runs. -/
def arithmeticAt (line : Nat) (op : ArithmeticOp) (left right : Operand) : Assembly Operand := do
  let commutes := match op with
    | .add | .multiply => left.numeral?.isSome
    | _ => false
  let (a, b) ←
    if commutes then
      match ← heldOperand? op left with
      | some v => pure (.constant v, .register (← toAny right))
      | none => inRegisters
    else
      match ← heldOperand? op right with
      | some v => pure (.register (← toAny left), .constant v)
      | none => inRegisters
  return .plain (.pending (← result line (.arithmetic op 0 a b) [a, b]))
where
  /-- Both operands in registers, the right one fetched first. -/
  inRegisters : Assembly (Arg × Arg) := do
    let b ← toAny right
    return (.register (← toAny left), .register b)

/-- The comparison of two values for equality. -/
def equality (expected : Bool) (left right : Operand) : Assembly Operand := do
  let (left, right) := match left.place with
    | .register _ => (left, right)
    | _ => (right, left)
  let a ← Arg.register <$> toAny left
  let b ← match right.smallNumber? with
    | some v => pure (.constant v)
    | none => toArg right
  return .plain (.jump (← result 0 (.compare .equal a b expected 0) [a, b]))

/-- The comparison of two values for their order. -/
def ordering (line : Nat) (relation : Relation) (left right : Operand) : Assembly Operand := do
  let (a, b) ← match right.smallNumber?, left.smallNumber? with
    | some v, _ => pure (.register (← toAny left), .constant v)
    | none, some v => pure (.constant v, .register (← toAny right))
    | none, none =>
      let a ← toAny left
      pure (.register a, .register (← toAny right))
  return .plain (.jump (← result line (.compare relation a b true 0) [a, b]))

/-- The concatenation of a value in a register with another value, which may be a concatenation
itself: the two are one then. -/
def concatenation (line : Nat) (left right : Operand) : Assembly Operand := do
  let r ← toNext right
  let size ← part (·.instructions.size)
  let last ← if (← part (·.lastLabel)) < size then instruction? (size - 1) else pure none
  match left.place with
  | .register first =>
    match last with
    | some (.concat _ count) => alter (size - 1) fun _ => .concat first (count + 1)
    | _ => discard (emitAt line (.concat first 2))
    release r
    return left
  | _ => failure

/-- An operator after its right operand. -/
def complete (op : InfixOp) (line : Nat) (left right : Operand) : Assembly Operand := do
  let right ← discharge right
  match op with
  | .conj => return { right with no := right.no ++ left.no }
  | .disj => return { right with yes := right.yes ++ left.yes }
  | .concat => concatenation line left right
  | .arithmetic op =>
    let folded := match left.numeral?, right.numeral? with
      | some v, some w => foldArithmetic? op v w
      | _, _ => none
    match folded with
    | some v => return .plain (.constant v)
    | none => arithmeticAt line op left right
  | .equal => equality true left right
  | .notEqual => equality false left right
  | .less => ordering line .less left right
  | .lessEqual => ordering line .lessEqual left right
  | .greater => ordering line .less right left
  | .greaterEqual => ordering line .lessEqual right left

/-- An operator before an operand. -/
def applyUnary (op : UnaryOp) (line : Nat) (e : Operand) : Assembly Operand := do
  let e ← discharge e
  match op, e.numeral?.bind foldNegate? with
  | .negate, some v => return .plain (.constant v)
  | .not, _ => invert e
  | op, _ =>
    let r ← toAny e
    return .plain (.pending (← result line (.unary op 0 r) [.register r]))

end BuildComposition.Script.Assembly
