import BuildComposition.Script.Numeral
import BuildComposition.Script.Term

/-!
# Operators on values

Arithmetic on integers wraps around; division and powers are on doubles, and so is everything with
one double among the operands.  A string stands for the number that it spells in arithmetic, and a
number for its text in concatenation.

## Main definitions

* `arithmetic`, `negate`, `concat`, `Relation.holds`: the operators, with the wording of their failures
* `foldArithmetic?`: arithmetic on constants
-/

namespace BuildComposition.Script

/-- The number that a value stands for in arithmetic. -/
def number? : Value → Option Value
  | .int n => some (.int n)
  | .float x => some (.float x)
  | .str s => Numeral.ofText? s
  | _ => none

/-- The integer that a value stands for. -/
def integer? (v : Value) : Option Int64 :=
  match number? v with
  | some (.int n) => some n
  | some (.float x) => exactInt? x
  | _ => none

/-- The double closest to an integer. -/
def toDouble (n : Int64) : Float := Binary64.ofInt n.toInt

/-- The doubles that two numbers stand for. -/
def doubles : Value → Value → Float × Float
  | .int a, .float y => (toDouble a, y)
  | .float x, .int b => (x, toDouble b)
  | .float x, .float y => (x, y)
  | .int a, .int b => (toDouble a, toDouble b)
  | _, _ => (0, 0)

/-- Arithmetic on two integers, if it stays among integers. -/
def onIntegers (op : ArithmeticOp) (a b : Int64) : Except String (Option Value) :=
  match op with
  | .add => .ok (some (.int (a + b)))
  | .subtract => .ok (some (.int (a - b)))
  | .multiply => .ok (some (.int (a * b)))
  | .floorDivide =>
    if b = 0 then .error "attempt to perform 'n//0'"
    else .ok (some (.int (Int64.ofInt (a.toInt.fdiv b.toInt))))
  | .modulo =>
    if b = 0 then .error "attempt to perform 'n%%0'"
    else .ok (some (.int (Int64.ofInt (a.toInt.fmod b.toInt))))
  | .divide | .power => .ok none

/-- Arithmetic on two doubles.  A square is a product. -/
def onDoubles (op : ArithmeticOp) (x y : Float) : Float :=
  match op with
  | .add => x + y
  | .subtract => x - y
  | .multiply => x * y
  | .divide => x / y
  | .floorDivide => (x / y).floor
  | .modulo => Binary64.floorMod x y
  | .power => if y == 2 then x * x else x.pow y

/-- Arithmetic on two numbers. -/
def onNumbers (op : ArithmeticOp) (a b : Value) : Except String Value := do
  let exact ← match a, b with
    | .int a, .int b => onIntegers op a b
    | _, _ => .ok none
  match exact with
  | some r => .ok r
  | none => let (x, y) := doubles a b; .ok (.float (onDoubles op x y))

/-- Arithmetic on two values. -/
def arithmetic (op : ArithmeticOp) (v w : Value) : Except String Value :=
  match number? v, number? w with
  | some a, some b => onNumbers op a b
  | none, _ => .error s!"attempt to perform arithmetic on a {v.kind.scriptName} value"
  | _, none => .error s!"attempt to perform arithmetic on a {w.kind.scriptName} value"

/-- The negative of a value. -/
def negate (v : Value) : Except String Value :=
  match number? v with
  | some n => .ok (Numeral.negative n)
  | none => .error s!"attempt to perform arithmetic on a {v.kind.scriptName} value"

/-- Two texts in a row. -/
def concat (v w : Value) : Except String Value :=
  match v.text?, w.text? with
  | some s, some t => .ok (.str (s ++ t))
  | none, _ => .error s!"attempt to concatenate a {v.kind.scriptName} value"
  | _, none => .error s!"attempt to concatenate a {w.kind.scriptName} value"

/-- The order of two numbers, unless one is no number. -/
def compareNumbers : Value → Value → Option Ordering
  | .int a, .int b => some (compare a.toInt b.toInt)
  | .float x, .int b => Binary64.compareInt? x b.toInt
  | .int a, .float y => (Binary64.compareInt? y a.toInt).map Ordering.swap
  | .float x, .float y =>
    if x < y then some .lt else if x == y then some .eq else if y < x then some .gt else none
  | _, _ => none

/-- The order of two byte strings. -/
def compareBytes : Bytes → Bytes → Ordering
  | [], [] => .eq
  | [], _ => .lt
  | _, [] => .gt
  | a :: s, b :: t => if a < b then .lt else if b < a then .gt else compareBytes s t

/-- The order of two numbers or two strings. -/
def order (v w : Value) : Except String (Option Ordering) :=
  match v, w with
  | .str s, .str t => .ok (some (compareBytes s t))
  | .int _, .int _ | .int _, .float _ | .float _, .int _ | .float _, .float _ =>
    .ok (compareNumbers v w)
  | _, _ =>
    let (a, b) := (v.kind.scriptName, w.kind.scriptName)
    if a = b then .error s!"attempt to compare two {a} values"
    else .error s!"attempt to compare {a} with {b}"

/-- A comparison of two values. -/
def Relation.holds (relation : Relation) (v w : Value) : Except String Bool :=
  match relation with
  | .equal => .ok (v.equal w)
  | .less => return (← order v w) == some .lt
  | .lessEqual =>
    return match ← order v w with
      | some .lt | some .eq => true
      | _ => false

/-! ## Constants -/

/-- A number that arithmetic on constants may give: neither a zero with a sign nor no number. -/
def Constant.foldable : Constant → Bool
  | .int _ => true
  | .float x => !(x.isNaN || x == 0)
  | _ => false

/-- A number is zero. -/
def Constant.isZero : Constant → Bool
  | .int n => n == 0
  | .float x => x == 0
  | _ => false

/-- Arithmetic on constants, unless it is left for when the script runs. -/
def foldArithmetic? (op : ArithmeticOp) (v w : Constant) : Option Constant :=
  let divides := match op with
    | .divide | .floorDivide | .modulo => true
    | _ => false
  if divides && w.isZero then none
  else
    match v, w with
    | .int _, .int _ | .int _, .float _ | .float _, .int _ | .float _, .float _ =>
      ((onNumbers op v.value w.value).toOption.bind Constant.ofNumber?).filter Constant.foldable
    | _, _ => none

/-- The negative of a constant, unless it is left for when the script runs. -/
def foldNegate? : Constant → Option Constant
  | .int n => some (.int (-n))
  | .float x => some (.float (-x)) |>.filter Constant.foldable
  | _ => none

end BuildComposition.Script
