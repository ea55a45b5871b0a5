import BuildComposition.Script.Value

/-!
# Script terms

Expressions and statements of Lua.  A part that can fail carries the line that its failure is
reported on.  Accesses and calls in a row are a list behind the expression that they start from, and
so are operators of one binding power, so that only brackets and functions make terms deep.

## Main definitions

* `UnaryOp`, `ArithmeticOp`, `Relation`, `InfixOp`: the operators
* `Expr`, `Suffix`, `Application`, `Field`, `Stmt`, `Clause`, `Function`: the terms
* `Expr.settle`: an expression whose value is needed on a line
-/

namespace BuildComposition.Script

/-- Operators before an operand. -/
inductive UnaryOp where
  | negate
  | not
  | length
  deriving DecidableEq, Repr

/-- Operators on two numbers. -/
inductive ArithmeticOp where
  | add
  | subtract
  | multiply
  | divide
  | floorDivide
  | modulo
  | power
  deriving DecidableEq, Repr

/-- Comparisons; the two others are these with the operands exchanged. -/
inductive Relation where
  | equal
  | less
  | lessEqual
  deriving DecidableEq, Repr

/-- Operators between operands. -/
inductive InfixOp where
  | arithmetic (op : ArithmeticOp)
  | concat
  | equal
  | notEqual
  | less
  | lessEqual
  | greater
  | greaterEqual
  | conj
  | disj
  deriving DecidableEq, Repr

mutual

/-- An expression. -/
inductive Expr where
  /-- A constant: `nil`, a truth value, a number or a string. -/
  | constant (c : Constant)
  | varargs (line : Nat)
  | function (f : Function)
  | table (fields : List Field)
  /-- A local variable, or else a field of the environment. -/
  | name (n : Bytes) (line : Nat)
  /-- An expression in parentheses, which has exactly one value. -/
  | paren (e : Expr)
  /-- Accesses and calls in a row. -/
  | suffixed (head : Expr) (suffixes : List Suffix)
  | unary (op : UnaryOp) (e : Expr) (line : Nat)
  /-- Operators, each of which takes what those before it give as its left operand. -/
  | operations (first : Expr) (rest : List Application)

/-- An access to a value or a call of it. -/
inductive Suffix where
  | field (name : Bytes) (line : Nat)
  | index (key : Expr) (line : Nat)
  | call (args : List Expr) (line : Nat)
  /-- A call of a field of an object with the object as first argument. -/
  | method (name : Bytes) (nameLine : Nat) (args : List Expr) (line : Nat)

/-- An operator and its right operand, applied to what stands before them. -/
inductive Application where
  | mk (op : InfixOp) (right : Expr) (line : Nat)

/-- A field of a table constructor. -/
inductive Field where
  /-- The next item of the list. -/
  | item (e : Expr)
  | entry (key value : Expr) (line : Nat)

/-- A statement. -/
inductive Stmt where
  | eval (e : Expr)
  | bind (names : List Bytes) (values : List Expr)
  /-- A local function, which is in scope in its own body. -/
  | bindFunction (name : Bytes) (f : Function)
  | assign (targets values : List Expr)
  /-- The first clause with a condition that holds is run, or else the last block. -/
  | branch (clauses : List Clause) (otherwise : List Stmt)
  | whileLoop (condition : Expr) (body : List Stmt)
  /-- The condition sees the local variables of the body. -/
  | repeatLoop (body : List Stmt) (condition : Expr)
  | rangeLoop (counter : Bytes) (start limit step : Expr) (body : List Stmt) (line : Nat)
  /-- A loop over an iteration, with the line of its calls and that of its beginning. -/
  | eachLoop (names : List Bytes) (values : List Expr) (body : List Stmt) (callLine line : Nat)
  | block (body : List Stmt)
  | give (values : List Expr)
  | leave

/-- A condition and what is run if it holds. -/
inductive Clause where
  | mk (condition : Expr) (body : List Stmt)

/-- A function; the line is that of its parameters. -/
inductive Function where
  | mk (params : List Bytes) (variadic : Bool) (body : List Stmt) (line : Nat)

end

/-- An access whose value is needed on a line. -/
def Suffix.settle (line : Nat) : Suffix → Suffix
  | field n _ => field n line
  | index k _ => index k line
  | s => s

/-- A suffix calls something. -/
def Suffix.isCall : Suffix → Bool
  | call .. | method .. => true
  | _ => false

namespace Expr

/-- The suffixes with another line for the last one. -/
def settleLast (line : Nat) : List Suffix → List Suffix
  | [] => []
  | [s] => [s.settle line]
  | s :: ss => s :: settleLast line ss

/-- An expression whose value is needed on a line. -/
def settle (line : Nat) : Expr → Expr
  | name n _ => name n line
  | suffixed head suffixes => suffixed head (settleLast line suffixes)
  | e => e

/-- The expression is a call. -/
def isCall : Expr → Bool
  | suffixed _ suffixes => suffixes.getLast?.any Suffix.isCall
  | _ => false

/-- The expression can stand on the left of an assignment. -/
def isTarget : Expr → Bool
  | name .. => true
  | suffixed _ suffixes => suffixes.getLast?.any (!·.isCall)
  | _ => false

end Expr

end BuildComposition.Script
