import BuildComposition.Script.Term
import BuildComposition.Script.Token

/-!
# The grammar of scripts

Recursive descent over tokens.  An access gets its line only when its value is needed, which is
after the token that decides so: the line of the last token read by then.

## Main definitions

* `Grammar.Step`: a step over tokens
* `parse?`: the function that a source is
-/

namespace BuildComposition.Script

namespace Grammar

/-- The tokens to come and the line of the last one read. -/
structure Cursor where
  rest : List Lexeme
  last : Nat

/-- A step over tokens, unless it fails. -/
abbrev Step := StateT Cursor Option

/-- What the enclosing function and loops permit, and how deep a place is nested. -/
structure Surroundings where
  variadic : Bool
  inLoop : Bool
  /-- The number of statements, operands and further targets that enclose a place. -/
  level : Nat

/-- The level that nothing may stand on. -/
def maxLevel : Nat := 200

/-- What a whole source permits. -/
def outermost : Surroundings := ⟨true, false, 0⟩

/-- One level deeper. -/
def Surroundings.deeper (s : Surroundings) : Step Surroundings :=
  if s.level + 1 < maxLevel then return { s with level := s.level + 1 } else failure

/-- The next token. -/
def peek : Step (Option Token) := return (← get).rest.head?.map (·.token)

/-- The mark that is the next token. -/
def peekMark : Step (Option Mark) := return (← peek).bind Token.mark?

/-- The line of the next token. -/
def nextLine : Step Nat := do
  let c ← get
  return (c.rest.head?.map (·.line)).getD c.last

/-- The line of the last token read. -/
def lastLine : Step Nat := return (← get).last

/-- Reads any token. -/
def advance : Step Token := do
  match (← get).rest with
  | [] => failure
  | l :: rest =>
    set (Cursor.mk rest l.line)
    return l.token

/-- Reads a mark if it comes next. -/
def accept (m : Mark) : Step Bool := do
  if (← peekMark) = some m then
    discard advance
    return true
  else return false

/-- Reads a mark. -/
def expect (m : Mark) : Step Unit := do
  unless ← accept m do failure

/-- Reads a separator of fields if one comes next. -/
def separator : Step Bool := do
  if ← accept .comma then return true
  accept .semicolon

/-- Reads a name. -/
def name : Step Bytes := do
  match ← advance with
  | .name n => return n
  | _ => failure

/-- No statement can follow within the block. -/
def atBlockEnd : Step Bool := do
  if (← get).rest.isEmpty then return true
  match ← peekMark with
  | some .elseWord | some .elseifWord | some .endWord | some .untilWord => return true
  | _ => return false

/-- The value of an expression is needed now. -/
def settled (e : Expr) : Step Expr := return e.settle (← lastLine)

/-- The expressions with another line for the last one. -/
def settleLast (line : Nat) : List Expr → List Expr
  | [] => []
  | [e] => [e.settle line]
  | e :: es => e :: settleLast line es

/-- The value of the last expression is needed now. -/
def settledLast (es : List Expr) : Step (List Expr) := return settleLast (← lastLine) es

/-- The operator of a mark, with its binding power to the left and to the right. -/
def infix? : Mark → Option (InfixOp × Nat × Nat)
  | .orWord => some (.disj, 1, 1)
  | .andWord => some (.conj, 2, 2)
  | .less => some (.less, 3, 3)
  | .greater => some (.greater, 3, 3)
  | .lessEqual => some (.lessEqual, 3, 3)
  | .greaterEqual => some (.greaterEqual, 3, 3)
  | .notEqual => some (.notEqual, 3, 3)
  | .equal => some (.equal, 3, 3)
  | .concat => some (.concat, 9, 8)
  | .plus => some (.arithmetic .add, 10, 10)
  | .minus => some (.arithmetic .subtract, 10, 10)
  | .times => some (.arithmetic .multiply, 11, 11)
  | .divide => some (.arithmetic .divide, 11, 11)
  | .floorDivide => some (.arithmetic .floorDivide, 11, 11)
  | .modulo => some (.arithmetic .modulo, 11, 11)
  | .power => some (.arithmetic .power, 14, 13)
  | _ => none

/-- A comparison fails on the line on which its right operand ends, anything else on that of the
operator. -/
def failingLine (operatorLine rightLine : Nat) : InfixOp → Nat
  | .less | .lessEqual | .greater | .greaterEqual => rightLine
  | _ => operatorLine

/-- The binding power of the operators before an operand. -/
def unaryPower : Nat := 12

/-- The operator before an operand that a mark is. -/
def unary? : Mark → Option UnaryOp
  | .minus => some .negate
  | .notWord => some .not
  | .hash => some .length
  | _ => none

/-- Operators behind an expression. -/
def operated (first : Expr) : List Application → Expr
  | [] => first
  | rest => .operations first rest

/-- Accesses and calls behind an expression. -/
def suffixed (head : Expr) : List Suffix → Expr
  | [] => head
  | suffixes => .suffixed head suffixes

/-- An expression with suffixes, the last of which comes first here, whose value is needed on a
line. -/
def settleChain (line : Nat) (head : Expr) : List Suffix → Expr × List Suffix
  | [] => (head.settle line, [])
  | s :: taken => (head, s.settle line :: taken)

/-- Names with commas between them, behind those read already, which are kept in reverse. -/
def names : Nat → List Bytes → Step (List Bytes)
  | 0, _ => failure
  | fuel + 1, taken => do
    let taken := (← name) :: taken
    if ← accept .comma then names fuel taken else return taken.reverse

/-- The parameters of a function up to the closing parenthesis, whether it takes any number of
further arguments, and the line on which they end. -/
def params : Nat → List Bytes → Step (List Bytes × Bool × Nat)
  | 0, _ => failure
  | fuel + 1, taken => do
    if ← accept .ellipsis then
      let line ← lastLine
      expect .closeParen
      return (taken.reverse, true, line)
    let taken := (← name) :: taken
    if ← accept .comma then params fuel taken
    else
      let line ← lastLine
      expect .closeParen
      return (taken.reverse, false, line)

/-- The name of a function behind its first part: the variable or field that it names, and whether
it is a method. -/
def functionName : Nat → Expr → List Suffix → Step (Expr × Bool)
  | 0, _, _ => failure
  | fuel + 1, head, taken => do
    let access : Step (Expr × List Suffix) := do
      let (head, taken) := settleChain (← lastLine) head taken
      discard advance
      let n ← name
      return (head, .field n (← lastLine) :: taken)
    match ← peekMark with
    | some .dot =>
      let (head, taken) ← access
      functionName fuel head taken
    | some .colon =>
      let (head, taken) ← access
      return (suffixed head taken.reverse, true)
    | _ => return (suffixed head taken.reverse, false)

/-- The fields of a table with the pending item, whose value is needed on a line. -/
def closeItem (line : Nat) (taken : List Field) : Option Expr → List Field
  | none => taken
  | some e => .item (e.settle line) :: taken

mutual

/-- Expressions with commas between them, behind those read already; the last one is not settled. -/
def exprs (s : Surroundings) : Nat → List Expr → Step (List Expr)
  | 0, _ => failure
  | fuel + 1, taken => do
    let e ← subexpr s fuel 0
    if ← accept .comma then
      let e ← settled e
      exprs s fuel (e :: taken)
    else return (e :: taken).reverse

/-- An operand with all operators of more than some binding power. -/
def subexpr (s : Surroundings) : Nat → Nat → Step Expr
  | 0, _ => failure
  | fuel + 1, limit => do
    let s ← s.deeper
    match (← peekMark).bind unary? with
    | some op =>
      let line ← nextLine
      discard advance
      let e ← settled (← subexpr s fuel unaryPower)
      operators s fuel limit (.unary op e line) []
    | none => operators s fuel limit (← simple s fuel) []

/-- The operators of more than some binding power behind an operand. -/
def operators (s : Surroundings) : Nat → Nat → Expr → List Application → Step Expr
  | 0, _, _, _ => failure
  | fuel + 1, limit, first, taken => do
    match (← peekMark).bind infix? with
    | some (op, leftPower, rightPower) =>
      if limit < leftPower then
        -- the left operand is needed once the operator is read, the right one at its own end
        let line ← nextLine
        discard advance
        let right ← settled (← subexpr s fuel rightPower)
        let application := .mk op right (failingLine line (← lastLine) op)
        operators s fuel limit (if taken.isEmpty then first.settle line else first)
          (application :: taken)
      else return operated first taken.reverse
    | none => return operated first taken.reverse

/-- An expression without operators. -/
def simple (s : Surroundings) : Nat → Step Expr
  | 0 => failure
  | fuel + 1 => do
    match ← peek with
    | some (.number v) => discard advance; return .constant v
    | some (.string t) => discard advance; return .constant (.str t)
    | some (.mark .nilWord) => discard advance; return .constant .nil
    | some (.mark .trueWord) => discard advance; return .constant (.bool true)
    | some (.mark .falseWord) => discard advance; return .constant (.bool false)
    | some (.mark .ellipsis) =>
      let line ← lastLine
      if s.variadic then discard advance; return .varargs line else failure
    | some (.mark .openBrace) => return .table (← tableFields s fuel)
    | some (.mark .functionWord) =>
      discard advance
      return .function (← functionBody s.level [] fuel)
    | _ => suffixedExpr s fuel

/-- A name or an expression in parentheses with the accesses and calls behind it. -/
def suffixedExpr (s : Surroundings) : Nat → Step Expr
  | 0 => failure
  | fuel + 1 => do
    if ← accept .openParen then
      let e ← subexpr s fuel 0
      expect .closeParen
      suffixes s fuel (.paren (← settled e)) []
    else
      let n ← name
      suffixes s fuel (.name n (← lastLine)) []

/-- The accesses and calls behind an expression. -/
def suffixes (s : Surroundings) : Nat → Expr → List Suffix → Step Expr
  | 0, _, _ => failure
  | fuel + 1, head, taken => do
    match ← peek with
    | some (.mark .dot) =>
      let (head, taken) := settleChain (← lastLine) head taken
      discard advance
      let n ← name
      suffixes s fuel head (.field n (← lastLine) :: taken)
    | some (.mark .openBracket) =>
      let (head, taken) := settleChain (← lastLine) head taken
      discard advance
      let key ← settled (← subexpr s fuel 0)
      expect .closeBracket
      suffixes s fuel head (.index key (← lastLine) :: taken)
    | some (.mark .colon) =>
      discard advance
      let n ← name
      let nameLine ← lastLine
      let (head, taken) := settleChain nameLine head taken
      let line ← nextLine
      let args ← arguments s fuel
      suffixes s fuel head (.method n nameLine args line :: taken)
    | some (.mark .openParen) | some (.mark .openBrace) | some (.string _) =>
      let (head, taken) := settleChain (← lastLine) head taken
      let line ← nextLine
      let args ← arguments s fuel
      suffixes s fuel head (.call args line :: taken)
    | _ => return suffixed head taken.reverse

/-- The arguments of a call. -/
def arguments (s : Surroundings) : Nat → Step (List Expr)
  | 0 => failure
  | fuel + 1 => do
    match ← peek with
    | some (.string t) => discard advance; return [.constant (.str t)]
    | some (.mark .openBrace) => return [.table (← tableFields s fuel)]
    | some (.mark .openParen) =>
      discard advance
      if ← accept .closeParen then return []
      let args ← exprs s fuel []
      expect .closeParen
      settledLast args
    | _ => failure

/-- The fields of a table from its opening brace to its closing one. -/
def tableFields (s : Surroundings) : Nat → Step (List Field)
  | 0 => failure
  | fuel + 1 => do
    expect .openBrace
    fields s fuel none []

/-- The fields of a table up to its closing brace.  An item is needed once the separator behind it
is read, and the last item at the closing brace, also if a separator stands before that. -/
def fields (s : Surroundings) : Nat → Option Expr → List Field → Step (List Field)
  | 0, _, _ => failure
  | fuel + 1, pending, taken => do
    if ← accept .closeBrace then return (closeItem (← lastLine) taken pending).reverse
    let taken := closeItem (← lastLine) taken pending
    let (pending, taken) ← match ← field s fuel with
      | .inl e => pure (some e, taken)
      | .inr f => pure (none, f :: taken)
    if ← separator then fields s fuel pending taken
    else
      expect .closeBrace
      return (closeItem (← lastLine) taken pending).reverse

/-- A field of a table: an item that is not settled yet, or an entry. -/
def field (s : Surroundings) : Nat → Step (Sum Expr Field)
  | 0 => failure
  | fuel + 1 => do
    match (← get).rest with
    | ⟨.mark .openBracket, _⟩ :: _ =>
      discard advance
      let key ← settled (← subexpr s fuel 0)
      expect .closeBracket
      expect .assign
      let value ← settled (← subexpr s fuel 0)
      return .inr (.entry key value (← lastLine))
    | ⟨.name n, _⟩ :: ⟨.mark .assign, _⟩ :: _ =>
      discard advance
      discard advance
      let value ← settled (← subexpr s fuel 0)
      return .inr (.entry (.constant (.str n)) value (← lastLine))
    | ⟨.name n, _⟩ :: next :: rest =>
      -- that no entry begins here is seen at the token behind the name, on whose line it then is
      modify fun c => { c with rest := ⟨.name n, next.line⟩ :: next :: rest }
      return .inl (← subexpr s fuel 0)
    | _ => return .inl (← subexpr s fuel 0)

/-- A function from its parameters to its end, with parameters that are not written. -/
def functionBody (level : Nat) (implicit : List Bytes) : Nat → Step Function
  | 0 => failure
  | fuel + 1 => do
    expect .openParen
    let (ps, variadic, line) ←
      if ← accept .closeParen then pure ([], false, ← lastLine) else params (fuel + 1) []
    let body ← block ⟨variadic, false, level⟩ fuel []
    expect .endWord
    return .mk (implicit ++ ps) variadic body line

/-- The statements of a block, behind those read already. -/
def block (s : Surroundings) : Nat → List Stmt → Step (List Stmt)
  | 0, _ => failure
  | fuel + 1, taken => do
    if ← atBlockEnd then return taken.reverse
    if ← accept .returnWord then
      let s ← s.deeper
      let values ←
        if (← atBlockEnd) || (← peekMark) = some .semicolon then pure []
        else settledLast (← exprs s fuel [])
      discard (accept .semicolon)
      -- nothing may follow in the block
      if ← atBlockEnd then return (.give values :: taken).reverse else failure
    if ← accept .semicolon then
      discard s.deeper
      block s fuel taken
    else
      let stmt ← statement s fuel
      block s fuel (stmt :: taken)

/-- A statement. -/
def statement (s : Surroundings) : Nat → Step Stmt
  | 0 => failure
  | fuel + 1 => do
    let s ← s.deeper
    let line ← nextLine
    match ← peekMark with
    | some .ifWord => discard advance; clauses s fuel []
    | some .whileWord =>
      discard advance
      let condition ← settled (← subexpr s fuel 0)
      expect .doWord
      let body ← block { s with inLoop := true } fuel []
      expect .endWord
      return .whileLoop condition body
    | some .doWord =>
      discard advance
      let body ← block s fuel []
      expect .endWord
      return .block body
    | some .forWord => discard advance; loop s fuel
    | some .repeatWord =>
      discard advance
      let body ← block { s with inLoop := true } fuel []
      expect .untilWord
      return .repeatLoop body (← settled (← subexpr s fuel 0))
    | some .functionWord =>
      discard advance
      let n ← name
      let (target, isMethod) ← functionName (fuel + 1) (.name n (← lastLine)) []
      let f ← functionBody s.level (if isMethod then [bytes "self"] else []) fuel
      -- the function is stored on the line of its first word
      return .assign [target.settle line] [.function f]
    | some .localWord =>
      discard advance
      if ← accept .functionWord then
        let n ← name
        return .bindFunction n (← functionBody s.level [] fuel)
      let ns ← names (fuel + 1) []
      if ← accept .assign then return .bind ns (← settledLast (← exprs s fuel []))
      return .bind ns []
    | some .breakWord =>
      discard advance
      if s.inLoop then return .leave else failure
    | _ =>
      let e ← suffixedExpr s fuel
      match ← peekMark with
      | some .assign | some .comma =>
        let (targets, s) ← targets s fuel e []
        expect .assign
        let values ← settledLast (← exprs s fuel [])
        let line ← lastLine
        return .assign (targets.map (·.settle line)) values
      | _ => if e.isCall then return .eval e else failure

/-- The targets of an assignment, the first of which is read, and the place behind them: every
further target stands one level deeper. -/
def targets (s : Surroundings) : Nat → Expr → List Expr → Step (List Expr × Surroundings)
  | 0, _, _ => failure
  | fuel + 1, e, taken => do
    unless e.isTarget do failure
    if ← accept .comma then
      let next ← suffixedExpr s fuel
      targets (← s.deeper) fuel next (e :: taken)
    else return ((e :: taken).reverse, s)

/-- A conditional statement after its first word, behind the clauses read already. -/
def clauses (s : Surroundings) : Nat → List Clause → Step Stmt
  | 0, _ => failure
  | fuel + 1, taken => do
    let condition ← subexpr s fuel 0
    expect .thenWord
    -- a condition is needed once it is known to end
    let condition ← settled condition
    let taken := .mk condition (← block s fuel []) :: taken
    if ← accept .elseifWord then clauses s fuel taken
    else
      let otherwise ← if ← accept .elseWord then block s fuel [] else pure []
      expect .endWord
      return .branch taken.reverse otherwise

/-- A loop over a range or an iteration, after its first word. -/
def loop (s : Surroundings) : Nat → Step Stmt
  | 0 => failure
  | fuel + 1 => do
    let ns ← names (fuel + 1) []
    match ns, ← accept .assign with
    | [n], true =>
      let start ← settled (← subexpr s fuel 0)
      expect .comma
      let limit ← settled (← subexpr s fuel 0)
      let step ←
        if ← accept .comma then settled (← subexpr s fuel 0) else pure (.constant (.int 1))
      expect .doWord
      let line ← lastLine
      let body ← block { s with inLoop := true } fuel []
      expect .endWord
      return .rangeLoop n start limit step body line
    | ns, false =>
      expect .inWord
      -- the iteration is called on the line of the first token behind the word
      let callLine ← nextLine
      let values ← settledLast (← exprs s fuel [])
      expect .doWord
      let line ← lastLine
      let body ← block { s with inLoop := true } fuel []
      expect .endWord
      return .eachLoop ns values body callLine line
    | _, _ => failure

end

/-- A whole source. -/
def chunk (fuel : Nat) : Step (List Stmt) := do
  let body ← block outermost fuel []
  if (← get).rest.isEmpty then return body else failure

end Grammar

/-- The function that a source is.  No rule calls more than ten others before a token is read, so
the number of tokens bounds how deep the rules nest. -/
def parse? (source : String) : Option Function := do
  let tokens ← tokens? source
  let (body, _) ← (Grammar.chunk (10 * tokens.length + 10)).run ⟨tokens, 1⟩
  return .mk [] true body 1

end BuildComposition.Script
