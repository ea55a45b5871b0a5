import BuildComposition.Script.Assembly.Operator

/-!
# Assembly of terms

How expressions and statements become instructions.

## Main definitions

* `Assembly.expr`, `Assembly.stmt`: expressions and statements
* `Function.assemble?`: the code of a function that stands in no other one
-/

namespace BuildComposition.Script

namespace Assembly

/-- The name of the environment, in which names are looked up that are no variables. -/
def environmentName : Bytes := bytes "_ENV"

/-- The number of items that are gathered before they are put into a table. -/
def itemsAtOnce : Nat := 50

/-- The variables that a loop keeps for itself; no name in a script is like this. -/
def hidden (count : Nat) : List Bytes := List.replicate count (bytes "(for state)")

/-- The variable or the field of the environment that a name stands for. -/
def named (n : Bytes) (line : Nat) : Assembly Operand := do
  match ← resolve n with
  | some (.register r) => return .plain (.variable r)
  | some (.cell c) => return .plain (.cell c)
  | none =>
    let environment ← match ← resolve environmentName with
      | some (.register r) => pure (Operand.plain (.variable r))
      | some (.cell c) => pure (Operand.plain (.cell c))
      | none => failure
    access (← toAnyOrCell environment) (.plain (.constant (.str n))) line

/-- A field of a value. -/
def fieldOf (e : Operand) (n : Bytes) (line : Nat) : Assembly Operand := do
  access (← toAnyOrCell e) (.plain (.constant (.str n))) line

/-- The last of several expressions as values of which there can be any number; gives the number of
values behind a register if it is known. -/
def closeValues (base : Nat) (last : Option Operand) : Assembly (Option Nat) := do
  if let some e := last then
    if e.isOpen then
      setResults e none
      return none
    discard (toNext e)
  return some ((← part (·.free)) - (base + 1))

/-- A call of the value in a register with arguments, the last of which is not fetched yet. -/
def callOf (base : Nat) (last : Option Operand) (line : Nat) : Assembly Operand := do
  let count ← closeValues base last
  let place ← emitAt line (.call base count (some 1))
  -- the first result is expected where the function was
  change fun d => { d with free := base + 1 }
  return .plain (.call place base)

/-- Makes so many values out of those that are there, the last of which is not fetched yet. -/
def adjust (wanted given : Nat) (last : Option Operand) : Assembly Unit := do
  match last with
  | some e =>
    if e.isOpen then setResults e (some (wanted + 1 - given))
    else
      discard (toNext e)
      if given < wanted then clearNext
  | none => if given < wanted then clearNext
  if given < wanted then reserve (wanted - given)
  else change fun d => { d with free := d.free - (given - wanted) }
where
  /-- Gives the missing values. -/
  clearNext : Assembly Unit := do
    discard (emit (.clear (← part (·.free)) (wanted - given)))

/-- A method of a value, with the value as first argument; gives the register of the method. -/
def methodOf (e : Operand) (n : Bytes) (line : Nat) : Assembly Nat := do
  let r ← toAny e
  release r
  let base ← part (·.free)
  reserve 2
  let key ← toArg (.plain (.constant (.str n)))
  discard (emitAt line (.method base r key))
  freeArg key
  return base

/-- Targets of an assignment that read a variable which a later target of it is; they read a copy
instead, in the register `copy`. -/
def useCopy (copy : Nat) (variable_ : Place) (target : Place) : Place :=
  match variable_, target with
  | .cell c, .cellField d key line =>
    if c = d then .field copy (.constant (.str key)) line else target
  | .variable r, .field object key line =>
    let key' := match key with
      | .register k => if k = r then .register copy else key
      | key => key
    .field (if object = r then copy else object) key' line
  | _, target => target

/-- A target reads the given variable. -/
def conflicts (variable_ : Place) (target : Place) : Bool :=
  match variable_, target with
  | .cell c, .cellField d _ _ => c == d
  | .variable r, .field object key _ =>
    object == r || match key with
      | .register k => k == r
      | _ => false
  | _, _ => false

/-- Earlier targets of an assignment behind which a further target follows. -/
def protectTargets (earlier : List Place) (target : Place) : Assembly (List Place) := do
  if earlier.any (conflicts target) then
    let copy ← part (·.free)
    match target with
    | .variable r => discard (emit (.move copy (.register r)))
    | .cell c => discard (emit (.move copy (.cell c)))
    | _ => return earlier
    reserve 1
    return earlier.map (useCopy copy target)
  else return earlier

/-- Gives targets the values in the last registers, the last target first. -/
def storeAll : List Place → Assembly Unit
  | [] => return ()
  | target :: earlier => do
    store target (.plain (.register ((← part (·.free)) - 1)))
    storeAll earlier

/-- Puts pending items behind others into a table. -/
def flushItems (table : Nat) (count : Option Nat) (stored : Nat) : Assembly Unit := do
  discard (emit (.setItems table count stored))
  change fun d => { d with free := table + 1 }

/-- The number of items whose number is known, and the number of entries. -/
def fieldCounts : List Field → Nat × Nat
  | [] => (0, 0)
  | [.item e] =>
    match e with
    | .varargs _ => (0, 0)
    | e => if e.isCall then (0, 0) else (1, 0)
  | .item _ :: rest => let (items, entries) := fieldCounts rest; (items + 1, entries)
  | .entry .. :: rest => let (items, entries) := fieldCounts rest; (items, entries + 1)

mutual

/-- An expression. -/
def expr : Expr → Assembly Operand
  | .constant v => return .plain (.constant v)
  | .varargs line => return .plain (.varargs (← emitAt line (.varargs 0 (some 1))))
  | .function f => function f
  | .table fs => do
    let (items, entries) := fieldCounts fs
    let r ← part (·.free)
    discard (emit (.newTable r items entries))
    reserve 1
    fields r none 0 0 fs
    return .plain (.register r)
  | .name n line => named n line
  | .paren e => do discharge (← expr e)
  | .suffixed head rest => do suffixes (← expr head) rest
  | .unary op e line => do applyUnary op line (← expr e)
  | .operations first rest => do operations (← expr first) rest

/-- Accesses and calls in a row. -/
def suffixes (e : Operand) : List Suffix → Assembly Operand
  | [] => return e
  | .field n line :: rest => do suffixes (← fieldOf e n line) rest
  | .index key line :: rest => do
    let object ← toAnyOrCell e
    let key ← toValue (← expr key)
    suffixes (← access object key line) rest
  | .call args line :: rest => do
    let base ← toNext e
    suffixes (← callOf base (← exprs args) line) rest
  | .method n nameLine args line :: rest => do
    let base ← methodOf e n nameLine
    suffixes (← callOf base (← exprs args) line) rest

/-- Operators in a row. -/
def operations (left : Operand) : List Application → Assembly Operand
  | [] => return left
  | .mk op right line :: rest => do
    let left ← prepare op left
    operations (← complete op line left (← expr right)) rest

/-- Expressions in a row: all but the last one are put into registers. -/
def exprs : List Expr → Assembly (Option Operand)
  | [] => return none
  | e :: rest => do
    let e ← expr e
    match rest with
    | [] => return some e
    | rest =>
      discard (toNext e)
      exprs rest

/-- The fields of a table behind a pending item, where so many items are gathered and so many are in
the table. -/
def fields (table : Nat) (pending : Option Operand) (gathered stored : Nat) :
    List Field → Assembly Unit
  | [] => do
    if gathered = 0 then return
    match pending with
    | some e =>
      if e.isOpen then
        setResults e none
        flushItems table none stored
      else
        discard (toNext e)
        flushItems table (some gathered) stored
    | none => flushItems table (some gathered) stored
  | f :: rest => do
    let (gathered, stored) ← match pending with
      | none => pure (gathered, stored)
      | some e =>
        discard (toNext e)
        if gathered = itemsAtOnce then
          flushItems table (some gathered) stored
          pure (0, stored + gathered)
        else pure (gathered, stored)
    match f with
    | .item e => fields table (some (← expr e)) (gathered + 1) stored rest
    | .entry key value line =>
      let free ← part (·.free)
      let key ← toValue (← expr key)
      let target ← access (.plain (.register table)) key line
      store target.place (← expr value)
      change fun d => { d with free }
      fields table none gathered stored rest

/-- A function inside the current one. -/
def function : Function → Assembly Operand
  | .mk params variadic body line => do
    beginFunction
    declare params
    reserve params.length
    stmts body
    discard (emit (.give (← part (·.locals.length)) (some 0)))
    let number ← endFunction params.length variadic line
    return .plain (.register (← toNext (.plain (.pending (← emit (.closure 0 number))))))

/-- The targets of an assignment behind others, the last one first. -/
def targets (earlier : List Place) : List Expr → Assembly (List Place)
  | [] => return earlier
  | e :: rest => do
    let target := (← expr e).place
    targets (target :: (← protectTargets earlier target)) rest

/-- A statement. -/
def stmt : Stmt → Assembly Unit
  | .eval e => do setResults (← expr e) (some 0)
  | .bind names values => do
    adjust names.length values.length (← exprs values)
    declare names
  | .bindFunction n f => do
    declare [n]
    discard (function f)
  | .assign lefts values => do
    let places ← targets [] lefts
    let last ← exprs values
    match places, last with
    | target :: earlier, some e =>
      if values.length = lefts.length then
        store target (← single e)
        storeAll earlier
      else
        adjust lefts.length values.length last
        storeAll places
    | _, _ => failure
  | .branch cs otherwise => do
    let exits ← clauses [] cs
    enter false
    stmts otherwise
    leave
    patchHere exits
  | .whileLoop condition body => do
    let start ← label
    let exits ← goIfTrue (← expr condition)
    enter true
    enter false
    stmts body
    leave
    discard (emit (.jump start))
    leave
    patchHere exits
  | .repeatLoop body condition => do
    let start ← label
    enter true
    enter false
    stmts body
    let again ← goIfTrue (← expr condition)
    let b ← currentBlock
    leave
    if b.captured then
      -- also another round gives the variables of the body places of their own
      let exit ← emit (.jump 0)
      patchHere again
      discard (emit (.close b.level))
      patch start [← emit (.jump 0)]
      patchHere [exit]
    else patch start again
    leave
  | .rangeLoop counter start limit step body line => do
    enter true
    let base ← part (·.free)
    discard (toNext (← expr start))
    discard (toNext (← expr limit))
    discard (toNext (← expr step))
    declare (hidden 3)
    let first ← emitAt line (.rangeStart base 0)
    enter false
    declare [counter]
    reserve 1
    enter false
    stmts body
    leave
    leave
    discard label
    discard (emit (.rangeNext base (first + 1)))
    patchHere [first]
    leave
  | .eachLoop names values body callLine line => do
    enter true
    let base ← part (·.free)
    adjust 4 values.length (← exprs values)
    declare (hidden 4)
    changeBlock fun b => { b with captured := true, inIteration := true }
    require 3
    let first ← emitAt line (.eachStart base 0)
    enter false
    declare names
    reserve names.length
    enter false
    stmts body
    leave
    leave
    patchHere [first]
    discard (emitAt callLine (.eachCall base names.length))
    discard (emit (.eachNext base (first + 1)))
    leave
  | .block body => do
    enter false
    stmts body
    leave
  | .give values => do
    let first ← part (·.locals.length)
    match ← exprs values with
    | none => discard (emit (.give first (some 0)))
    | some e =>
      if e.isOpen then
        setResults e none
        let block ← currentBlock
        match e.place, values with
        | .call place _, [_] => unless block.inIteration do alter place (·.asTail)
        | _, _ => pure ()
        discard (emit (.give first none))
      else
        match values with
        | [_] => discard (emit (.give (← toAny e) (some 1)))
        | values =>
          discard (toNext e)
          discard (emit (.give first (some values.length)))
  | .leave => do
    let exit ← emit (.jump 0)
    change fun d => { d with blocks := addExit exit d.blocks }

/-- Statements in order; what registers a statement took is given back behind it. -/
def stmts : List Stmt → Assembly Unit
  | [] => return ()
  | s :: rest => do
    stmt s
    releaseAll
    stmts rest

/-- The clauses of a conditional statement; gives the jumps to its end. -/
def clauses (exits : List Nat) : List Clause → Assembly (List Nat)
  | [] => return exits
  | .mk condition body :: rest => do
    let skip ← goIfTrue (← expr condition)
    enter false
    stmts body
    leave
    let exit ← emit (.jump 0)
    patchHere skip
    clauses (exit :: exits) rest

end

end Assembly

/-- The code of a function that stands in no other one.  It captures the environment. -/
def Function.assemble? : Function → Option Code
  | .mk params variadic body line => do
    let start : Assembly.Draft :=
      { Assembly.Draft.empty with captures := [(Assembly.environmentName, .cell 0)] }
    let act : Assembly Unit := do
      Assembly.declare params
      Assembly.reserve params.length
      Assembly.stmts body
      discard (Assembly.emit (.give (← Assembly.part (·.locals.length)) (some 0)))
    let (_, drafts) ← act.run ⟨start, []⟩
    return drafts.current.code params.length variadic line

end BuildComposition.Script
