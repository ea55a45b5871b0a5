import BuildComposition.Script.Assembly.Draft

/-!
# Operands

An expression that is assembled leaves an operand: a note of where its value can be had.  The value
is fetched only when something asks for it, so a local variable is read by the instruction that uses
it, after everything that was assembled in between.  Conditions are operands too, with the jumps that
leave them when their outcome is known.

## Main definitions

* `Place`, `Operand`: where a value can be had
* `discharge`, `toNext`, `toAny`, `toArg`: fetching a value
* `access`, `store`: fields of tables and variables
* `goIfTrue`, `goIfFalse`, `invert`: conditions
-/

namespace BuildComposition.Script.Assembly

/-- Where the value of an expression can be had. -/
inductive Place where
  | constant (c : Constant)
  | register (r : Nat)
  /-- A local variable. -/
  | variable (r : Nat)
  /-- A captured variable. -/
  | cell (c : Nat)
  /-- A field of a table in a captured variable. -/
  | cellField (c : Nat) (key : Bytes) (line : Nat)
  /-- A field of a table in a register. -/
  | field (object : Nat) (key : Arg) (line : Nat)
  /-- The outcome of the comparison at a place. -/
  | jump (place : Nat)
  /-- The result of the instruction at a place, which has no register yet. -/
  | pending (place : Nat)
  /-- The results of the call at a place, from a register on. -/
  | call (place base : Nat)
  /-- The further arguments that the instruction at a place fetches. -/
  | varargs (place : Nat)

/-- An expression that is assembled: its place, and the jumps that leave it when it holds and when it
does not. -/
structure Operand where
  place : Place
  yes : List Nat
  no : List Nat

/-- An operand without jumps. -/
def Operand.plain (place : Place) : Operand := ⟨place, [], []⟩

/-- An operand has jumps. -/
def Operand.hasJumps (e : Operand) : Bool := !(e.yes.isEmpty && e.no.isEmpty)

/-- Any number of values can be had. -/
def Operand.isOpen (e : Operand) : Bool :=
  match e.place with
  | .call .. | .varargs _ => true
  | _ => false

/-- Gives back the register of an operand. -/
def free (e : Operand) : Assembly Unit :=
  match e.place with
  | .register r => release r
  | _ => return ()

/-- Gives back the register that an argument stands in. -/
def freeArg : Arg → Assembly Unit
  | .register r => release r
  | _ => return ()

/-! ## Fetching values -/

/-- Asks for exactly one value, as yet without a register unless it has one. -/
def single (e : Operand) : Assembly Operand := do
  match e.place with
  | .call _ base => return { e with place := .register base }
  | .varargs place =>
    alter place (·.withResults (some 1))
    return { e with place := .pending place }
  | _ => return e

/-- Fetches a value from where it cannot stay. -/
def discharge (e : Operand) : Assembly Operand := do
  match e.place with
  | .variable r => return { e with place := .register r }
  | .cell c => return { e with place := .pending (← emit (.move 0 (.cell c))) }
  | .cellField c key line =>
    return { e with
      place := .pending (← emitAt line (.get 0 (.cell c) (.constant (.str key)))) }
  | .field object key line =>
    freeArg key
    release object
    return { e with place := .pending (← emitAt line (.get 0 (.register object) key)) }
  | _ => single e

/-- A constant that an instruction holds whatever it is. -/
def isSmall : Constant → Bool
  | .int n => -65535 ≤ n.toInt && n.toInt ≤ 65536
  | .float x =>
    match exactInt? x with
    | some n => -65535 ≤ n.toInt && n.toInt ≤ 65536
    | none => false
  | .str _ => false
  | _ => true

/-- Puts a value into a register, except for the outcome of a comparison. -/
def putInto (r : Nat) (e : Operand) : Assembly Operand := do
  let e ← discharge e
  match e.place with
  | .jump _ => return e
  | .constant v =>
    unless isSmall v do discard (useConstant v)
    discard (emit (.move r (.constant v)))
  | .pending place => alter place (·.withDestination r)
  | .register s => unless s = r do discard (emit (.move r (.register s)))
  | _ => return e
  return { e with place := .register r }

/-- Completes jumps out of a condition whose value is needed in a register: those that bring the value
along lead to the end, the others to where a truth value is made. -/
def deliver (r target made : Nat) : List Nat → Assembly Unit
  | [] => return ()
  | place :: rest => do
    match ← instruction? place with
    | some (.choose _ source expected _) =>
      if source = r then alter place fun _ => .test source expected target
      else alter place fun _ => .choose r source expected target
    | _ => alter place (·.withTarget made)
    deliver r target made rest

/-- Some jump does not bring a value along. -/
def needsValue : List Nat → Assembly Bool
  | [] => return false
  | place :: rest => do
    match ← instruction? place with
    | some (.choose ..) => needsValue rest
    | _ => return true

/-- Puts a value into a register. -/
def finishIn (r : Nat) (e : Operand) : Assembly Unit := do
  let e ← putInto r e
  let yes := match e.place with
    | .jump place => place :: e.yes
    | _ => e.yes
  if yes.isEmpty && e.no.isEmpty then return
  let mut made := (0, 0)
  if (← needsValue yes) || (← needsValue e.no) then
    -- a value that is there already passes by the truth values
    let past ← match e.place with
      | .jump _ => pure []
      | _ => pure [← emit (.jump 0)]
    discard label
    let no ← emit (.move r (.constant (.bool false)))
    let skip ← emit (.jump 0)
    discard label
    let yes ← emit (.move r (.constant (.bool true)))
    patchHere (skip :: past)
    made := (no, yes)
  let target ← label
  deliver r target made.1 e.no
  deliver r target made.2 yes

/-- Puts a value into the next register. -/
def toNext (e : Operand) : Assembly Nat := do
  let e ← discharge e
  free e
  reserve 1
  let r := (← part (·.free)) - 1
  finishIn r e
  return r

/-- Puts a value into a register, unless it stands in one. -/
def toAny (e : Operand) : Assembly Nat := do
  let e ← discharge e
  match e.place with
  | .register r =>
    if !e.hasJumps then return r
    else if (← part (·.locals.length)) ≤ r then
      finishIn r e
      return r
    else toNext e
  | _ => toNext e

/-- Fetches a value, which may stay in a captured variable. -/
def toAnyOrCell (e : Operand) : Assembly Operand := do
  match e.place, e.hasJumps with
  | .cell _, false => return e
  | _, _ => return .plain (.register (← toAny e))

/-- Fetches a value, which may stay a constant. -/
def toValue (e : Operand) : Assembly Operand := do
  match e.place, e.hasJumps with
  | .jump _, _ | _, true => return .plain (.register (← toAny e))
  | _, false => discharge e

/-- The constant that an operand is, if an instruction can hold it. -/
def heldConstant? (e : Operand) : Assembly (Option Constant) := do
  match e.place, e.hasJumps with
  | .constant v, false => return if ← useConstant v then some v else none
  | _, _ => return none

/-- A value as an argument of an instruction: a constant or a register. -/
def toArg (e : Operand) : Assembly Arg := do
  match ← heldConstant? e with
  | some v => return .constant v
  | none => return .register (← toAny e)

/-- Lets an open operand give so many values, or as many as there are. -/
def setResults (e : Operand) (count : Option Nat) : Assembly Unit := do
  match e.place with
  | .call place _ => alter place (·.withResults count)
  | .varargs place =>
    let r ← part (·.free)
    alter place fun i => (i.withResults count).withDestination r
    reserve 1
  | _ => return ()

/-! ## Fields and variables -/

/-- The key of an access, which stays a constant if it is a short string or a small number. -/
def accessKey (key : Operand) (held : Bool) : Assembly Arg := do
  match key.place with
  | .constant (.str s) =>
    if held then return .constant (.str s) else return .register (← toAny key)
  | .constant (.int n) =>
    if 0 ≤ n.toInt && n.toInt < 256 then return .constant (.int n)
    else return .register (← toAny key)
  | _ => return .register (← toAny key)

/-- The field of a table under a key. -/
def access (object key : Operand) (line : Nat) : Assembly Operand := do
  let held ← match key.place with
    | .constant (.str s) =>
      pure ((← useConstant (.str s)) && s.length ≤ maxHeldKey)
    | _ => pure false
  match object.place, key.place with
  | .cell c, .constant (.str s) =>
    if held then return .plain (.cellField c s line)
    else
      let r ← toAny object
      return .plain (.field r (← accessKey key held) line)
  | _, _ =>
    let r ← toAny object
    return .plain (.field r (← accessKey key held) line)

/-- Gives a variable or a field a value. -/
def store (target : Place) (e : Operand) : Assembly Unit := do
  match target with
  | .variable r =>
    free e
    finishIn r e
  | .cell c =>
    let r ← toAny e
    discard (emit (.assign c r))
    release r
  | .cellField c key line =>
    let value ← toArg e
    discard (emitAt line (.set (.cell c) (.constant (.str key)) value))
    freeArg value
  | .field object key line =>
    let value ← toArg e
    discard (emitAt line (.set (.register object) key value))
    freeArg value
  | _ => return ()

/-! ## Conditions -/

/-- Jumps if a value counts as the expected truth value. -/
def jumpIf (expected : Bool) (e : Operand) : Assembly Nat := do
  let other ← match e.place with
    | .pending place =>
      match ← instruction? place with
      | some (.unary .not _ source) => pure (some source)
      | _ => pure none
    | _ => pure none
  match other with
  | some source =>
    dropLast
    emit (.test source (!expected) 0)
  | none =>
    let e ← match e.place with
      | .register _ => pure e
      | _ =>
        reserve 1
        putInto ((← part (·.free)) - 1) e
    free e
    match e.place with
    | .register r => emit (.choose r r expected 0)
    | _ => failure

/-- Jumps that bring no value along. -/
def dropValues : List Nat → Assembly Unit
  | [] => return ()
  | place :: rest => do
    alter place fun
      | .choose _ source expected target => .test source expected target
      | i => i
    dropValues rest

/-- Goes on if a condition holds, and gives the jumps that leave otherwise. -/
def goIfTrue (e : Operand) : Assembly (List Nat) := do
  let e ← discharge e
  let exits ← match e.place with
    | .jump place =>
      alter place (·.negated)
      pure [place]
    | .constant v => if v.holds then pure [] else pure [← jumpIf false e]
    | _ => pure [← jumpIf false e]
  dropValues e.yes
  patchHere e.yes
  return e.no ++ exits

/-- Goes on if a condition does not hold, and gives the jumps that leave otherwise. -/
def goIfFalse (e : Operand) : Assembly (List Nat) := do
  let e ← discharge e
  let exits ← match e.place with
    | .jump place => pure [place]
    | .constant v => if v.holds then pure [← jumpIf true e] else pure []
    | _ => pure [← jumpIf true e]
  dropValues e.no
  patchHere e.no
  return e.yes ++ exits

/-- The opposite of a condition. -/
def invert (e : Operand) : Assembly Operand := do
  let e ← discharge e
  let place ← match e.place with
    | .constant v => pure (Place.constant (.bool (!v.holds)))
    | .jump place =>
      alter place (·.negated)
      pure (.jump place)
    | _ =>
      let e ← match e.place with
        | .register _ => pure e
        | _ =>
          reserve 1
          putInto ((← part (·.free)) - 1) e
      free e
      match e.place with
      | .register r => pure (.pending (← emit (.unary .not 0 r)))
      | _ => failure
  dropValues e.yes
  dropValues e.no
  return ⟨place, e.no, e.yes⟩

end BuildComposition.Script.Assembly
