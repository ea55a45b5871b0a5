import BuildComposition.Script.Code

/-!
# Drafts

A function while it is assembled.  Instructions are only added at the end, but jumps get their
targets and values their registers later.  Registers are a stack: the local variables in scope stand
at the bottom, values on the way above them.

What does not fit is refused: too many registers, local variables or captured variables in one
function.

## Main definitions

* `Block`, `Draft`: a function while it is assembled
* `Assembly`: actions on a draft and on those of the functions around it
* `emit`, `patch`, `label`: instructions and jumps
* `reserve`, `release`: registers
* `resolve`, `declare`: variables
-/

namespace BuildComposition.Script

namespace Assembly

/-- A block of statements. -/
structure Block where
  /-- The number of variables outside. -/
  level : Nat
  isLoop : Bool
  /-- A function inside captures a variable of the block. -/
  captured : Bool
  /-- The block stands in a loop over an iteration. -/
  inIteration : Bool
  /-- The jumps to the end of the loop. -/
  exits : List Nat

/-- A function while it is assembled. -/
structure Draft where
  instructions : Array Instruction
  lines : Array Nat
  /-- The last place that a jump is known to lead to. -/
  lastLabel : Nat
  /-- The first constants, which instructions can hold. -/
  constants : List Constant
  /-- The local variables in scope, the last one first; the first one stands in register zero. -/
  locals : List Bytes
  /-- The first free register. -/
  free : Nat
  /-- The number of registers. -/
  frameSize : Nat
  captures : List (Bytes × Capture)
  /-- The blocks around, the innermost first. -/
  blocks : List Block
  functions : Array Code

/-- The block of a whole function. -/
def Block.outermost : Block := ⟨0, false, false, false, []⟩

/-- A function without instructions. -/
def Draft.empty : Draft := ⟨#[], #[], 0, [], [], 0, 2, [], [.outermost], #[]⟩

/-- A draft and those of the functions around it, the innermost first. -/
structure Drafts where
  current : Draft
  outer : List Draft

end Assembly

/-- An action on drafts, unless something does not fit. -/
abbrev Assembly := StateT Assembly.Drafts Option

namespace Assembly

/-- The number of registers that a function has to stay below. -/
def maxRegisters : Nat := 255

/-- The number of local variables that may be in scope. -/
def maxVariables : Nat := 200

/-- The number of variables that a function may capture. -/
def maxCaptures : Nat := 255

/-- The number of constants that an instruction can hold; others go through a register. -/
def maxHeldConstants : Nat := 256

/-- The greatest length of a string that an access can hold as its key. -/
def maxHeldKey : Nat := 40

/-- A part of the draft. -/
def part {α : Type} (f : Draft → α) : Assembly α := return f (← get).current

/-- Changes the draft. -/
def change (f : Draft → Draft) : Assembly Unit := modify fun d => { d with current := f d.current }

/-! ## Instructions -/

/-- Adds an instruction that can fail on a line, and gives its place. -/
def emitAt (line : Nat) (i : Instruction) : Assembly Nat :=
  modifyGet fun d =>
    (d.current.instructions.size,
      { d with
        current.instructions := d.current.instructions.push i
        current.lines := d.current.lines.push line })

/-- Adds an instruction that cannot fail. -/
def emit (i : Instruction) : Assembly Nat := emitAt 0 i

/-- Changes the instruction at a place. -/
def alter (place : Nat) (f : Instruction → Instruction) : Assembly Unit :=
  change fun d => { d with instructions := altered d.instructions place f }

/-- The instruction at a place. -/
def instruction? (place : Nat) : Assembly (Option Instruction) := part (·.instructions[place]?)

/-- Takes the last instruction away. -/
def dropLast : Assembly Unit :=
  change fun d => { d with instructions := d.instructions.pop, lines := d.lines.pop }

/-- The place of the next instruction, which jumps lead to. -/
def label : Assembly Nat :=
  modifyGet fun d =>
    let here := d.current.instructions.size
    (here, { d with current.lastLabel := here })

/-- Lets jumps lead to a place. -/
def patch (target : Nat) : List Nat → Assembly Unit
  | [] => return ()
  | place :: rest => do
    alter place (·.withTarget target)
    patch target rest

/-- Lets jumps lead to the next instruction. -/
def patchHere (places : List Nat) : Assembly Unit := do patch (← label) places

/-! ## Registers -/

/-- Makes sure that so many more registers are there. -/
def require (count : Nat) : Assembly Unit := do
  let size := (← part (·.free)) + count
  if (← part (·.frameSize)) < size then
    if size < maxRegisters then change fun d => { d with frameSize := size } else failure

/-- Takes so many registers. -/
def reserve (count : Nat) : Assembly Unit := do
  require count
  change fun d => { d with free := d.free + count }

/-- Gives a register back, unless a variable stands in it. -/
def release (r : Nat) : Assembly Unit :=
  change fun d => if d.locals.length ≤ r then { d with free := d.free - 1 } else d

/-- Gives back all registers in which no variable stands. -/
def releaseAll : Assembly Unit := change fun d => { d with free := d.locals.length }

/-! ## Constants -/

/-- Two constants are the same; an integer and a double are not. -/
def sameConstant : Constant → Constant → Bool
  | .nil, .nil => true
  | .bool a, .bool b => a == b
  | .int a, .int b => a == b
  | .float x, .float y => x.toBits == y.toBits
  | .str s, .str t => s == t
  | _, _ => false

/-- Notes the use of a constant.  Instructions can hold it if it is one of the first constants of the
function. -/
def useConstant (v : Constant) : Assembly Bool := do
  let constants ← part (·.constants)
  if constants.any (sameConstant v) then return true
  else if constants.length < maxHeldConstants then
    change fun d => { d with constants := v :: constants }
    return true
  else return false

/-! ## Variables -/

/-- The register of a local variable. -/
def Draft.register? (d : Draft) (n : Bytes) : Option Nat :=
  (d.locals.findIdx? (· == n)).map (d.locals.length - 1 - ·)

/-- The number of a captured variable. -/
def Draft.cell? (d : Draft) (n : Bytes) : Option Nat := d.captures.findIdx? (·.1 == n)

/-- The blocks with a mark on the innermost one that a variable belongs to. -/
def markCaptured (variable_ : Nat) : List Block → List Block
  | [] => []
  | b :: rest =>
    if b.level ≤ variable_ then { b with captured := true } :: rest
    else b :: markCaptured variable_ rest

/-- What a name stands for among the variables that a function has or captures so far. -/
def Draft.known? (n : Bytes) (d : Draft) : Option Capture :=
  match d.register? n with
  | some r => some (.register r)
  | none => (d.cell? n).map .cell

/-- Captures a variable of the function around. -/
def Draft.capture? (n : Bytes) (place : Capture) (d : Draft) : Option Draft :=
  if d.captures.length < maxCaptures then some { d with captures := d.captures ++ [(n, place)] }
  else none

/-- The variable at a place is captured by a function inside. -/
def Draft.yield (d : Draft) : Capture → Draft
  | .register r => { d with blocks := markCaptured r d.blocks }
  | .cell _ => d

/-- What a name stands for in a function: a local variable, or else a captured one, which the
functions in between capture as well. -/
def Draft.resolve (n : Bytes) : Draft → List Draft → Option (Option Capture × Draft × List Draft)
  | d, [] => some (d.known? n, d, [])
  | d, e :: rest =>
    match d.known? n with
    | some place => some (some place, d, e :: rest)
    | none => do
      match ← resolve n e rest with
      | (none, e, rest) => return (none, d, e :: rest)
      | (some place, e, rest) =>
        return (some (.cell d.captures.length), ← d.capture? n place, e.yield place :: rest)

/-- What a name stands for. -/
def resolve (n : Bytes) : Assembly (Option Capture) := do
  let d ← get
  let (found, current, outer) ← d.current.resolve n d.outer
  set (Drafts.mk current outer)
  return found

/-- Puts variables into scope, whose registers are the next ones. -/
def declare (names : List Bytes) : Assembly Unit := do
  let count := (← part (·.locals.length)) + names.length
  if maxVariables < count then failure
  else change fun d => { d with locals := names.reverse ++ d.locals }

/-! ## Blocks -/

/-- Begins a block. -/
def enter (isLoop : Bool) : Assembly Unit :=
  change fun d =>
    let inIteration := d.blocks.head?.any (·.inIteration)
    { d with blocks := ⟨d.locals.length, isLoop, false, inIteration, []⟩ :: d.blocks }

/-- Changes the innermost block. -/
def changeBlock (f : Block → Block) : Assembly Unit :=
  change fun d =>
    match d.blocks with
    | [] => d
    | b :: rest => { d with blocks := f b :: rest }

/-- The innermost block. -/
def currentBlock : Assembly Block := return (← part (·.blocks.head?)).getD .outermost

/-- Adds a jump to those that lead to the end of the innermost loop. -/
def addExit (place : Nat) : List Block → List Block
  | [] => []
  | b :: rest =>
    if b.isLoop then { b with exits := place :: b.exits } :: rest else b :: addExit place rest

/-- Ends a block: its variables go out of scope, and the jumps out of a loop lead here. -/
def leave : Assembly Unit := do
  let b ← currentBlock
  change fun d =>
    { d with
      locals := d.locals.drop (d.locals.length - b.level)
      blocks := d.blocks.tail }
  if b.isLoop then patchHere b.exits
  if b.captured then
    discard (emit (.close b.level))
    -- a jump out of a loop around this block passes by here
    unless b.isLoop do changeBlock fun outer => { outer with captured := true }
  releaseAll

/-! ## Functions -/

/-- Begins a function inside the current one. -/
def beginFunction : Assembly Unit :=
  modify fun d => ⟨.empty, d.current :: d.outer⟩

/-- The code of a draft. -/
def Draft.code (d : Draft) (params : Nat) (variadic : Bool) (line : Nat) : Code :=
  ⟨d.instructions, d.lines, params, variadic, line, d.frameSize, d.captures.map (·.2), d.functions⟩

/-- Ends a function inside another one, and gives its number there. -/
def endFunction (params : Nat) (variadic : Bool) (line : Nat) : Assembly Nat := do
  let d ← get
  match d.outer with
  | [] => failure
  | e :: rest =>
    let code := d.current.code params variadic line
    set (Drafts.mk { e with functions := e.functions.push code } rest)
    return e.functions.size

end Assembly

end BuildComposition.Script
