import BuildComposition.Script.Memory
import BuildComposition.Session

/-!
# The machine that runs scripts

A script runs on memory, on a stack that holds the registers of all functions that run, and on a host
that performs its requests.  Running can be interrupted: by an error that the script raised, which a
protected call catches, or by the bound on the number of steps, which nothing catches.

A captured variable stands on the stack as long as the block that declares it runs, so that the
function itself reads it there; then it gets a place of its own in memory.

## Main definitions

* `Host`: something that performs requests
* `Machine`, `Run`: memory, stack and host, and actions on them
* `Site`, `Caller`, `raise`: positions in sources and errors with a position
* `captureAt`, `closeFrom`, `readCell`, `writeCell`: captured variables
-/

namespace BuildComposition.Script

/-- Something that performs requests or refuses them. -/
class Host (σ : Type) where
  perform : σ → Request → Except Refusal σ

/-- The host of a script that runs on its own: no descriptor is ever running. -/
instance : Host Unit := ⟨fun _ r => .error (.noDescriptor r.operation)⟩

instance : Host Session := ⟨Session.perform⟩

instance {s : Session} : Host (Performed s) := ⟨Performed.perform⟩

/-- Memory, stack and host. -/
structure Machine (σ : Type) where
  memory : Memory
  stack : Array Value
  /-- The captured variables on the stack with their positions, the topmost first. -/
  captured : List (Nat × Nat)
  host : σ

/-- Why running was interrupted. -/
inductive Fault where
  /-- An error with a value. -/
  | thrown (v : Value)
  /-- The bound on the number of steps. -/
  | exhausted

/-- An action on memory, stack and host. -/
abbrev Run (σ : Type) := EStateM Fault (Machine σ)

/-- A line of a source. -/
structure Site where
  source : Bytes
  line : Nat

/-- Where the functions that run stand, by their level: the innermost has level one.  A function of
the library stands nowhere. -/
abbrev Sites := Nat → Option Site

namespace Sites

/-- No function runs. -/
def none : Sites := fun _ => Option.none

/-- So many functions that stand nowhere run on top of others. -/
def below (count : Nat) (sites : Sites) : Sites := fun level =>
  if level ≤ count then Option.none else sites (level - count)

/-- The text of the function at a level, or nothing if it stands nowhere. -/
def text (sites : Sites) (level : Nat) : Bytes :=
  match sites level with
  | some s => s.source ++ bytes s!":{s.line}: "
  | Option.none => []

end Sites

/-- From where a function is called. -/
structure Caller where
  /-- Where the functions that run stand, the calling one first. -/
  sites : Sites
  /-- The first position of the stack that is free. -/
  height : Nat

/-- A call of a function value with arguments. -/
abbrev Invoke (σ : Type) := Value → List Value → Caller → Run σ (List Value)

section

variable {σ : Type}

/-- Raises an error at the innermost site. -/
def raise {α : Type} (sites : Sites) (message : String) : Run σ α :=
  throw (.thrown (.str (sites.text 1 ++ bytes message)))

/-- Turns the wording of a failure into an error at a site. -/
def orRaise {α : Type} (sites : Sites) : Except String α → Run σ α
  | .ok a => return a
  | .error message => raise sites message

/-! ## Memory -/

/-- A part of memory. -/
def load {α : Type} (f : Memory → α) : Run σ α := return f (← get).memory

/-- Changes memory. -/
def store (f : Memory → Memory) : Run σ Unit := modify fun m => { m with memory := f m.memory }

/-- Makes something in memory and gives its number. -/
def allocate {α : Type} (f : Memory → α × Memory) : Run σ α :=
  modifyGet fun m => let (a, memory) := f m.memory; (a, { m with memory })

/-- Raises a failure of the composition. -/
def fail {α : Type} (e : ScriptError) : Run σ α := do
  throw (.thrown (.failure (← allocate (·.newFailure e))))

/-- The value under a key of a table, without its metatable. -/
def peek (id : Nat) (key : Value) : Run σ Value := do
  match key.key? with
  | some (.int n) =>
    store (·.touch id (.int n))
    load fun m => (m.table id).get (.int n)
  | some k => load fun m => (m.table id).get k
  | none => return .nil

/-- At most so many values under `n, n + 1, …` of a table up to the first `nil`, behind those read
already, which are kept in reverse. -/
def itemsFrom (id : Nat) : Nat → Nat → List Value → Run σ (List Value)
  | 0, _, read => return read.reverse
  | fuel + 1, n, read => do
    match ← peek id (.int (Int64.ofNat n)) with
    | .nil => return read.reverse
    | v => itemsFrom id fuel (n + 1) (v :: read)

/-- The greatest index that an item can have. -/
def lastIndex : Nat := 0x7FFFFFFFFFFFFFFF

/-- The values under `1, 2, …` of a table up to the first `nil`. -/
def items (id : Nat) : Run σ (List Value) := itemsFrom id lastIndex 1 []

/-- Performs a request. -/
def perform [Host σ] (r : Request) : Run σ Unit := do
  match Host.perform (← get).host r with
  | .ok host => modify fun m => { m with host }
  | .error e => fail (.refused e)

/-! ## The stack -/

/-- The number of positions of the stack. -/
def maxStack : Nat := 1000000

/-- The value at a position. -/
def top (position : Nat) : Run σ Value := return (← get).stack.getD position .nil

/-- Puts a value at a position. -/
def put (position : Nat) (v : Value) : Run σ Unit :=
  modify fun m => { m with stack := replaced m.stack position v }

/-- So many `nil` behind the values of an array. -/
def padded (stack : Array Value) : Nat → Array Value
  | 0 => stack
  | count + 1 => padded (stack.push .nil) count

/-- Makes sure that the stack has so many positions. -/
def grow (size : Nat) : Run σ Unit :=
  modify fun m => { m with stack := padded m.stack (size - m.stack.size) }

/-- Puts values at positions in a row. -/
def putAll : Nat → List Value → Run σ Unit
  | _, [] => return ()
  | position, v :: vs => do
    put position v
    putAll (position + 1) vs

/-- Gives positions in a row the value `nil`. -/
def clear : Nat → Nat → Run σ Unit
  | _, 0 => return ()
  | position, count + 1 => do
    put position .nil
    clear (position + 1) count

/-- The values at positions in a row. -/
def taken (position count : Nat) : Run σ (List Value) := do
  let stack := (← get).stack
  return (List.range count).map fun i => stack.getD (position + i) .nil

/-- Moves values in a row to lower positions, the first one first. -/
def moveDown : Nat → Nat → Nat → Run σ Unit
  | _, _, 0 => return ()
  | source, position, count + 1 => do
    put position (← top source)
    moveDown (source + 1) (position + 1) count

/-! ## Captured variables -/

/-- The value of a captured variable. -/
def readCell (id : Nat) : Run σ Value := do
  match (← get).memory.cells[id]? with
  | some (.onStack position) => top position
  | some (.apart v) => return v
  | none => return .nil

/-- Gives a captured variable a value. -/
def writeCell (id : Nat) (v : Value) : Run σ Unit := do
  match (← get).memory.cells[id]? with
  | some (.onStack position) => put position v
  | _ => store fun m => { m with cells := replaced m.cells id (.apart v) }

/-- The captured variable at a position, among those on the stack, if there is one. -/
def capturedAt? (position : Nat) : List (Nat × Nat) → Option Nat
  | [] => none
  | (p, id) :: rest =>
    if p = position then some id else if p < position then none else capturedAt? position rest

/-- The captured variables on the stack with one more. -/
def addCaptured (position id : Nat) : List (Nat × Nat) → List (Nat × Nat)
  | [] => [(position, id)]
  | (p, other) :: rest =>
    if position < p then (p, other) :: addCaptured position id rest
    else (position, id) :: (p, other) :: rest

/-- Captures the variable at a position. -/
def captureAt (position : Nat) : Run σ Nat := do
  match capturedAt? position (← get).captured with
  | some id => return id
  | none =>
    let id ← allocate (·.newCell (.onStack position))
    modify fun m => { m with captured := addCaptured position id m.captured }
    return id

/-- Gives the captured variables from a position on places of their own. -/
def closeFrom (position : Nat) : Run σ Unit := do
  closeAll (← get).captured
where
  /-- Gives the topmost of some captured variables places of their own. -/
  closeAll : List (Nat × Nat) → Run σ Unit
    | [] => modify fun m => { m with captured := [] }
    | (p, id) :: rest => do
      if position ≤ p then
        let v ← top p
        store fun m => { m with cells := replaced m.cells id (.apart v) }
        closeAll rest
      else modify fun m => { m with captured := (p, id) :: rest }

/-- Runs an action on a part of the stack that is given up if the action is interrupted. -/
def guarded {α : Type} (height : Nat) (act : Run σ α) : Run σ α :=
  tryCatch act fun fault => do
    closeFrom height
    throw fault

/-! ## Repetition -/

/-- Repeats an action until it has a result. -/
def iterate {α β : Type} (step : α → Run σ (Sum α β)) : Nat → α → Run σ β
  | 0, _ => throw .exhausted
  | fuel + 1, a => do
    match ← step a with
    | .inl a => iterate step fuel a
    | .inr b => return b

/-- The number of times that an action is repeated at most. -/
def maxSteps : Nat := 1000000000000

end

/-! ## Whole runs -/

/-- A machine before a script runs. -/
def Machine.start {σ : Type} (memory : Memory) (host : σ) : Machine σ := ⟨memory, #[], [], host⟩

/-- Runs an action: what it gives or the failure that it ends in, and what it leaves. -/
def Machine.run {σ α : Type} (memory : Memory) (host : σ) (act : Run σ α) :
    Except ScriptError α × Memory × σ :=
  match (guarded 0 act).run (.start memory host) with
  | .ok a m => (.ok a, m.memory, m.host)
  | .error (.thrown v) m => (.error (m.memory.failureOf v), m.memory, m.host)
  | .error .exhausted m => (.error .exhausted, m.memory, m.host)

end BuildComposition.Script
