import BuildComposition.Script.Activation
import BuildComposition.Script.Library

/-!
# Execution

Functions that call one another.  A function that is called from a script waits on no other level
than the calling one, so only the stack bounds how deep functions of scripts call one another.  A
call that the library or a metatable makes is a level of its own, and the number of levels is
bounded too.

## Main definitions

* `Calls`: a function that runs and those that wait for it
* `Calls.step`: the next instruction
* `callWithin`: a call of any value
-/

namespace BuildComposition.Script

/-- A function that runs and those that wait for it, the innermost first. -/
structure Calls where
  current : Activation
  waiting : List Activation

section

variable {σ : Type}

namespace Calls

/-- Where the functions stand, in front of those outside. -/
def sites (c : Calls) (outer : Sites) : Sites
  | 0 => none
  | 1 => some c.current.site
  | level + 2 =>
    match c.waiting[level]? with
    | some a => some a.site
    | none => outer (level + 1 - c.waiting.length)

/-- The current function goes on. -/
def follow (c : Calls) (flow : Flow) : Calls := { c with current := c.current.follow flow }

/-- The current function has ended with some values: those of the whole call, if no other function
waits for them. -/
def finish (c : Calls) (values : List Value) : Run σ (Sum Calls (List Value)) := do
  match c.waiting with
  | [] => return .inr values
  | a :: waiting =>
    let flow ← receive c.current.home values c.current.wanted
    return .inl ⟨a.follow flow, waiting⟩

/-- Refuses to call a value. -/
def refuse {α : Type} (sites : Sites) (v : Value) : Run σ α :=
  raise sites s!"attempt to call a {v.kind.scriptName} value"

variable [Host σ]

/-- The current function calls the one at a position. -/
def call (c : Calls) (invoke : Invoke σ) (sites : Sites) (position count : Nat)
    (wanted : Option Nat) : Run σ Calls := do
  match ← top position with
  | .closure id =>
    let f ← load (·.closure id)
    return ⟨← f.activate position count wanted sites, c.current :: c.waiting⟩
  | .builtin b =>
    let values ← runBuiltin invoke b (← taken (position + 1) count) ⟨sites, position⟩
    return c.follow (← receive position values wanted)
  | v => refuse sites v

/-- The function at a position takes the place of the current one.  A library function only gives its
results in its name. -/
def tailCall (c : Calls) (invoke : Invoke σ) (sites : Sites) (position count : Nat) :
    Run σ (Sum Calls (List Value)) := do
  let a := c.current
  closeFrom a.base
  match ← top position with
  | .closure id =>
    let f ← load (·.closure id)
    if maxStack + a.shift < position + 1 + count + f.code.frameSize then
      raise sites "stack overflow"
    moveDown (position + 1) (a.home + 1) count
    return .inl ⟨← f.begin a.home count a.wanted, c.waiting⟩
  | .builtin b =>
    c.finish (← runBuiltin invoke b (← taken (position + 1) count) ⟨sites, position⟩)
  | v => refuse sites v

/-- Executes the next instruction. -/
def step (invoke : Invoke σ) (outer : Sites) (c : Calls) : Run σ (Sum Calls (List Value)) := do
  let a := c.current
  match a.code.instructions[a.place]? with
  | none => c.finish []
  | some i =>
    let sites := c.sites outer
    match ← a.execute invoke sites i with
    | .call position count wanted => return .inl (← c.call invoke sites position count wanted)
    | .tailCall position count => c.tailCall invoke sites position count
    | .give position count =>
      closeFrom a.base
      c.finish (← taken position count)
    | flow => return .inl (c.follow flow)

end Calls

variable [Host σ]

/-- Calls a value, where so many more levels may follow. -/
def callWithin : Nat → Invoke σ
  | 0 => fun _ _ caller => raise caller.sites "C stack overflow"
  | levels + 1 => fun f args caller => do
    match f with
    | .closure id =>
      let f ← load (·.closure id)
      grow (caller.height + 1 + args.length)
      putAll (caller.height + 1) args
      let a ← f.activate caller.height args.length none caller.sites
      iterate (Calls.step (callWithin levels) caller.sites) maxSteps ⟨a, []⟩
    | .builtin b => runBuiltin (callWithin levels) b args caller
    | v => Calls.refuse caller.sites v

/-- The number of levels. -/
def maxLevels : Nat := 199

/-- Calls a value. -/
def invoke : Invoke σ := callWithin maxLevels

end

end BuildComposition.Script
