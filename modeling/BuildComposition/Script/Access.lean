import BuildComposition.Script.Machine

/-!
# Access to fields

A table without a key hands an access to it over to its metatable, and so does every string to the
metatable that all strings share.  Reading is handed over to what the metatable has under `__index`, and
an assignment to what it has under `__newindex`: a function is called, and anything else is accessed in
turn.

Beside these two a metatable counts by its `__tostring` and `__name` when a value is described, and by its
`__metatable` when it is asked for or replaced.  Operators, comparisons, lengths, calls and the release of
values do not ask for metatables: scripts that set `__add`, `__eq`, `__len`, `__call`, `__close`, `__gc`,
`__mode` or the like are not covered.

## Main definitions

* `reach`: where an access to a key ends
* `index`: the value under a key
* `assignIndex`: a new value under a key
-/

namespace BuildComposition.Script

/-- The first of several values. -/
def first (vs : List Value) : Value := vs.headD .nil

/-- The number of metatables that one access may go through. -/
def maxChain : Nat := 2000

/-- Where an access to a key ends. -/
inductive Reached where
  /-- A value has something of its own under the key, or it is a table that has nothing there and hands
  the access over to nothing. -/
  | own (holder found : Value)
  /-- A function is called for a value. -/
  | function (f object : Value)

section

variable {σ : Type}

/-- What a value itself has under a key.  Only tables have anything. -/
def ownValue (key : Value) : Value → Run σ Value
  | .table id => peek id key
  | _ => return .nil

/-- What an access to a value is handed over to for an event, if the value itself has nothing under the
key. -/
def handler? (event : String) (sites : Sites) (v : Value) : Run σ (Option Value) := do
  match ← load (·.metafield event v) with
  | .nil =>
    match v with
    | .table _ => return none
    | _ => raise sites s!"attempt to index a {v.kind.scriptName} value"
  | h => return some h

/-- Follows an access to a key through the metatables. -/
def reach (event : String) (sites : Sites) (key : Value) : Nat → Value → Run σ Reached
  | 0, v => do
    match ← ownValue key v with
    | .nil => raise sites s!"'{event}' chain too long; possibly a loop"
    | found => return .own v found
  | fuel + 1, v => do
    match ← ownValue key v with
    | .nil =>
      match ← handler? event sites v with
      | none => return .own v .nil
      | some (.closure id) => return .function (.closure id) v
      | some (.builtin b) => return .function (.builtin b) v
      | some h => reach event sites key fuel h
    | found => return .own v found

/-- The value under a key.  A function that is asked for it gets the value and the key. -/
def index (invoke : Invoke σ) (caller : Caller) (key v : Value) : Run σ Value := do
  match ← reach "__index" caller.sites key maxChain v with
  | .own _ found => return found
  | .function f object => return first (← invoke f [object, key] caller)

/-- Puts a value under a key of a table itself. -/
def assignOwn (sites : Sites) (id : Nat) (key value : Value) : Run σ Unit :=
  match key.key? with
  | some _ => store (·.rawSet id key value)
  | none =>
    match key with
    | .nil => raise sites "table index is nil"
    | _ => raise sites "table index is NaN"

/-- Puts a value under a key.  A function that is asked to do so gets the object, the key and the
value. -/
def assignIndex (invoke : Invoke σ) (caller : Caller) (object key value : Value) : Run σ Unit := do
  match ← reach "__newindex" caller.sites key maxChain object with
  | .own (.table id) _ => assignOwn caller.sites id key value
  | .own _ _ => return ()
  | .function f object => let _ ← invoke f [object, key, value] caller

end

end BuildComposition.Script
