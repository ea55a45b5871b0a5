import BuildComposition.Script.Operators

/-!
# Loops over numbers

A loop over numbers keeps three values: its counter, a bound and a step.  If counter and step are
integers the bound is the number of rounds that are left, so that the counter never runs past the
greatest integer.  Otherwise all three are doubles and the bound is the limit.

## Main definitions

* `Range`: the values that a loop keeps
* `Range.begin`: the values in the first round, if there is one
* `Range.next?`: the values in the next round
-/

namespace BuildComposition.Script

/-- The values that a loop over numbers keeps. -/
structure Range where
  counter : Value
  bound : Value
  step : Value

namespace Range

/-- The last integer that a loop may reach whose limit is a double, or none if every integer lies
beyond it. -/
def lastInteger (limit : Float) (descends : Bool) : Option Int64 :=
  let whole? := if descends then Binary64.ceil? limit else Binary64.floor? limit
  match whole?.filter fun n => Word.least ≤ n && n ≤ Word.greatest with
  | some n => some (Int64.ofInt n)
  | none =>
    if 0 < limit then if descends then none else some Int64.maxValue
    else if descends then some Int64.minValue else none

/-- The number of rounds behind the first one, if there is a first one. -/
def rounds? (start last step : Int64) : Option UInt64 :=
  if 0 < step then
    if last < start then none else some ((last - start).toUInt64 / step.toUInt64)
  else
    -- the distance of the least integer from zero is not an integer itself
    if start < last then none else some ((start - last).toUInt64 / ((-(step + 1)).toUInt64 + 1))

/-- The refusal of a value that is no number. -/
def refusal (part : String) (v : Value) : String :=
  s!"bad 'for' {part} (number expected, got {v.kind.scriptName})"

/-- A value as a double. -/
def double (part : String) (v : Value) : Except String Float :=
  match number? v with
  | some (.int n) => .ok (toDouble n)
  | some (.float x) => .ok x
  | _ => .error (refusal part v)

/-- The wording for a loop that would not move. -/
def stepIsZero : String := "'for' step is zero"

/-- A counter lies beyond the limit of a loop. -/
def beyond (counter limit step : Float) : Bool :=
  if 0 < step then limit < counter else counter < limit

/-- The values in the first round, if there is one. -/
def begin (start limit step : Value) : Except String (Option Range) :=
  match start, step with
  | .int i, .int d => do
    if d = 0 then .error stepIsZero
    else
      let last ← match number? limit with
        | some (.int n) => .ok (some n)
        | some (.float x) => .ok (lastInteger x (d < 0))
        | _ => .error (refusal "limit" limit)
      return (last.bind fun n => rounds? i n d).map fun left =>
        ⟨.int i, .int left.toInt64, .int d⟩
  | _, _ => do
    let bound ← double "limit" limit
    let d ← double "step" step
    let x ← double "initial value" start
    if d == 0 then .error stepIsZero
    else if beyond x bound d then return none
    else return some ⟨.float x, .float bound, .float d⟩

/-- The values in the next round. -/
def next? (r : Range) : Option Range :=
  match r.counter, r.bound, r.step with
  | .int i, .int left, .int d =>
    if left.toUInt64 = 0 then none
    else some { r with counter := .int (i + d), bound := .int (left - 1) }
  | .float x, .float bound, .float d =>
    let x := x + d
    -- a counter that is no number ends the loop
    if (if 0 < d then x ≤ bound else bound ≤ x) then some { r with counter := .float x } else none
  | _, _, _ => none

end Range

end BuildComposition.Script
