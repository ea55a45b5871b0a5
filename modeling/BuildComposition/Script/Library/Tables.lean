import BuildComposition.Script.Library.Arguments

/-!
# Table functions of the library

## Main definitions

* `Call.concat`, `Call.unpack`: the items of a table as a string and as values
* `Call.insert`, `Call.remove`: one item more and one less
* `Call.sort`: the items in order
-/

namespace BuildComposition.Script.Call

variable {σ : Type} (c : Call σ)

/-- The items of a table as one string. -/
def concat : Run σ (List Value) := do
  let id ← c.table 1
  let length ← lengthOf id
  let separator ← if c.given 2 then c.text 2 else pure []
  let i ← c.integerD 3 1
  let j ← c.integerD 4 length
  let pieces ← pieces id (j - i + 1).toNat i []
  return [.str (List.intercalate separator pieces)]
where
  /-- So many items from `i` on as strings, behind those read already, which are kept in
  reverse. -/
  pieces (id : Nat) : Nat → Int → List Bytes → Run σ (List Bytes)
    | 0, _, read => return read.reverse
    | count + 1, i, read => do
      match (← c.item id i).text? with
      | some s => pieces id count (i + 1) (s :: read)
      | none => raise c.callers s!"invalid value (at index {i}) in table for 'concat'"

/-- The number of items of a value. -/
def size : Value → Run σ Int
  | .table id => lengthOf id
  | .str s => return s.length
  | v => raise c.sites s!"attempt to get length of a {v.kind.scriptName} value"

/-- The values under so many integers from `i` on, behind those read already, which are kept in
reverse. -/
def valuesFrom (v : Value) : Nat → Int → List Value → Run σ (List Value)
  | 0, _, read => return read.reverse
  | count + 1, i, read => do
    let found ← index c.invoke c.caller (.int (Int64.ofInt i)) v
    valuesFrom v count (i + 1) (found :: read)

/-- The items of a table as values. -/
def unpack : Run σ (List Value) := do
  let v := c.arg 1
  let i ← c.integerD 2 1
  let j ← if c.given 3 then c.integer 3 else c.size v
  let count := j - i + 1
  -- the results need room behind the arguments
  if 0 < count ∧ maxStack < c.height + count then raise c.callers "too many results to unpack"
  else c.valuesFrom v count.toNat i []

/-- Moves so many items one place up, the last one first; `i` is the place of the last one. -/
def shiftUp (id : Nat) : Nat → Int → Run σ Unit
  | 0, _ => return ()
  | count + 1, i => do
    c.setItem id (i + 1) (← c.item id i)
    shiftUp id count (i - 1)

/-- Moves so many items one place down; `i` is the place that the first one gets. -/
def shiftDown (id : Nat) : Nat → Int → Run σ Unit
  | 0, _ => return ()
  | count + 1, i => do
    c.setItem id i (← c.item id (i + 1))
    shiftDown id count (i + 1)

/-- Puts an item at the end or at a place before it. -/
def insert : Run σ (List Value) := do
  let id ← c.table 1
  let behind := (← lengthOf id) + 1
  match c.args with
  | [_, v] => c.setItem id behind v
  | [_, _, v] =>
    let place ← c.integer 2
    if place < 1 ∨ behind < place then c.reject 2 "position out of bounds"
    else
      c.shiftUp id (behind - place).toNat (behind - 1)
      c.setItem id place v
  | _ => raise c.callers "wrong number of arguments to 'insert'"
  return []

/-- Takes the last item away, or the one at a place. -/
def remove : Run σ (List Value) := do
  let id ← c.table 1
  let length ← lengthOf id
  let place ← c.integerD 2 length
  if place ≠ length ∧ (place < 1 ∨ length + 1 < place) then c.reject 2 "position out of bounds"
  else
    let v ← c.item id place
    c.shiftDown id (length - place).toNat place
    c.setItem id (max place length) .nil
    return [v]

/-- The order of the items: that of a given function, or else that of the values. -/
def before (v w : Value) : Run σ Bool := do
  match c.arg 2 with
  | .nil => orRaise c.sites (Relation.less.holds v w)
  | f => return (first (← c.invoke f [v, w] c.caller)).holds

/-- Two items change places if the second one comes before the first. -/
def exchange (id : Nat) (i j : Int) : Run σ Bool := do
  let v ← c.item id i
  let w ← c.item id j
  if ← c.before w v then
    c.setItem id i w
    c.setItem id j v
    return true
  else return false

/-- The first place after `i` with an item that does not come before the pivot. -/
def scanUp (id : Nat) (pivot : Value) (bound : Int) : Nat → Int → Run σ Int
  | 0, _ => throw .exhausted
  | fuel + 1, i => do
    if ← c.before (← c.item id (i + 1)) pivot then
      if i + 1 = bound then raise c.callers "invalid order function for sorting"
      else scanUp id pivot bound fuel (i + 1)
    else return i + 1

/-- The last place before `j` with an item that the pivot does not come before. -/
def scanDown (id : Nat) (pivot : Value) (bound : Int) : Nat → Int → Run σ Int
  | 0, _ => throw .exhausted
  | fuel + 1, j => do
    if ← c.before pivot (← c.item id (j - 1)) then
      if j - 1 < bound then raise c.callers "invalid order function for sorting"
      else scanDown id pivot bound fuel (j - 1)
    else return j - 1

/-- Splits the items around a pivot, which stands before the last one, and gives its place. -/
def split (id : Nat) (pivot : Value) (last : Int) : Nat → Int → Int → Run σ Int
  | 0, _, _ => throw .exhausted
  | fuel + 1, i, j => do
    let i ← c.scanUp id pivot (last - 1) (last.natAbs + 1) i
    let j ← c.scanDown id pivot i (last.natAbs + 1) j
    let v ← c.item id i
    if j < i then
      -- the scans have met: the pivot goes between the two parts
      c.setItem id i (← c.item id (last - 1))
      c.setItem id (last - 1) v
      return i
    else
      c.setItem id i (← c.item id j)
      c.setItem id j v
      split id pivot last fuel i j

/-- Sorts the items between two places around the middle of three, the shorter part first. -/
def sortRange (id : Nat) : Nat → Int → Int → Run σ Unit
  | 0, _, _ => throw .exhausted
  | fuel + 1, low, high => do
    if high ≤ low then return
    discard (c.exchange id low high)
    if high - low = 1 then return
    let middle := (low + high) / 2
    unless ← c.exchange id low middle do
      discard (c.exchange id middle high)
    if high - low = 2 then return
    -- the pivot waits before the last item, which is known not to come before it
    let pivot ← c.item id middle
    c.setItem id middle (← c.item id (high - 1))
    c.setItem id (high - 1) pivot
    let place ← c.split id pivot high (high - low).natAbs low (high - 1)
    if place - low < high - place then
      sortRange id fuel low (place - 1)
      sortRange id fuel (place + 1) high
    else
      sortRange id fuel (place + 1) high
      sortRange id fuel low (place - 1)

/-- Sorts the items of a table. -/
def sort : Run σ (List Value) := do
  let id ← c.table 1
  let length ← lengthOf id
  if length < 2 then return []
  match c.arg 2 with
  | .nil | .closure _ | .builtin _ =>
    c.sortRange id (length.natAbs + 1) 1 length
    return []
  | _ => c.mistyped 2 "function"

end BuildComposition.Script.Call
