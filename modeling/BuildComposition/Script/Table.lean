import BuildComposition.Script.Value

/-!
# Tables

A table keeps the values under `1, …, n` in a row of slots and everything else in a scatter table.
Every key has a main node there; keys with the same main node are chained, and a key that stands in
the main node of another one gives way to it.  When no node is free the table is laid out anew: the
slots then reach to the greatest power of two of which more than half are taken.

Which keys have slots decides what the length of a table with gaps is, so the layout is part of what
a table is.  So is the place from which the last gap was searched, which accesses move.

## Main definitions

* `Node`, `Table`: tables
* `Table.get`, `Table.set`, `Table.touch`: access to entries
* `Table.make`, `Table.setItems`: tables of a known size
* `Table.length`: a number with a value under it and none under its successor
* `Table.keys`: the keys of the entries
-/

namespace BuildComposition.Script

/-- A node of a scatter table. -/
structure Node where
  key : Key
  /-- The value; `nil` if the entry was taken away. -/
  value : Value
  /-- The next node of the chain. -/
  next : Option Nat

/-- A table. -/
structure Table where
  /-- The values under `1, …, n`, where any may be `nil`. -/
  slots : Array Value
  /-- The number of slots among which the length is searched first. -/
  limit : Nat
  /-- The nodes; their number is zero or a power of two. -/
  nodes : Array (Option Node)
  /-- No node from here on is free. -/
  freeBelow : Nat
  metatable : Option Nat
  deriving Inhabited

/-- A value is there. -/
def Value.present : Value → Bool
  | .nil => false
  | _ => true

/-- The least exponent of a power of two that is not below a number. -/
def ceilLog2 (n : Nat) : Nat := if n ≤ 1 then 0 else (n - 1).log2 + 1

/-- A number is zero or a power of two. -/
def isPowerOfTwo (n : Nat) : Bool := n &&& (n - 1) == 0

namespace Key

/-- A number that a string is scattered by. -/
def scatterString (s : Bytes) : Nat :=
  s.foldl (fun h b => (31 * h + b.toNat) % 0x100000000) s.length

/-- A number that a double is scattered by: its mantissa as a number of 32 bits, cut towards zero,
and its exponent. -/
def scatterFloat (bits : UInt64) : Nat :=
  match Binary64.ofBits bits with
  | .finite f =>
    let digits : Int := if f.mantissa = 0 then 0 else f.mantissa.log2 + 1
    let exponent := digits + f.exponent
    let shift := digits - 31
    let head : Int := if 0 ≤ shift then f.mantissa / Nat.pow 2 shift.toNat
      else f.mantissa * Nat.pow 2 (-shift).toNat
    let sum := ((exponent + if f.negative then -head else head) % 0x100000000).toNat
    if sum < 0x80000000 then sum else 0xFFFFFFFF - sum
  | _ => 0

/-- The main node of a key among a positive number of nodes.  Tables, functions and failures have the first
one; where they lie is not known here. -/
def mainNode (size : Nat) : Key → Nat
  | bool b => b.toNat % size
  | int n => n.toUInt64.toNat % ((size - 1) ||| 1)
  | float bits => scatterFloat bits % ((size - 1) ||| 1)
  | str s => scatterString s % size
  | table _ | closure _ | builtin _ | failure _ => 0

/-- The key of an integer that is not negative. -/
def ofNat (n : Nat) : Key := .int (Int64.ofNat n)

/-- The number of a key that may have a slot: there are at most `2 ^ 31` slots. -/
def slotNumber? : Key → Option Nat
  | int n => if 1 ≤ n.toInt ∧ n.toInt ≤ 0x80000000 then some n.toInt.toNat else none
  | _ => none

end Key

namespace Table

/-- A table without entries. -/
def empty : Table := ⟨#[], 0, #[], 0, none⟩

/-- The slot of a key. -/
def slot? (t : Table) (k : Key) : Option Nat :=
  match k.slotNumber? with
  | some n => if n ≤ t.slots.size then some (n - 1) else none
  | none => none

/-- The node of a key in a chain of at most `fuel` nodes. -/
def findFrom (t : Table) (k : Key) : Nat → Nat → Option Nat
  | 0, _ => none
  | fuel + 1, i =>
    match t.nodes[i]? with
    | some (some node) =>
      if node.key = k then some i
      else
        match node.next with
        | some j => findFrom t k fuel j
        | none => none
    | _ => none

/-- The node of a key. -/
def node? (t : Table) (k : Key) : Option Nat :=
  if t.nodes.isEmpty then none else t.findFrom k t.nodes.size (k.mainNode t.nodes.size)

/-- The value in a node. -/
def nodeValue (t : Table) (i : Nat) : Value :=
  match t.nodes[i]? with
  | some (some node) => node.value
  | _ => .nil

/-- The value under a key, `nil` where there is none. -/
def get (t : Table) (k : Key) : Value :=
  match t.slot? k with
  | some i => t.slots.getD i .nil
  | none =>
    match t.node? k with
    | some i => t.nodeValue i
    | none => .nil

/-- The value under a number. -/
def getNat (t : Table) (n : Nat) : Value := t.get (.ofNat n)

/-- The table after an access to a key: a slot behind those that are searched first moves their
end. -/
def touch (t : Table) (k : Key) : Table :=
  match t.slot? k with
  | some i => if t.limit ≤ i then { t with limit := i + 1 } else t
  | none => t

/-! ## Scattering -/

/-- Changes a node that is there. -/
def modifyNode (t : Table) (i : Nat) (f : Node → Node) : Table :=
  { t with nodes := altered t.nodes i (·.map f) }

/-- The last free node. -/
def freeNode? (t : Table) : Nat → Option Nat
  | 0 => none
  | n + 1 => if (t.nodes.getD n none).isNone then some n else freeNode? t n

/-- The node before another one in a chain of at most `fuel` nodes. -/
def nodeBefore (t : Table) (i : Nat) : Nat → Nat → Nat
  | 0, j => j
  | fuel + 1, j =>
    match t.nodes[j]? with
    | some (some node) =>
      match node.next with
      | some next => if next = i then j else nodeBefore t i fuel next
      | none => j
    | _ => j

/-- Puts a new key into a node, which keeps its place in a chain. -/
def occupy (t : Table) (i : Nat) (k : Key) (v : Value) : Table :=
  let next := (t.nodes.getD i none).bind (·.next)
  { t with nodes := replaced t.nodes i (some ⟨k, v, next⟩) }

/-- The node that stands in the main node of a key, unless its entry was taken away. -/
def occupant? (t : Table) (main : Nat) : Option Node :=
  (t.nodes.getD main none).filter (·.value.present)

/-- There is a node for a new key. -/
def hasRoom (t : Table) (k : Key) : Bool :=
  !t.nodes.isEmpty &&
    ((t.occupant? (k.mainNode t.nodes.size)).isNone || (t.freeNode? t.freeBelow).isSome)

/-- Puts a new key into the scatter table beside the one that stands in its main node, where a node is
free. -/
def scatterBeside (t : Table) (other : Node) (free : Nat) (k : Key) (v : Value) : Table :=
  let size := t.nodes.size
  let main := k.mainNode size
  let home := other.key.mainNode size
  let t := { t with freeBelow := free }
  if home = main then
    -- the new key goes behind the other one
    let t := { t with nodes := replaced t.nodes free (some ⟨k, v, other.next⟩) }
    t.modifyNode main fun node => { node with next := some free }
  else
    -- the other key gives way
    let before := t.nodeBefore main size home
    let t := t.modifyNode before fun node => { node with next := some free }
    let t := { t with nodes := replaced t.nodes free (some other) }
    { t with nodes := replaced t.nodes main (some ⟨k, v, none⟩) }

/-- Puts a new key for which there is a node into the scatter table. -/
def scatter (t : Table) (k : Key) (v : Value) : Table :=
  let main := k.mainNode t.nodes.size
  match t.occupant? main with
  | none => t.occupy main k v
  | some other =>
    match t.freeNode? t.freeBelow with
    | none => t
    | some free => t.scatterBeside other free k v

/-- Puts a value under a key for which there is room. -/
def place (t : Table) (k : Key) (v : Value) : Table :=
  match t.slot? k with
  | some i => { t with slots := replaced t.slots i v }
  | none =>
    match t.node? k with
    | some i => t.modifyNode i fun node => { node with value := v }
    | none => if v.present && t.hasRoom k then t.scatter k v else t

/-! ## Layout -/

/-- Puts values under numbers from some number on. -/
def placeItems (t : Table) : Nat → List Value → Table
  | _, [] => t
  | n, v :: vs => placeItems (if v.present then t.place (.ofNat n) v else t) (n + 1) vs

/-- Puts the entries of nodes into a table. -/
def placeNodes (t : Table) : List (Option Node) → Table
  | [] => t
  | some node :: rest =>
    placeNodes (if node.value.present then t.place node.key node.value else t) rest
  | none :: rest => placeNodes t rest

/-- The same entries with so many slots and at least so many nodes. -/
def resize (t : Table) (slots nodes : Nat) : Table :=
  let size := if nodes = 0 then 0 else Nat.pow 2 (ceilLog2 nodes)
  let kept := t.slots.extract 0 slots
  let lost := (t.slots.extract slots t.slots.size).toList
  let bare : Table := {
    slots := kept ++ Array.replicate (slots - kept.size) .nil
    limit := slots
    nodes := Array.replicate size none
    freeBelow := size
    metatable := t.metatable }
  (bare.placeItems (slots + 1) lost).placeNodes t.nodes.toList

/-- A table with room for so many items and other entries. -/
def make (items entries : Nat) : Table := empty.resize items entries

/-- One more key for each range between powers of two, as far as it is a number that may have a
slot. -/
def countKey (counts : Array Nat) (k : Key) : Array Nat :=
  match k.slotNumber? with
  | some n => counts.modify (ceilLog2 n) (· + 1)
  | none => counts

/-- The keys of the slots that are taken. -/
def slotKeys (t : Table) : List Key :=
  (t.slots.toList.zipIdx 1).filterMap fun (v, n) => if v.present then some (.ofNat n) else none

/-- The keys of the nodes that are taken. -/
def nodeKeys (t : Table) : List Key :=
  t.nodes.toList.filterMap fun node =>
    node.bind fun node => if node.value.present then some node.key else none

/-- The keys of the entries. -/
def keys (t : Table) : List Key := t.slotKeys ++ t.nodeKeys

/-- The greatest power of two, starting from a candidate, of which more than half are taken, and the
number of keys up to it; `below` keys come before those counted. -/
def bestSize (total : Nat) : Nat → List Nat → Nat → Nat × Nat → Nat × Nat
  | _, [], _, best => best
  | candidate, count :: counts, below, best =>
    if candidate / 2 < total then
      let taken := below + count
      bestSize total (2 * candidate) counts taken
        (if candidate / 2 < taken then (candidate, taken) else best)
    else best

/-- The same entries with room for one more key. -/
def rehash (t : Table) (k : Key) : Table :=
  let keys := k :: t.keys
  let counts := keys.foldl countKey (Array.replicate 33 0)
  let (size, taken) := bestSize (counts.foldl (· + ·) 0) 1 counts.toList 0 (0, 0)
  t.resize size (keys.length - taken)

/-- Puts a value under a key; `nil` takes the entry away. -/
def set (t : Table) (k : Key) (v : Value) : Table :=
  let t := t.touch k
  match t.slot? k with
  | some i => { t with slots := replaced t.slots i v }
  | none =>
    match t.node? k with
    | some i => t.modifyNode i fun node => { node with value := v }
    | none =>
      if !v.present then t
      else if t.hasRoom k then t.scatter k v
      else (t.rehash k).place k v

/-- A table with the given entries. -/
def ofEntries (entries : List (Key × Value)) : Table :=
  entries.foldl (fun t e => t.set e.1 e.2) empty

/-- A table with the given entries under texts. -/
def ofFields (fields : List (String × Value)) : Table :=
  ofEntries (fields.map fun f => (.str (bytes f.1), f.2))

/-- Puts values into slots in a row. -/
def fill (slots : Array Value) : Nat → List Value → Array Value
  | _, [] => slots
  | i, v :: vs => fill (slots.setIfInBounds i v) (i + 1) vs

/-- Puts values under the numbers behind `offset`; there are slots for all of them afterwards. -/
def setItems (t : Table) (offset : Nat) (vs : List Value) : Table :=
  let last := offset + vs.length
  let t := if t.slots.size < last then t.resize last t.nodes.size else t
  { t with slots := fill t.slots offset vs }

/-! ## Length -/

/-- A slot is taken. -/
def taken (t : Table) (n : Nat) : Bool := (t.slots.getD (n - 1) .nil).present

/-- A number `i < j` with a value under `i` and none under `i + 1`, where there is a value under
`low` and none under `high`; `0` counts as one with a value. -/
def border (present : Nat → Bool) : Nat → Nat → Nat → Nat
  | 0, low, _ => low
  | fuel + 1, low, high =>
    if high - low ≤ 1 then low
    else
      let middle := (low + high) / 2
      if present middle then border present fuel middle high
      else border present fuel low middle

/-- A border behind a number with a value: a number without one is searched by doubling. -/
def borderBehind (present : Nat → Bool) : Nat → Nat → Nat
  | 0, low => low
  | fuel + 1, low =>
    let high := min (2 * low) 0x7FFFFFFFFFFFFFFF
    if present high then
      if high = 0x7FFFFFFFFFFFFFFF then high else borderBehind present fuel high
    else border present 64 low high

/-- The length behind slots that are all searched, the last of which is taken if there is one. -/
def lengthInNodes (t : Table) (size : Nat) : Nat :=
  let present (n : Nat) : Bool := (t.getNat n).present
  if present (size + 1) then borderBehind present 64 (max size 1) else size

/-- The length, and the table that is searched from there the next time: a number with a value under
it and none under its successor. -/
def length (t : Table) : Nat × Table :=
  let size := t.slots.size
  let limit := t.limit
  if 0 < limit ∧ !t.taken limit then
    -- there is a border below
    if 2 ≤ limit ∧ t.taken (limit - 1) then
      (limit - 1,
        if isPowerOfTwo size ∧ !isPowerOfTwo (limit - 1) then { t with limit := limit - 1 } else t)
    else
      let n := border t.taken limit 0 limit
      (n, if isPowerOfTwo size ∧ size / 2 < n then { t with limit := n } else t)
  else if limit < size then
    -- there are slots behind
    if !t.taken (limit + 1) then (limit, t)
    else if !t.taken size then
      let n := border t.taken size limit size
      (n, { t with limit := n })
    else (t.lengthInNodes size, t)
  else (t.lengthInNodes size, t)

end Table

end BuildComposition.Script
