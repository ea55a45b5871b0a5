import BuildComposition.Script.Value

/-!
# Numerals

How numbers are written in scripts: decimal or hexadecimal, with an optional fraction and exponent.
A numeral without both is an integer; a decimal one that needs more than 64 bits is a double
instead, and a hexadecimal one wraps around.

## Main definitions

* `Numeral.unsigned?`: the number that a complete numeral denotes
* `Numeral.ofText?`: the number that a string denotes, with a sign and blanks around it
-/

namespace BuildComposition.Script.Numeral

/-- The value of a decimal digit. -/
def digit? (c : Char) : Option Nat :=
  if '0' ≤ c ∧ c ≤ '9' then some (c.toNat - '0'.toNat) else none

/-- The value of a hexadecimal digit. -/
def hexDigit? (c : Char) : Option Nat :=
  if '0' ≤ c ∧ c ≤ '9' then some (c.toNat - '0'.toNat)
  else if 'a' ≤ c ∧ c ≤ 'f' then some (c.toNat - 'a'.toNat + 10)
  else if 'A' ≤ c ∧ c ≤ 'F' then some (c.toNat - 'A'.toNat + 10)
  else none

/-- The digits that a text begins with, and the rest. -/
def digits (digit : Char → Option Nat) (cs : List Char) : List Nat × List Char :=
  let isDigit (c : Char) : Bool := (digit c).isSome
  ((cs.takeWhile isDigit).filterMap digit, cs.dropWhile isDigit)

/-- The number with the given digits. -/
def ofDigits (base : Nat) (ds : List Nat) : Nat := ds.foldl (fun n d => base * n + d) 0

/-- The digits after a point, if there is one, and the rest. -/
def fraction (digit : Char → Option Nat) : List Char → Option (List Nat) × List Char
  | '.' :: rest => let (ds, tail) := digits digit rest; (some ds, tail)
  | cs => (none, cs)

/-- The exponent that a text is, after its mark. -/
def exponent? (cs : List Char) : Option Int :=
  let (negative, ds) := match cs with
    | '-' :: ds => (true, ds)
    | '+' :: ds => (false, ds)
    | ds => (false, ds)
  match digits digit? ds with
  | ([], _) => none
  | (ds, []) => some (if negative then -(ofDigits 10 ds : Int) else ofDigits 10 ds)
  | _ => none

/-- A power that decides nothing more: every quotient of digits times a greater power of ten is beyond
all doubles, and divided by it, below them all. -/
def farPower (mantissa : Nat) : Nat := 1200 + mantissa.log2

/-- The double next to `mantissa · base ^ exponent`, where the base is 2 or 10. -/
def scaled (base mantissa : Nat) (exponent : Int) : Float :=
  let far := farPower mantissa
  let power := Nat.pow base (min exponent.natAbs far)
  if exponent < 0 then Binary64.ofRatio mantissa power else Binary64.ofRatio (mantissa * power) 1

/-- The number that a decimal numeral denotes. -/
def decimal? (cs : List Char) : Option Value :=
  let (whole, rest) := digits digit? cs
  let (part, rest) := fraction digit? rest
  let places := part.getD []
  if whole = [] ∧ places = [] then none
  else
    let mantissa := ofDigits 10 (whole ++ places)
    match rest with
    | [] =>
      if part.isNone ∧ mantissa ≤ Word.greatest then some (.int (Int64.ofNat mantissa))
      else some (.float (scaled 10 mantissa (-(places.length : Int))))
    | mark :: rest =>
      if mark = 'e' ∨ mark = 'E' then
        (exponent? rest).map fun e => .float (scaled 10 mantissa (e - places.length))
      else none

/-- The number that a hexadecimal numeral denotes, after its mark. -/
def hexadecimal? (cs : List Char) : Option Value :=
  let (whole, rest) := digits hexDigit? cs
  let (part, rest) := fraction hexDigit? rest
  let places := part.getD []
  if whole = [] ∧ places = [] then none
  else
    let mantissa := ofDigits 16 (whole ++ places)
    match rest with
    | [] =>
      if part.isNone then some (.int (Int64.ofNat mantissa))
      else some (.float (scaled 2 mantissa (-4 * places.length)))
    | mark :: rest =>
      if mark = 'p' ∨ mark = 'P' then
        (exponent? rest).map fun e => .float (scaled 2 mantissa (e - 4 * places.length))
      else none

/-- The number that a numeral without sign denotes. -/
def unsigned? : List Char → Option Value
  | '0' :: 'x' :: cs | '0' :: 'X' :: cs => hexadecimal? cs
  | cs => decimal? cs

/-- The negative of a number. -/
def negative : Value → Value
  | .int n => .int (-n)
  | .float x => .float (-x)
  | v => v

/-- The number that a numeral with an optional sign denotes.  The least integer is one too. -/
def signed? : List Char → Option Value
  | '-' :: cs =>
    if cs.all (fun c => (digit? c).isSome) ∧ cs ≠ [] ∧
        -(ofDigits 10 (digits digit? cs).1 : Int) = Word.least then
      some (.int Int64.minValue)
    else (unsigned? cs).map negative
  | '+' :: cs => unsigned? cs
  | cs => unsigned? cs

/-- The blanks between tokens. -/
def isBlank (c : Char) : Bool := c = ' ' || ('\t' ≤ c && c ≤ '\r')

/-- The number that a string denotes. -/
def ofText? (s : Bytes) : Option Value :=
  let cs := (s.map fun b => Char.ofNat b.toNat).dropWhile isBlank
  signed? (cs.reverse.dropWhile isBlank).reverse

end BuildComposition.Script.Numeral
