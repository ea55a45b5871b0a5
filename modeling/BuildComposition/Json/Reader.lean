import BuildComposition.Json.Basic

/-!
# Reading JSON

A reader for complete JSON texts.  Blanks are allowed between tokens; a quoted text may hold the
short escapes and `\u` escapes, where two surrogate escapes in a row are one character and a lone
one is U+FFFD.

## Main definitions

* `Json.parse?`: the value that a text denotes
-/

namespace BuildComposition.Json

namespace Reader

/-- The blanks between tokens. -/
def isBlank (c : Char) : Bool := c = ' ' || c = '\n' || c = '\r' || c = '\t'

/-- The text after its leading blanks. -/
def skipBlank (cs : List Char) : List Char := cs.dropWhile isBlank

/-- The value of a hexadecimal digit. -/
def hexDigit? (c : Char) : Option Nat :=
  if '0' ≤ c ∧ c ≤ '9' then some (c.toNat - '0'.toNat)
  else if 'a' ≤ c ∧ c ≤ 'f' then some (c.toNat - 'a'.toNat + 10)
  else if 'A' ≤ c ∧ c ≤ 'F' then some (c.toNat - 'A'.toNat + 10)
  else none

/-- The code unit that four hexadecimal digits denote. -/
def codeUnit? (a b c d : Char) : Option Nat := do
  return ((← hexDigit? a) * 16 + (← hexDigit? b)) * 256 + (← hexDigit? c) * 16 + (← hexDigit? d)

/-- The code point that a short escape denotes. -/
def shortEscape? (c : Char) : Option Nat :=
  if c = '"' ∨ c = '\\' ∨ c = '/' then some c.toNat
  else if c = 'b' then some 0x08
  else if c = 'f' then some 0x0C
  else if c = 'n' then some 0x0A
  else if c = 'r' then some 0x0D
  else if c = 't' then some 0x09
  else none

/-- The code points and surrogates up to the closing quote, and the text after it. -/
def units? : List Char → Option (List Nat × List Char)
  | [] => none
  | '"' :: rest => some ([], rest)
  | '\\' :: 'u' :: a :: b :: c :: d :: rest => do
    let u ← codeUnit? a b c d
    let (us, tail) ← units? rest
    return (u :: us, tail)
  | '\\' :: e :: rest => do
    let u ← shortEscape? e
    let (us, tail) ← units? rest
    return (u :: us, tail)
  | c :: rest =>
    if c.toNat < 0x20 then none
    else do
      let (us, tail) ← units? rest
      return (c.toNat :: us, tail)

/-- Joins each high surrogate with the low surrogate that follows it; a lone one is U+FFFD. -/
def joinSurrogates : List Nat → List Char
  | [] => []
  | [u] => if 0xD800 ≤ u ∧ u < 0xE000 then [Char.ofNat 0xFFFD] else [Char.ofNat u]
  | u :: v :: rest =>
    if 0xD800 ≤ u ∧ u < 0xDC00 ∧ 0xDC00 ≤ v ∧ v < 0xE000 then
      Char.ofNat (0x10000 + (u - 0xD800) * 0x400 + (v - 0xDC00)) :: joinSurrogates rest
    else if 0xD800 ≤ u ∧ u < 0xE000 then Char.ofNat 0xFFFD :: joinSurrogates (v :: rest)
    else Char.ofNat u :: joinSurrogates (v :: rest)

/-- The text up to the closing quote, and what follows it. -/
def text? (cs : List Char) : Option (String × List Char) := do
  let (us, rest) ← units? cs
  return (String.ofList (joinSurrogates us), rest)

/-- The digits at the head of a text, and what follows them. -/
def digits? (cs : List Char) : Option (List Char × List Char) :=
  match cs.span Char.isDigit with
  | ([], _) => none
  | (ds, rest) => some (ds, rest)

/-- An integer with an optional sign in front. -/
def signed? : List Char → Option (Int × List Char)
  | '-' :: rest => do
    let (ds, tail) ← digits? rest
    return (-(Nat.ofDigitChars 10 ds 0 : Int), tail)
  | '+' :: rest => do
    let (ds, tail) ← digits? rest
    return (Nat.ofDigitChars 10 ds 0, tail)
  | cs => do
    let (ds, tail) ← digits? cs
    return (Nat.ofDigitChars 10 ds 0, tail)

/-- The exponent of a number, if one follows. -/
def exponent? : List Char → Option (Option Int × List Char)
  | 'e' :: rest => do let (n, tail) ← signed? rest; return (some n, tail)
  | 'E' :: rest => do let (n, tail) ← signed? rest; return (some n, tail)
  | rest => some (none, rest)

/-- The fraction of a number, if one follows. -/
def fraction? : List Char → Option (Option (List Char) × List Char)
  | '.' :: rest => do let (ds, tail) ← digits? rest; return (some ds, tail)
  | rest => some (none, rest)

/-- A number without its sign. -/
def magnitude? (negative : Bool) (cs : List Char) : Option (Json × List Char) := do
  let (whole, rest) ← digits? cs
  let (fraction, rest) ← fraction? rest
  let (exponent, rest) ← exponent? rest
  let ds := fraction.getD []
  let magnitude : Int := Nat.ofDigitChars 10 (whole ++ ds) 0
  let mantissa := if negative then -magnitude else magnitude
  if fraction.isNone && exponent.isNone then return (.int mantissa, rest)
  else return (.decimal mantissa (exponent.getD 0 - ds.length), rest)

/-- A number. -/
def number? : List Char → Option (Json × List Char)
  | '-' :: rest => magnitude? true rest
  | cs => magnitude? false cs

mutual

/-- A value and the text after it; `fuel` bounds the number of tokens. -/
def value? : Nat → List Char → Option (Json × List Char)
  | 0, _ => none
  | fuel + 1, cs =>
    match skipBlank cs with
    | 'n' :: 'u' :: 'l' :: 'l' :: rest => some (.null, rest)
    | 't' :: 'r' :: 'u' :: 'e' :: rest => some (.bool true, rest)
    | 'f' :: 'a' :: 'l' :: 's' :: 'e' :: rest => some (.bool false, rest)
    | '"' :: rest => do let (s, tail) ← text? rest; return (.str s, tail)
    | '[' :: rest =>
      match skipBlank rest with
      | ']' :: tail => some (.arr [], tail)
      | _ => do let (items, tail) ← items? fuel rest; return (.arr items, tail)
    | '\x7b' :: rest =>
      match skipBlank rest with
      | '\x7d' :: tail => some (.obj [], tail)
      | _ => do let (members, tail) ← members? fuel rest; return (.obj members, tail)
    | rest => number? rest

/-- The items up to the closing bracket; there is at least one. -/
def items? : Nat → List Char → Option (List Json × List Char)
  | 0, _ => none
  | fuel + 1, cs => do
    let (j, rest) ← value? fuel cs
    match skipBlank rest with
    | ',' :: rest => let (js, tail) ← items? fuel rest; return (j :: js, tail)
    | ']' :: tail => return ([j], tail)
    | _ => none

/-- The members up to the closing brace; there is at least one. -/
def members? : Nat → List Char → Option (List (String × Json) × List Char)
  | 0, _ => none
  | fuel + 1, cs =>
    match skipBlank cs with
    | '"' :: rest => do
      let (name, rest) ← text? rest
      match skipBlank rest with
      | ':' :: rest =>
        let (j, rest) ← value? fuel rest
        match skipBlank rest with
        | ',' :: rest => let (ms, tail) ← members? fuel rest; return ((name, j) :: ms, tail)
        | '\x7d' :: tail => return ([(name, j)], tail)
        | _ => none
      | _ => none
    | _ => none

end

end Reader

/-- The value that a complete text denotes.  Every token takes a character, so the length of the
text bounds their number. -/
def parse? (s : String) : Option Json := do
  let cs := s.toList
  let (j, rest) ← Reader.value? (cs.length + 1) cs
  if Reader.skipBlank rest = [] then some j else none

end BuildComposition.Json
