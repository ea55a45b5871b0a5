import BuildComposition.Json.Basic

/-!
# Written JSON

Two written forms of a value: the compact form, which has no blank between tokens and which
fingerprints are taken of, and the indented form, which puts every item on a line of its own.

## Main definitions

* `Json.compact`: the compact form
* `Json.indented`: the form with two blanks per level
-/

namespace BuildComposition.Json

/-- The escape of one character inside a quoted text: quotes, backslashes and the control
characters below U+0020 are escaped, everything else stands for itself. -/
def escape (c : Char) : List Char :=
  if c = '"' then ['\\', '"']
  else if c = '\\' then ['\\', '\\']
  else if c = '\n' then ['\\', 'n']
  else if c = '\r' then ['\\', 'r']
  else if c = '\t' then ['\\', 't']
  else if c.toNat = 0x08 then ['\\', 'b']
  else if c.toNat = 0x0C then ['\\', 'f']
  else if c.toNat < 0x20 then
    ['\\', 'u', '0', '0', Nat.digitChar (c.toNat / 16), Nat.digitChar (c.toNat % 16)]
  else [c]

/-- A text in quotes. -/
def quoted (s : String) : List Char :=
  '"' :: (s.toList.flatMap escape ++ ['"'])

/-- An integer in decimal. -/
def integer : Int → List Char
  | .ofNat n => Nat.toDigits 10 n
  | .negSucc n => '-' :: Nat.toDigits 10 (n + 1)

/-- A number with an exponent. -/
def scientific (mantissa exponent : Int) : List Char :=
  integer mantissa ++ 'e' :: integer exponent

mutual

/-- The characters of the compact form. -/
def compactChars : Json → List Char
  | .null => ['n', 'u', 'l', 'l']
  | .bool true => ['t', 'r', 'u', 'e']
  | .bool false => ['f', 'a', 'l', 's', 'e']
  | .int n => integer n
  | .decimal m e => scientific m e
  | .str s => quoted s
  | .arr [] => ['[', ']']
  | .arr (j :: rest) => '[' :: (compactChars j ++ compactItems rest)
  | .obj [] => ['\x7b', '\x7d']
  | .obj ((name, j) :: rest) =>
    '\x7b' :: (quoted name ++ ':' :: (compactChars j ++ compactMembers rest))

/-- The items after the first, and the closing bracket. -/
def compactItems : List Json → List Char
  | [] => [']']
  | j :: rest => ',' :: (compactChars j ++ compactItems rest)

/-- The members after the first, and the closing brace. -/
def compactMembers : List (String × Json) → List Char
  | [] => ['\x7d']
  | (name, j) :: rest => ',' :: (quoted name ++ ':' :: (compactChars j ++ compactMembers rest))

end

/-- The compact form. -/
def compact (j : Json) : String := String.ofList (compactChars j)

/-- A new line at a level. -/
def newLine (level : Nat) : List Char := '\n' :: List.replicate (2 * level) ' '

mutual

/-- The characters of the indented form of a value that stands at a level. -/
def indentedChars (level : Nat) : Json → List Char
  | .arr (j :: rest) =>
    '[' :: (newLine (level + 1) ++ indentedChars (level + 1) j ++ indentedItems level rest)
  | .obj ((name, j) :: rest) =>
    '\x7b' :: (newLine (level + 1) ++ quoted name ++ ':' :: ' ' ::
      (indentedChars (level + 1) j ++ indentedMembers level rest))
  | .null => ['n', 'u', 'l', 'l']
  | .bool true => ['t', 'r', 'u', 'e']
  | .bool false => ['f', 'a', 'l', 's', 'e']
  | .int n => integer n
  | .decimal m e => scientific m e
  | .str s => quoted s
  | .arr [] => ['[', ']']
  | .obj [] => ['\x7b', '\x7d']

/-- The items after the first, and the closing bracket. -/
def indentedItems (level : Nat) : List Json → List Char
  | [] => newLine level ++ [']']
  | j :: rest =>
    ',' :: (newLine (level + 1) ++ indentedChars (level + 1) j ++ indentedItems level rest)

/-- The members after the first, and the closing brace. -/
def indentedMembers (level : Nat) : List (String × Json) → List Char
  | [] => newLine level ++ ['\x7d']
  | (name, j) :: rest =>
    ',' :: (newLine (level + 1) ++ quoted name ++ ':' :: ' ' ::
      (indentedChars (level + 1) j ++ indentedMembers level rest))

end

/-- The indented form. -/
def indented (j : Json) : String := String.ofList (indentedChars 0 j)

end BuildComposition.Json
