import BuildComposition.Script.Numeral

/-!
# Tokens

The words, marks, names and literals that a script is made of, each with the line on which it ends.
Blanks and comments separate tokens and are not among them.

## Main definitions

* `Mark`, `Token`, `Lexeme`: the tokens
* `tokens?`: the tokens of a source
-/

namespace BuildComposition.Script

/-- The reserved words and the marks. -/
inductive Mark where
  | andWord | breakWord | doWord | elseWord | elseifWord | endWord | falseWord | forWord
  | functionWord | gotoWord | ifWord | inWord | localWord | nilWord | notWord | orWord | repeatWord
  | returnWord | thenWord | trueWord | untilWord | whileWord
  | plus | minus | times | divide | floorDivide | modulo | power | hash | concat
  | equal | notEqual | lessEqual | greaterEqual | less | greater | assign
  | openParen | closeParen | openBrace | closeBrace | openBracket | closeBracket
  | semicolon | colon | comma | dot | ellipsis
  deriving DecidableEq, Repr

/-- A token. -/
inductive Token where
  | mark (m : Mark)
  | name (n : Bytes)
  | string (s : Bytes)
  /-- An integer or a double. -/
  | number (c : Constant)
  deriving Repr

/-- A token and the line on which it ends. -/
structure Lexeme where
  token : Token
  line : Nat
  deriving Repr

namespace Token

/-- The mark of a token. -/
def mark? : Token → Option Mark
  | mark m => some m
  | _ => none

/-- The reserved word that a name is. -/
def word? : List Char → Option Mark
  | ['a', 'n', 'd'] => some .andWord
  | ['b', 'r', 'e', 'a', 'k'] => some .breakWord
  | ['d', 'o'] => some .doWord
  | ['e', 'l', 's', 'e'] => some .elseWord
  | ['e', 'l', 's', 'e', 'i', 'f'] => some .elseifWord
  | ['e', 'n', 'd'] => some .endWord
  | ['f', 'a', 'l', 's', 'e'] => some .falseWord
  | ['f', 'o', 'r'] => some .forWord
  | ['f', 'u', 'n', 'c', 't', 'i', 'o', 'n'] => some .functionWord
  | ['g', 'o', 't', 'o'] => some .gotoWord
  | ['i', 'f'] => some .ifWord
  | ['i', 'n'] => some .inWord
  | ['l', 'o', 'c', 'a', 'l'] => some .localWord
  | ['n', 'i', 'l'] => some .nilWord
  | ['n', 'o', 't'] => some .notWord
  | ['o', 'r'] => some .orWord
  | ['r', 'e', 'p', 'e', 'a', 't'] => some .repeatWord
  | ['r', 'e', 't', 'u', 'r', 'n'] => some .returnWord
  | ['t', 'h', 'e', 'n'] => some .thenWord
  | ['t', 'r', 'u', 'e'] => some .trueWord
  | ['u', 'n', 't', 'i', 'l'] => some .untilWord
  | ['w', 'h', 'i', 'l', 'e'] => some .whileWord
  | _ => none

/-- The mark that a text begins with, the longest if there are several, and the rest. -/
def markOf? : List Char → Option (Mark × List Char)
  | '.' :: '.' :: '.' :: cs => some (.ellipsis, cs)
  | '.' :: '.' :: cs => some (.concat, cs)
  | '.' :: cs => some (.dot, cs)
  | '=' :: '=' :: cs => some (.equal, cs)
  | '=' :: cs => some (.assign, cs)
  | '~' :: '=' :: cs => some (.notEqual, cs)
  | '<' :: '=' :: cs => some (.lessEqual, cs)
  | '<' :: '<' :: _ => none
  | '<' :: cs => some (.less, cs)
  | '>' :: '=' :: cs => some (.greaterEqual, cs)
  | '>' :: '>' :: _ => none
  | '>' :: cs => some (.greater, cs)
  | ':' :: ':' :: _ => none
  | ':' :: cs => some (.colon, cs)
  | '/' :: '/' :: cs => some (.floorDivide, cs)
  | '/' :: cs => some (.divide, cs)
  | '+' :: cs => some (.plus, cs)
  | '-' :: cs => some (.minus, cs)
  | '*' :: cs => some (.times, cs)
  | '%' :: cs => some (.modulo, cs)
  | '^' :: cs => some (.power, cs)
  | '#' :: cs => some (.hash, cs)
  | '(' :: cs => some (.openParen, cs)
  | ')' :: cs => some (.closeParen, cs)
  | '\x7b' :: cs => some (.openBrace, cs)
  | '\x7d' :: cs => some (.closeBrace, cs)
  | '[' :: cs => some (.openBracket, cs)
  | ']' :: cs => some (.closeBracket, cs)
  | ';' :: cs => some (.semicolon, cs)
  | ',' :: cs => some (.comma, cs)
  | _ => none

end Token

namespace Lexer

/-- The rest of a text that begins with a line break, if it does.  Two different characters of a
break in a row are one break. -/
def lineBreak? : List Char → Option (List Char)
  | '\n' :: '\r' :: cs | '\r' :: '\n' :: cs => some cs
  | '\n' :: cs | '\r' :: cs => some cs
  | _ => none

/-- The letters and the underscore. -/
def isLetter (c : Char) : Bool :=
  ('a' ≤ c && c ≤ 'z') || ('A' ≤ c && c ≤ 'Z') || c = '_'

/-- The characters of a name after its first one. -/
def isNameChar (c : Char) : Bool := isLetter c || (Numeral.digit? c).isSome

/-- The octets of a character. -/
def octets (c : Char) : Bytes := bytes (String.singleton c)

/-- The octets of a scalar value in the widest form of the encoding, which reaches to 31 bits. -/
def wideOctets (n : Nat) : Bytes :=
  let tail (count : Nat) : Bytes :=
    (List.range count).reverse.map fun k => UInt8.ofNat (0x80 + n / Nat.pow 64 k % 64)
  if n < 0x80 then [UInt8.ofNat n]
  else if n < 0x800 then UInt8.ofNat (0xC0 + n / 64) :: tail 1
  else if n < 0x10000 then UInt8.ofNat (0xE0 + n / 0x1000) :: tail 2
  else if n < 0x200000 then UInt8.ofNat (0xF0 + n / 0x40000) :: tail 3
  else if n < 0x4000000 then UInt8.ofNat (0xF8 + n / 0x1000000) :: tail 4
  else UInt8.ofNat (0xFC + n / 0x40000000) :: tail 5

/-- The octet of an escape with one letter. -/
def escape? : Char → Option UInt8
  | 'a' => some 7
  | 'b' => some 8
  | 't' => some 9
  | 'n' => some 10
  | 'v' => some 11
  | 'f' => some 12
  | 'r' => some 13
  | '\\' => some 92
  | '"' => some 34
  | '\'' => some 39
  | _ => none

/-- Up to `count` decimal digits, and the rest. -/
def upTo (count : Nat) (cs : List Char) : List Nat × List Char :=
  let ds := (Numeral.digits Numeral.digit? (cs.take count)).1
  (ds, cs.drop ds.length)

/-- The octets of a quoted string after its opening quote, the line on which it ends, and the
rest.  The octets so far are kept in reverse. -/
def quoted? (quote : Char) : Nat → Nat → List Char → Bytes → Option (Bytes × Nat × List Char)
  | 0, _, _, _ => none
  | fuel + 1, line, cs, taken =>
    let more (octets : Bytes) (line : Nat) (cs : List Char) : Option (Bytes × Nat × List Char) :=
      quoted? quote fuel line cs (octets.reverse ++ taken)
    match cs with
    | [] => none
    | '\\' :: cs =>
      match lineBreak? cs with
      | some rest => more [10] (line + 1) rest
      | none =>
        match cs with
        | [] => none
        | 'x' :: a :: b :: rest => do
          more [UInt8.ofNat (16 * (← Numeral.hexDigit? a) + (← Numeral.hexDigit? b))] line rest
        | 'z' :: rest =>
          let (blank, rest) := (rest.takeWhile Numeral.isBlank, rest.dropWhile Numeral.isBlank)
          more [] (line + breaks blank.length blank) rest
        -- a scalar value in braces
        | 'u' :: '\x7b' :: rest =>
          match Numeral.digits Numeral.hexDigit? rest with
          | (d :: ds, '\x7d' :: rest) =>
            let n := Numeral.ofDigits 16 (d :: ds)
            if n < 0x80000000 then more (wideOctets n) line rest else none
          | _ => none
        | c :: rest =>
          match escape? c with
          | some b => more [b] line rest
          | none =>
            -- up to three decimal digits
            match upTo 3 cs with
            | ([], _) => none
            | (ds, rest) =>
              let n := Numeral.ofDigits 10 ds
              if n < 256 then more [UInt8.ofNat n] line rest else none
    | c :: rest =>
      if c = quote then some (taken.reverse, line, rest)
      else if (lineBreak? cs).isSome then none
      else more (octets c) line rest
where
  /-- The number of line breaks in a text. -/
  breaks : Nat → List Char → Nat
    | 0, _ => 0
    | _, [] => 0
    | fuel + 1, c :: cs =>
      match lineBreak? (c :: cs) with
      | some rest => breaks fuel rest + 1
      | none => breaks fuel cs

/-- The level of the long bracket that a text opens with, and the rest. -/
def longBracket? : List Char → Option (Nat × List Char)
  | '[' :: cs =>
    let level := (cs.takeWhile (· = '=')).length
    match cs.drop level with
    | '[' :: rest => some (level, rest)
    | _ => none
  | _ => none

/-- The rest of a text that begins with the end of a long bracket. -/
def longEnd? (level : Nat) : List Char → Option (List Char)
  | ']' :: cs =>
    if (cs.takeWhile (· = '=')).length = level then
      match cs.drop level with
      | ']' :: rest => some rest
      | _ => none
    else none
  | _ => none

/-- The octets up to the end of a long bracket, the line on which it ends, and the rest.  Every line
break is one octet.  The octets so far are kept in reverse. -/
def longText? (level : Nat) : Nat → Nat → List Char → Bytes → Option (Bytes × Nat × List Char)
  | 0, _, _, _ => none
  | fuel + 1, line, cs, taken =>
    match longEnd? level cs with
    | some rest => some (taken.reverse, line, rest)
    | none =>
      match lineBreak? cs with
      | some rest => longText? level fuel (line + 1) rest (10 :: taken)
      | none =>
        match cs with
        | [] => none
        | c :: rest => longText? level fuel line rest ((octets c).reverse ++ taken)

/-- The octets in a long bracket; a line break right after its beginning is not one of them. -/
def long? (level line : Nat) (cs : List Char) : Option (Bytes × Nat × List Char) :=
  match lineBreak? cs with
  | some rest => longText? level (rest.length + 1) (line + 1) rest []
  | none => longText? level (cs.length + 1) line cs []

/-- The characters of a numeral, and the rest.  A sign belongs to a numeral after the mark of an
exponent only, and a letter right behind a numeral counts as part of it.  The characters so far are
kept in reverse. -/
def numeral (isMark : Char → Bool) : Nat → List Char → List Char → List Char × List Char
  | 0, cs, taken => (taken.reverse, cs)
  | fuel + 1, cs, taken =>
    match cs with
    | c :: rest =>
      if isMark c then
        match rest with
        | '+' :: rest => numeral isMark fuel rest ('+' :: c :: taken)
        | '-' :: rest => numeral isMark fuel rest ('-' :: c :: taken)
        | rest => numeral isMark fuel rest (c :: taken)
      else if (Numeral.hexDigit? c).isSome || c = '.' then numeral isMark fuel rest (c :: taken)
      else if isLetter c then ((c :: taken).reverse, rest)
      else (taken.reverse, cs)
    | [] => (taken.reverse, [])

/-- The number that a text begins with, and the rest. -/
def number? (cs : List Char) : Option (Constant × List Char) := do
  let decimal (c : Char) : Bool := c = 'e' || c = 'E'
  let binary (c : Char) : Bool := c = 'p' || c = 'P'
  let (taken, rest) := match cs with
    | '0' :: 'x' :: rest => numeral binary cs.length rest ['x', '0']
    | '0' :: 'X' :: rest => numeral binary cs.length rest ['X', '0']
    | cs => numeral decimal (cs.length + 1) cs []
  return (← (Numeral.unsigned? taken).bind Constant.ofNumber?, rest)

/-- The text begins with a numeral. -/
def startsNumber : List Char → Bool
  | '.' :: c :: _ => (Numeral.digit? c).isSome
  | c :: _ => (Numeral.digit? c).isSome
  | [] => false

/-- The tokens of a text that begins on a line.  Those so far are kept in reverse. -/
def scan? : Nat → Nat → List Char → List Lexeme → Option (List Lexeme)
  | 0, _, _, _ => none
  | _, _, [], taken => some taken.reverse
  | fuel + 1, line, c :: rest, taken =>
    let more (token : Token) (line : Nat) (rest : List Char) : Option (List Lexeme) :=
      scan? fuel line rest (⟨token, line⟩ :: taken)
    match lineBreak? (c :: rest) with
    | some rest => scan? fuel (line + 1) rest taken
    | none =>
      if Numeral.isBlank c then scan? fuel line rest taken
      else if isLetter c then
        let word := c :: rest.takeWhile isNameChar
        let token : Token := match Token.word? word with
          | some m => .mark m
          | none => .name (bytes (String.ofList word))
        more token line (rest.dropWhile isNameChar)
      else if startsNumber (c :: rest) then
        match number? (c :: rest) with
        | some (v, rest) => more (.number v) line rest
        | none => none
      else
        match c, rest with
        | '-', '-' :: rest =>
          match longBracket? rest with
          | some (level, rest) =>
            match long? level line rest with
            | some (_, line, rest) => scan? fuel line rest taken
            | none => none
          | none => scan? fuel line (rest.dropWhile fun c => c ≠ '\n' && c ≠ '\r') taken
        | '"', rest | '\'', rest =>
          match quoted? c (rest.length + 1) line rest [] with
          | some (s, line, rest) => more (.string s) line rest
          | none => none
        | _, _ =>
          match longBracket? (c :: rest) with
          | some (level, rest) =>
            match long? level line rest with
            | some (s, line, rest) => more (.string s) line rest
            | none => none
          | none =>
            -- an opening long bracket that is not finished is no token
            if c = '[' && rest.head? = some '=' then none
            else
              match Token.markOf? (c :: rest) with
              | some (m, rest) => more (.mark m) line rest
              | none => none

end Lexer

/-- The tokens of a source.  Every token, blank or comment takes a character, so the length of the
source bounds their number. -/
def tokens? (source : String) : Option (List Lexeme) :=
  let cs := source.toList
  Lexer.scan? (cs.length + 1) 1 cs []

end BuildComposition.Script
