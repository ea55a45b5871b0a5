import BuildComposition.Script.Library.Arguments

/-!
# String functions of the library

## Main definitions

* `Call.format`: a template with its conversions filled in
* `Call.upper`, `Call.rep`, `Call.sub`: capitals, repetition and parts of strings
-/

namespace BuildComposition.Script

/-- A conversion in a template. -/
structure Conversion where
  leftAligned : Bool
  plus : Bool
  blank : Bool
  zeros : Bool
  width : Nat
  precision : Option Nat
  /-- The letter. -/
  letter : UInt8

namespace Conversion

/-- The flags that a text begins with, added to others, and the rest. -/
def flags (v : Conversion) : Bytes → Conversion × Bytes
  | 45 :: bs => flags { v with leftAligned := true } bs
  | 43 :: bs => flags { v with plus := true } bs
  | 32 :: bs => flags { v with blank := true } bs
  | 48 :: bs => flags { v with zeros := true } bs
  | bs => (v, bs)

/-- A number of at most two digits, and the rest. -/
def short (bs : Bytes) : Nat × Bytes :=
  let ds := (bs.take 2).takeWhile fun b => 48 ≤ b && b ≤ 57
  (Numeral.ofDigits 10 (ds.map fun b => b.toNat - 48), bs.drop ds.length)

/-- The conversion that a text begins with after its mark, and the rest. -/
def read? (bs : Bytes) : Option (Conversion × Bytes) :=
  let (v, bs) := flags ⟨false, false, false, false, 0, none, 0⟩ bs
  let (width, bs) := short bs
  let (precision, bs) := match bs with
    | 46 :: bs => let (p, bs) := short bs; (some p, bs)
    | bs => (none, bs)
  match bs with
  | letter :: bs => some ({ v with width, precision, letter }, bs)
  | [] => none

/-- Fills a text up to the width. -/
def pad (v : Conversion) (s : Bytes) : Bytes :=
  let blanks := List.replicate (v.width - s.length) 32
  if v.leftAligned then s ++ blanks else blanks ++ s

/-- An integer in decimal. -/
def integer (v : Conversion) (n : Int) : Bytes :=
  let sign : Bytes := if n < 0 then [45] else if v.plus then [43] else if v.blank then [32] else []
  let ds := bytes (toString n.natAbs)
  let least := match v.precision with
    | some p => p
    | none => if v.zeros && !v.leftAligned then v.width - sign.length else 0
  v.pad (sign ++ List.replicate (least - ds.length) 48 ++ ds)

end Conversion

namespace Call

variable {σ : Type} (c : Call σ)

/-- Fills the conversions of a template, where `n` is the position of the next argument. -/
def fill : Nat → Nat → Bytes → Run σ Bytes
  | 0, _, _ => throw .exhausted
  | _, _, [] => return []
  | fuel + 1, n, 37 :: 37 :: bs => return 37 :: (← fill fuel n bs)
  | fuel + 1, n, 37 :: bs => do
    match Conversion.read? bs with
    | none => raise c.callers "invalid conversion '%' to 'format'"
    | some (v, rest) =>
      if c.args.length < n then c.reject n "no value"
      else if v.letter = 100 || v.letter = 105 then
        let s := v.integer (← c.integer n)
        return s ++ (← fill fuel (n + 1) rest)
      else if v.letter = 115 then
        let value := c.arg n
        let s ← c.described value
        return v.pad (s.take (v.precision.getD s.length)) ++ (← fill fuel (n + 1) rest)
      else
        let spec := Utf8.lossy (bs.take (bs.length - rest.length))
        raise c.callers s!"invalid conversion '%{spec}' to 'format'"
  | fuel + 1, n, b :: bs => return b :: (← fill fuel n bs)

/-- A template with its conversions filled in. -/
def format : Run σ (List Value) := do
  let template ← c.text 1
  return [.str (← c.fill (template.length + 1) 2 template)]

/-- A string in capitals. -/
def upper : Run σ (List Value) := do
  return [.str ((← c.text 1).map fun b => if 97 ≤ b ∧ b ≤ 122 then b - 32 else b)]

/-- A string so many times, with a separator in between. -/
def rep : Run σ (List Value) := do
  let s ← c.text 1
  let n ← c.integer 2
  let separator ← if c.given 3 then c.text 3 else pure []
  return [.str (List.intercalate separator (List.replicate n.toNat s))]

/-- The part of a string between two positions, which count from the end if they are negative. -/
def sub : Run σ (List Value) := do
  let s ← c.text 1
  let length : Int := s.length
  let i ← c.integer 2
  let j ← c.integerD 3 (-1)
  let start := if 0 < i then i else if i = 0 ∨ i < -length then 1 else length + i + 1
  let stop := if length < j then length else if 0 ≤ j then j else if j < -length then 0
    else length + j + 1
  return [.str ((s.drop (start - 1).toNat).take (stop - start + 1).toNat)]

end Call

end BuildComposition.Script
