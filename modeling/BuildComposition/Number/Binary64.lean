/-!
# Doubles as exact numbers

Decodes a double into a sign, a mantissa and a power of two, so that everything that has to be
exact (comparison with integers, remainders, decimal text) is arithmetic on natural numbers.

## Main definitions

* `Binary64.view`: what a double is
* `Binary64.toInt?`: the integer that a double is equal to
* `Binary64.floor?`, `Binary64.ceil?`: the integers next to a double
* `Binary64.compareInt?`: comparison of a double with an integer
* `Binary64.ofRatio`: the double next to a quotient
-/

namespace BuildComposition.Binary64

/-- A finite double, `mantissa · 2 ^ exponent` with a sign. -/
structure Finite where
  negative : Bool
  mantissa : Nat
  exponent : Int
  /-- The next double towards zero is half as far away as the next one outwards. -/
  narrowBelow : Bool
  deriving DecidableEq, Repr

/-- What a double is. -/
inductive View where
  | nan
  | infinite (negative : Bool)
  | finite (f : Finite)
  deriving DecidableEq, Repr

/-- The fields of the 64 bits of a double. -/
def ofBits (bits : UInt64) : View :=
  let negative := bits >>> 63 = 1
  let exponent := ((bits >>> 52) &&& 0x7FF).toNat
  let fraction := (bits &&& 0xFFFFFFFFFFFFF).toNat
  if exponent = 0x7FF then
    if fraction = 0 then .infinite negative else .nan
  else if exponent = 0 then .finite ⟨negative, fraction, -1074, false⟩
  else .finite ⟨negative, 0x10000000000000 + fraction, exponent - 1075, fraction = 0 ∧ 1 < exponent⟩

/-- What a double is. -/
def view (x : Float) : View := ofBits x.toBits

/-- The magnitude as a quotient of two natural numbers. -/
def Finite.ratio (f : Finite) : Nat × Nat :=
  (f.mantissa * Nat.pow 2 f.exponent.toNat, Nat.pow 2 (-f.exponent).toNat)

/-- A magnitude with the sign of the double. -/
def Finite.signed (f : Finite) (n : Nat) : Int := if f.negative then -n else n

/-- The integer that a finite double is equal to. -/
def Finite.toInt? (f : Finite) : Option Int :=
  let (num, den) := f.ratio
  if num % den = 0 then some (f.signed (num / den)) else none

/-- The greatest integer that is not above a finite double. -/
def Finite.floor (f : Finite) : Int :=
  let (num, den) := f.ratio
  Int.fdiv (f.signed num) den

/-- The integer that a double is equal to. -/
def toInt? (x : Float) : Option Int :=
  match view x with
  | .finite f => f.toInt?
  | _ => none

/-- The greatest integer that is not above a double. -/
def floor? (x : Float) : Option Int :=
  match view x with
  | .finite f => some f.floor
  | _ => none

/-- The least integer that is not below a double. -/
def ceil? (x : Float) : Option Int := (floor? (-x)).map fun n => -n

/-- A double compared with an integer; a NaN compares with nothing. -/
def compareInt? (x : Float) (n : Int) : Option Ordering :=
  match view x with
  | .nan => none
  | .infinite negative => some (if negative then .lt else .gt)
  | .finite f =>
    let (num, den) := f.ratio
    some (compare (f.signed num) (n * den))

/-- The natural number next to a quotient; a tie goes to the even one. -/
def roundDiv (num den : Nat) : Nat :=
  let q := num / den
  let twice := 2 * (num % den)
  if twice < den ∨ (twice = den ∧ q % 2 = 0) then q else q + 1

/-- A quotient divided by a power of two. -/
def scaleDown (num den : Nat) (power : Int) : Nat × Nat :=
  (num * Nat.pow 2 (-power).toNat, den * Nat.pow 2 power.toNat)

/-- The double next to a quotient of natural numbers, rounded once; a tie goes to the even mantissa.
The units are those of the last of 53 binary digits, but none is below `2 ^ -1074`. -/
def ofRatio (num den : Nat) : Float :=
  if num = 0 then 0
  else
    -- the power of two of the first binary digit is this or the one below
    let guess : Int := num.log2 - den.log2
    let (a, b) := scaleDown num den guess
    let leading := if a < b then guess - 1 else guess
    let unit := max (leading - 52) (-1074)
    let (a, b) := scaleDown num den unit
    (Float.ofNat (roundDiv a b)).scaleB unit

/-- The double next to a natural number. -/
def ofNat (n : Nat) : Float :=
  if n < 0x10000000000000000 then Float.ofNat n else ofRatio n 1

/-- The double next to an integer. -/
def ofInt (n : Int) : Float :=
  match n with
  | .ofNat k => ofNat k
  | .negSucc k => -ofNat (k + 1)

/-- The remainder of two doubles with the sign of the divisor.  The magnitude is the exact
remainder, which is a double again: it is a multiple of the smaller of the two units in the last
place and it is not above the divisor. -/
def floorMod (x y : Float) : Float :=
  match view x, view y with
  | .finite f, .finite g =>
    if g.mantissa = 0 then 0.0 / 0.0
    else if f.mantissa = 0 then x
    else
      let e := min f.exponent g.exponent
      let a := f.mantissa * Nat.pow 2 (f.exponent - e).toNat
      let b := g.mantissa * Nat.pow 2 (g.exponent - e).toNat
      let r := a % b
      let magnitude := if f.negative = g.negative ∨ r = 0 then r else b - r
      let z := (Float.ofNat magnitude).scaleB e
      if r = 0 then (if f.negative then -z else z) else if g.negative then -z else z
  | .finite f, .infinite negative =>
    if f.mantissa = 0 ∨ f.negative = negative then x else y
  | _, _ => 0.0 / 0.0

end BuildComposition.Binary64
