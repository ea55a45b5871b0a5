import BuildComposition.Number.Binary64

/-!
# Decimal text of doubles

Two ways to write a double in decimal, both by exact arithmetic: rounded to a number of significant
digits, and with the fewest digits that no other double shares.

## Main definitions

* `Decimal.significant`: a positive quotient rounded to significant digits, ties to even
* `Decimal.shortest`: the fewest digits that read back as the same double
* `Decimal.general`: significant digits, positional or with an exponent
* `Decimal.positional`: the fewest digits, never with an exponent
-/

namespace BuildComposition.Decimal

open Binary64 (Finite roundDiv)

/-- The digits of a natural number. -/
def digits (n : Nat) : List Char := Nat.toDigits 10 n

/-- The number of places after the point at which a quotient below one has its first digit, where
`places` of them were passed; `fuel` bounds the search. -/
def leadingZeros : Nat → Nat → Nat → Nat → Nat
  | 0, places, _, _ => places
  | fuel + 1, places, num, den =>
    if den ≤ num then places else leadingZeros fuel (places + 1) (num * 10) den

/-- The power of ten of the first digit of a positive quotient.  A positive double is at least
`10 ^ -324`. -/
def scale (num den : Nat) : Int :=
  if den ≤ num then (digits (num / den)).length - 1 else -leadingZeros 400 0 num den

/-- A quotient times a power of ten. -/
def shift (num den : Nat) (power : Int) : Nat × Nat :=
  (num * Nat.pow 10 power.toNat, den * Nat.pow 10 (-power).toNat)

/-- A positive quotient rounded to `count` significant digits: the digits as a number and the power
of ten of the first of them. -/
def significant (count : Nat) (num den : Nat) : Nat × Int :=
  let k := scale num den
  let (n, d) := shift num den (count - 1 - k)
  let rounded := roundDiv n d
  if rounded = Nat.pow 10 count then (Nat.pow 10 (count - 1), k + 1) else (rounded, k)

/-- The digits without the zeros at their end. -/
def stripZeros (ds : List Char) : List Char := (ds.reverse.dropWhile (· = '0')).reverse

/-- A point and the digits after it, or nothing if there are none. -/
def pointed : List Char → List Char
  | [] => []
  | ds => '.' :: ds

/-- An exponent with its sign and at least two digits. -/
def exponentText (e : Int) : List Char :=
  let ds := digits e.natAbs
  'e' :: (if e < 0 then '-' else '+') :: (if ds.length < 2 then '0' :: ds else ds)

/-- The digits with a point after the first `whole` of them; `whole` may be negative. -/
def placePoint (ds : List Char) (whole : Int) : List Char :=
  if 0 < whole then
    let n := whole.toNat
    if ds.length ≤ n then ds ++ List.replicate (n - ds.length) '0'
    else ds.take n ++ pointed (ds.drop n)
  else '0' :: pointed (List.replicate (-whole).toNat '0' ++ ds)

/-- A finite double rounded to `count` significant digits and without zeros at its end.  It is
written positionally when its first digit stands between the fifth place after the point and the
last of the significant digits, and with an exponent otherwise. -/
def generalFinite (count : Nat) (f : Finite) : List Char :=
  let sign := if f.negative then ['-'] else []
  if f.mantissa = 0 then sign ++ ['0']
  else
    let (num, den) := f.ratio
    let (rounded, k) := significant count num den
    let ds := stripZeros (digits rounded)
    if k < -4 ∨ count ≤ k then
      sign ++ ds.take 1 ++ pointed (ds.drop 1) ++ exponentText k
    else sign ++ placePoint ds (k + 1)

/-- A double with at most `count` significant digits. -/
def general (count : Nat) (x : Float) : String :=
  match Binary64.view x with
  | .nan => "nan"
  | .infinite negative => if negative then "-inf" else "inf"
  | .finite f => String.ofList (generalFinite count f)

/-- `digits · 10 ^ exponent` lies among the reals that round to a double.  The ends of that interval
belong to it exactly when the mantissa is even. -/
def readsBack (f : Finite) (ds : Nat) (exponent : Int) : Bool :=
  let low := if f.narrowBelow then 4 * f.mantissa - 1 else 4 * f.mantissa - 2
  let high := 4 * f.mantissa + 2
  let inclusive := f.mantissa % 2 == 0
  let (n, d) := shift ds 1 exponent
  let bound (b : Nat) : Ordering :=
    compare (n * Nat.pow 2 (-(f.exponent - 2)).toNat) (b * Nat.pow 2 (f.exponent - 2).toNat * d)
  (bound low == .gt || (inclusive && bound low == .eq)) &&
    (bound high == .lt || (inclusive && bound high == .eq))

/-- The shortest digits with at least `count` digits: the neighbours of the double on each decimal
grid are tried in turn, and of two that read back the nearer is taken, the greater in a tie. -/
def searchShortest (f : Finite) (num den : Nat) (k : Int) : Nat → Nat → Nat × Int
  | 0, _ => significant 17 num den |>.map id (· - 16)
  | fuel + 1, count =>
    let exponent := k + 1 - count
    let (n, d) := shift num den (-exponent)
    let low := n / d
    let lowHit := readsBack f low exponent
    let highHit := readsBack f (low + 1) exponent
    if lowHit && (!highHit || 2 * (n % d) < d) then (low, exponent)
    else if highHit then (low + 1, exponent)
    else searchShortest f num den k fuel (count + 1)

/-- The fewest digits that read back as a positive double, with the power of ten of the last one. -/
def shortest (f : Finite) : Nat × Int :=
  let (num, den) := f.ratio
  searchShortest f num den (scale num den) 17 1

/-- A double with the fewest digits that read back, always written positionally and with no point
after an integer. -/
def positional (x : Float) : String :=
  match Binary64.view x with
  | .nan => "NaN"
  | .infinite negative => if negative then "-inf" else "inf"
  | .finite f =>
    let sign := if f.negative then ['-'] else []
    if f.mantissa = 0 then String.ofList (sign ++ ['0'])
    else
      let (n, e) := shortest f
      let ds := digits n
      String.ofList (sign ++ placePoint (stripZeros ds) (ds.length + e))

end BuildComposition.Decimal
