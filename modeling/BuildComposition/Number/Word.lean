/-!
# Words

The bounds of numbers of 64 bits.

## Main definitions

* `Word.count`: the number of words, which all of them are below as natural numbers
* `Word.least`, `Word.greatest`: the bounds of words as integers with a sign
-/

namespace BuildComposition.Word

/-- The number of words of 64 bits. -/
def count : Nat := 0x10000000000000000

/-- The least integer with a sign. -/
def least : Int := -0x8000000000000000

/-- The greatest integer with a sign. -/
def greatest : Int := 0x7FFFFFFFFFFFFFFF

end BuildComposition.Word
