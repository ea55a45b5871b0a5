import BuildComposition.Encoding.Plan
import BuildComposition.Json.Printer
import BuildComposition.Text.Sha256

/-!
# Fingerprints

A fingerprint stands for a value: the first hexadecimal digits of the SHA-256 of the octets of its
compact JSON text.

## Main definitions

* `fingerprint`: of a JSON value
* `Plan.fingerprint`: of a plan
-/

namespace BuildComposition

/-- The number of digits of a fingerprint. -/
def fingerprintDigits : Nat := 20

/-- The fingerprint of a JSON value. -/
def fingerprint (j : Json) : String :=
  String.ofList ((Sha256.hex (Utf8.encode j.compact)).toList.take fingerprintDigits)

/-- The fingerprint of a plan. -/
def Plan.fingerprint (p : Plan) : String := BuildComposition.fingerprint p.json

end BuildComposition
