import BuildComposition.Fingerprint
import BuildComposition.Proofs.Json.Layouts
import BuildComposition.Proofs.Text.Encoded

/-!
# The text of a plan

The octets that the fingerprint of a plan is taken of determine the plan.  They are those of its compact
JSON text, which denotes the written form of the plan and no other value, and from the written form the
plan can be read again.

## Main definitions

* `Plan.hashInput`: the octets that the fingerprint of a plan is taken of

## Main results

* `Plan.read_compact`: a plan is read again from its text
-/

namespace BuildComposition

namespace Plan

/-- The octets that the fingerprint of a plan is taken of. -/
def hashInput (p : Plan) : Bytes := Utf8.encode p.json.compact

/-- The depths of all units are words. -/
def FitsWords (p : Plan) : Prop := ∀ u ∈ p.units, u.depth < Word.count

theorem fingerprint_eq (p : Plan) : p.fingerprint =
    String.ofList ((Sha256.hex p.hashInput).toList.take fingerprintDigits) := rfl

/-- A plan is read again from its text. -/
theorem read_compact {p : Plan} (h : p.FitsWords) :
    (Json.parse? p.json.compact).bind ofJson? = some p := by
  rw [Json.parse?_compact, Option.bind_some, ofJson?_json h]

/-- The text that a fingerprint is taken of determines the plan: the plan is read again from it, two plans
whose fingerprints are taken of the same octets are equal, and a plan that was read from the text has the
same fingerprint. -/
theorem determined_by_text {p : Plan} (h : p.FitsWords) :
    p.fingerprint = String.ofList ((Sha256.hex p.hashInput).toList.take fingerprintDigits) ∧
    (Json.parse? p.json.compact).bind ofJson? = some p ∧
    (∀ q : Plan, q.FitsWords → q.hashInput = p.hashInput → q = p) ∧
    ∀ q, (Json.parse? p.json.compact).bind ofJson? = some q → q.fingerprint = p.fingerprint := by
  have hread := read_compact h
  refine ⟨p.fingerprint_eq, hread, fun q hq heq => ?_, fun q hq => ?_⟩
  · have hread' := read_compact hq
    rw [Utf8.encode_injective heq, hread, Option.some.injEq] at hread'
    exact hread'.symm
  · rw [hread, Option.some.injEq] at hq
    rw [hq]

/-- A plan with a control character, a quote, a backslash and a character that is not ASCII in its name,
and with a unit at the greatest depth. -/
def unusual : Plan where
  name := some "\u0001\"\\\n\u00e9"
  toolset := ⟨"gcc"⟩
  runDir := ⟨"/r".toList⟩
  defaults := .localOverride ⟨"/r/o".toList⟩
  config := { Config.empty with placement := some (.sourceSubdir "o") }
  units := [⟨"a", ⟨"/r/a".toList⟩, some "b", Word.count - 1, some ⟨"t", .dll, ["s", "s"]⟩, .empty⟩]

theorem determined_by_text_unusual :
    unusual.FitsWords ∧ (Json.parse? unusual.json.compact).bind ofJson? = some unusual ∧
      ∀ q : Plan, q.FitsWords → q.hashInput = unusual.hashInput → q = unusual := by
  have hfits : unusual.FitsWords := by
    intro u hu
    rw [List.mem_singleton.mp hu]
    decide
  obtain ⟨-, hread, hequal, -⟩ := determined_by_text hfits
  exact ⟨hfits, hread, hequal⟩

end Plan

end BuildComposition
