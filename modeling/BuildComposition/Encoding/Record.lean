import BuildComposition.Json.Basic
import BuildComposition.Number.Word

/-!
# Reading records

How the fields of a record are read from JSON.  A required field has to be there and to be well
formed; an optional one may be missing or `null`.  A record may also be given as the list of all its
fields, and a name out of a fixed choice as the only member of an object, with the value `null`.

## Main definitions

* `Json.record?`, `Json.required`, `Json.optional`: records and their fields
* `Json.text?`, `Json.bool?`, `Json.choice?`, `Json.items?`, `Json.texts?`, `Json.word?`: field values
-/

namespace BuildComposition

namespace Json

/-- A text. -/
def text? : Json → Option String
  | .str s => some s
  | _ => none

/-- A truth value. -/
def bool? : Json → Option Bool
  | .bool b => some b
  | _ => none

/-- A name out of a fixed choice. -/
def choice? : Json → Option String
  | .str s => some s
  | .obj [(s, .null)] => some s
  | _ => none

/-- A natural number of at most 64 bits. -/
def word? : Json → Option Nat
  | .int (.ofNat n) => if n < Word.count then some n else none
  | _ => none

/-- A list of values. -/
def items? {α : Type} (read : Json → Option α) : Json → Option (List α)
  | .arr items => items.mapM read
  | _ => none

/-- A list of texts. -/
def texts? : Json → Option (List String) := items? text?

/-- A record with the given fields, as an object. -/
def record? (fields : List String) : Json → Option Json
  | .obj members => some (.obj members)
  | .arr items => if items.length = fields.length then some (.obj (fields.zip items)) else none
  | _ => none

/-- The value of a required field. -/
def required {α : Type} (name : String) (read : Json → Option α) (j : Json) : Option α :=
  (j.member? name).bind read

/-- A value that may be missing or `null`. -/
def present? {α : Type} (read : Json → Option α) : Option Json → Option (Option α)
  | none => some none
  | some .null => some none
  | some value => (read value).map some

/-- The value of an optional field. -/
def optional {α : Type} (name : String) (read : Json → Option α) (j : Json) :
    Option (Option α) :=
  present? read (j.member? name)

/-! ## Reading what was written -/

@[simp] theorem text?_str (s : String) : text? (.str s) = some s := rfl

@[simp] theorem bool?_bool (b : Bool) : bool? (.bool b) = some b := rfl

@[simp] theorem choice?_str (s : String) : choice? (.str s) = some s := rfl

@[simp] theorem record?_obj (fields : List String) (members : List (String × Json)) :
    record? fields (.obj members) = some (.obj members) := rfl

theorem word?_int {n : Nat} (h : n < Word.count) : word? (.int n) = some n := if_pos h

theorem items?_map {α : Type} {read : Json → Option α} {write : α → Json} (as : List α)
    (h : ∀ a ∈ as, read (write a) = some a) : items? read (.arr (as.map write)) = some as := by
  simp only [items?]
  induction as with
  | nil => rfl
  | cons a as ih => simp [h a, ih fun b hb => h b (by simp [hb])]

theorem present?_ofOption {α : Type} {read : Json → Option α} {write : α → Json}
    (hread : ∀ a, read (write a) = some a) (hnull : ∀ a, write a ≠ .null) (o : Option α) :
    present? read (some (ofOption write o)) = some o := by
  cases o with
  | none => rfl
  | some a =>
    simp only [ofOption, present?]
    split
    · next h => cases h
    · next h => exact absurd (Option.some.inj h) (hnull a)
    · next h => cases h; simp [hread]

@[simp] theorem texts?_ofStrings (ss : List String) : texts? (ofStrings ss) = some ss :=
  items?_map ss fun _ _ => rfl

end Json

end BuildComposition
