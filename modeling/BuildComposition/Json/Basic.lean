/-!
# JSON values

A JSON value as written: the members of an object keep their order, and a number written with a
fraction or an exponent is told apart from an integer.

## Main definitions

* `Json`: the values
* `Json.member?`: the value under a name
* `Json.sorted`: every object ordered by the octets of its names
-/

namespace BuildComposition

/-- A JSON value. -/
inductive Json where
  | null
  | bool (b : Bool)
  /-- A number written without fraction and exponent. -/
  | int (n : Int)
  /-- The number `mantissa · 10 ^ exponent`, written with a fraction or an exponent. -/
  | decimal (mantissa : Int) (exponent : Int)
  | str (s : String)
  | arr (items : List Json)
  | obj (members : List (String × Json))
  deriving Inhabited, Repr

namespace Json

/-- The value under a name in an object. -/
def member? (name : String) : Json → Option Json
  | .obj members => members.lookup name
  | _ => none

@[simp] theorem member?_obj (name : String) (members : List (String × Json)) :
    (Json.obj members).member? name = members.lookup name := rfl

/-- An optional text: the text, or `null`. -/
def ofOption {α : Type} (f : α → Json) : Option α → Json
  | none => .null
  | some a => f a

@[simp] theorem ofOption_none {α : Type} (f : α → Json) : ofOption f none = .null := rfl

@[simp] theorem ofOption_some {α : Type} (f : α → Json) (a : α) : ofOption f (some a) = f a := rfl

/-- A list of texts. -/
def ofStrings (ss : List String) : Json := .arr (ss.map .str)

/-- Puts a member where its name belongs in a list that is ordered by name. -/
def insertByName (entry : String × Json) : List (String × Json) → List (String × Json)
  | [] => [entry]
  | e :: rest => if entry.1 < e.1 then entry :: e :: rest else e :: insertByName entry rest

mutual

/-- The same value with the members of every object in the order of their names.  The order of
code points is also the order of the octets in UTF-8. -/
def sorted : Json → Json
  | .arr items => .arr (sortedItems items)
  | .obj members => .obj (sortedMembers members)
  | j => j

def sortedItems : List Json → List Json
  | [] => []
  | j :: rest => sorted j :: sortedItems rest

def sortedMembers : List (String × Json) → List (String × Json)
  | [] => []
  | (name, j) :: rest => insertByName (name, sorted j) (sortedMembers rest)

end

end Json

end BuildComposition
