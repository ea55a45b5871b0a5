/-!
# Paths

A path is a text in which slashes separate *pieces*.  Empty pieces and single dots name nothing, so
two spellings of a path can have the same *components*; joining and taking the parent keep the
spelling, and only comparison looks at components.

## Main definitions

* `Path`: a path as written
* `Path.anchor`, `Path.body`: how a path begins and the pieces after that
* `Path.components`: what a path names, piece by piece
* `Path.agrees`: two paths that name the same, piece by piece
* `Path.join`, `Path.parent?`, `Path.stripBase?`, `Path.fileName?`

## Main results

* `Path.joinPieces_pieces`: the pieces of a text lose nothing
-/

namespace BuildComposition

/-- A path as written. -/
structure Path where
  chars : List Char
  deriving DecidableEq, Inhabited, Repr

namespace Path

/-- The path that a text spells. -/
def ofString (s : String) : Path := ⟨s.toList⟩

/-- The text of a path. -/
def text (p : Path) : String := String.ofList p.chars

@[simp] theorem text_ofString (s : String) : (ofString s).text = s := by
  simp [ofString, text]

@[simp] theorem ofString_text (p : Path) : ofString p.text = p := by
  simp [ofString, text]

/-- The pieces between slashes; there is always at least one. -/
def pieces : List Char → List (List Char)
  | [] => [[]]
  | c :: rest =>
    if c = '/' then [] :: pieces rest
    else
      match pieces rest with
      | [] => [[c]]
      | p :: ps => (c :: p) :: ps

/-- Pieces with slashes between them. -/
def joinPieces (ps : List (List Char)) : List Char := List.intercalate ['/'] ps

theorem pieces_ne_nil (cs : List Char) : pieces cs ≠ [] := by
  cases cs with
  | nil => simp [pieces]
  | cons c rest =>
    simp only [pieces]
    split
    · simp
    · split <;> simp

/-- The pieces of a text lose nothing. -/
theorem joinPieces_pieces (cs : List Char) : joinPieces (pieces cs) = cs := by
  induction cs with
  | nil => simp [pieces, joinPieces]
  | cons c rest ih =>
    simp only [pieces]
    split
    · next h =>
      have hne := pieces_ne_nil rest
      cases hp : pieces rest with
      | nil => exact absurd hp hne
      | cons p ps =>
        rw [hp] at ih
        simp [joinPieces, List.intercalate] at ih ⊢
        simp [ih, h]
    · next h =>
      have hne := pieces_ne_nil rest
      cases hp : pieces rest with
      | nil => exact absurd hp hne
      | cons p ps =>
        rw [hp] at ih
        cases ps <;> simp_all [joinPieces, List.intercalate]

/-- How a path begins: at the root, with a dot, or with neither. -/
inductive Anchor where
  | root
  | here
  | none
  deriving DecidableEq, Repr

/-- How a path begins. -/
def anchor (p : Path) : Anchor :=
  match p.chars with
  | '/' :: _ => .root
  | ['.'] => .here
  | '.' :: '/' :: _ => .here
  | _ => .none

/-- The pieces after the beginning. -/
def body (p : Path) : List (List Char) :=
  match p.anchor with
  | .none => pieces p.chars
  | _ => (pieces p.chars).tail

/-- A path begins at the root. -/
def isAbsolute (p : Path) : Bool := p.anchor == .root

/-- A piece that names nothing: an empty one or a single dot. -/
def blankPiece (piece : List Char) : Bool := piece == [] || piece == ['.']

/-- What a part of a path names. -/
inductive Component where
  | root
  | here
  | up
  | name (chars : List Char)
  deriving DecidableEq, Repr

/-- The component of a piece, if it names something. -/
def Component.ofPiece? (piece : List Char) : Option Component :=
  if blankPiece piece then none
  else if piece = ['.', '.'] then some .up
  else some (.name piece)

/-- The component that the beginning of a path stands for. -/
def Anchor.components : Anchor → List Component
  | .root => [.root]
  | .here => [.here]
  | .none => []

/-- The components of a path.  A dot counts only at the beginning. -/
def components (p : Path) : List Component :=
  p.anchor.components ++ p.body.filterMap Component.ofPiece?

/-- Two paths name the same, piece by piece. -/
def agrees (p q : Path) : Bool := p.components == q.components

/-- The spelling of a beginning and the pieces after it. -/
def spell : Anchor → List (List Char) → Path
  | .root, ps => ⟨'/' :: joinPieces ps⟩
  | .here, [] => ⟨['.']⟩
  | .here, p :: ps => ⟨'.' :: '/' :: joinPieces (p :: ps)⟩
  | .none, ps => ⟨joinPieces ps⟩

/-- The path `q` as seen from `p`: `q` itself if it is absolute, otherwise the two with a slash
between them unless `p` is empty or ends in one. -/
def join (p q : Path) : Path :=
  if q.isAbsolute then q
  else if p.chars = [] ∨ p.chars.getLast? = some '/' then ⟨p.chars ++ q.chars⟩
  else ⟨p.chars ++ '/' :: q.chars⟩

/-- Joins a path with a text. -/
def joinText (p : Path) (s : String) : Path := p.join (ofString s)

/-- The pieces without the blank ones at the end. -/
def trimEnd (ps : List (List Char)) : List (List Char) :=
  (ps.reverse.dropWhile blankPiece).reverse

/-- The path without its last component, if it has one besides the root. -/
def parent? (p : Path) : Option Path :=
  match trimEnd p.body with
  | [] =>
    match p.anchor with
    | .here => some ⟨[]⟩
    | _ => none
  | b :: bs => some (spell p.anchor (trimEnd (b :: bs).dropLast))

/-- The directory of a path; the empty path where there is none. -/
def parent (p : Path) : Path := p.parent?.getD ⟨[]⟩

/-- The pieces after the first `count` ones that name something. -/
def dropNamed : Nat → List (List Char) → List (List Char)
  | 0, ps => ps
  | _, [] => []
  | count + 1, p :: ps => if blankPiece p then dropNamed (count + 1) ps else dropNamed count ps

/-- The rest of `p`, as written, after the components of `base`, if those come first in `p`. -/
def stripBase? (base p : Path) : Option Path :=
  if base.components.isPrefixOf p.components then
    match base.components.length with
    | 0 => some (spell p.anchor (trimEnd p.body))
    | count =>
      some (spell .none
        (trimEnd ((dropNamed (count - p.anchor.components.length) p.body).dropWhile blankPiece)))
  else none

/-- The last component, if it is a name. -/
def fileName? (p : Path) : Option String :=
  match p.components.getLast? with
  | some (.name cs) => some (String.ofList cs)
  | _ => none

end Path

end BuildComposition
