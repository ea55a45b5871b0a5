import BuildComposition.Path
import BuildComposition.Text.Utf8

/-!
# File trees

A file tree in memory: directories, files with their contents, and symbolic links.  A path is
resolved name by name from the root or from the working directory; a link is replaced by its target,
and everything but the last name has to be a directory, so that `x/..` and `x/.` need a directory
`x`.

No path is looked up that has too many octets.  A file is read, and asked for, under the path as it is
written.  The canonical path is found in steps: each name is looked up behind the directory that was
reached, so that the path as it is written may be long, but none of those on the way.

## Main definitions

* `FileTree`: what stands at each location
* `FileTree.locate`: the location of a path with all links resolved
* `FileTree.asked`: the paths that are looked up on the way to this location
* `FileTree.canonicalize`: the path of that location
* `FileTree.isFile`, `FileTree.isDirectory`, `FileTree.readText`

## Main results

* `FileTree.settled_of_locate`: a file or a directory stands at every location that a path resolves to
-/

namespace BuildComposition

/-- The names on the way from the root to a place in the tree; the root is the empty list. -/
abbrev Location := List (List Char)

namespace Location

/-- The path of a location. -/
def path (l : Location) : Path := ⟨'/' :: Path.joinPieces l⟩

/-- The path of a location that asks for a directory there. -/
def asDirectory (l : Location) : Path := ⟨l.path.chars ++ ['/']⟩

/-- The location reached by following pieces as names, without looking at a tree. -/
def along (l : Location) (pieces : List (List Char)) : Location :=
  pieces.foldl
    (fun l piece =>
      if Path.blankPiece piece then l else if piece = ['.', '.'] then l.dropLast else l ++ [piece])
    l

end Location

/-- What stands at a location. -/
inductive Entry where
  | file (content : Bytes)
  | directory
  | link (target : Path)
  deriving DecidableEq, Repr

/-- Why a path cannot be resolved or a file cannot be read. -/
inductive FileError where
  | notFound
  | notDirectory
  | isDirectory
  | nameTooLong
  | tooManyLinks
  | nulInName
  | notText
  deriving DecidableEq, Repr

/-- The wording of a file error. -/
def FileError.message : FileError → String
  | .notFound => "No such file or directory (os error 2)"
  | .notDirectory => "Not a directory (os error 20)"
  | .isDirectory => "Is a directory (os error 21)"
  | .nameTooLong => "File name too long (os error 36)"
  | .tooManyLinks => "Too many levels of symbolic links (os error 40)"
  | .nulInName => "file name contained an unexpected NUL byte"
  | .notText => "stream did not contain valid UTF-8"

/-- The number of octets from which on no path is looked up. -/
def FileTree.pathLimit : Nat := 4096

/-- The path is short enough to be looked up. -/
def Path.Fits (p : Path) : Prop := p.text.utf8ByteSize < FileTree.pathLimit

instance (p : Path) : Decidable p.Fits := inferInstanceAs (Decidable (_ < _))

/-- A name has at most 255 octets. -/
def tooLong (name : List Char) : Bool := 255 < (Utf8.encode (String.ofList name)).length

/-- A name that something can stand under. -/
def validName (name : List Char) : Bool :=
  !Path.blankPiece name && name != ['.', '.'] && !name.contains '/' && !name.contains '\x00' &&
    !tooLong name

/-- What a list of entries puts at a location; the root is a directory. -/
def entryIn? (entries : List (Location × Entry)) (l : Location) : Option Entry :=
  if l = [] then some .directory else entries.lookup l

/-- A file tree and the directory that relative paths start from. -/
structure FileTree where
  entries : List (Location × Entry)
  working : Location
  /-- Everything stands in a directory, under a valid name. -/
  nested : ∀ entry ∈ entries, ∃ parent name,
    entry.1 = parent ++ [name] ∧ validName name ∧ entryIn? entries parent = some .directory
  /-- The working directory is a directory. -/
  working_directory : entryIn? entries working = some .directory

theorem entryIn?_append {entries : List (Location × Entry)} {l : Location} {e : Entry}
    (h : entryIn? entries l = some e) (more : List (Location × Entry)) :
    entryIn? (entries ++ more) l = some e := by
  unfold entryIn? at h ⊢
  split
  · next hl => simpa [hl] using h
  · next hl =>
    simp only [hl, if_false] at h
    simp [List.lookup_append, h]

namespace FileTree

/-- A tree that holds nothing but the root. -/
def empty : FileTree := ⟨[], [], by simp, rfl⟩

/-- What stands at a location. -/
def entry? (t : FileTree) (l : Location) : Option Entry := entryIn? t.entries l

@[simp] theorem entry?_root (t : FileTree) : t.entry? [] = some .directory := rfl

/-- Puts an entry under a name in a directory, where nothing stands under that name yet. -/
def put (t : FileTree) (parent : Location) (name : List Char) (e : Entry) : FileTree :=
  if h : validName name = true ∧ t.entry? parent = some .directory ∧
      t.entry? (parent ++ [name]) = none then
    { entries := t.entries ++ [(parent ++ [name], e)]
      working := t.working
      nested := by
        intro entry hmem
        rcases List.mem_append.mp hmem with hmem | hmem
        · obtain ⟨p, n, h₁, h₂, h₃⟩ := t.nested entry hmem
          exact ⟨p, n, h₁, h₂, entryIn?_append h₃ _⟩
        · rw [List.mem_singleton] at hmem
          exact ⟨parent, name, by rw [hmem], h.1, entryIn?_append h.2.1 _⟩
      working_directory := entryIn?_append t.working_directory _ }
  else t

/-- Puts a directory at a location and at every location on the way to it. -/
def putDirectory (t : FileTree) (l : Location) : FileTree :=
  (List.range l.length).foldl (fun t n => t.put (l.take n) (l.getD n []) .directory) t

/-- Puts an entry at a location and directories on the way to it. -/
def putEntry (t : FileTree) (l : Location) (e : Entry) : FileTree :=
  (t.putDirectory l.dropLast).put l.dropLast (l.getLastD []) e

/-- Makes a directory the working directory. -/
def workIn (t : FileTree) (l : Location) : FileTree :=
  if h : t.entry? l = some .directory then { t with working := l, working_directory := h } else t

/-- A directory stands in a directory. -/
theorem entry?_dropLast {t : FileTree} {l : Location} {e : Entry} (h : t.entry? l = some e) :
    t.entry? l.dropLast = some .directory := by
  unfold entry? entryIn? at h
  split at h
  · next hl =>
    subst hl
    rfl
  · next hl =>
    obtain ⟨l₁, l₂, hes, -⟩ := List.lookup_eq_some_iff.mp h
    obtain ⟨p, n, h₁, -, h₃⟩ := t.nested (l, e) (by rw [hes]; simp)
    simp only at h₁
    rw [h₁, List.dropLast_concat]
    exact h₃

/-! ## Resolution -/

/-- Follows pieces from a directory.  `follow` resolves the pieces of a link and those after it. -/
def walk (t : FileTree) (follow : Location → List (List Char) → Except FileError Location)
    (here : Location) : List (List Char) → Except FileError Location
  | [] => .ok here
  | piece :: rest =>
    -- everything before this piece was resolved, so `here` is a directory without links
    if Path.blankPiece piece then walk t follow here rest
    else if piece = ['.', '.'] then walk t follow here.dropLast rest
    else if tooLong piece then .error .nameTooLong
    else
      match t.entry? (here ++ [piece]) with
      | none => .error .notFound
      | some .directory => walk t follow (here ++ [piece]) rest
      -- even an empty piece behind a file asks for a directory
      | some (.file _) => if rest = [] then .ok (here ++ [piece]) else .error .notDirectory
      | some (.link target) =>
        follow (if target.isAbsolute then [] else here) (Path.pieces target.chars ++ rest)

/-- Follows pieces through fewer than `links` links. -/
def resolve (t : FileTree) : Nat → Location → List (List Char) → Except FileError Location
  | 0 => fun _ _ => .error .tooManyLinks
  | links + 1 => t.walk (t.resolve links)

/-- The number of links that one resolution may pass. -/
def maxLinks : Nat := 40

/-- The location of a path with all links resolved. -/
def locate (t : FileTree) (p : Path) : Except FileError Location :=
  if p.chars.contains '\x00' then .error .nulInName
  else if p.chars = [] then .error .notFound
  else t.resolve (maxLinks + 1) (if p.isAbsolute then [] else t.working) (Path.pieces p.chars)

/-! ## Lookups -/

/-- The name that comes next in pieces, unless they lead up before it. -/
def nextName? (pieces : List (List Char)) : Option (List Char) :=
  (pieces.find? (!Path.blankPiece ·)).filter (· != ['.', '.'])

/-- The path of a location that is looked up if the pieces behind it ask for a directory there: they
end with a slash or a dot, or lead up. -/
def demanded (l : Location) (rest : List (List Char)) : List Path :=
  if rest ≠ [] ∧ nextName? rest = none then [l.asDirectory] else []

/-- The paths that are looked up while pieces are followed from a directory, up to what stops it.
`follow` gives those for the pieces of a link and those after it. -/
def askedAlong (t : FileTree) (follow : Location → List (List Char) → List Path) (here : Location) :
    List (List Char) → List Path
  | [] => []
  | piece :: rest =>
    if Path.blankPiece piece then askedAlong t follow here rest
    else if piece = ['.', '.'] then askedAlong t follow here.dropLast rest
    else
      (here ++ [piece]).path ::
        match t.entry? (here ++ [piece]) with
        | none => demanded (here ++ [piece]) rest
        | some .directory =>
          demanded (here ++ [piece]) rest ++ askedAlong t follow (here ++ [piece]) rest
        -- a name behind a file is looked up, too
        | some (.file _) =>
          demanded (here ++ [piece]) rest ++
            (nextName? rest).toList.map fun name => (here ++ [piece, name]).path
        | some (.link target) =>
          follow (if target.isAbsolute then [] else here) (Path.pieces target.chars ++ rest)

/-- The paths that are looked up while pieces are followed through fewer than `links` links. -/
def askedThrough (t : FileTree) : Nat → Location → List (List Char) → List Path
  | 0 => fun _ _ => []
  | links + 1 => t.askedAlong (t.askedThrough links)

/-- The paths that are looked up one by one to find the location of a path. -/
def asked (t : FileTree) (p : Path) : List Path :=
  if p.chars.contains '\x00' then []
  else t.askedThrough (maxLinks + 1) (if p.isAbsolute then [] else t.working) (Path.pieces p.chars)

/-- All paths on the way are short enough. -/
def Passes (t : FileTree) (p : Path) : Prop := ∀ q ∈ t.asked p, q.Fits

instance (t : FileTree) (p : Path) : Decidable (t.Passes p) :=
  inferInstanceAs (Decidable (∀ q ∈ _, _))

/-- The path of the location of a path, which is found by steps. -/
def canonicalize (t : FileTree) (p : Path) : Except FileError Path :=
  if t.Passes p then (t.locate p).map Location.path else .error .nameTooLong

/-- The location that a path as it is written leads to. -/
def lookup (t : FileTree) (p : Path) : Except FileError Location :=
  if p.Fits then t.locate p else .error .nameTooLong

/-- What a path leads to. -/
def find? (t : FileTree) (p : Path) : Option Entry :=
  match t.lookup p with
  | .ok l => t.entry? l
  | .error _ => none

/-- A path leads to a file. -/
def isFile (t : FileTree) (p : Path) : Bool :=
  match t.find? p with
  | some (.file _) => true
  | _ => false

/-- A path leads to a directory. -/
def isDirectory (t : FileTree) (p : Path) : Bool :=
  match t.find? p with
  | some .directory => true
  | _ => false

/-- The canonical path that a path leads to, if a file stands there. -/
def canonicalFile? (t : FileTree) (p : Path) : Option Path :=
  match t.canonicalize p with
  | .ok q => if t.isFile q then some q else none
  | .error _ => none

/-- The text of a file. -/
def readText (t : FileTree) (p : Path) : Except FileError String := do
  match t.entry? (← t.lookup p) with
  | some (.file content) =>
    match Utf8.decode? content with
    | some s => .ok s
    | none => .error .notText
  | some _ => .error .isDirectory
  | none => .error .notFound

/-! ## What resolution finds -/

/-- A file or a directory stands at a location. -/
def Settled (t : FileTree) (l : Location) : Prop :=
  t.entry? l = some .directory ∨ ∃ content, t.entry? l = some (.file content)

theorem settled_of_walk {t : FileTree}
    {follow : Location → List (List Char) → Except FileError Location}
    (hfollow : ∀ l ps r, t.entry? l = some .directory → follow l ps = .ok r → t.Settled r)
    {ps : List (List Char)} {here r : Location} (hhere : t.entry? here = some .directory)
    (h : t.walk follow here ps = .ok r) : t.Settled r := by
  induction ps generalizing here with
  | nil =>
    simp only [walk, Except.ok.injEq] at h
    exact .inl (h ▸ hhere)
  | cons piece rest ih =>
    rw [walk] at h
    split at h
    · exact ih hhere h
    split at h
    · exact ih (entry?_dropLast hhere) h
    split at h
    · cases h
    split at h
    · cases h
    · next hd => exact ih hd h
    · next content hf =>
      split at h
      · simp only [Except.ok.injEq] at h
        exact .inr ⟨content, h ▸ hf⟩
      · cases h
    · next target _ =>
      refine hfollow _ _ _ ?_ h
      split
      · exact entry?_root t
      · exact hhere

theorem settled_of_resolve {t : FileTree} (links : Nat) {here r : Location}
    {ps : List (List Char)} (hhere : t.entry? here = some .directory)
    (h : t.resolve links here ps = .ok r) : t.Settled r := by
  induction links generalizing here r ps with
  | zero => simp [resolve] at h
  | succ links ih => exact settled_of_walk (fun _ _ _ hl hr => ih hl hr) hhere h

/-- A file or a directory stands at every location that a path resolves to. -/
theorem settled_of_locate {t : FileTree} {p : Path} {l : Location} (h : t.locate p = .ok l) :
    t.Settled l := by
  unfold locate at h
  split at h
  · cases h
  split at h
  · cases h
  refine settled_of_resolve _ ?_ h
  split
  · exact entry?_root t
  · exact t.working_directory

end FileTree

end BuildComposition
