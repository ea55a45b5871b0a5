import BuildComposition.CommandLine

/-!
# The program

Runs the command line on the files of the disk.  Files are fetched when a run misses them, and the
run is then repeated on the larger tree.
-/

namespace BuildComposition.Program

/-- The location that a path of the disk names. -/
def locationOf (p : Path) : Location := Location.along [] (Path.pieces p.chars)

/-- The path of the disk with all links resolved, if something stands there. -/
def realPath? (p : Path) : IO (Option Path) := do
  try
    return some (Path.ofString (toString (← IO.FS.realPath p.text)))
  catch _ => return none

/-- Follows pieces on the disk from a location, and puts the links that are passed into the tree. -/
def followOnDisk (t : FileTree) (here : Location) :
    List (List Char) → IO (Option (FileTree × Location))
  | [] => return some (t, here)
  | piece :: rest => do
    if Path.blankPiece piece then followOnDisk t here rest
    else if piece = ['.', '.'] then followOnDisk t here.dropLast rest
    else
      let next := here ++ [piece]
      match ← realPath? next.path with
      | none => return none
      | some real =>
        let there := locationOf real
        if there = next then followOnDisk (if rest = [] then t else t.putDirectory next) there rest
        else followOnDisk (t.putEntry next (.link real)) there rest

/-- Fetches a file from the disk. -/
def fetch? (t : FileTree) (p : Path) : IO (Option FileTree) := do
  let start := if p.isAbsolute then [] else t.working
  match ← followOnDisk t start (Path.pieces p.chars) with
  | none => return none
  | some (t, l) =>
    try
      let content ← IO.FS.readBinFile l.path.text
      return some (t.putEntry l (.file content.toList))
    catch _ => return none

/-- Fetches the missing files that stand on the disk. -/
def fetchAll (t : FileTree) : List Path → IO FileTree
  | [] => return t
  | p :: rest => do fetchAll ((← fetch? t p).getD t) rest

/-- Runs a request until it misses nothing that the disk has. -/
partial def settle (t : FileTree) (directives? : Option String) (r : CommandLine.Request) :
    IO CommandLine.Outcome := do
  let outcome := r.outcome t directives?
  let fetched ← fetchAll t outcome.missing
  if t.entries.length < fetched.entries.length then settle fetched directives? r else return outcome

end BuildComposition.Program

open BuildComposition Program in
/-- Runs the command line. -/
def main (args : List String) : IO UInt32 := do
  let here := locationOf (Path.ofString (toString (← IO.currentDir)))
  let t := (FileTree.empty.putDirectory here).workIn here
  let request := CommandLine.request (← IO.getEnv "PRJCOMP_TOOLSET") args
  let outcome ← settle t (← IO.getEnv "RUST_LOG") request
  (← IO.getStdout).write ⟨outcome.octets.toArray⟩
  IO.eprint outcome.errors
  return UInt32.ofNat outcome.code
