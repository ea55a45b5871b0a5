import BuildComposition.Log.Basic

/-!
# Log filters

A filter says which entries of the log are printed.  It is written as directives with commas between
them, each of which names a severity, or the beginning of an origin with the severity that is printed
from there.  In brackets behind an origin a directive can ask for a field in braces, or for a span of
work; there are no spans here, so a directive that asks for one admits nothing.

Of the directives that an entry satisfies the one with the longest origin decides.

## Main definitions

* `LogRule`, `LogFilter`: what is printed
* `LogFilter.read?`: the filter that a text is
* `LogFilter.admits`: an entry is printed
-/

namespace BuildComposition

/-- What is printed of some entries. -/
structure LogRule where
  /-- What the origin of the entries begins with. -/
  origin : Option String
  /-- A field that the entries have. -/
  field : Option String
  /-- The rank of the least severity that is printed, or zero if none is. -/
  rank : Nat
  deriving DecidableEq, Repr

/-- What is printed: a list of rules. -/
structure LogFilter where
  rules : List LogRule
  deriving DecidableEq, Repr

namespace LogRule

/-- The rule is about an entry. -/
def concerns (r : LogRule) (e : LogEntry) : Bool :=
  r.origin.all (fun o => o.toList.isPrefixOf e.origin.toList) &&
    r.field.all fun f => f == "message" || e.fields.any (·.1 == f)

/-- How much a rule asks for: the length of the origin comes first, then the field. -/
def weight (r : LogRule) : Nat × Nat × String :=
  ((r.origin.map (·.length + 1)).getD 0, if r.field.isSome then 1 else 0, r.field.getD "")

/-- A rule asks for no less than another one. -/
def outweighs (r s : LogRule) : Bool :=
  let (a, b, c) := r.weight
  let (a', b', c') := s.weight
  a' < a || a == a' && (b' < b || b == b' && decide (c' ≤ c))

end LogRule

namespace LogFilter

/-- The rule that decides about an entry: the weightiest one, and of two alike the later one. -/
def deciding? (e : LogEntry) : List LogRule → Option LogRule
  | [] => none
  | r :: rest =>
    match deciding? e rest with
    | none => if r.concerns e then some r else none
    | some s => if r.concerns e && !s.outweighs r then some r else some s

/-- An entry is printed. -/
def admits (f : LogFilter) (e : LogEntry) : Bool :=
  (deciding? e f.rules).any fun r => e.severity.rank ≤ r.rank

/-- The filter that prints everything from a severity on. -/
def upTo (s : Severity) : LogFilter := ⟨[⟨none, none, s.rank⟩]⟩

/-! ## Reading -/

/-- The number that a text of digits is, with an optional plus sign. -/
def number? (s : String) : Option Nat :=
  let ds := match s.toList with
    | '+' :: ds => ds
    | ds => ds
  if ds.all Char.isDigit && !ds.isEmpty then
    some (ds.foldl (fun n c => 10 * n + (c.toNat - '0'.toNat)) 0)
  else none

/-- The rank that a severity has by name or by number. -/
def rank? (s : String) : Option Nat :=
  match number? s with
  | some n => if n ≤ 5 then some n else none
  | none =>
    match s.toLower with
    | "off" => some 0
    | "error" => some Severity.error.rank
    | "warn" => some Severity.warn.rank
    | "info" => some Severity.info.rank
    | "debug" => some Severity.debug.rank
    | "trace" => some Severity.trace.rank
    | _ => none

/-- The rank behind an origin: everything is printed if none is given. -/
def givenRank? : List Char → Option Nat
  | [] => some Severity.trace.rank
  | '=' :: [] => some Severity.trace.rank
  | '=' :: cs => rank? (String.ofList cs)
  | _ => none

/-- A character can begin a directive, unless it is a bracket. -/
def canBegin (c : Char) : Bool :=
  c.isAlphanum || c == '-' || c == ':' || c == '_' || 0x80 ≤ c.toNat

/-- The rules of a directive behind an opening bracket: none if it asks for a span or for the value
of a field. -/
def bracketed? (origin : Option String) (cs : List Char) : Option (List LogRule) :=
  let isName (c : Char) : Bool := c ≠ ']' && c ≠ '\x7b'
  let span := cs.takeWhile isName
  match cs.dropWhile isName with
  | ']' :: rest => (givenRank? rest).map fun _ => []
  | '\x7b' :: rest =>
    let field := rest.takeWhile (· ≠ '\x7d')
    match field, rest.dropWhile (· ≠ '\x7d') with
    | _ :: _, _ :: ']' :: rest =>
      (givenRank? rest).map fun rank =>
        if span.isEmpty && !field.contains '=' then
          [⟨origin, some (String.ofList field), rank⟩]
        else []
    | _, _ => none
  | _ => none

/-- The rules of a directive. -/
def directive? (cs : List Char) : Option (List LogRule) :=
  let isName (c : Char) : Bool := c ≠ '[' && c ≠ '='
  match cs with
  | [] => none
  | '[' :: rest => bracketed? none rest
  | c :: _ =>
    if canBegin c then
      let name := String.ofList (cs.takeWhile isName)
      match cs.dropWhile isName with
      | '[' :: rest => bracketed? (some name) rest
      | [] =>
        match rank? name with
        | some rank => some [⟨none, none, rank⟩]
        | none => some [⟨some name, none, Severity.trace.rank⟩]
      | rest => (givenRank? rest).map fun rank => [⟨some name, none, rank⟩]
    else none

/-- The filter that a text is.  Only errors are printed if it has no directives. -/
def read? (s : String) : Option LogFilter :=
  match (s.splitOn ",").filter (· ≠ "") with
  | [] => some (.upTo .error)
  | ds => do
    let rules ← ds.mapM fun d => directive? d.trimAscii.toString.toList
    return ⟨rules.flatten⟩

end LogFilter

end BuildComposition
