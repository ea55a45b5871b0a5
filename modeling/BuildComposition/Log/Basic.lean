/-!
# Log entries

What the program tells about its work.  An entry has a severity, the part of the program that it comes
from, a message, and named values.

## Main definitions

* `Severity`: how much an entry matters
* `LogEntry`: an entry
* `LogEntry.line`, `LogEntry.shown`: an entry as text, without and with its origin
-/

namespace BuildComposition

/-- How much an entry of the log matters. -/
inductive Severity where
  | error
  | warn
  | info
  | debug
  | trace
  deriving DecidableEq, Repr

namespace Severity

/-- The name as entries show it. -/
def name : Severity → String
  | error => "ERROR"
  | warn => "WARN"
  | info => "INFO"
  | debug => "DEBUG"
  | trace => "TRACE"

/-- The number of severities up to this one, the most severe first. -/
def rank : Severity → Nat
  | error => 1
  | warn => 2
  | info => 3
  | debug => 4
  | trace => 5

end Severity

/-- An entry of the log. -/
structure LogEntry where
  severity : Severity
  /-- The part of the program that the entry comes from. -/
  origin : String
  message : String
  /-- Values with their names. -/
  fields : List (String × String)
  deriving DecidableEq, Repr

namespace LogEntry

/-- The message and the values behind it. -/
def text (e : LogEntry) : String :=
  " ".intercalate (e.message :: e.fields.map fun (name, value) => s!"{name}={value}")

/-- An entry without its origin. -/
def line (e : LogEntry) : String := s!"{e.severity.name} {e.text}"

/-- The line that is printed for an entry; all severities take five columns. -/
def shown (e : LogEntry) : String :=
  let name := e.severity.name
  String.ofList (List.replicate (5 - name.length) ' ') ++ s!"{name} {e.origin}: {e.text}\n"

end LogEntry

end BuildComposition
