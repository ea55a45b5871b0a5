import BuildComposition.Log.Filter
import BuildComposition.Report

/-!
# The command line

The commands `plan` and `rules` with their options.  An option can be written `-x value`, `-xvalue`,
`-x=value`, `--name value` or `--name=value`; a value does not begin with a hyphen unless it is
attached.  Every option may be given once.

What the log shows is said by a variable of the environment, or else by an option.  Standard output has
what scripts print, and then the report of the command; what scripts have left in the buffer of a line comes
when the command ends.

## Main definitions

* `Command`, `Request`: what is asked for
* `parseArguments`: the request that arguments are
* `logFilter`: the entries of the log that are printed
* `Outcome`, `execute`: what a request prints and how it ends
* `Outcome.octets`, `Outcome.output`: standard output, as octets and as text
-/

namespace BuildComposition.CommandLine

/-- The name of the program. -/
def programName : String := "prjcomp"

/-- The version of the program. -/
def version : String := "0.1.0"

/-- The root file unless one is given. -/
def standardRoot : String := "build.lua"

/-- How a plan is printed. -/
inductive Format where
  | text
  | json
  deriving DecidableEq, Repr

/-- The format with a name. -/
def Format.ofName? : String → Option Format
  | "text" => some .text
  | "json" => some .json
  | _ => none

/-- A command with its options. -/
inductive Command where
  | plan (file : String) (toolset : String) (format : Format)
  | rules (toolset : String)
  deriving DecidableEq, Repr

/-- What arguments ask for. -/
inductive Request where
  | run (verbose : Bool) (command : Command)
  | help
  | version
  /-- The arguments are wrong. -/
  | misuse
  deriving DecidableEq, Repr

/-! ## Arguments -/

/-- The options that take a value. -/
inductive Setting where
  | toolset
  | format
  deriving DecidableEq, Repr

/-- What an option means. -/
inductive Meaning where
  | verbose
  | help
  | version
  | setting (s : Setting)
  deriving DecidableEq, Repr

/-- Where an option stands. -/
inductive Place where
  | top
  | plan
  | rules
  deriving DecidableEq, Repr

/-- The meaning of an option letter. -/
def Place.letter? (p : Place) (c : Char) : Option Meaning :=
  match c, p with
  | 'v', _ => some .verbose
  | 'h', _ => some .help
  | 'V', .top => some .version
  | 't', .plan | 't', .rules => some (.setting .toolset)
  | 'f', .plan => some (.setting .format)
  | _, _ => none

/-- The meaning of an option name. -/
def Place.name? (p : Place) (name : String) : Option Meaning :=
  match name, p with
  | "verbose", _ => some .verbose
  | "help", _ => some .help
  | "version", .top => some .version
  | "toolset", .plan | "toolset", .rules => some (.setting .toolset)
  | "format", .plan => some (.setting .format)
  | _, _ => none

/-- What was given so far. -/
structure Given where
  verbose : Bool
  toolset : Option String
  format : Option Format
  file : Option String
  deriving DecidableEq, Repr

/-- Nothing was given. -/
def Given.nothing : Given := ⟨false, none, none, none⟩

/-- Gives an option its value, once. -/
def Given.set? (g : Given) (value : String) : Setting → Option Given
  | .toolset => if g.toolset.isSome then none else some { g with toolset := some value }
  | .format =>
    if g.format.isSome then none
    else (Format.ofName? value).map fun f => { g with format := some f }

/-- Takes a file, once; its name is not empty. -/
def Given.take? (g : Given) (file : String) : Option Given :=
  if g.file.isSome ∨ file = "" then none else some { g with file := some file }

/-- What an argument leaves to do. -/
inductive Progress where
  | going (g : Given)
  /-- The next argument is the value of an option. -/
  | owing (g : Given) (s : Setting)
  | over (r : Request)

/-- An option that is given without a value attached. -/
def plainOption (g : Given) : Meaning → Progress
  | .verbose => if g.verbose then .over .misuse else .going { g with verbose := true }
  | .help => .over .help
  | .version => .over .version
  | .setting s => .owing g s

/-- An option that is given with a value attached. -/
def attachedOption (g : Given) (value : String) : Meaning → Progress
  | .setting s => ((g.set? value s).map Progress.going).getD (.over .misuse)
  | _ => .over .misuse

/-- Option letters behind one hyphen.  What stands behind the letter of an option with a value is that
value. -/
def letters (p : Place) (g : Given) : List Char → Progress
  | [] => .going g
  | c :: rest =>
    match p.letter? c, rest with
    | none, _ => .over .misuse
    | some m, [] => plainOption g m
    | some (.setting s), '=' :: value => attachedOption g (String.ofList value) (.setting s)
    | some (.setting s), value => attachedOption g (String.ofList value) (.setting s)
    | some m, rest =>
      match plainOption g m with
      | .going g => letters p g rest
      | other => other

/-- An option name behind two hyphens. -/
def longOption (p : Place) (g : Given) (cs : List Char) : Progress :=
  let name := String.ofList (cs.takeWhile (· ≠ '='))
  match p.name? name, cs.dropWhile (· ≠ '=') with
  | none, _ => .over .misuse
  | some m, [] => plainOption g m
  | some m, _ :: value => attachedOption g (String.ofList value) m

/-- A file, where a command takes one. -/
def positional (p : Place) (g : Given) (arg : String) : Progress :=
  match p with
  | .plan => ((g.take? arg).map Progress.going).getD (.over .misuse)
  | _ => .over .misuse

/-- An argument that is not the value of the option before it. -/
def argument (p : Place) (g : Given) (arg : String) : Progress :=
  match arg.toList with
  | '-' :: '-' :: cs => longOption p g cs
  | '-' :: c :: cs => letters p g (c :: cs)
  | _ => positional p g arg

/-- The arguments behind two lone hyphens, all of which are files. -/
def positionals (p : Place) : Given → List String → Progress
  | g, [] => .going g
  | g, arg :: rest =>
    match positional p g arg with
    | .going g => positionals p g rest
    | other => other

/-- The arguments of a command. -/
def arguments (p : Place) : Given → List String → Progress
  | g, [] => .going g
  | g, arg :: rest =>
    if arg = "--" then positionals p g rest
    else
      match argument p g arg with
      | .going g => arguments p g rest
      | .over r => .over r
      | .owing g s =>
        match rest with
        | [] => .over .misuse
        | value :: rest =>
          -- a lone hyphen is a value, anything else behind a hyphen an option
          if value.toList.head? = some '-' ∧ value ≠ "-" then .over .misuse
          else
            match g.set? value s with
            | none => .over .misuse
            | some g => arguments p g rest

/-- The request of a command, where `toolset?` is the toolset unless one is given. -/
def commandRequest (p : Place) (verbose : Bool) (toolset? : Option String) (args : List String) :
    Request :=
  match arguments p .nothing args with
  | .over r => r
  | .owing _ _ => .misuse
  | .going g =>
    match g.toolset.or toolset? with
    | none => .misuse
    | some t =>
      .run (verbose || g.verbose) <|
        match p with
        | .plan => .plan (g.file.getD standardRoot) t (g.format.getD .text)
        | _ => .rules t

/-- The request that arguments are. -/
def parseArguments (toolset? : Option String) : Given → List String → Request
  | _, [] => .misuse
  | _, "help" :: rest =>
    match rest with
    | [] | ["plan"] | ["rules"] | ["help"] => .help
    | _ => .misuse
  | g, "plan" :: rest => commandRequest .plan g.verbose toolset? rest
  | g, "rules" :: rest => commandRequest .rules g.verbose toolset? rest
  | g, arg :: rest =>
    if arg = "--" then .misuse
    else
      match argument .top g arg with
      | .going g => parseArguments toolset? g rest
      | .owing _ _ => .misuse
      | .over r => r

/-! ## Execution -/

/-- What a request prints and how it ends. -/
structure Outcome where
  code : Nat
  /-- What scripts have printed. -/
  printed : Script.Output
  report : String
  /-- The log and failures. -/
  errors : String
  /-- The paths at which no file was found. -/
  missing : List Path
  deriving DecidableEq, Repr

/-- The octets of standard output.  What is left in the buffer comes last. -/
def Outcome.octets (o : Outcome) : Bytes :=
  o.printed.before ++ Utf8.encode o.report ++ o.printed.pending

/-- Standard output as text. -/
def Outcome.output (o : Outcome) : String := Utf8.lossy o.octets

/-- The path that a failure did not find a file at. -/
def missingPath? : ComposeError → Option Path
  | .root (.notFound p) => some p
  | .graph (.notFound _ p _ _) => some p
  | .malformedOverride _ (.notFound _ p _ _) => some p
  | _ => none

/-- The path at which no override was found. -/
def missingOverride? : Event → Option Path
  | .noOverride p => some p
  | _ => none

/-- The entries of the log that are printed, where `directives?` are those of the environment: warnings,
or more if an option asks for it, unless the environment says which. -/
def logFilter (verbose : Bool) (directives? : Option String) : LogFilter :=
  (directives?.bind LogFilter.read?).getD (.upTo (if verbose then .debug else .warn))

/-- Entries of the log as they are printed. -/
def printed (filter : LogFilter) (entries : List LogEntry) : String :=
  String.join ((entries.filter filter.admits).map LogEntry.shown)

/-- The entry of the log about a plan that is complete. -/
def composedEntry (p : Plan) : LogEntry :=
  ⟨.debug, "prjcomp::cmd::plan", "plan composed", [("units", toString p.units.length)]⟩

/-- Prints the plan of a root file. -/
def executePlan (tree : FileTree) (filter : LogFilter) (file : String) (toolset : String)
    (format : Format) (layout : Layout := .standard) : Outcome :=
  let path := Path.ofString file
  match Root.ofFile tree path with
  | .error e =>
    ⟨1, .empty, "", failureReport s!"Failed to load root descriptor: {file}" e.causes, [path]⟩
  | .ok root =>
    let (result, memory, session) := composition tree root ⟨toolset⟩ .standard layout
    let missing := session.journal.filterMap missingOverride?
    match result with
    | .error e =>
      ⟨1, memory.printed, "",
        printed filter session.log ++ failureReport s!"Failed to compose {file}" e.causes,
        missing ++ (missingPath? e).toList⟩
    | .ok plan =>
      let report := match format with
        | .text => plan.report
        | .json => plan.json.indented ++ "\n"
      ⟨0, memory.printed, report, printed filter (session.log ++ [composedEntry plan]), missing⟩

/-- Executes a command on a file tree. -/
def execute (tree : FileTree) (filter : LogFilter) (command : Command)
    (layout : Layout := .standard) : Outcome :=
  match command with
  | .plan file toolset format => executePlan tree filter file toolset format layout
  | .rules toolset => ⟨0, .empty, (Toolset.mk toolset).report, "", []⟩

/-- How the program is used. -/
def usage : String :=
  unlines [s!"Usage: {programName} [-v] plan [FILE] -t TOOLSET [-f text|json]",
    s!"       {programName} [-v] rules -t TOOLSET"]

/-- Executes a request on a file tree, where `directives?` are those of the environment about the
log. -/
def Request.outcome (tree : FileTree) (directives? : Option String) (request : Request)
    (layout : Layout := .standard) : Outcome :=
  match request with
  | run verbose command => execute tree (logFilter verbose directives?) command layout
  | help => ⟨0, .empty, usage, "", []⟩
  | version => ⟨0, .empty, s!"{programName} {CommandLine.version}\n", "", []⟩
  | misuse => ⟨2, .empty, "", usage, []⟩

/-- The request that arguments are, where `toolset?` is the toolset unless one is given. -/
def request (toolset? : Option String) (args : List String) : Request :=
  parseArguments toolset? .nothing args

end BuildComposition.CommandLine
