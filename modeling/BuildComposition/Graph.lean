import BuildComposition.FileTree
import BuildComposition.Script.Failure
import BuildComposition.Session

/-!
# The graph of references

References are followed depth first: a descriptor runs to its end, contributes its unit, and only
then are the references that it has queued followed, each with everything below it before the next.
Descriptors are the same if their canonical paths are.  One that was visited before is skipped, and
one that is being evaluated, or whose queue is being followed, may not be required again.

How a descriptor runs is a parameter: all that is known is that it performs requests.

## Main definitions

* `Evaluator`: how descriptors are found and run
* `Graph`: where references start and how deep they may nest
* `GraphState`: what outlives a call
* `Graph.visit`, `Graph.visitAll`: following references
* `Graph.evaluateAll`, `Graph.evaluateOverride`: the calls
-/

namespace BuildComposition

/-- How descriptors are found and run, on some memory. -/
structure Evaluator (μ : Type) where
  /-- The canonical path of a descriptor file. -/
  find? : Path → Option Path
  /-- Runs the descriptor at a canonical path. -/
  run : Path → μ → (s : Session) → Except ScriptError Unit × μ × Performed s

/-- A reference that is being followed. -/
structure Link where
  /-- The reference as written. -/
  reference : String
  descriptor : Path
  deriving DecidableEq, Repr

/-- The references that led somewhere, as text. -/
def chainText : List String → String
  | [] => "<root>"
  | references => " -> ".intercalate references

/-- Why a reference cannot be followed. -/
inductive GraphError where
  /-- No file stands where the reference leads. -/
  | notFound (reference : String) (resolved : Path) (position : Nat) (chain : List String)
  /-- The descriptor failed. -/
  | descriptor (reference : String) (position : Nat) (chain : List String) (cause : ScriptError)
  /-- The last reference of the chain leads back into the chain. -/
  | cycle (chain : List String)
  | tooDeep (limit : Nat) (chain : List String)
  deriving DecidableEq, Repr

/-- The wording of a graph error. -/
def GraphError.message : GraphError → String
  | notFound reference resolved position chain =>
    s!"project descriptor '{reference}' not found at {resolved.text} " ++
      s!"(reference #{position} in {chainText chain})"
  | descriptor reference position chain _ =>
    s!"failed to evaluate project descriptor '{reference}' " ++
      s!"(reference #{position} in {chainText chain})"
  | cycle chain => s!"reference cycle detected: {chainText chain}"
  | tooDeep limit chain => s!"reference chain too deep (maximum {limit}): {chainText chain}"

/-- What outlives a call: memory, session, and the descriptors that were visited. -/
structure GraphState (μ : Type) where
  memory : μ
  session : Session
  visited : List Path

/-- Where references start and how deep they may nest. -/
structure Graph (μ : Type) where
  evaluator : Evaluator μ
  /-- The directory that relative references start from. -/
  runDir : Path
  maxDepth : Nat
  /-- The root descriptor, which may not be required. -/
  root : Option Link

/-- A step in the graph. -/
abbrev Visit (μ : Type) := EStateM GraphError (GraphState μ)

namespace Graph

variable {μ : Type} (g : Graph μ)

/-- The links that lead to a place below the root. -/
def links (below : List Link) : List Link := g.root.toList ++ below

/-- The references that lead to a place below the root. -/
def chain (below : List Link) : List String := (g.links below).map (·.reference)

/-- The path that a reference stands for. -/
def resolvePath (reference : String) : Path :=
  let p := Path.ofString reference
  if p.isAbsolute then p else g.runDir.join p

/-- Notes an event. -/
def note (e : Event) (h : e.change? = none := by rfl) : Visit μ Unit :=
  modify fun s => { s with session := s.session.note e h }

/-- Runs a descriptor with a fresh frame, and gives the frame that it leaves. -/
def runDescriptor (descriptor : Path) (kind : DescriptorKind) (s : GraphState μ) :
    Except ScriptError Frame × GraphState μ :=
  let (result, memory, performed) :=
    g.evaluator.run descriptor s.memory (s.session.openFrame kind)
  let frame := match result with
    | .error e => .error e
    | .ok () =>
      match performed.session.frame with
      | some f => .ok f
      | none => .error .frameLost
  (frame, { s with memory, session := performed.session.closeFrame })

/-- The unit of a descriptor; an override has none. -/
def unitOf (kind : DescriptorKind) (below : List Link) (link : Link) (frame : Frame) :
    Option ResolvedUnit :=
  match kind with
  | .override => none
  | .project =>
    some {
      reference := link.reference
      descriptor := link.descriptor
      parent := below.getLast?.map (·.reference)
      depth := below.length
      target := frame.target
      settings := frame.settings }

/-- Evaluates a descriptor that was not visited before, and follows what it has queued. -/
def evaluate (follow : List Link → List String → Visit μ (List ResolvedUnit)) (below : List Link)
    (kind : DescriptorKind) (position : Nat) (link : Link) : Visit μ (List ResolvedUnit) := do
  -- a descriptor counts as visited from here on, also if it fails
  modify fun s => { s with visited := link.descriptor :: s.visited }
  note (.evaluating link.reference link.descriptor below.length)
  let (result, s) := g.runDescriptor link.descriptor kind (← get)
  set s
  match result with
  | .error e => throw (.descriptor link.reference position (g.chain below) e)
  | .ok frame =>
    let own := (unitOf kind below link frame).toList
    if frame.required.isEmpty then return own
    note (.descending link.reference frame.required.length)
    return own ++ (← follow (below ++ [link]) frame.required)

/-- Follows references in order, the first of which is at a position. -/
def inOrder {m : Type → Type} [Monad m] (visit : Nat → String → m (List ResolvedUnit)) :
    Nat → List String → m (List ResolvedUnit)
  | _, [] => return []
  | position, reference :: rest => do
    let units ← visit position reference
    return units ++ (← inOrder visit (position + 1) rest)

/-- Follows a reference at a position, where `remaining` more references may nest. -/
def visit (remaining : Nat) (below : List Link) (kind : DescriptorKind) (position : Nat)
    (reference : String) : Visit μ (List ResolvedUnit) := do
  let resolved := g.resolvePath reference
  match g.evaluator.find? resolved with
  | none => throw (.notFound reference resolved position (g.chain below))
  | some descriptor =>
    -- a cycle is reported as such also where it would be too deep or was visited
    if (g.links below).any (·.descriptor.agrees descriptor) then
      throw (.cycle (g.chain below ++ [reference]))
    match remaining with
    | 0 => throw (.tooDeep g.maxDepth (g.chain below ++ [reference]))
    | remaining + 1 =>
      if (← get).visited.contains descriptor then
        note (.skipped reference)
        return []
      g.evaluate (fun below => inOrder (visit remaining below .project) 1) below kind position
        ⟨reference, descriptor⟩

/-- Follows references of the root in order. -/
def evaluateAll (references : List String) : Visit μ (List ResolvedUnit) :=
  inOrder (g.visit g.maxDepth [] .project) 1 references

/-- Evaluates the override, which has no unit of its own, and follows what it has queued. -/
def evaluateOverride (reference : String) : Visit μ (List ResolvedUnit) :=
  g.visit g.maxDepth [] .override 1 reference

end Graph

end BuildComposition
