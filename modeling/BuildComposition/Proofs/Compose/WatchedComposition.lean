import BuildComposition.Proofs.Compose.OtherMemories
import BuildComposition.Proofs.Script.WatchedRuns

/-!
# Watched runs of the composition

A run of the composition that is watched leaves one record of everything that its scripts execute, the
root file first and then the descriptors in the order of their evaluation.  Otherwise it is the run that
it would be unwatched.  The record explains what every script finds in the tables that the run starts
with.

## Main definitions

* `Root.record`: the record of reading a root
* `watchedCompose`: the outcome of a run, the session that it leaves, and its record

## Main results

* `watchedCompose_spec`: a watched run ends as the run does, and its record explains each of its snapshots
-/

namespace BuildComposition

open Script

/-! ## Roots -/

namespace RootSpec

variable {σ α β : Type} {base : Memory} {invoke : Invoke (Watched σ)} {invoke' : Invoke σ}

/-- Reading does the same whether it is watched or not. -/
def MirrorsReading (base : Memory) (x : Reading (Watched σ) α) (y : Reading σ α) : Prop :=
  Mirrors (Watches base) x.run y.run

namespace MirrorsReading

theorem pure (a : α) : MirrorsReading base (Pure.pure a : Reading (Watched σ) α) (Pure.pure a) :=
  Mirrors.pure _

theorem bind {x : Reading (Watched σ) α} {y : Reading σ α} {f : α → Reading (Watched σ) β}
    {g : α → Reading σ β} (hx : MirrorsReading base x y) (hf : ∀ a, MirrorsReading base (f a) (g a)) :
    MirrorsReading base (x >>= f) (y >>= g) := by
  refine Mirrors.bind hx fun result => ?_
  cases result with
  | error fault => exact Mirrors.pure _
  | ok a => exact hf a

theorem lift {x : Run (Watched σ) α} {y : Run σ α} (h : Mirrors (Watches base) x y) :
    MirrorsReading base (ExceptT.lift x) (ExceptT.lift y) := Mirrors.map _ h

theorem stop (field : String) (problem : FieldProblem) :
    MirrorsReading base (RootSpec.stop field problem : Reading (Watched σ) α)
      (RootSpec.stop field problem) := Mirrors.pure _

theorem fieldValue? (h : MirrorsCalls (Watches base) invoke invoke') (id : Nat) (name : String) :
    MirrorsReading base (RootSpec.fieldValue? invoke id name) (RootSpec.fieldValue? invoke' id name) := by
  refine lift (Mirrors.tryCatch (Mirrors.guarded 0 (Mirrors.map _ (Mirrors.fieldOf h _ id name)))
    fun fault => ?_)
  cases fault with
  | thrown v => exact Mirrors.pure _
  | exhausted => exact Mirrors.throw _

theorem fieldAs (h : MirrorsCalls (Watches base) invoke invoke') (id : Nat) (name : String)
    (problem : FieldProblem) (read : Value → Option α) :
    MirrorsReading base (RootSpec.fieldAs invoke id name problem read)
      (RootSpec.fieldAs invoke' id name problem read) := by
  refine bind (fieldValue? h id name) fun v => ?_
  cases v.bind read with
  | some a => exact pure a
  | none => exact stop _ _

theorem textsField (h : MirrorsCalls (Watches base) invoke invoke') (id : Nat) (name : String) :
    MirrorsReading base (RootSpec.textsField invoke id name) (RootSpec.textsField invoke' id name) := by
  refine bind (fieldValue? h id name) fun v => ?_
  cases v with
  | none => exact stop _ _
  | some v =>
    cases v with
    | nil => exact pure _
    | table list =>
      refine bind (lift (Mirrors.items list)) fun vs => ?_
      cases vs.mapM lossyText? with
      | some ts => exact pure ts
      | none => exact stop _ _
    | _ => exact stop _ _

theorem readRule (h : MirrorsCalls (Watches base) invoke invoke') (id : Nat) :
    MirrorsReading base (RootSpec.readRule invoke id) (RootSpec.readRule invoke' id) := by
  refine bind (textsField h id "toolsets") fun toolsets => ?_
  dsimp only
  split
  all_goals
    first
    | refine bind (stop _ _) fun _ => ?_
    | skip
    exact bind (textsField h id _) fun _ => bind (textsField h id _) fun _ =>
      bind (textsField h id _) fun _ => pure _

theorem readRules (h : MirrorsCalls (Watches base) invoke invoke') (list fuel n : Nat)
    (read : List ToolsetRule) : MirrorsReading base (RootSpec.readRules invoke list fuel n read)
      (RootSpec.readRules invoke' list fuel n read) := by
  induction fuel generalizing n read with
  | zero => exact pure _
  | succ fuel ih =>
    refine bind (lift (Mirrors.peek list _)) fun v => ?_
    cases v with
    | nil => exact pure _
    | table id => exact bind (readRule h id) fun rule => ih (n + 1) (rule :: read)
    | _ => exact stop _ _

theorem rulesField (h : MirrorsCalls (Watches base) invoke invoke') (id : Nat) :
    MirrorsReading base (RootSpec.rulesField invoke id) (RootSpec.rulesField invoke' id) := by
  refine bind (fieldValue? h id "rules") fun v => ?_
  cases v with
  | none => exact stop _ _
  | some v =>
    cases v with
    | nil => exact pure _
    | table list => exact readRules h list _ _ _
    | _ => exact stop _ _

theorem readTable (h : MirrorsCalls (Watches base) invoke invoke') (id : Nat) :
    MirrorsReading base (RootSpec.readTable invoke id) (RootSpec.readTable invoke' id) := by
  refine bind (lift (Mirrors.load _)) fun keys => bind (lift (Mirrors.load _)) fun addresses => ?_
  cases keys.findSome? (Key.fault? addresses) with
  | some fault => exact stop _ _
  | none =>
    exact bind (fieldAs h id "name" _ _) fun _ => bind (fieldAs h id "cpp_std" _ _) fun _ =>
      bind (textsField h id _) fun _ => bind (textsField h id _) fun _ =>
      bind (textsField h id _) fun _ => bind (rulesField h id) fun _ =>
      bind (textsField h id _) fun _ => bind (fieldAs h id "builtin_rules" _ _) fun _ =>
      bind (fieldAs h id "override" _ _) fun _ => pure _

end MirrorsReading

end RootSpec

/-- A root file does the same whether it is watched or not. -/
theorem mirrors_evaluateRoot {σ : Type} {base : Memory} {invoke : Invoke (Watched σ)}
    {invoke' : Invoke σ} (h : MirrorsCalls (Watches base) invoke invoke') (tree : FileTree) (path : Path) :
    Mirrors (Watches base) (evaluateRoot invoke tree path) (evaluateRoot invoke' tree path) := by
  refine Mirrors.bind (Mirrors.fileValue h tree path) fun v => ?_
  cases v with
  | table id => exact Mirrors.map some (RootSpec.MirrorsReading.readTable h id)
  | _ => exact Mirrors.pure _

/-- The session in which a root is read. -/
def Session.opening (toolset : Toolset) (runDir : Path) : Session :=
  Session.start.note (.composing toolset runDir)

/-- What is executed to read a root. -/
def Root.record (tree : FileTree) (root : Root) (toolset : Toolset) (layout : Layout := .standard) :
    List Snapshot :=
  match root.source with
  | .file path =>
    let session := Session.opening toolset root.runDir
    (Machine.run ((Memory.withProject toolset root.runDir).withAddresses layout.early)
      ⟨Performed.start session, []⟩ (evaluateRoot watchedInvoke tree path)).2.2.record
  | .spec _ => []

/-! ## Runs -/

/-- Runs a descriptor as `scriptEvaluator` does, and adds what is executed to a record. -/
def watchedRunner (tree : FileTree) : Runner (Memory × List Snapshot) := fun path memory session =>
  let (result, left, watched) := Machine.run memory.1
    ⟨Performed.start (.blank session.frame), memory.2⟩ (fileValue watchedInvoke tree path)
  (result.map fun _ => (), (left, watched.record), watched.host.onto session)

/-- A memory and a record of how it came to be. -/
def RecordedIn (base : Memory) (m : Memory) (x : Memory × List Snapshot) : Prop :=
  x.1 = m ∧ Recorded base x.2 x.1

theorem tracks_watchedRunner (base : Memory) (tree : FileTree) :
    Runner.Tracks (RecordedIn base) (scriptEvaluator tree).run (watchedRunner tree) := by
  have hrun : ∀ path m x (session : Session), RecordedIn base m x →
      (scriptEvaluator tree).run path m session =
        ((watchedRunner tree path x session).1, (watchedRunner tree path x session).2.1.1,
          (watchedRunner tree path x session).2.2) ∧
      Recorded base (watchedRunner tree path x session).2.1.2
        (watchedRunner tree path x session).2.1.1 := by
    rintro path _ ⟨memory, record⟩ session ⟨rfl, hx⟩
    have hwatched := Machine.run_watched (w := ⟨Performed.start (.blank session.frame), record⟩)
      (Mirrors.fileValue Mirrors.watchedInvoke tree path) hx
    refine ⟨?_, hwatched.2⟩
    simp only [scriptEvaluator, evaluateFile]
    rw [hwatched.1]
    rfl
  refine ⟨fun path m x session h => ?_, fun path m x session h => ?_, fun path m x session h => ?_⟩
  · rw [(hrun path m x session h).1]
  · rw [(hrun path m x session h).1]
    exact ⟨rfl, (hrun path m x session h).2⟩
  · rw [(hrun path m x session h).1]

/-- What was executed to read a root explains the memory that this leaves. -/
theorem recorded_read (tree : FileTree) (root : Root) (toolset : Toolset) (layout : Layout) :
    Recorded (Memory.withProject toolset root.runDir) (root.record tree toolset layout)
      (root.read tree toolset layout).2.1 := by
  have hstart : Recorded (Memory.withProject toolset root.runDir) []
      ((Memory.withProject toolset root.runDir).withAddresses layout.early) :=
    (Recorded.start (Memory.linked_withProject _ _)).withAddresses _
  unfold Root.read Root.record
  cases root.source with
  | spec spec => exact hstart.withAddresses _
  | file path =>
    have hrun := Machine.run_watched
      (w := ⟨Performed.start (Session.opening toolset root.runDir), []⟩)
      (mirrors_evaluateRoot Mirrors.watchedInvoke tree path) hstart
    have hleft := hrun.2.withAddresses
    rw [← congrArg (fun run => run.2.1) hrun.1] at hleft
    exact hleft _

/-! ## The whole run -/

/-- The outcome of a run and the session that it leaves, and what it has executed: first the root file,
and then the descriptors in the order of their evaluation. -/
def watchedCompose (tree : FileTree) (root : Root) (toolset : Toolset) (options : Options)
    (layout : Layout := .standard) : (Except ComposeError Plan × Session) × List Snapshot :=
  let record := root.record tree toolset layout
  match root.read tree toolset layout with
  | (.error e, _, session) => ((.error (.root e), session), record)
  | (.ok spec, memory, session) =>
    let source := DefaultsSource.resolve tree root.runDir spec.overrideFile
    let start := session.arrange spec toolset root.runDir source
    let graph := (root.graph tree options).on (watchedRunner tree)
    match (composeUnits graph spec options source).run ⟨(memory, record), start, []⟩ with
    | .error e s => ((.error e, s.session), s.memory.2)
    | .ok units s =>
      ((.ok ⟨spec.name, toolset, root.runDir, source, s.session.config, units⟩, s.session), s.memory.2)

/-- A watched run ends as the run does, and its record explains each of its snapshots. -/
theorem watchedCompose_spec (tree : FileTree) (root : Root) (toolset : Toolset) (options : Options)
    {layout : Layout} :
    (watchedCompose tree root toolset options layout).1 = compose tree root toolset options layout ∧
      ∀ before p after, (watchedCompose tree root toolset options layout).2 = before ++ p :: after →
        Explains (Memory.withProject toolset root.runDir) before p.memory := by
  have hread := recorded_read tree root toolset layout
  unfold watchedCompose compose composition
  dsimp only
  generalize root.read tree toolset layout = read at hread
  obtain ⟨spec | spec, memory, session⟩ := read
  · exact ⟨rfl, hread.before⟩
  · let source := DefaultsSource.resolve tree root.runDir spec.overrideFile
    let start := session.arrange spec toolset root.runDir source
    have hends := Graph.Tracks.composeUnits (g := root.graph tree options)
      (tracks_watchedRunner (Memory.withProject toolset root.runDir) tree) spec options source
      ⟨memory, start, []⟩ ⟨(memory, root.record tree toolset layout), start, []⟩ ⟨⟨rfl, hread⟩, rfl, rfl⟩
    dsimp only
    generalize (composeUnits (root.graph tree options) spec options source).run ⟨memory, start, []⟩ = r,
      (composeUnits ((root.graph tree options).on (watchedRunner tree)) spec options source).run
        ⟨(memory, root.record tree toolset layout), start, []⟩ = r' at hends ⊢
    cases hends with
    | ok heq hst =>
      obtain ⟨⟨-, hrecorded⟩, hsession, -⟩ := hst
      exact ⟨by simp only [heq, hsession], hrecorded.before⟩
    | error heq hst =>
      obtain ⟨⟨-, hrecorded⟩, hsession, -⟩ := hst
      exact ⟨by simp only [heq, hsession], hrecorded.before⟩

end BuildComposition
