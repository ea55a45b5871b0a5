import BuildComposition.Compose
import BuildComposition.Proofs.Script.Construction
import BuildComposition.Proofs.Script.RenumberedMemory

/-!
# Root files that return literals

A root file that only returns a literal leaves everything as it was.  It makes tables and reads no others,
and the specification is read from the tables that it has made.  They stay behind, so that what is made later
has other numbers than it would have without the file, and nothing refers to them.

## Main definitions

* `RootSpec.Reading.Keeps`: reading that keeps a condition on machines

## Main results

* `RootSpec.Reading.Keeps.readTable`: reading a specification from a new table
* `loadSpec_extends`: what a root file that returns a literal leaves
* `read_literal`: it is what would be there without the file, under other numbers
-/

namespace BuildComposition

open Script

namespace RootSpec

section

variable {σ α β : Type} {I : Machine σ → Prop} {Q : α → Prop} {R : β → Prop}

/-- Reading that keeps a condition on machines, whether or not it stops at a field. -/
def Reading.Keeps (I : Machine σ → Prop) (Q : α → Prop) (act : Reading σ α) : Prop :=
  Script.Keeps I (fun result => ∀ a, result = .ok a → Q a) act.run

/-- Reading of which nothing is needed but that it keeps a condition. -/
abbrev Reading.KeepsAny (I : Machine σ → Prop) (act : Reading σ α) : Prop :=
  Reading.Keeps I (fun _ => True) act

namespace Reading.Keeps

theorem pure {a : α} (h : Q a) : Reading.Keeps I Q (Pure.pure a : Reading σ α) := by
  refine Script.Keeps.pure fun b hb => ?_
  cases hb
  exact h

theorem bind {x : Reading σ α} {f : α → Reading σ β} (hx : Reading.Keeps I Q x)
    (hf : ∀ a, Q a → Reading.Keeps I R (f a)) : Reading.Keeps I R (x >>= f) := by
  unfold Reading.Keeps
  rw [ExceptT.run_bind]
  refine Script.Keeps.bind hx fun result hresult => ?_
  cases result with
  | ok a => exact hf a (hresult a rfl)
  | error fault => exact Script.Keeps.pure fun _ h => nomatch h

theorem lift {x : Run σ α} (hx : Script.Keeps I Q x) : Reading.Keeps I Q (ExceptT.lift x) := by
  unfold Reading.Keeps
  rw [ExceptT.run_lift]
  refine Script.Keeps.map hx fun a ha b hb => ?_
  cases hb
  exact ha

theorem stop (field : String) (problem : FieldProblem) :
    Reading.Keeps I Q (RootSpec.stop field problem : Reading σ α) :=
  Script.Keeps.pure fun _ h => nomatch h

end Reading.Keeps

end

/-! ## Reading from new tables -/

namespace Reading.Keeps

variable {σ α : Type} {invoke : Invoke σ} {base : Array Table} {old : Memory} {host : σ} {id : Nat}

theorem fieldValue? (hid : base.size ≤ id) (name : String) :
    Reading.Keeps (Machine.Builds base old host) (fun v => ∀ w ∈ v, w.IsNew base.size)
      (fieldValue? invoke id name : Reading σ (Option Value)) := by
  unfold RootSpec.fieldValue?
  refine lift (Script.Keeps.tryCatch (Script.Keeps.guarded ?_ 0) fun fault => ?_)
  · exact (Script.Keeps.fieldOf hid _ _ _).map fun v hv w hw => Option.some.inj hw ▸ hv
  · cases fault with
    | thrown v => exact Script.Keeps.pure fun w hw => nomatch hw
    | exhausted => exact Script.Keeps.throw _

theorem fieldAs (hid : base.size ≤ id) (name : String) (problem : FieldProblem)
    (read : Value → Option α) :
    Reading.KeepsAny (Machine.Builds base old host) (fieldAs invoke id name problem read : Reading σ α) := by
  unfold RootSpec.fieldAs
  refine bind (fieldValue? hid name) fun v _ => ?_
  split
  · exact pure trivial
  · exact stop _ _

theorem textsField (hid : base.size ≤ id) (name : String) :
    Reading.KeepsAny (Machine.Builds base old host) (textsField invoke id name : Reading σ (List String)) := by
  unfold RootSpec.textsField
  refine bind (fieldValue? hid name) fun v hv => ?_
  split
  · exact pure trivial
  · next list =>
    refine bind (lift (Script.Keeps.items (hv _ rfl))) fun vs _ => ?_
    split
    · exact pure trivial
    · exact stop _ _
  · exact stop _ _

theorem readRule (hid : base.size ≤ id) :
    Reading.KeepsAny (Machine.Builds base old host) (readRule invoke id : Reading σ ToolsetRule) := by
  unfold RootSpec.readRule
  refine bind (textsField hid _) fun toolsets _ => ?_
  split
  · exact stop _ _
  · refine bind (textsField hid _) fun _ _ => bind (textsField hid _) fun _ _ => ?_
    exact bind (textsField hid _) fun _ _ => pure trivial

theorem readRules (hid : base.size ≤ id) (fuel n : Nat) (read : List ToolsetRule) :
    Reading.KeepsAny (Machine.Builds base old host)
      (readRules invoke id fuel n read : Reading σ (List ToolsetRule)) := by
  induction fuel generalizing n read with
  | zero => exact pure trivial
  | succ fuel ih =>
    rw [RootSpec.readRules]
    refine bind (lift (Script.Keeps.peek hid _)) fun v hv => ?_
    split
    · exact pure trivial
    · exact bind (readRule hv) fun rule _ => ih _ _
    · exact stop _ _

theorem rulesField (hid : base.size ≤ id) :
    Reading.KeepsAny (Machine.Builds base old host) (rulesField invoke id : Reading σ (List ToolsetRule)) := by
  unfold RootSpec.rulesField
  refine bind (fieldValue? hid _) fun v hv => ?_
  split
  · exact pure trivial
  · exact readRules (hv _ rfl) _ _ _
  · exact stop _ _

/-- Reading a specification from a new table looks at new tables alone. -/
theorem readTable (hid : base.size ≤ id) :
    Reading.KeepsAny (Machine.Builds base old host) (readTable invoke id : Reading σ RootSpec) := by
  unfold RootSpec.readTable
  refine bind (Q := fun _ => True) (lift (Script.Keeps.load fun _ _ => trivial)) fun keys _ => ?_
  refine bind (Q := fun _ => True) (lift (Script.Keeps.load fun _ _ => trivial)) fun addresses _ => ?_
  split
  · exact stop _ _
  · refine bind (fieldAs hid _ _ _) fun _ _ => bind (fieldAs hid _ _ _) fun _ _ => ?_
    refine bind (textsField hid _) fun _ _ => bind (textsField hid _) fun _ _ => ?_
    refine bind (textsField hid _) fun _ _ => bind (rulesField hid) fun _ _ => ?_
    refine bind (textsField hid _) fun _ _ => bind (fieldAs hid _ _ _) fun _ _ => ?_
    exact bind (fieldAs hid _ _ _) fun _ _ => pure trivial

end Reading.Keeps

end RootSpec

/-! ## The memory of a run -/

namespace Script.Memory

theorem size_withProject (toolset : Toolset) (runDir : Path) :
    (withProject toolset runDir).tables.size = 7 := by
  simp [withProject, rawSet, modifyTable, altered, newTable, initial, Value.key?, Value.ofString]

section

variable {P : Value → Prop} (hplain : ∀ v : Value, v.isPlain = true → P v)
  (hbuiltin : ∀ b, P (.builtin b)) (htable : ∀ id < 7, P (.table id))

include hplain

theorem holds_single {name : String} {v : Value} (hv : P v) : (Table.ofFields [(name, v)]).Holds P := by
  refine .ofFields hplain fun f hf => ?_
  rw [List.mem_singleton.mp hf]
  exact hv

include hbuiltin

theorem holds_functionTable (functions : List Builtin) : (functionTable functions).Holds P := by
  unfold functionTable
  refine .ofFields hplain fun f hf => ?_
  obtain ⟨b, -, rfl⟩ := List.mem_map.mp hf
  exact hbuiltin b

include htable

theorem holds_globalTable : globalTable.Holds P := by
  unfold globalTable
  refine .ofFields hplain fun f hf => ?_
  rcases List.mem_append.mp hf with hf | hf
  · simp only [List.mem_cons, List.not_mem_nil, or_false] at hf
    rcases hf with rfl | rfl | rfl | rfl | rfl
    · exact htable 0 (by omega)
    · exact hplain _ rfl
    · exact htable 1 (by omega)
    · exact htable 3 (by omega)
    · exact htable 4 (by omega)
  · obtain ⟨b, -, rfl⟩ := List.mem_map.mp hf
    exact hbuiltin b

theorem holds_initial : ∀ t ∈ initial.tables, t.Holds P := by
  intro t ht
  simp only [initial, List.mem_toArray, List.mem_cons, List.not_mem_nil, or_false] at ht
  rcases ht with ht | ht | ht | ht | ht <;> rw [ht]
  · exact holds_globalTable hplain hbuiltin htable
  · exact holds_functionTable hplain hbuiltin _
  · exact holds_single hplain (htable 1 (by omega))
  · exact holds_functionTable hplain hbuiltin _
  · exact holds_single hplain (hplain _ rfl)

/-- The tables that a run starts from are made of texts, library functions and one another. -/
theorem holds_withProject (toolset : Toolset) (runDir : Path) {t : Table}
    (ht : t ∈ (withProject toolset runDir).tables) : t.Holds P := by
  have hsize : initial.tables.size = 5 := rfl
  have hproject : (Table.ofFields ([("toolset", .table initial.tables.size),
      ("run_dir", .str (bytes runDir.text))] ++
        Operation.all.map fun o => (o.name, .builtin (.request o)))).Holds P := by
    refine .ofFields hplain fun f hf => ?_
    rcases List.mem_append.mp hf with hf | hf
    · simp only [List.mem_cons, List.not_mem_nil, or_false] at hf
      rcases hf with hf | hf <;> rw [hf]
      · exact htable _ (by omega)
      · exact hplain _ rfl
    · obtain ⟨o, -, rfl⟩ := List.mem_map.mp hf
      exact hbuiltin _
  have hmade : ∀ t ∈ (initial.tables.push (.ofFields [("name", .str (bytes toolset.name))])).push
      (.ofFields ([("toolset", .table initial.tables.size), ("run_dir", .str (bytes runDir.text))] ++
        Operation.all.map fun o => (o.name, .builtin (.request o)))), t.Holds P := by
    intro t ht
    rcases Array.mem_push.mp ht with ht | ht
    · rcases Array.mem_push.mp ht with ht | ht
      · exact holds_initial hplain hbuiltin htable t ht
      · rw [ht]
        exact holds_single hplain (hplain _ rfl)
    · rw [ht]
      exact hproject
  -- the table of the project is put among the global variables last
  simp only [withProject, rawSet, Value.ofString, Value.key?, modifyTable, newTable] at ht
  rcases mem_altered ht with hold | ⟨old, hold, rfl⟩
  · exact hmade t hold
  · have hid : (initial.tables.push (.ofFields [("name", .str (bytes toolset.name))])).size < 7 := by
      rw [Array.size_push, hsize]
      omega
    exact (hmade old hold).set hplain (hplain _ rfl) (htable _ hid)

end

end Script.Memory

/-! ## Root files -/

/-- Memory in which no function was made yet, and in which nothing answers for strings when something is
assigned to one. -/
structure Script.Memory.IsFresh (m : Memory) : Prop where
  cells_eq : m.cells = #[.apart .nil]
  closures_eq : m.closures = #[]
  failures_eq : m.failures = #[]
  strings : ∃ t, m.tables[Memory.stringMetatable]? = some t ∧ t.get (.str (bytes "__newindex")) = .nil

theorem Script.Memory.isFresh_withProject (toolset : Toolset) (runDir : Path) (addresses : Addresses) :
    ((Memory.withProject toolset runDir).withAddresses addresses).IsFresh :=
  ⟨rfl, rfl, rfl, .ofFields [("__index", .table Memory.strings)], rfl, rfl⟩

section

variable {tree : FileTree} {file : Path} {source : String} {memory : Memory}

/-- A machine on which an environment has been made, and nothing has run yet. -/
theorem builds_newEnvironment {σ : Type} (hfresh : memory.IsFresh) (host : σ) (dir : Path) :
    ∃ environment m base, ((newEnvironment dir).run (.start memory host) = .ok environment m) ∧
      m.Builds base memory host ∧ memory.tables.size ≤ base.size ∧
      ∀ i < memory.tables.size, base[i]? = memory.tables[i]? := by
  -- the base is the memory with the two tables of the environment behind what was there
  have hsame : ∀ i < memory.tables.size,
      ((memory.tables.push (.ofFields [("__index", .table Memory.globals)])).push
        { Table.ofFields [("__dir", .ofString dir.text)] with metatable := some memory.tables.size })[i]? =
          memory.tables[i]? := by
    intro i hi
    rw [Array.getElem?_push, if_neg (by rw [Array.size_push]; omega), Array.getElem?_push,
      if_neg (by omega)]
  obtain ⟨t, ht, hget⟩ := hfresh.strings
  have hsize : Memory.stringMetatable < memory.tables.size := (Array.getElem?_eq_some_iff.mp ht).1
  have hcell : memory.cells[0]? = some (.apart .nil) := by
    rw [hfresh.cells_eq]
    rfl
  refine ⟨_, _, _, rfl, ⟨fun i _ => rfl, fun i t hi ht => ?_, fun v hv => ?_, rfl, hcell, rfl, rfl, rfl, t, ?_,
    hget⟩, ?_, hsame⟩
  · rw [Array.getElem?_eq_none hi] at ht
    cases ht
  · exact absurd hv (Array.not_mem_empty v)
  · exact (hsame _ hsize).trans ht
  · simp only [Array.size_push, Machine.start]
    omega

/-- A file that returns a literal leaves everything that was there before as it was, whatever only new tables
are then read for. -/
theorem run_evaluateFile_literal {σ α : Type} [Host σ] (hfile : tree.canonicalize file = .ok file)
    (htext : tree.readText file = .ok source) (hsource : returnsLiteral source = true)
    (hfresh : memory.IsFresh) (host : σ) {f : Value → Run σ α}
    (hf : ∀ (base : Array Table) v, v.IsNew base.size →
      Script.KeepsAny (Machine.Builds base memory host) (f v)) :
    memory.Extends (Machine.run memory host (evaluateFile tree file >>= f)).2.1 := by
  obtain ⟨environment, start, base, hstart, hbuilds, hsize, hsame⟩ :=
    builds_newEnvironment hfresh host file.parent
  have hread : Script.KeepsAny (Machine.Builds base memory host)
      (evaluateSource source (shownName file.text) environment >>= f) :=
    (Keeps.evaluateSource hsource _ _).bind (hf base)
  have heval : (evaluateFile tree file : Run σ Value) =
      newEnvironment file.parent >>= evaluateSource source (shownName file.text) := by
    unfold evaluateFile fileValue
    simp only [hfile, htext]
    rfl
  have hend : Ends (Machine.Builds base memory host) (fun _ => True)
      ((guarded 0 (evaluateFile tree file >>= f)).run (.start memory host)) := by
    refine Keeps.ends_guarded ?_ 0
    rw [heval, bind_assoc, EStateM.run_bind, hstart]
    exact hread start hbuilds
  -- the file may fail, which also ends on a machine that satisfies the condition
  obtain ⟨m, hm, hrun⟩ := hend.exists_machine
  have hleft : (Machine.run memory host (evaluateFile tree file >>= f)).2.1 = m.memory :=
    congrArg Prod.fst hrun
  rw [hleft]
  exact {
    tables := fun i hi => by rw [hm.older i (by omega), hsame i hi]
    cells := fun i hi => by
      rw [hfresh.cells_eq] at hi ⊢
      obtain rfl : i = 0 := Nat.lt_one_iff.mp hi
      exact hm.cell_zero
    closures := fun i hi => by
      rw [hfresh.closures_eq] at hi
      cases hi
    failures := fun i hi => by
      rw [hfresh.failures_eq] at hi
      cases hi
    printed_eq := hm.printed_eq
    addresses_eq := hm.addresses_eq }

/-- A root file that returns a literal leaves everything that was there before as it was. -/
theorem loadSpec_extends (hfile : tree.canonicalize file = .ok file)
    (htext : tree.readText file = .ok source) (hsource : returnsLiteral source = true)
    (hfresh : memory.IsFresh) (session : Session) :
    memory.Extends (loadSpec tree file memory session).2.1 := by
  refine run_evaluateFile_literal hfile htext hsource hfresh (Performed.start session) fun base v hv => ?_
  split
  · exact Keeps.map (RootSpec.Reading.Keeps.readTable hv) fun _ _ => trivial
  · exact Keeps.pure trivial

/-- The memory that a run starts from holds nothing that gets another number later. -/
theorem Script.Memory.Extends.renumbers_withProject {toolset : Toolset} {runDir : Path} {addresses : Addresses}
    {left : Memory} (h : ((Memory.withProject toolset runDir).withAddresses addresses).Extends left)
    (late : Places) :
    ∃ ρ, (((Memory.withProject toolset runDir).withAddresses addresses).settle late).Renumbers ρ
      (left.settle late) := by
  have hsize := Memory.size_withProject toolset runDir
  have htables : Memory.stringMetatable <
      ((Memory.withProject toolset runDir).withAddresses addresses).tables.size := by
    show 2 < (Memory.withProject toolset runDir).tables.size
    omega
  refine ⟨_, h.renumbers_settle htables Nat.one_pos (fun t ht => ?_) (fun c hc => ?_) (fun f hf => ?_) late⟩
  · refine Table.renumber_of_holds (Memory.holds_withProject (fun v hv => Value.renumber_of_isPlain _ hv)
      (fun _ => rfl) (fun id hid => ?_) toolset runDir ht)
    exact congrArg Value.table (movedFrom_of_lt (Nat.lt_of_lt_of_eq hid hsize.symm) _)
  · obtain rfl : c = .apart .nil := Array.mem_singleton.mp hc
    rfl
  · exact absurd hf (Array.not_mem_empty f)

/-- After a root file that returns a literal, memory holds what it holds without the file, but under other
numbers. -/
theorem read_literal (hfile : tree.canonicalize file = .ok file)
    (htext : tree.readText file = .ok source) (hsource : returnsLiteral source = true) (spec : RootSpec)
    (runDir : Path) (toolset : Toolset) (layout : Layout) :
    ∃ ρ, (Root.read tree ⟨.spec spec, runDir⟩ toolset layout).2.1.Renumbers ρ
      (Root.read tree ⟨.file file, runDir⟩ toolset layout).2.1 :=
  (loadSpec_extends hfile htext hsource (Memory.isFresh_withProject toolset runDir layout.early)
    (Session.start.note (.composing toolset runDir))).renumbers_withProject layout.late

end

end BuildComposition
