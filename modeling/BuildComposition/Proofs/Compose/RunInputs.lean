import BuildComposition.Proofs.Compose.Course
import BuildComposition.Proofs.Compose.WatchedComposition

/-!
# What scripts find of the inputs of a run

Scripts find the toolset and the run directory of a run as `prj.toolset.name` and `prj.run_dir`.  Four
fields lead to these values, and they are fields like all others: a script that assigns to one of them
changes what everything after it finds, also other scripts of the same run.  Nothing else does, so that the
inputs are found as they were given until a script assigns to one of the four.

## Main definitions

* `RunInput`: the two inputs, by the fields that lead to them
* `Snapshot.Reads`, `Snapshot.found`: a script reads an input, and what it finds
* `inputFields`: the fields that lead to the inputs, with the values that a run starts with
* `InputsExplained`: what is found of the inputs, and the assignments that explain it

## Main results

* `Snapshot.Reads.run_execute`: what is found is what the script gets
* `inputsExplained`: what was assigned last is found, and the inputs if nothing was
* `not_showsInputs_renamingTree`: a descriptor changes what another one finds
-/

namespace BuildComposition

open Script

/-! ## Reading -/

namespace Script

/-- The table that a chain of fields leads to, from another table. -/
def Memory.tableAt (m : Memory) : List String → Nat → Option Nat
  | [], id => some id
  | name :: names, id =>
    match (m.table id).get (.str (bytes name)) with
    | .table next => m.tableAt names next
    | _ => none

/-- The table and the name of a field that is read. -/
def Snapshot.read? (p : Snapshot) : Option (Nat × Bytes) :=
  match p.instruction? with
  | some (a, .get _ object key) =>
    match p.value a object, p.value a key with
    | .table id, .str name => some (id, name)
    | _, _ => none
  | _ => none

end Script

/-- An input of a run, as scripts find it. -/
inductive RunInput where
  | toolsetName
  | runDir
  deriving DecidableEq, Repr

namespace RunInput

/-- The fields that lead from the global variables to the table that has the input. -/
def owner : RunInput → List String
  | toolsetName => ["prj", "toolset"]
  | runDir => ["prj"]

/-- The name of the field that the input is in. -/
def field : RunInput → String
  | toolsetName => "name"
  | runDir => "run_dir"

/-- The input that a run was started with. -/
def value (toolset : Toolset) (dir : Path) : RunInput → String
  | toolsetName => toolset.name
  | runDir => dir.text

end RunInput

namespace Script.Snapshot

/-- The table that has an input, if there is one. -/
def owner? (p : Snapshot) (i : RunInput) : Option Nat := p.memory.tableAt i.owner Memory.globals

/-- A script is about to read an input. -/
def Reads (p : Snapshot) (i : RunInput) : Prop :=
  ∃ id, p.owner? i = some id ∧ p.read? = some (id, bytes i.field)

/-- What is there in the place of an input. -/
def found (p : Snapshot) (i : RunInput) : Value :=
  match p.owner? i with
  | some id => (p.memory.table id).get (.str (bytes i.field))
  | none => .nil

end Script.Snapshot

/-- A field that is there is read without a metatable. -/
theorem Script.run_index_own {σ : Type} {m : Machine σ} {id : Nat} {name : Bytes}
    (h : (m.memory.table id).get (.str name) ≠ .nil) (invoke : Invoke σ) (caller : Caller) :
    (index invoke caller (.str name) (.table id)).run m = .ok ((m.memory.table id).get (.str name)) m := by
  have hreached := Memory.reached_own (v := .table id) h "__index" maxChain
  rw [index, EStateM.run_bind, run_reach_str, hreached]
  rfl

/-- A script that reads an input gets what is there in its place, if there is anything. -/
theorem Script.Snapshot.Reads.run_execute {σ : Type} {p : Snapshot} {i : RunInput} (h : p.Reads i)
    (hfound : p.found i ≠ .nil) {m : Machine σ} (hmemory : p.memory = m.memory)
    (hstack : p.stack = m.stack) (invoke : Invoke σ) (sites : Sites) :
    ∃ a dest object key, p.instruction? = some (a, .get dest object key) ∧
      (a.execute invoke sites (.get dest object key)).run m = (a.write dest (p.found i)).run m := by
  obtain ⟨id, howner, hread⟩ := h
  have hvalue : p.found i = (m.memory.table id).get (.str (bytes i.field)) := by
    rw [found, howner, hmemory]
  rw [hvalue] at hfound ⊢
  unfold read? at hread
  split at hread
  case h_2 => cases hread
  case h_1 a dest object key hinstruction =>
    split at hread
    case h_2 => cases hread
    case h_1 id' name hobject hkey =>
      cases hread
      refine ⟨a, dest, object, key, hinstruction, ?_⟩
      have hindex := run_index_own hfound invoke ⟨sites, a.limit⟩
      simp only [Activation.execute, EStateM.run_bind, a.run_read hmemory hstack, hobject, hkey]
      rw [hindex]

/-! ## The fields that lead to the inputs -/

/-- A field of a table, with a value. -/
structure InputField where
  table : Nat
  name : String
  value : Value

/-- The number of the table of the toolset. -/
def toolsetTable : Nat := 5

/-- The number of the table `prj`. -/
def projectTable : Nat := 6

/-- The fields that lead to the inputs, with the values that a run starts with. -/
def inputFields (toolset : Toolset) (runDir : Path) : List InputField :=
  [⟨Memory.globals, "prj", .table projectTable⟩, ⟨projectTable, "toolset", .table toolsetTable⟩,
    ⟨toolsetTable, "name", .ofString toolset.name⟩, ⟨projectTable, "run_dir", .ofString runDir.text⟩]

/-- The table `prj` of a run. -/
def projectFields (runDir : Path) : List (String × Value) :=
  [("toolset", .table toolsetTable), ("run_dir", .ofString runDir.text)] ++
    Operation.all.map fun o => (o.name, .builtin (.request o))

/-- The tables that lead to the inputs when a run starts. -/
theorem table_withProject (toolset : Toolset) (runDir : Path) :
    (Memory.withProject toolset runDir).table Memory.globals =
        Memory.globalTable.set (.str (bytes "prj")) (.table projectTable) ∧
      (Memory.withProject toolset runDir).table projectTable = .ofFields (projectFields runDir) ∧
      (Memory.withProject toolset runDir).table toolsetTable =
        .ofFields [("name", .ofString toolset.name)] := by
  let before : Memory :=
    ((Memory.initial.newTable (.ofFields [("name", .ofString toolset.name)])).2.newTable
      (.ofFields (projectFields runDir))).2
  have htable : ∀ id, (Memory.withProject toolset runDir).table id =
      if Memory.globals = id ∧ id < 7 then
        (before.table id).set (.str (bytes "prj")) (.table projectTable)
      else before.table id :=
    Memory.table_modifyTable before Memory.globals _
  refine ⟨(htable _).trans (if_pos ⟨rfl, by decide⟩), (htable _).trans (if_neg ?_),
    (htable _).trans (if_neg ?_)⟩
  all_goals decide

theorem get_withProject {toolset : Toolset} {runDir : Path} {f : InputField}
    (h : f ∈ inputFields toolset runDir) :
    f.table < (Memory.withProject toolset runDir).tables.size ∧
      ((Memory.withProject toolset runDir).table f.table).get (.str (bytes f.name)) = f.value := by
  obtain ⟨hglobals, hproject, htoolset⟩ := table_withProject toolset runDir
  have hnames : ((projectFields runDir).map fun f => bytes f.1).Nodup := by
    show (bytes "toolset" :: bytes "run_dir" :: Operation.all.map fun o => bytes o.name).Nodup
    decide +kernel
  have hsize : (Memory.withProject toolset runDir).tables.size = 7 :=
    Memory.size_modifyTable _ _ _
  rw [hsize]
  simp only [inputFields, List.mem_cons, List.not_mem_nil, or_false] at h
  rcases h with rfl | rfl | rfl | rfl
  · refine ⟨by decide, ?_⟩
    rw [hglobals]
    exact ((Table.linked_ofFields _).set _ _).get_self (Key.isField_str _)
  · refine ⟨by decide, ?_⟩
    rw [hproject]
    exact Table.get_ofFields _ hnames (by simp [projectFields])
  · refine ⟨(by decide : toolsetTable < 7), ?_⟩
    rw [htoolset]
    exact Table.get_ofFields _ (List.nodup_singleton _) (by simp)
  · refine ⟨(by decide : projectTable < 7), ?_⟩
    rw [hproject]
    exact Table.get_ofFields _ hnames (by simp [projectFields])

/-! ## What is found of the inputs -/

/-- What is found of the inputs at a snapshot, where `before` is the record up to it. -/
structure InputsExplained (toolset : Toolset) (runDir : Path) (before : List Snapshot) (p : Snapshot) :
    Prop where
  /-- A field that leads to an input has the value that was assigned to it last, or else the one that it
  had when the run started. -/
  assigned : ∀ f ∈ inputFields toolset runDir, (p.memory.table f.table).get (.str (bytes f.name)) =
    lastAssigned before f.table (bytes f.name) f.value
  /-- The inputs are found as they were given if no script has assigned to one of these fields. -/
  shown : (∀ q ∈ before, ∀ f ∈ inputFields toolset runDir, q.assigned? f.table (bytes f.name) = none) →
    ∀ i : RunInput, p.found i = .ofString (i.value toolset runDir)

theorem lastAssigned_of_none {record : List Snapshot} {id : Nat} {name : Bytes} {v : Value}
    (h : ∀ q ∈ record, q.assigned? id name = none) : lastAssigned record id name v = v := by
  rw [lastAssigned, List.filterMap_eq_nil_iff.mpr h]
  rfl

/-- Fields that have the values that a run starts with lead to the inputs. -/
theorem found_of_fields {toolset : Toolset} {runDir : Path} {p : Snapshot}
    (h : ∀ f ∈ inputFields toolset runDir, (p.memory.table f.table).get (.str (bytes f.name)) = f.value)
    (i : RunInput) : p.found i = .ofString (i.value toolset runDir) := by
  simp only [inputFields, List.forall_mem_cons, List.not_mem_nil, false_implies, implies_true,
    and_true] at h
  obtain ⟨hprj, htoolset, hname, hdir⟩ := h
  cases i with
  | toolsetName =>
    have howner : p.owner? .toolsetName = some toolsetTable := by
      simp only [Snapshot.owner?, RunInput.owner, Memory.tableAt, hprj, htoolset]
    rw [Snapshot.found, howner]
    exact hname
  | runDir =>
    have howner : p.owner? .runDir = some projectTable := by
      simp only [Snapshot.owner?, RunInput.owner, Memory.tableAt, hprj]
    rw [Snapshot.found, howner]
    exact hdir

/-- At every snapshot of a run the record up to it explains what is found of the inputs: only a script that
assigns to one of the fields that lead to an input changes what is found of it. -/
theorem inputsExplained (tree : FileTree) (root : Root) (toolset : Toolset) (options : Options)
    {layout : Layout} :
    (watchedCompose tree root toolset options layout).1 = compose tree root toolset options layout ∧
      ∀ before p after, (watchedCompose tree root toolset options layout).2 = before ++ p :: after →
        InputsExplained toolset root.runDir before p := by
  obtain ⟨hsame, hexplains⟩ := watchedCompose_spec tree root toolset options
  refine ⟨hsame, fun before p after heq => ?_⟩
  have hfields : ∀ f ∈ inputFields toolset root.runDir,
      (p.memory.table f.table).get (.str (bytes f.name)) =
        lastAssigned before f.table (bytes f.name) f.value := by
    intro f hf
    obtain ⟨hlt, hvalue⟩ := get_withProject hf
    rw [(hexplains before p after heq).get_eq f.table hlt, hvalue]
  refine ⟨hfields, fun hnone => found_of_fields fun f hf => ?_⟩
  rw [hfields f hf, lastAssigned_of_none fun q hq => hnone q hq f hf]

/-! ## A descriptor that changes an input -/

/-- Whatever is read of the inputs is what the run was started with. -/
def ShowsInputs (toolset : Toolset) (runDir : Path) (record : List Snapshot) : Prop :=
  ∀ p ∈ record, ∀ i : RunInput, p.Reads i → p.found i = .ofString (i.value toolset runDir)

/-- A tree in which `a` gives the toolset another name, and `b` uses the name as that of a library. -/
def renamingTree : FileTree :=
  (FileTree.empty.putEntry [['a']] (.file (Utf8.encode "prj.toolset.name = \"x\""))).putEntry
    [['b']] (.file (Utf8.encode "prj.lib(prj.toolset.name)"))

/-- A root that requires both. -/
def renamingRoot : Root := topRoot { RootSpec.empty with required := ["a", "b"] }

/-- What the first script that reads the name of the toolset finds. -/
theorem read_renamingTree :
    ∃ p ∈ (watchedCompose renamingTree renamingRoot ⟨"gcc"⟩ .standard).2,
      p.owner? .toolsetName = some toolsetTable ∧ p.Reads .toolsetName ∧
        (p.found .toolsetName).text? = some (bytes "x") := by
  have hfirst : ((watchedCompose renamingTree renamingRoot ⟨"gcc"⟩ .standard).2.find? fun p =>
        p.read? == some (toolsetTable, bytes "name")).map
      (fun p => (p.owner? .toolsetName, (p.found .toolsetName).text?)) =
      some (some toolsetTable, some (bytes "x")) := by
    decide +kernel
  obtain ⟨p, hfind, hpair⟩ := Option.map_eq_some_iff.mp hfirst
  obtain ⟨howner, htext⟩ := Prod.mk.inj hpair
  have hread : p.read? = some (toolsetTable, bytes "name") := by
    simpa using List.find?_some hfind
  exact ⟨p, List.mem_of_find?_eq_some hfind, howner, ⟨_, howner, hread⟩, htext⟩

/-- What is found there was assigned before. -/
theorem inputsExplained_renamingTree :
    ∃ before p after,
      (watchedCompose renamingTree renamingRoot ⟨"gcc"⟩ .standard).2 = before ++ p :: after ∧
      p.Reads .toolsetName ∧ InputsExplained ⟨"gcc"⟩ renamingRoot.runDir before p ∧
      (lastAssigned before toolsetTable (bytes "name") (.ofString "gcc")).text? = some (bytes "x") := by
  obtain ⟨p, hp, howner, hreads, htext⟩ := read_renamingTree
  obtain ⟨before, after, heq⟩ := List.append_of_mem hp
  have hexplained := (inputsExplained renamingTree renamingRoot ⟨"gcc"⟩ .standard).2 before p after heq
  refine ⟨before, p, after, heq, hreads, hexplained, ?_⟩
  rw [← hexplained.assigned ⟨toolsetTable, "name", .ofString "gcc"⟩ (by simp [inputFields])]
  rw [Snapshot.found, howner] at htext
  exact htext

/-- The plan has a library with the name that `a` has made up, so `b` does not read what the run was
started with. -/
theorem not_showsInputs_renamingTree :
    (compose renamingTree renamingRoot ⟨"gcc"⟩ .standard).1.toOption.map (fun plan =>
        (plan.toolset.name, plan.units.map (·.settings.libs))) = some ("gcc", [[], ["x"]]) ∧
      ¬ShowsInputs ⟨"gcc"⟩ renamingRoot.runDir
        (watchedCompose renamingTree renamingRoot ⟨"gcc"⟩ .standard).2 := by
  refine ⟨by decide +kernel, fun hall => ?_⟩
  obtain ⟨p, hp, -, hreads, htext⟩ := read_renamingTree
  rw [hall p hp .toolsetName hreads] at htext
  exact absurd (Option.some.inj htext) (by decide +kernel)

end BuildComposition
