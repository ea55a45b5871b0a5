import BuildComposition.Proofs.Script.FixedVariables

/-!
# Files that are evaluated one after another

Every file runs in an environment of its own, on the memory that the files before it have left.  What is
executed in the meantime is the record of all of them, one after another: a function that one file has made
can run while another file is evaluated.  A file that says nothing else knows its environment under one
captured variable in all its functions, and this variable is fixed from the beginning of the file on.

## Main definitions

* `Loading`, `Loading.run`: the evaluation of a file, of which everything that is executed is noted
* `afterAll`, `recordAll`: what the evaluations of some files leave
* `sparesEnvironment`: sources that neither declare a variable of the name of the environment nor assign
  to one
* `Memory.Sound`: memory that scripts can leave

## Main results

* `Loading.run_eq`: the evaluation itself is the same
* `Loading.respects`, `Loading.respects_sparing`: variables that are fixed when a file is evaluated
* `recorded_recordAll`: the record explains the fields of all tables
-/

namespace BuildComposition.Script

open Assembly

/-! ## Memory -/

/-- Memory that scripts can leave: the chains of all tables lead to every key, and all functions capture
variables that exist, as many as their code says. -/
structure Memory.Sound (m : Memory) : Prop where
  linked : m.Linked
  respects : m.Respects []

namespace Memory

theorem sound_initial : initial.Sound := ⟨linked_initial, by simp, by simp [initial, empty]⟩

/-- The number of the table that is the environment of the file that is evaluated next. -/
def nextEnvironment (m : Memory) : Nat := m.tables.size + 1

/-- The number of the captured variable under which the functions of the file that is evaluated next know its
environment. -/
def nextVariable (m : Memory) : Nat := m.cells.size

/-- Memory with the environment of a file in a directory. -/
def withEnvironment (m : Memory) (dir : Path) : Memory :=
  ((m.newTable (.ofFields [("__index", .table globals)])).2.newTable
    { Table.ofFields [("__dir", .ofString dir.text)] with metatable := some m.tables.size }).2

variable {m : Memory}

theorem size_newMetatable (m : Memory) :
    (m.newTable (.ofFields [("__index", .table globals)])).2.tables.size = m.nextEnvironment := by
  simp [newTable, nextEnvironment]

theorem size_withEnvironment (m : Memory) (dir : Path) :
    (m.withEnvironment dir).tables.size = m.tables.size + 2 := by
  simp [withEnvironment, newTable]

theorem Linked.withEnvironment (h : m.Linked) (dir : Path) : (m.withEnvironment dir).Linked :=
  ((h.newTable (Table.linked_ofFields _)).linked.newTable
    ((Table.linked_ofFields [("__dir", .ofString dir.text)]).withMetatable (some m.tables.size))).linked

theorem Respects.withEnvironment {fixed : List (Nat × Value)} (h : m.Respects fixed) (dir : Path) :
    (m.withEnvironment dir).Respects fixed := h.sameFunctions ⟨rfl, rfl⟩

theorem table_nextEnvironment (m : Memory) (dir : Path) :
    (m.withEnvironment dir).table m.nextEnvironment =
      { Table.ofFields [("__dir", .ofString dir.text)] with metatable := some m.tables.size } := by
  rw [withEnvironment, table_newTable, if_pos (by simp [newTable, nextEnvironment])]

/-- The environment of a file knows the directory of the file. -/
theorem dir_withEnvironment (m : Memory) (dir : Path) :
    ((m.withEnvironment dir).table m.nextEnvironment).get (.str (bytes "__dir")) = .ofString dir.text := by
  have hmetatable : ∀ (t : Table) (mt : Option Nat) (name : Bytes), t.Linked →
      { t with metatable := mt }.get (.str name) = t.get (.str name) :=
    fun t mt name h => h.get_withSlots rfl rfl rfl (Key.isField_str name)
  rw [table_nextEnvironment, hmetatable _ _ _ (Table.linked_ofFields _)]
  exact Table.get_ofFields _ (by simp) (by simp)

/-- The environment of a file falls back on the global variables. -/
theorem index_withEnvironment (m : Memory) (dir : Path) :
    ((m.withEnvironment dir).table m.nextEnvironment).metatable = some m.tables.size ∧
      ((m.withEnvironment dir).table m.tables.size).get (.str (bytes "__index")) = .table globals := by
  refine ⟨by rw [table_nextEnvironment], ?_⟩
  rw [withEnvironment, table_newTable, if_neg (by simp [newTable]), table_newTable, if_pos rfl]
  exact Table.get_ofFields _ (by simp) (by simp)

end Memory

/-! ## Sources -/

/-- A source can be run, and neither declares a variable of the name of the environment nor assigns to one. -/
def sparesEnvironment (source : String) : Bool :=
  match chunk? source with
  | some f => f.assemble?.isSome && !f.bound.contains environmentName
  | none => false

theorem not_hidden_environmentName : ∀ n ∈ hidden 4, n ≠ environmentName := by
  decide +kernel

variable {σ α : Type} {fixed : List (Nat × Value)} {source : String} {code : Code} {k size : Nat}

/-- The code of a source gives no variable a value but the one under which it knows its environment. -/
theorem respects_of_compile? (h : compile? source = some code) (hk : k < size)
    (hfixed : ∀ v, (k, v) ∉ fixed) : code.Respects fixed size #[k] := by
  rw [compile?_eq_bind] at h
  obtain ⟨f, -, hcode⟩ := Option.bind_eq_some_iff.mp h
  -- whatever names are assigned to, the only variable from outside is that of the environment
  obtain ⟨hlength, hspares⟩ := f.spares_of_assemble? hcode (N := fun _ => False)
    (fun _ _ => not_false) fun _ _ => not_false
  refine ⟨hlength.symm, by simpa using hk, hspares.anti fun c hc hvariable => ?_⟩
  obtain ⟨id, v, hid, hmem⟩ := hvariable
  obtain rfl : c = 0 := by omega
  cases hid
  exact absurd hmem (hfixed v)

/-- The code of a source that spares its environment gives no variable a value at all. -/
theorem exists_respects_of_sparesEnvironment (h : sparesEnvironment source = true) :
    ∃ code, compile? source = some code ∧
      ∀ fixed k size, k < size → code.Respects fixed size #[k] := by
  unfold sparesEnvironment at h
  cases hchunk : chunk? source with
  | none =>
    rw [hchunk] at h
    cases h
  | some f =>
    rw [hchunk] at h
    simp only [Bool.and_eq_true, Bool.not_eq_true', List.contains_eq_mem, decide_eq_false_iff_not] at h
    obtain ⟨code, hcode⟩ := Option.isSome_iff_exists.mp h.1
    obtain ⟨hlength, hspares⟩ := f.spares_of_assemble? hcode (N := (· = environmentName))
      not_hidden_environmentName fun n hn heq => h.2 (heq ▸ hn)
    refine ⟨code, by rw [compile?_eq_bind, hchunk, Option.bind_some, hcode], fun fixed k size hk => ?_⟩
    exact ⟨hlength.symm, by simpa using hk, hspares.anti fun c hc _ => ⟨by omega, rfl⟩⟩

/-! ## Whole sources -/

/-- The environment of a file is made on the memory that the run starts with. -/
theorem Machine.run_newEnvironment (memory : Memory) (host : σ) (dir : Path) (f : Nat → Run σ α) :
    Machine.run memory host (newEnvironment dir >>= f) =
      Machine.run (memory.withEnvironment dir) host (f memory.nextEnvironment) := by
  have hrun : (guarded 0 (newEnvironment dir >>= f)).run (.start memory host) =
      (guarded 0 (f memory.nextEnvironment)).run (.start (memory.withEnvironment dir) host) := by
    have hfirst : (newEnvironment dir >>= f).run (.start memory host) =
        (f memory.nextEnvironment).run (.start (memory.withEnvironment dir) host) := by
      rw [← memory.size_newMetatable]
      rfl
    rw [guarded, guarded]
    cases h : (f memory.nextEnvironment).run (.start (memory.withEnvironment dir) host) with
    | ok a m => rw [run_tryCatch_of_ok h, run_tryCatch_of_ok (hfirst.trans h)]
    | error fault m => rw [run_tryCatch_of_error h, run_tryCatch_of_error (hfirst.trans h)]
  rw [Machine.run, Machine.run, hrun]

/-- What a run has left is sound if the action has ended on a sound machine. -/
theorem Stands.run {memory : Memory} {w : Watched σ} {x : Run (Watched σ) α} {Q : α → Nat → Prop}
    (h : Stands fixed size Q (x.run (.start memory w))) :
    (Machine.run memory w x).2.1.Respects fixed ∧ size ≤ (Machine.run memory w x).2.1.cells.size ∧
      ∀ p ∈ (Machine.run memory w x).2.2.record, ∀ k v, (k, v) ∈ fixed →
        p.memory.cells[k]? = some (.apart v) := by
  have hend := Upholds.stands_guarded h 0
  unfold Machine.run
  cases hrun : (guarded 0 x).run (.start memory w) with
  | ok a m =>
    rw [hrun] at hend
    exact ⟨hend.1.1.memory, hend.1.2, hend.1.1.record⟩
  | error fault m =>
    rw [hrun] at hend
    cases fault <;> exact ⟨hend.1.memory, hend.2, hend.1.record⟩

theorem Machine.Respects.start {memory : Memory} (h : memory.Respects fixed) (host : σ) :
    Machine.Respects fixed (.start memory (⟨host, []⟩ : Watched σ)) :=
  ⟨h, nofun, nofun⟩

namespace Upholds

variable [Host σ]

/-- No file gives a variable a value that was fixed before. -/
theorem sourceValue (source : String) (name : Bytes) (environment : Nat) :
    UpholdsAny fixed (sourceValue Script.watchedInvoke source name environment : Run (Watched σ) Value) := by
  unfold Script.sourceValue
  cases hcode : compile? source with
  | none => exact of_mirrors fun _ => .fail _
  | some code =>
    refine bind (newCell _) fun k => bind ((newClosure ⟨code, #[k], name⟩).mono (fun size hk => ?_)
      fun _ _ h => h) fun id => bind (watchedInvoke _ _ _) fun _ => pure fun _ _ => trivial
    exact respects_of_compile? hcode hk.1 hk.2

theorem fileValue (tree : FileTree) (path : Path) :
    UpholdsAny fixed (fileValue Script.watchedInvoke tree path : Run (Watched σ) Value) := by
  unfold Script.fileValue
  split
  · exact of_mirrors fun _ => .fail _
  · split
    · exact of_mirrors fun _ => .fail _
    · exact bind (of_mirrors fun _ => .newEnvironment _) fun _ => sourceValue _ _ _

/-- A source that spares its environment knows it under a variable that is fixed. -/
theorem sourceValue_sparing (hsource : sparesEnvironment source = true) (name : Bytes) (environment : Nat)
    {m : Machine (Watched σ)} (hm : m.Respects fixed) (hrecord : m.host.record = []) :
    Stands ((m.variables, .table environment) :: fixed) m.variables (fun _ _ => True)
      ((Script.sourceValue Script.watchedInvoke source name environment).run m) := by
  obtain ⟨code, hcode, hrespects⟩ := exists_respects_of_sparesEnvironment hsource
  have hrest : Upholds ((m.variables, .table environment) :: fixed) (m.variables < ·) (fun _ _ => True) (do
      let id ← allocate (·.newClosure ⟨code, #[m.variables], name⟩)
      return first (← Script.watchedInvoke (.closure id) [] outside) : Run (Watched σ) Value) :=
    bind ((newClosure ⟨code, #[m.variables], name⟩).mono (fun size hk => hrespects _ _ _ hk) fun _ _ h => h)
      fun id => bind (watchedInvoke _ _ _) fun _ => pure fun _ _ => trivial
  have hmore : m.variables < (m.memory.newCell (.apart (.table environment))).2.cells.size := by
    rw [Memory.size_newCell]
    exact Nat.lt_succ_self _
  unfold Script.sourceValue
  rw [hcode]
  exact (hrest _ (hm.newFixed hrecord _) hmore).of_le hmore.le

end Upholds

/-! ## Files -/

/-- The evaluation of a file in a tree, on some host. -/
structure Loading (σ : Type) where
  tree : FileTree
  path : Path
  host : σ

namespace Loading

/-- The canonical path of the file and its text, if it can be read. -/
def file? (l : Loading σ) : Option (Path × String) :=
  match l.tree.canonicalize l.path with
  | .error _ => none
  | .ok canonical =>
    match l.tree.readText canonical with
    | .error _ => none
    | .ok source => some (canonical, source)

variable [Host σ]

/-- The evaluation, of which everything that is executed is noted. -/
def run (l : Loading σ) (memory : Memory) : Except ScriptError Value × Memory × Watched σ :=
  Machine.run memory ⟨l.host, []⟩ (fileValue watchedInvoke l.tree l.path)

/-- The memory that the evaluation leaves. -/
def after (l : Loading σ) (memory : Memory) : Memory := (l.run memory).2.1

/-- Everything that is executed. -/
def record (l : Loading σ) (memory : Memory) : List Snapshot := (l.run memory).2.2.record

variable {l : Loading σ} {memory : Memory}

/-- The evaluation itself is the same, and the record explains what it leaves. -/
theorem run_eq (l : Loading σ) (h : memory.Linked) :
    Machine.run memory l.host (evaluateFile l.tree l.path) =
        ((l.run memory).1, l.after memory, (l.run memory).2.2.host) ∧
      Recorded memory (l.record memory) (l.after memory) :=
  Machine.run_watched (w := ⟨l.host, []⟩) (.fileValue .watchedInvoke l.tree l.path) (.start h)

theorem respects (l : Loading σ) (h : memory.Respects fixed) :
    (l.after memory).Respects fixed ∧
      ∀ p ∈ l.record memory, ∀ k v, (k, v) ∈ fixed → p.memory.cells[k]? = some (.apart v) := by
  have hstart : Machine.Respects fixed (.start memory (⟨l.host, []⟩ : Watched σ)) := .start h l.host
  obtain ⟨hafter, -, hrecord⟩ := (Upholds.fileValue l.tree l.path _ hstart trivial).run
  exact ⟨hafter, hrecord⟩

theorem sound_after (l : Loading σ) (h : memory.Sound) : (l.after memory).Sound :=
  ⟨(l.run_eq h.linked).2.now.linked, (l.respects h.respects).1⟩

/-- Before a source is run, a file gets its environment. -/
theorem run_of_file? {path : Path} (hfile : l.file? = some (path, source)) :
    l.run memory = Machine.run (memory.withEnvironment path.parent) ⟨l.host, []⟩
      (sourceValue watchedInvoke source (shownName path.text) memory.nextEnvironment) := by
  unfold file? at hfile
  split at hfile
  · cases hfile
  · next canonical hcanonical =>
    split at hfile
    · cases hfile
    · next text htext =>
      cases hfile
      unfold run fileValue
      simp only [hcanonical, htext]
      exact Machine.run_newEnvironment _ _ _ _

/-- The record explains what has become of the environment that the file got. -/
theorem recorded_of_file? {path : Path} (hfile : l.file? = some (path, source)) (h : memory.Linked) :
    Recorded (memory.withEnvironment path.parent) (l.record memory) (l.after memory) := by
  rw [record, after, run_of_file? hfile]
  exact (Machine.run_watched (w := ⟨l.host, []⟩) (.sourceValue .watchedInvoke _ _ _)
    (.start (h.withEnvironment path.parent))).2

theorem size_lt_of_file? {path : Path} (hfile : l.file? = some (path, source)) (h : memory.Linked) :
    memory.tables.size < (l.after memory).tables.size := by
  have hsize := (recorded_of_file? hfile h).now.size_le
  rw [Memory.size_withEnvironment] at hsize
  omega

/-- A file that spares its environment knows it under a variable that is fixed from then on. -/
theorem respects_sparing {path : Path} (hfile : l.file? = some (path, source))
    (hsource : sparesEnvironment source = true) (h : memory.Respects fixed) :
    (l.after memory).Respects ((memory.nextVariable, .table memory.nextEnvironment) :: fixed) ∧
      ∀ p ∈ l.record memory, ∀ k v, (k, v) ∈ (memory.nextVariable, .table memory.nextEnvironment) :: fixed →
        p.memory.cells[k]? = some (.apart v) := by
  have hstart : Machine.Respects fixed (.start (memory.withEnvironment path.parent)
      (⟨l.host, []⟩ : Watched σ)) := .start (h.withEnvironment path.parent) l.host
  have hends := Upholds.sourceValue_sparing hsource (shownName path.text) memory.nextEnvironment hstart rfl
  obtain ⟨hafter, -, hrecord⟩ := hends.run
  rw [record, after, run_of_file? hfile]
  exact ⟨hafter, hrecord⟩

end Loading

/-! ## Files one after another -/

section

variable [Host σ] {memory : Memory}

/-- The memory that the evaluations of some files leave. -/
def afterAll : List (Loading σ) → Memory → Memory
  | [], memory => memory
  | l :: rest, memory => afterAll rest (l.after memory)

/-- Everything that is executed when some files are evaluated. -/
def recordAll : List (Loading σ) → Memory → List Snapshot
  | [], _ => []
  | l :: rest, memory => l.record memory ++ recordAll rest (l.after memory)

theorem afterAll_append (files more : List (Loading σ)) (memory : Memory) :
    afterAll (files ++ more) memory = afterAll more (afterAll files memory) := by
  induction files generalizing memory with
  | nil => rfl
  | cons l rest ih => exact ih (l.after memory)

theorem sound_afterAll (files : List (Loading σ)) (h : memory.Sound) : (afterAll files memory).Sound := by
  induction files generalizing memory with
  | nil => exact h
  | cons l rest ih => exact ih (l.sound_after h)

/-- Fixed variables have their values throughout. -/
theorem holds_recordAll (files : List (Loading σ)) (h : memory.Respects fixed) :
    ∀ p ∈ recordAll files memory, ∀ k v, (k, v) ∈ fixed → p.memory.cells[k]? = some (.apart v) := by
  induction files generalizing memory with
  | nil => nofun
  | cons l rest ih =>
    obtain ⟨hafter, hrecord⟩ := l.respects h
    intro p hp
    rcases List.mem_append.mp hp with hp | hp
    · exact hrecord p hp
    · exact ih hafter p hp

/-- The record explains the fields of all tables, also at each of its snapshots. -/
theorem recorded_recordAll (files : List (Loading σ)) (h : memory.Linked) :
    Recorded memory (recordAll files memory) (afterAll files memory) := by
  induction files generalizing memory with
  | nil => exact .start h
  | cons l rest ih =>
    have hfirst := (l.run_eq h).2
    exact hfirst.append (ih hfirst.now.linked)

end

end BuildComposition.Script
