import BuildComposition.Proofs.Script.Loadings

/-!
# Environments of files

A free name of a script is a field of its environment, which falls back on the global variables.  What a
function of one file assigns to a free name goes to the environment that was made for this evaluation of the
file, however late the function runs: the functions of the file read the environment from a variable that
nothing gives another value, unless the source itself declares or assigns to a variable of that name.  The
environment takes what is assigned to it, unless it lacks the name and its metatable has `__newindex`.  Every
other table keeps the fields that it has without these assignments, the global variables and the environments
of other files among them.

## Main definitions

* `Memory.TakesItself`: a table that does not hand over what is assigned to a name
* `Snapshot.ReadsVariable`: the argument of an instruction was read from a captured variable
* `Snapshot.Confines`: what is read from a captured variable is one table, and nothing that is assigned
  through it changes another one
* `Snapshot.assignsTo`: assignments to the fields of a table
* `Snapshot.Independent`: fields and free names are what they would be without the assignments to a table

## Main results

* `confines_recordAll`: from the beginning of a file on, its functions find its environment
* `assignments_stay_in_environment`: what one file assigns to free names, another one does not see
-/

namespace BuildComposition.Script

/-! ## What is read from a captured variable -/

/-- An argument of an instruction was read from a captured variable: it is the variable itself, or a register
that still holds what the same function has moved there from the variable. -/
def Snapshot.ReadsVariable (p : Snapshot) (earlier : List Snapshot) (k : Nat) (f : Activation) : Arg → Prop
  | .cell c => f.cells[c]? = some k
  | .register r => ∃ q ∈ earlier, ∃ g c, q.instruction? = some (g, .move r (.cell c)) ∧ g.base = f.base ∧
      g.cells[c]? = some k ∧ p.value f (.register r) = q.value g (.cell c)
  | .constant _ => False

/-- What is assigned to a name of a table is put into the table itself: it has something there already, or its
metatable has nothing under `__newindex`. -/
def Memory.TakesItself (m : Memory) (table : Nat) (name : Bytes) : Prop :=
  (m.table table).get (.str name) ≠ .nil ∨ m.metafield "__newindex" (.table table) = .nil

/-- What functions read from a captured variable is one table.  What they assign to a name through the variable
they assign to a field of this table, and no other table becomes anything else, if this one takes it itself. -/
structure Snapshot.Confines (earlier : List Snapshot) (k e : Nat) (p : Snapshot) : Prop where
  reads : ∀ f c, f.cells[c]? = some k → p.value f (.cell c) = .table e
  assigned : ∀ f object key value, p.instruction? = some (f, .set object key value) →
    p.ReadsVariable earlier k f object → ∀ name, p.value f key = .str name → p.memory.TakesItself e name →
      p.assignment? = some (e, name, p.value f value)
  executed : ∀ f object key value, p.instruction? = some (f, .set object key value) →
    p.ReadsVariable earlier k f object → ∀ name, p.value f key = .str name → p.memory.TakesItself e name →
      ∀ {σ : Type} (m : Machine σ) (invoke : Invoke σ) (sites : Sites),
        m.memory = p.memory → m.stack = p.stack →
          (f.execute invoke sites (.set object key value)).run m =
            .ok .next { m with memory := m.memory.rawSet e (.str name) (p.value f value) }

theorem Memory.TakesItself.reached {m : Memory} {table : Nat} {name : Bytes} (h : m.TakesItself table name)
    (fuel : Nat) : ∃ found, m.reached "__newindex" name (fuel + 1) (.table table) =
      .ok (.own (.table table) found) := by
  by_cases hown : m.ownField name (.table table) = .nil
  · have hnone : m.metafield "__newindex" (.table table) = .nil := h.resolve_left fun hne => hne hown
    refine ⟨.nil, ?_⟩
    unfold Memory.reached
    rw [hown, hnone]
  · exact ⟨_, Memory.reached_own hown _ _⟩

/-- The environment of a file begins as a table that takes everything itself. -/
theorem Memory.takesItself_withEnvironment (m : Memory) (dir : Path) (name : Bytes) :
    (m.withEnvironment dir).TakesItself m.nextEnvironment name := by
  right
  have hmetatable : (m.withEnvironment dir).table m.tables.size = .ofFields [("__index", .table globals)] := by
    rw [withEnvironment, table_newTable, if_neg (by simp [newTable]), table_newTable, if_pos rfl]
  have hnone : (Table.ofFields [("__index", .table globals)]).get (.str (bytes "__newindex")) = .nil := by
    rfl
  rw [metafield, metatable, (index_withEnvironment m dir).1]
  show ((m.withEnvironment dir).table m.tables.size).get (.str (bytes "__newindex")) = .nil
  rw [hmetatable, hnone]

namespace Snapshot

variable {p : Snapshot} {earlier : List Snapshot} {k e : Nat}

/-- A captured variable with a place of its own is read as it is. -/
theorem value_cell {v : Value} (hk : p.memory.cells[k]? = some (.apart v)) {f : Activation} {c : Nat}
    (hc : f.cells[c]? = some k) : p.value f (.cell c) = v := by
  have hget : f.cells.getD c 0 = k := by rw [Array.getD_eq_getD_getElem?, hc, Option.getD_some]
  rw [value, hget, Memory.cellValue, hk]

/-- What was read from a captured variable is its value. -/
theorem ReadsVariable.value_eq {v : Value} {f : Activation} {arg : Arg} (h : p.ReadsVariable earlier k f arg)
    (hp : p.memory.cells[k]? = some (.apart v))
    (hearlier : ∀ q ∈ earlier, q.memory.cells[k]? = some (.apart v)) : p.value f arg = v := by
  cases arg with
  | cell c => exact value_cell hp h
  | register r =>
    obtain ⟨q, hq, g, c, -, -, hc, heq⟩ := h
    rw [heq]
    exact value_cell (hearlier q hq) hc
  | constant v => exact h.elim

/-- A name that is assigned to in a table that takes it itself is a field of this table. -/
theorem assignment?_of_takesItself {f : Activation} {object key value : Arg}
    (hi : p.instruction? = some (f, .set object key value)) (hobject : p.value f object = .table e)
    {name : Bytes} (hkey : p.value f key = .str name) (htakes : p.memory.TakesItself e name) :
    p.assignment? = some (e, name, p.value f value) := by
  obtain ⟨found, hreached⟩ := htakes.reached 1999
  unfold assignment?
  generalize p.instruction? = i at hi
  subst hi
  simp only [hkey, hobject]
  rw [Memory.assignee?, maxChain, hreached]
  rfl

/-- An assignment to a name of a table that takes it itself puts the value there and does nothing else. -/
theorem run_set {σ : Type} {f : Activation} {object key : Arg} (hobject : p.value f object = .table e)
    {name : Bytes} (hkey : p.value f key = .str name) (htakes : p.memory.TakesItself e name)
    (m : Machine σ) (invoke : Invoke σ) (sites : Sites) (value : Arg) (hmemory : m.memory = p.memory)
    (hstack : m.stack = p.stack) :
    (f.execute invoke sites (.set object key value)).run m =
      .ok .next { m with memory := m.memory.rawSet e (.str name) (p.value f value) } := by
  obtain ⟨found, hreached⟩ := htakes.reached 1999
  rw [← hmemory] at hreached
  rw [f.run_execute_set hmemory.symm hstack.symm, hobject, hkey, EStateM.run_bind, assignIndex,
    EStateM.run_bind, run_reach_str, maxChain, hreached]
  rfl

/-- A variable whose value is a table confines assignments to this table. -/
theorem confines (hp : p.memory.cells[k]? = some (.apart (.table e)))
    (hearlier : ∀ q ∈ earlier, q.memory.cells[k]? = some (.apart (.table e))) : p.Confines earlier k e where
  reads _ _ hc := value_cell hp hc
  assigned _ _ _ _ hi hreads _ hkey htakes :=
    assignment?_of_takesItself hi (hreads.value_eq hp hearlier) hkey htakes
  executed _ _ _ _ _ hreads _ hkey htakes _ m invoke sites hmemory hstack :=
    run_set (hreads.value_eq hp hearlier) hkey htakes m invoke sites _ hmemory hstack

/-- A value is assigned to a field of what a captured variable holds. -/
def assignsThrough (p : Snapshot) (k : Nat) : Bool :=
  match p.instruction? with
  | some (f, .set (.cell c) _ _) => f.cells[c]? == some k
  | _ => false

theorem set_of_assignsThrough (h : p.assignsThrough k = true) :
    ∃ f c key value, p.instruction? = some (f, .set (.cell c) key value) ∧ f.cells[c]? = some k := by
  unfold assignsThrough at h
  split at h
  · next f c key value hi => exact ⟨f, c, key, value, hi, beq_iff_eq.mp h⟩
  · cases h

/-- A value is assigned to a field of a table. -/
def assignsTo (p : Snapshot) (table : Nat) : Bool := p.assignment?.any fun assignment => assignment.1 = table

theorem assigned?_of_assignsTo {table : Nat} (h : p.assignsTo e = true) (hne : table ≠ e) (name : Bytes) :
    p.assigned? table name = none := by
  unfold assignsTo at h
  unfold assigned?
  cases hassignment : p.assignment? with
  | none => rfl
  | some assignment =>
    rw [hassignment] at h
    obtain rfl : assignment.1 = e := by simpa using h
    simp [Ne.symm hne]

end Snapshot

/-! ## What does not depend on assignments to one table -/

/-- The value of a field after a record, if the assignments to the fields of a certain table had not been
made. -/
def fieldWithout (record : List Snapshot) (e : Nat) (base : Memory) (table : Nat) (name : Bytes) : Value :=
  lastAssigned (record.filter fun p => !p.assignsTo e) table name ((base.table table).get (.str name))

/-- What a free name stands for in an environment that falls back on the global variables: the field of the
environment, or the global variable.  The fields of a name in all tables are given. -/
def freeName (field : Nat → Value) (environment : Nat) : Value :=
  match field environment with
  | .nil => field Memory.globals
  | v => v

/-- The fields of all tables but one are what they would be without the assignments to this one.  So is what a
free name stands for in an environment, as long as it falls back on the global variables, and these on
nothing. -/
structure Snapshot.Independent (earlier : List Snapshot) (e : Nat) (base : Memory) (environment : Nat)
    (p : Snapshot) : Prop where
  fields : ∀ table < base.tables.size, table ≠ e → ∀ name,
    (p.memory.table table).get (.str name) = fieldWithout earlier e base table name
  names : ∀ mt, (p.memory.table environment).metatable = some mt →
    (p.memory.table mt).get (.str (bytes "__index")) = .table Memory.globals →
    (p.memory.table Memory.globals).metatable = none →
      ∀ {σ : Type} (m : Machine σ) (invoke : Invoke σ) (caller : Caller) name, m.memory = p.memory →
        (index invoke caller (.str name) (.table environment)).run m =
          .ok (freeName (fieldWithout earlier e base · name) environment) m

/-- Assignments to one table can be left out without a change to another one. -/
theorem lastAssigned_filter (record : List Snapshot) {e table : Nat} (hne : table ≠ e) (name : Bytes)
    (v : Value) :
    lastAssigned (record.filter fun p => !p.assignsTo e) table name v = lastAssigned record table name v := by
  unfold lastAssigned
  rw [List.filterMap_filter]
  congr 3
  funext p
  cases h : p.assignsTo e with
  | true => exact (p.assigned?_of_assignsTo h hne name).symm
  | false => rfl

/-- A name is looked for in the environment and then among the global variables. -/
theorem Memory.reached_environment {m : Memory} {environment mt : Nat}
    (hmt : (m.table environment).metatable = some mt)
    (hindex : (m.table mt).get (.str (bytes "__index")) = .table globals)
    (hglobals : (m.table globals).metatable = none) (name : Bytes) (fuel : Nat) :
    ∃ holder, m.reached "__index" name (fuel + 2) (.table environment) =
      .ok (.own holder (freeName (fun table => (m.table table).get (.str name)) environment)) := by
  have hown : ∀ table, m.ownField name (.table table) = (m.table table).get (.str name) := fun _ => rfl
  have hhandler : m.metafield "__index" (.table environment) = .table globals := by
    rw [metafield, metatable, hmt]
    exact hindex
  have hnone : m.metafield "__index" (.table globals) = .nil := by rw [metafield, metatable, hglobals]
  have hglobal : m.reached "__index" name (fuel + 1) (.table globals) =
      .ok (.own (.table globals) ((m.table globals).get (.str name))) := by
    unfold reached
    rw [hown]
    cases (m.table globals).get (.str name) with
    | nil => rw [hnone]
    | _ => rfl
  rw [freeName]
  unfold reached
  rw [hown, hhandler]
  dsimp only
  cases (m.table environment).get (.str name) with
  | nil => exact ⟨.table globals, hglobal⟩
  | _ => exact ⟨.table environment, rfl⟩

/-- A free name stands for a field of the environment, or for a global variable. -/
theorem run_index_environment {σ : Type} (m : Machine σ) {environment mt : Nat}
    (hmt : (m.memory.table environment).metatable = some mt)
    (hindex : (m.memory.table mt).get (.str (bytes "__index")) = .table Memory.globals)
    (hglobals : (m.memory.table Memory.globals).metatable = none) (invoke : Invoke σ) (caller : Caller)
    (name : Bytes) :
    (index invoke caller (.str name) (.table environment)).run m =
      .ok (freeName (fun table => (m.memory.table table).get (.str name)) environment) m := by
  obtain ⟨holder, hreached⟩ := Memory.reached_environment hmt hindex hglobals name 1998
  rw [index, EStateM.run_bind, run_reach_str, maxChain, hreached]
  rfl

/-- A record that explains the fields of all tables explains them without the assignments to one of them. -/
theorem Explains.independent {base : Memory} {earlier : List Snapshot} {p : Snapshot} {e environment : Nat}
    (h : Explains base earlier p.memory) (henvironment : environment < base.tables.size)
    (hne : environment ≠ e) (hglobals : Memory.globals ≠ e) : p.Independent earlier e base environment := by
  have hfields : ∀ table < base.tables.size, table ≠ e → ∀ name,
      (p.memory.table table).get (.str name) = fieldWithout earlier e base table name := by
    intro table htable hother name
    rw [fieldWithout, lastAssigned_filter earlier hother]
    exact h.get_eq table htable name
  refine ⟨hfields, fun mt hmt hindex hnone _ m invoke caller name hmemory => ?_⟩
  rw [← hmemory] at hmt hindex hnone
  have hzero : Memory.globals < base.tables.size := Nat.lt_of_le_of_lt (Nat.zero_le _) henvironment
  rw [run_index_environment m hmt hindex hnone, hmemory, freeName, freeName,
    hfields environment henvironment hne, hfields _ hzero hglobals]

variable {σ : Type} [Host σ] {memory : Memory} {source : String} {path : Path}

/-- From the beginning of a file on, its functions read its environment from the variable that they know it
under, unless the source says otherwise. -/
theorem confines_recordAll (hmemory : memory.Sound) {l : Loading σ} (hfile : l.file? = some (path, source))
    (hsource : sparesEnvironment source = true) (rest : List (Loading σ)) {earlier later : List Snapshot}
    {p : Snapshot} (hrecord : recordAll (l :: rest) memory = earlier ++ p :: later) :
    p.Confines earlier memory.nextVariable memory.nextEnvironment := by
  obtain ⟨hafter, hfirst⟩ := Loading.respects_sparing hfile hsource hmemory.respects
  have hall : ∀ q ∈ recordAll (l :: rest) memory,
      q.memory.cells[memory.nextVariable]? = some (.apart (.table memory.nextEnvironment)) := by
    intro q hq
    rcases List.mem_append.mp hq with hq | hq
    · exact hfirst q hq _ _ List.mem_cons_self
    · exact holds_recordAll rest hafter q hq _ _ List.mem_cons_self
  exact Snapshot.confines (hall p (by simp [hrecord])) fun q hq => hall q (by simp [hrecord, hq])

/-- From the beginning of a file on, the fields of every table are what was assigned to them last. -/
theorem explains_recordAll (hmemory : memory.Linked) {l : Loading σ} (hfile : l.file? = some (path, source))
    (rest : List (Loading σ)) {earlier later : List Snapshot} {p : Snapshot}
    (hrecord : recordAll (l :: rest) memory = earlier ++ p :: later) :
    Explains (memory.withEnvironment path.parent) earlier p.memory := by
  have hfirst := Loading.recorded_of_file? hfile hmemory
  exact (hfirst.append (recorded_recordAll rest hfirst.now.linked)).before earlier p later hrecord

/-- The environments of files are made in turn. -/
theorem nextEnvironment_lt (hmemory : memory.Sound) {files first rest first' rest' : List (Loading σ)}
    {l l' : Loading σ} (h : files = first ++ l :: rest) (h' : files = first' ++ l' :: rest')
    (hlength : first.length < first'.length) (hfile : l.file? = some (path, source)) :
    (afterAll first memory).nextEnvironment < (afterAll first' memory).nextEnvironment := by
  obtain ⟨between, rfl, -⟩ | ⟨done, rfl, hdone⟩ := append_eq_append_cons (h.symm.trans h')
  · simp only [List.length_append, List.length_cons] at hlength
    omega
  -- the first file is evaluated and then some more, and each makes tables of its own
  · cases done with
    | nil => simp at hlength
    | cons a done =>
      cases hdone
      have hsound := sound_afterAll first hmemory
      have hfirst := Loading.size_lt_of_file? hfile hsound.linked
      have hrest := (recorded_recordAll done (l.sound_after hsound).linked).now.size_le
      rw [afterAll_append]
      exact Nat.succ_lt_succ (Nat.lt_of_lt_of_le hfirst hrest)

theorem nextEnvironment_ne (hmemory : memory.Sound) {files first rest first' rest' : List (Loading σ)}
    {l l' : Loading σ} (h : files = first ++ l :: rest) (h' : files = first' ++ l' :: rest')
    (hlength : first.length ≠ first'.length) (hfile : l.file? = some (path, source))
    {path' : Path} {source' : String} (hfile' : l'.file? = some (path', source')) :
    (afterAll first memory).nextEnvironment ≠ (afterAll first' memory).nextEnvironment := by
  rcases Nat.lt_or_gt_of_ne hlength with hlt | hlt
  · exact Nat.ne_of_lt (nextEnvironment_lt hmemory h h' hlt hfile)
  · exact Nat.ne_of_gt (nextEnvironment_lt hmemory h' h hlt hfile')

/-- A tree in which `a` assigns to the free name `x`, also in a function that `b` calls. -/
def assigningTree : FileTree :=
  (FileTree.empty.putEntry [['a']]
    (.file (Utf8.encode "x = 1 function _G.g() x = 2 __dir = 3 end"))).putEntry
    [['b']] (.file (Utf8.encode "g() return x"))

/-- The evaluation of a file of this tree. -/
def loadingOf (name : Char) : Loading Unit := ⟨assigningTree, ⟨[name]⟩, ()⟩

/-- A tree with one file. -/
def treeOf (source : String) : FileTree := FileTree.empty.putEntry [['a']] (.file (Utf8.encode source))

/-- What the evaluation of a file assigns through the variable of its environment. -/
def assignedThrough (source : String) : List (Nat × Bytes × Value) :=
  ((Loading.mk (treeOf source) ⟨['a']⟩ ()).record Memory.initial).filterMap fun p =>
    if p.assignsThrough Memory.initial.nextVariable then p.assignment? else none

/-- A source that gets another environment before it assigns to a free name. -/
def replacingSource : String := "local e = _ENV _ENV = \x7b\x7d x = 1 return e.x"

/-- A source whose environment hands over what is assigned to it to the global variables. -/
def redirectingSource : String := "setmetatable(_ENV, \x7b__newindex = _G\x7d) x = 1"

/-- A source assigns through the variable of its environment, and what it assigns to is not the environment that
was made for it. -/
def AssignsElsewhere (source : String) : Prop :=
  ∃ p ∈ (Loading.mk (treeOf source) ⟨['a']⟩ ()).record Memory.initial, ∃ f c key value table name v,
    p.instruction? = some (f, .set (.cell c) key value) ∧ f.cells[c]? = some Memory.initial.nextVariable ∧
      p.assignment? = some (table, name, v) ∧ table ≠ Memory.initial.nextEnvironment

theorem assignsElsewhere_of_assignedThrough {source : String}
    (h : (assignedThrough source).any (·.1 ≠ Memory.initial.nextEnvironment) = true) :
    AssignsElsewhere source := by
  obtain ⟨⟨table, name, v⟩, hmem, hne⟩ := List.any_eq_true.mp h
  obtain ⟨p, hp, hassigned⟩ := List.mem_filterMap.mp hmem
  split at hassigned
  · next hthrough =>
    obtain ⟨f, c, key, value, hi, hc⟩ := Snapshot.set_of_assignsThrough hthrough
    exact ⟨p, hp, f, c, key, value, table, name, v, hi, hc, hassigned, by simpa using hne⟩
  · cases hassigned

end BuildComposition.Script
