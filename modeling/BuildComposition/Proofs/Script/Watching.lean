import BuildComposition.Proofs.Lists
import BuildComposition.Proofs.Script.LockstepRuns

/-!
# Runs under observation

A run that is watched leaves a record of snapshots: what is executed next, and the memory and the
stack that this finds.  Watching changes nothing else, so that the record tells of the run itself.  What
stands in a field of a table is then known from the record: the value that was assigned last.  Only the
instructions that assign to a field do so; the library and the run itself leave all fields alone.

## Main definitions

* `Snapshot`: what is executed next, and what it finds
* `Watched`, `watchedWithin`: a host with a record, and calls that leave one
* `Memory.reached`, `Memory.assignee?`: where an access to a name ends, and which table gets what is assigned
* `Snapshot.assignment?`, `lastAssigned`: the assignments to a field in a record
* `Explains`: a record from which all fields of some tables are known
* `Watches`: a machine with such a record, in step with the one without

## Main results

* `Explains.assigned`, `Explains.sameFields`: what is assigned to fields, and what leaves them alone
-/

namespace BuildComposition.Script

/-! ## The record -/

/-- What is executed next. -/
inductive Deed where
  /-- The next instruction of a function. -/
  | instruction (a : Activation)
  /-- A library function that another one calls, or a metatable. -/
  | builtin (b : Builtin) (args : List Value)

/-- What is executed next, and what it finds. -/
structure Snapshot where
  memory : Memory
  stack : Array Value
  deed : Deed

/-- A host with the snapshots that were taken so far. -/
structure Watched (σ : Type) where
  host : σ
  record : List Snapshot

section

variable {σ : Type}

instance [Host σ] : Host (Watched σ) :=
  ⟨fun w r => (Host.perform w.host r).map fun host => { w with host }⟩

/-- The machine without the record. -/
def Machine.forget (m : Machine (Watched σ)) : Machine σ := { m with host := m.host.host }

@[simp] theorem Machine.memory_forget (m : Machine (Watched σ)) : m.forget.memory = m.memory := rfl

@[simp] theorem Machine.captured_forget (m : Machine (Watched σ)) : m.forget.captured = m.captured :=
  rfl

@[simp] theorem Machine.host_forget (m : Machine (Watched σ)) : m.forget.host = m.host.host := rfl

/-- The machine with one more snapshot in the record. -/
def Machine.noting (m : Machine (Watched σ)) (p : Snapshot) : Machine (Watched σ) :=
  { m with host := { m.host with record := m.host.record ++ [p] } }

/-- Notes what is executed next. -/
def watch (deed : Deed) : Run (Watched σ) Unit :=
  modify fun m => m.noting ⟨m.memory, m.stack, deed⟩

variable [Host σ]

/-- Notes the next instruction and executes it. -/
def Calls.watchedStep (invoke : Invoke (Watched σ)) (outer : Sites) (c : Calls) :
    Run (Watched σ) (Sum Calls (List Value)) := do
  watch (.instruction c.current)
  c.step invoke outer

/-- Calls a value as `callWithin` does, and notes everything that is executed. -/
def watchedWithin : Nat → Invoke (Watched σ)
  | 0 => fun _ _ caller => raise caller.sites "C stack overflow"
  | levels + 1 => fun f args caller => do
    match f with
    | .closure id =>
      let f ← load (·.closure id)
      grow (caller.height + 1 + args.length)
      putAll (caller.height + 1) args
      let a ← f.activate caller.height args.length none caller.sites
      iterate (Calls.watchedStep (watchedWithin levels) caller.sites) maxSteps ⟨a, []⟩
    | .builtin b =>
      watch (.builtin b args)
      runBuiltin (watchedWithin levels) b args caller
    | v => Calls.refuse caller.sites v

/-- Calls a value as `invoke` does, and notes everything that is executed. -/
def watchedInvoke : Invoke (Watched σ) := watchedWithin maxLevels

end

/-! ## Assignments -/

/-- The value of a captured variable. -/
def Memory.cellValue (m : Memory) (stack : Array Value) (id : Nat) : Value :=
  match m.cells[id]? with
  | some (.onStack position) => stack.getD position .nil
  | some (.apart v) => v
  | none => .nil

/-- The value that an instruction of a function reads. -/
def Snapshot.value (p : Snapshot) (a : Activation) : Arg → Value
  | .register r => p.stack.getD (a.base + r) .nil
  | .cell c => p.memory.cellValue p.stack (a.cells.getD c 0)
  | .constant c => c.value

/-- The instruction that is executed next, if there is one. -/
def Snapshot.instruction? (p : Snapshot) : Option (Activation × Instruction) :=
  match p.deed with
  | .instruction a => a.code.instructions[a.place]?.map (a, ·)
  | .builtin _ _ => none

/-- What a value itself has under a name. -/
def Memory.ownField (m : Memory) (name : Bytes) : Value → Value
  | .table id => (m.table id).get (.str name)
  | _ => .nil

/-- Where an access to a name ends, or why it is refused. -/
def Memory.reached (m : Memory) (event : String) (name : Bytes) : Nat → Value → Except String Reached
  | 0, v =>
    match m.ownField name v with
    | .nil => .error s!"'{event}' chain too long; possibly a loop"
    | found => .ok (.own v found)
  | fuel + 1, v =>
    match m.ownField name v with
    | .nil =>
      match m.metafield event v with
      | .nil =>
        match v with
        | .table _ => .ok (.own v .nil)
        | _ => .error s!"attempt to index a {v.kind.scriptName} value"
      | .closure id => .ok (.function (.closure id) v)
      | .builtin b => .ok (.function (.builtin b) v)
      | h => m.reached event name fuel h
    | found => .ok (.own v found)

/-- An access to something that a value has itself ends there. -/
theorem Memory.reached_own {m : Memory} {name : Bytes} {v : Value} (h : m.ownField name v ≠ .nil)
    (event : String) (fuel : Nat) : m.reached event name fuel v = .ok (.own v (m.ownField name v)) := by
  cases fuel <;>
  · unfold reached
    cases hown : m.ownField name v <;> first | rfl | exact absurd hown h

/-- The table that gets a value when it is assigned to a name, unless a function is called for it or the
assignment is refused. -/
def Memory.assignee? (m : Memory) (name : Bytes) (object : Value) : Option Nat :=
  match m.reached "__newindex" name maxChain object with
  | .ok (.own (.table id) _) => some id
  | _ => none

/-- The table, the name and the value of an assignment to a field. -/
def Snapshot.assignment? (p : Snapshot) : Option (Nat × Bytes × Value) :=
  match p.instruction? with
  | some (a, .set object key value) =>
    match p.value a key with
    | .str name => (p.memory.assignee? name (p.value a object)).map (·, name, p.value a value)
    | _ => none
  | _ => none

/-- The value that is assigned to a field of a table. -/
def Snapshot.assigned? (p : Snapshot) (id : Nat) (name : Bytes) : Option Value :=
  p.assignment?.bind fun (table, key, v) => if table = id ∧ key = name then some v else none

/-- The value that was assigned last to a field of a table, or the one from before. -/
def lastAssigned (record : List Snapshot) (id : Nat) (name : Bytes) (v : Value) : Value :=
  ((record.filterMap (·.assigned? id name)).getLast?).getD v

theorem lastAssigned_concat (record : List Snapshot) (p : Snapshot) (id : Nat) (name : Bytes)
    (v : Value) : lastAssigned (record ++ [p]) id name v =
      (p.assigned? id name).getD (lastAssigned record id name v) := by
  unfold lastAssigned
  rw [List.filterMap_append]
  cases hp : p.assigned? id name with
  | none => simp [hp]
  | some w => simp [hp]

/-- One record after another. -/
theorem lastAssigned_append (record more : List Snapshot) (id : Nat) (name : Bytes) (v : Value) :
    lastAssigned (record ++ more) id name v = lastAssigned more id name (lastAssigned record id name v) := by
  unfold lastAssigned
  rw [List.filterMap_append, List.getLast?_append]
  cases (more.filterMap (·.assigned? id name)).getLast? <;> rfl

/-! ## Records that explain the fields -/

/-- The fields of some tables are what a record makes of them. -/
structure Explains (base : Memory) (record : List Snapshot) (m : Memory) : Prop where
  linked : m.Linked
  size_le : base.tables.size ≤ m.tables.size
  get_eq : ∀ id < base.tables.size, ∀ name, (m.table id).get (.str name) =
    lastAssigned record id name ((base.table id).get (.str name))

namespace Explains

variable {base m n : Memory} {record : List Snapshot}

theorem start (h : base.Linked) : Explains base [] base := ⟨h, Nat.le_refl _, fun _ _ _ => rfl⟩

theorem sameFields (h : Explains base record m) (hn : m.SameFields n) : Explains base record n where
  linked := hn.linked
  size_le := Nat.le_trans h.size_le hn.size_le
  get_eq id hid name :=
    (hn.get_eq id (Nat.lt_of_lt_of_le hid h.size_le) _ (Key.isField_str name)).trans
      (h.get_eq id hid name)

/-- Nothing is assigned to a field. -/
theorem quiet (h : Explains base record m) {p : Snapshot} (hp : p.assignment? = none) :
    Explains base (record ++ [p]) m where
  linked := h.linked
  size_le := h.size_le
  get_eq id hid name := by
    rw [lastAssigned_concat, Snapshot.assigned?, hp]
    exact h.get_eq id hid name

/-- A value is put under a name of a table, which is an assignment to a field. -/
theorem assigned (h : Explains base record m) {p : Snapshot} {id : Nat} {name : Bytes} {v : Value}
    (hp : p.assignment? = some (id, name, v)) :
    Explains base (record ++ [p]) (m.rawSet id (.str name) v) := by
  have hset := (h.linked id).set (.str name) v
  refine ⟨h.linked.linked_modifyTable hset.linked, ?_, fun other hother field => ?_⟩
  · exact (Memory.size_modifyTable m id (·.set (.str name) v)).symm ▸ h.size_le
  · have hsize := Nat.lt_of_lt_of_le hother h.size_le
    have htable := Memory.table_modifyTable m id (·.set (.str name) v) other
    rw [lastAssigned_concat, Snapshot.assigned?, hp, ← h.get_eq other hother field]
    show ((m.modifyTable id (·.set (.str name) v)).table other).get (.str field) = _
    rw [htable]
    by_cases hid : id = other
    · subst hid
      rw [if_pos ⟨rfl, hsize⟩]
      by_cases hname : name = field
      · subst hname
        simpa using hset.get_self (Key.isField_str name)
      · rw [hset.get_of_ne _ (Key.isField_str field) fun heq => hname (Key.str.inj heq).symm]
        simp [hname]
    · rw [if_neg fun h => hid h.1]
      simp [hid]

/-- What is put under another key is no assignment to a field. -/
theorem rawSet_of_ne_str (h : Explains base record m) {id : Nat} {key v : Value} {k : Key}
    (hkey : key.key? = some k) (hk : ∀ name, k ≠ .str name) : Explains base record (m.rawSet id key v) := by
  have hset := (h.linked id).set k v
  rw [Memory.rawSet, hkey]
  refine ⟨h.linked.linked_modifyTable hset.linked, ?_, fun other hother name => ?_⟩
  · rw [Memory.size_modifyTable]
    exact h.size_le
  · rw [Memory.table_modifyTable, ← h.get_eq other hother name]
    split
    · next heq =>
      rw [← heq.1, hset.get_of_ne _ (Key.isField_str name) (hk name).symm]
    · rfl

theorem append (h : Explains base record m) {more : List Snapshot} (h' : Explains m more n) :
    Explains base (record ++ more) n where
  linked := h'.linked
  size_le := Nat.le_trans h.size_le h'.size_le
  get_eq id hid name := by
    rw [h'.get_eq id (Nat.lt_of_lt_of_le hid h.size_le), h.get_eq id hid, lastAssigned_append]

/-- Fields do not depend on where tables lie. -/
theorem withAddresses (h : Explains base record m) (addresses : Addresses) :
    Explains base record (m.withAddresses addresses) := ⟨h.linked, h.size_le, h.get_eq⟩

end Explains

/-- The record explains what is there now, and what was there at each of its snapshots. -/
structure Recorded (base : Memory) (record : List Snapshot) (m : Memory) : Prop where
  now : Explains base record m
  before : ∀ before p after, record = before ++ p :: after → Explains base before p.memory

namespace Recorded

variable {base m n : Memory} {record : List Snapshot}

theorem start (h : base.Linked) : Recorded base [] base := ⟨.start h, by simp⟩

theorem sameFields (h : Recorded base record m) (hn : m.SameFields n) : Recorded base record n :=
  ⟨h.now.sameFields hn, h.before⟩

theorem withAddresses (h : Recorded base record m) (addresses : Addresses) :
    Recorded base record (m.withAddresses addresses) := ⟨h.now.withAddresses addresses, h.before⟩

theorem append (h : Recorded base record m) {more : List Snapshot} (h' : Recorded m more n) :
    Recorded base (record ++ more) n := by
  refine ⟨h.now.append h'.now, fun before p after heq => ?_⟩
  rcases append_eq_append_cons heq with ⟨rest, hrest, -⟩ | ⟨done, rfl, hdone⟩
  · exact h.before before p rest hrest
  · exact h.now.append (h'.before done p after hdone)

/-- What is there now is there at the next snapshot. -/
theorem concat (h : Recorded base record m) {p : Snapshot} (hp : p.memory = m)
    (hn : Explains base (record ++ [p]) n) : Recorded base (record ++ [p]) n := by
  refine ⟨hn, fun before q after heq => ?_⟩
  rcases append_eq_append_cons heq with ⟨rest, hrest, -⟩ | ⟨done, rfl, hdone⟩
  · exact h.before before q rest hrest
  · cases done with
    | nil =>
      cases hdone
      rw [List.append_nil, hp]
      exact h.now
    | cons r done => simp at hdone

end Recorded

/-- The record of a machine explains its memory. -/
abbrev Machine.Explained {σ : Type} (base : Memory) (m : Machine (Watched σ)) : Prop :=
  Recorded base m.host.record m.memory

/-- A machine whose record explains its memory, and the machine without the record. -/
def Watches {σ : Type} (base : Memory) (s : Machine (Watched σ)) (t : Machine σ) : Prop :=
  s.Explained base ∧ s.forget = t

instance {σ : Type} {base : Memory} : Lockstep (Watches (σ := σ) base) where
  same := by
    rintro s _ ⟨-, rfl⟩
    exact ⟨rfl, rfl, rfl⟩
  moved := by
    rintro s _ ⟨hs, rfl⟩ memory stack captured h
    exact ⟨hs.sameFields (h hs.now.linked), rfl⟩

/-- A request is performed by the host, whether it is watched or not. -/
theorem Mirrors.perform {σ : Type} [Host σ] {base : Memory} (r : Request) :
    Mirrors (Watches base) (perform r : Run (Watched σ) Unit) (perform r) := by
  rintro s _ ⟨hs, rfl⟩
  have hwatched : Host.perform s.host r =
      (Host.perform s.host.host r).map fun host => { s.host with host } := rfl
  unfold Script.perform
  simp only [EStateM.run_bind, EStateM.run_get, hwatched, Machine.host_forget]
  cases Host.perform s.host.host r with
  | error e => exact Mirrors.fail (.refused e) s _ ⟨hs, rfl⟩
  | ok host => exact .ok rfl ⟨hs, rfl⟩

end BuildComposition.Script
