import BuildComposition.Proofs.Lists
import BuildComposition.Proofs.Script.Fields
import BuildComposition.Proofs.Simulation
import BuildComposition.Script.Interpreter

/-!
# Machines in step

Scripts that run on two machines with different hosts do the same, as long as the hosts answer alike.
A host that also keeps a record of what happens is then known to keep a record of the run without it.
Machines in step have the same memory, stack and captured variables, and what else is known of them is
not lost by what the machine does to these.  Most of what it does leaves the fields of all tables alone,
and the captured variables and the functions, which is what the relation between the machines may depend on.

## Main definitions

* `Memory.Linked`, `Memory.SameFields`: the fields of all tables, and that they are left alone
* `Memory.SameFunctions`: that captured variables and functions are left alone
* `Steady`, `Lockstep`: relations between machines that are in step
* `Mirrors`: actions that do the same on machines in step

## Main results

* `Mirrors.bind`, `Mirrors.tryCatch`, `Mirrors.iterate`: actions that are made of others
* `Mirrors.peek`, `Mirrors.closeFrom`: the actions of the machine
-/

namespace BuildComposition.Script

/-! ## What is left alone in memory -/

/-- The chains of all tables lead to every key. -/
def Memory.Linked (m : Memory) : Prop := ∀ id, (m.table id).Linked

/-- No table is lost, and all fields are as they were. -/
structure Memory.SameFields (m n : Memory) : Prop where
  linked : n.Linked
  size_le : m.tables.size ≤ n.tables.size
  get_eq : ∀ id < m.tables.size, ∀ k, k.IsField → (n.table id).get k = (m.table id).get k

/-- The captured variables and the functions are as they were. -/
def Memory.SameFunctions (m n : Memory) : Prop := n.cells = m.cells ∧ n.closures = m.closures

theorem Memory.table_newTable (m : Memory) (t : Table) (id : Nat) :
    (m.newTable t).2.table id = if id = m.tables.size then t else m.table id := by
  simp only [table, newTable, Array.getD_eq_getD_getElem?, Array.getElem?_push]
  split <;> rfl

namespace Memory.Linked

variable {m : Memory}

theorem sameFields (h : m.Linked) : m.SameFields m := ⟨h, Nat.le_refl _, fun _ _ _ _ => rfl⟩

/-- Only the tables matter. -/
theorem withOthers (h : m.Linked) {n : Memory} (heq : n.tables = m.tables) : m.SameFields n := by
  have htable : ∀ id, n.table id = m.table id := fun id => by rw [table, table, heq]
  exact ⟨fun id => htable id ▸ h id, Nat.le_of_eq (by rw [heq]), fun id _ k _ => by rw [htable]⟩

theorem linked_modifyTable (h : m.Linked) {id : Nat} {f : Table → Table}
    (hf : (f (m.table id)).Linked) : (m.modifyTable id f).Linked := by
  intro other
  rw [table_modifyTable]
  split
  · next heq => exact heq.1 ▸ hf
  · exact h other

theorem modifyTable (h : m.Linked) {id : Nat} {f : Table → Table}
    (hf : (m.table id).SameFields (f (m.table id))) : m.SameFields (m.modifyTable id f) := by
  refine ⟨h.linked_modifyTable hf.linked, Nat.le_of_eq (size_modifyTable m id f).symm, ?_⟩
  intro other _ k hk
  rw [table_modifyTable]
  split
  · next heq => exact heq.1 ▸ hf.get_eq k hk
  · rfl

theorem newTable (h : m.Linked) {t : Table} (ht : t.Linked) : m.SameFields (m.newTable t).2 := by
  refine ⟨fun id => ?_, by simp [Memory.newTable], fun id hid k _ => ?_⟩
  · rw [table_newTable]
    split
    · exact ht
    · exact h id
  · rw [table_newTable, if_neg (by omega)]

theorem touch (h : m.Linked) (id : Nat) (k : Key) : m.SameFields (m.touch id k) := by
  unfold Memory.touch
  split
  · split
    · exact h.modifyTable ((h id).touch k)
    · exact h.sameFields
  · exact h.sameFields

theorem length (h : m.Linked) (id : Nat) : m.SameFields (m.length id).2 := by
  unfold Memory.length
  dsimp only
  split
  · exact h.sameFields
  · exact h.modifyTable (h id).length

theorem setMetatable (h : m.Linked) (id : Nat) (mt : Option Nat) :
    m.SameFields (m.setMetatable id mt) :=
  h.modifyTable ((h id).sameFields_withSlots rfl rfl rfl)

/-- An item is no field. -/
theorem rawSet_int (h : m.Linked) (id : Nat) (n : Int64) (v : Value) :
    m.SameFields (m.rawSet id (.int n) v) := by
  refine h.modifyTable ⟨((h id).set (.int n) v).linked, fun k hk => ?_⟩
  exact ((h id).set (.int n) v).get_of_ne k hk (hk n)

end Memory.Linked

namespace Memory

theorem linked_initial : Memory.initial.Linked := by
  intro id
  match id with
  | 0 | 1 | 2 | 3 | 4 => exact Table.linked_ofFields _
  | id + 5 => exact Table.linked_empty

theorem linked_withProject (toolset : Toolset) (runDir : Path) :
    (Memory.withProject toolset runDir).Linked := by
  have htoolset := linked_initial.newTable
    (Table.linked_ofFields [("name", .ofString toolset.name)])
  unfold Memory.withProject
  dsimp only
  have hproject := htoolset.linked.newTable (Table.linked_ofFields <|
    [("toolset", .table Memory.initial.tables.size), ("run_dir", .ofString runDir.text)] ++
      Operation.all.map fun o => (o.name, .builtin (.request o)))
  exact hproject.linked.linked_modifyTable ((hproject.linked _).set _ _).linked

theorem sameFunctions_touch (m : Memory) (id : Nat) (k : Key) : m.SameFunctions (m.touch id k) := by
  unfold touch
  split
  · split <;> exact ⟨rfl, rfl⟩
  · exact ⟨rfl, rfl⟩

theorem sameFunctions_length (m : Memory) (id : Nat) : m.SameFunctions (m.length id).2 := by
  unfold length
  dsimp only
  split <;> exact ⟨rfl, rfl⟩

/-- Memory in which a captured variable has got a place of its own, with a value. -/
def sealed (m : Memory) (id : Nat) (v : Value) : Memory :=
  { m with cells := replaced m.cells id (.apart v) }

end Memory

/-! ## Machines in step -/

section

variable {σ τ α β : Type}

/-- Machines in step have the same memory, stack and captured variables.  They stay in step if the fields of
all tables are left alone, and captured variables too, but for those on the stack, which get places of their
own. -/
class Steady (R : Machine σ → Machine τ → Prop) : Prop where
  same : ∀ {s t}, R s t → s.memory = t.memory ∧ s.stack = t.stack ∧ s.captured = t.captured
  moved : ∀ {s t}, R s t → ∀ memory stack, s.memory.SameFunctions memory →
    (s.memory.Linked → s.memory.SameFields memory) → R { s with memory, stack } { t with memory, stack }
  sealed : ∀ {s t}, R s t → ∀ position id v, (position, id) ∈ s.captured →
    R { s with memory := s.memory.sealed id v } { t with memory := t.memory.sealed id v }
  dropped : ∀ {s t}, R s t → ∀ captured, captured <:+ s.captured →
    R { s with captured } { t with captured }

/-- Machines in step have the same memory, stack and captured variables.  Whatever becomes of these, they
stay in step, if the fields of all tables are left alone. -/
class Lockstep (R : Machine σ → Machine τ → Prop) : Prop where
  same : ∀ {s t}, R s t → s.memory = t.memory ∧ s.stack = t.stack ∧ s.captured = t.captured
  moved : ∀ {s t}, R s t → ∀ memory stack captured,
    (s.memory.Linked → s.memory.SameFields memory) →
      R { s with memory, stack, captured } { t with memory, stack, captured }

instance {R : Machine σ → Machine τ → Prop} [Lockstep R] : Steady R where
  same := Lockstep.same
  moved := by
    rintro ⟨memory, stack, captured, _⟩ ⟨_, _, _, _⟩ hst other _ _ hfields
    obtain ⟨rfl, rfl, rfl⟩ := Lockstep.same hst
    exact Lockstep.moved hst other _ captured hfields
  sealed := by
    rintro ⟨memory, stack, captured, _⟩ ⟨_, _, _, _⟩ hst _ id v _
    obtain ⟨rfl, rfl, rfl⟩ := Lockstep.same hst
    exact Lockstep.moved hst (memory.sealed id v) stack captured fun h => h.withOthers rfl
  dropped := by
    rintro ⟨memory, stack, captured, _⟩ ⟨_, _, _, _⟩ hst _ _
    obtain ⟨rfl, rfl, rfl⟩ := Lockstep.same hst
    exact Lockstep.moved hst memory stack _ fun h => h.sameFields

/-- On machines in step, both actions do the same, and leave them in step. -/
def Mirrors (R : Machine σ → Machine τ → Prop) (x : Run σ α) (y : Run τ α) : Prop :=
  Simulates R Eq Eq x y

variable {R : Machine σ → Machine τ → Prop}

/-- What is done about a fault starts on the machines on which the runs were interrupted. -/
theorem endsLike_tryCatch {x : Run σ α} {y : Run τ α} {handler : Fault → Run σ α}
    {handler' : Fault → Run τ α} {s : Machine σ} {t : Machine τ}
    (h : EndsLike R Eq Eq (x.run s) (y.run t))
    (hhandler : ∀ fault, Mirrors R (handler fault) (handler' fault)) :
    EndsLike R Eq Eq ((MonadExcept.tryCatch x handler : Run σ α).run s)
      ((MonadExcept.tryCatch y handler' : Run τ α).run t) := by
  cases hx : x.run s <;> cases hy : y.run t <;> rw [hx, hy] at h <;> cases h
  case ok.ok.ok heq hst =>
    rw [run_tryCatch_of_ok hx, run_tryCatch_of_ok hy]
    exact .ok heq hst
  case error.error.error heq hst =>
    rw [run_tryCatch_of_error hx, run_tryCatch_of_error hy, heq]
    exact hhandler _ _ _ hst

namespace Mirrors

theorem pure (a : α) : Mirrors R (Pure.pure a : Run σ α) (Pure.pure a) :=
  Simulates.pure rfl

theorem bind {x : Run σ α} {y : Run τ α} {f : α → Run σ β} {g : α → Run τ β}
    (hx : Mirrors R x y) (hf : ∀ a, Mirrors R (f a) (g a)) : Mirrors R (x >>= f) (y >>= g) :=
  Simulates.bind hx fun a _ h => h ▸ hf a

theorem map {x : Run σ α} {y : Run τ α} (f : α → β) (hx : Mirrors R x y) :
    Mirrors R (f <$> x) (f <$> y) := by
  rw [map_eq_pure_bind, map_eq_pure_bind]
  exact bind hx fun a => pure (f a)

theorem throw (fault : Fault) :
    Mirrors R (MonadExcept.throw fault : Run σ α) (MonadExcept.throw fault) :=
  fun _ _ h => .error rfl h

theorem tryCatch {x : Run σ α} {y : Run τ α} {handler : Fault → Run σ α}
    {handler' : Fault → Run τ α} (hx : Mirrors R x y)
    (hhandler : ∀ fault, Mirrors R (handler fault) (handler' fault)) :
    Mirrors R (MonadExcept.tryCatch x handler) (MonadExcept.tryCatch y handler') :=
  fun s t hst => endsLike_tryCatch (hx s t hst) hhandler

/-- What the state is may matter to what is done next. -/
theorem get {f : Machine σ → Run σ α} {g : Machine τ → Run τ α}
    (h : ∀ s t, R s t → Mirrors R (f s) (g t)) :
    Mirrors R (MonadState.get >>= f) (MonadState.get >>= g) :=
  fun s t hst => h s t hst s t hst

theorem iterate {step : α → Run σ (Sum α β)} {step' : α → Run τ (Sum α β)}
    (h : ∀ a, Mirrors R (step a) (step' a)) (fuel : Nat) (a : α) :
    Mirrors R (iterate step fuel a) (iterate step' fuel a) := by
  induction fuel generalizing a with
  | zero => exact throw _
  | succ fuel ih =>
    refine bind (h a) fun next => ?_
    cases next with
    | inl a => exact ih a
    | inr b => exact pure b

theorem raise (sites : Sites) (message : String) :
    Mirrors R (raise sites message : Run σ α) (raise sites message) := throw _

section

variable [Steady R]

/-! ### Memory -/

theorem load (f : Memory → α) : Mirrors R (load f : Run σ α) (load f) :=
  get fun s t hst => by
    rw [(Steady.same hst).1]
    exact pure _

theorem store {f : Memory → Memory} (h : ∀ m : Memory, m.Linked → m.SameFields (f m))
    (hf : ∀ m : Memory, m.SameFunctions (f m)) : Mirrors R (store f : Run σ Unit) (store f) := by
  rintro ⟨memory, stack, captured, _⟩ ⟨_, _, _, _⟩ hst
  obtain ⟨rfl, rfl, rfl⟩ := Steady.same hst
  exact .ok rfl (Steady.moved hst _ _ (hf memory) (h memory))

theorem allocate {f : Memory → α × Memory} (h : ∀ m : Memory, m.Linked → m.SameFields (f m).2)
    (hf : ∀ m : Memory, m.SameFunctions (f m).2) : Mirrors R (allocate f : Run σ α) (allocate f) := by
  rintro ⟨memory, stack, captured, _⟩ ⟨_, _, _, _⟩ hst
  obtain ⟨rfl, rfl, rfl⟩ := Steady.same hst
  exact .ok rfl (Steady.moved hst _ _ (hf memory) (h memory))

theorem fail (e : ScriptError) : Mirrors R (fail e : Run σ α) (fail e) :=
  bind (allocate (fun _ h => h.withOthers rfl) fun _ => ⟨rfl, rfl⟩) fun _ => throw _

/-! ### The stack -/

theorem modifyStack (f : Array Value → Array Value) :
    Mirrors R (modify fun m => { m with stack := f m.stack } : Run σ Unit)
      (modify fun m => { m with stack := f m.stack }) := by
  rintro ⟨memory, stack, captured, _⟩ ⟨_, _, _, _⟩ hst
  obtain ⟨rfl, rfl, rfl⟩ := Steady.same hst
  exact .ok rfl (Steady.moved hst memory _ ⟨rfl, rfl⟩ fun h => h.sameFields)

theorem top (position : Nat) : Mirrors R (top position : Run σ Value) (top position) :=
  get fun s t hst => by
    rw [(Steady.same hst).2.1]
    exact pure _

theorem put (position : Nat) (v : Value) :
    Mirrors R (put position v : Run σ Unit) (put position v) :=
  modifyStack fun stack => replaced stack position v

theorem grow (size : Nat) : Mirrors R (grow size : Run σ Unit) (grow size) :=
  modifyStack fun stack => padded stack (size - stack.size)

theorem putAll (position : Nat) (vs : List Value) :
    Mirrors R (putAll position vs : Run σ Unit) (putAll position vs) := by
  induction vs generalizing position with
  | nil => exact pure ()
  | cons v vs ih => exact bind (put position v) fun _ => ih _

theorem clear (position count : Nat) :
    Mirrors R (clear position count : Run σ Unit) (clear position count) := by
  induction count generalizing position with
  | zero => exact pure ()
  | succ count ih => exact bind (put position .nil) fun _ => ih _

theorem taken (position count : Nat) :
    Mirrors R (taken position count : Run σ (List Value)) (taken position count) :=
  get fun s t hst => by
    rw [(Steady.same hst).2.1]
    exact pure _

theorem moveDown (source position count : Nat) :
    Mirrors R (moveDown source position count : Run σ Unit)
      (moveDown source position count) := by
  induction count generalizing source position with
  | zero => exact pure ()
  | succ count ih => exact bind (top source) fun v => bind (put position v) fun _ => ih _ _

/-! ### Captured variables -/

/-- The captured variables from a position on are the topmost of those on the stack. -/
theorem endsLike_closeAll (position : Nat) {captured : List (Nat × Nat)} {s : Machine σ} {t : Machine τ}
    (hst : R s t) (hcaptured : captured <:+ s.captured) :
    EndsLike R Eq Eq ((closeFrom.closeAll position captured : Run σ Unit).run s)
      ((closeFrom.closeAll position captured : Run τ Unit).run t) := by
  -- the list of the machine is only replaced at the end, so it has a suffix that is left to do
  induction captured generalizing s t with
  | nil => exact .ok rfl (Steady.dropped hst [] hcaptured)
  | cons topmost rest ih =>
    obtain ⟨p, id⟩ := topmost
    rw [closeFrom.closeAll, closeFrom.closeAll]
    split
    · have hsealed := Steady.sealed hst p id (s.stack.getD p .nil)
        (hcaptured.subset List.mem_cons_self)
      have hrest := ih hsealed ((List.suffix_cons _ _).trans hcaptured)
      rw [(Steady.same hst).2.1] at hrest
      show EndsLike R Eq Eq ((closeFrom.closeAll position rest).run
        { s with memory := s.memory.sealed id (s.stack.getD p .nil) }) _
      rw [(Steady.same hst).2.1]
      exact hrest
    · exact .ok rfl (Steady.dropped hst _ hcaptured)

theorem closeFrom (position : Nat) :
    Mirrors R (closeFrom position : Run σ Unit) (closeFrom position) := by
  unfold Script.closeFrom
  intro s t hst
  show EndsLike R Eq Eq ((Script.closeFrom.closeAll position s.captured).run s)
    ((Script.closeFrom.closeAll position t.captured).run t)
  rw [← (Steady.same hst).2.2]
  exact endsLike_closeAll position hst (List.suffix_refl _)

theorem guarded {x : Run σ α} {y : Run τ α} (height : Nat) (h : Mirrors R x y) :
    Mirrors R (guarded height x) (guarded height y) :=
  tryCatch h fun fault => bind (closeFrom height) fun _ => throw fault

/-! ### Tables -/

theorem peek (id : Nat) (key : Value) :
    Mirrors R (peek id key : Run σ Value) (peek id key) := by
  unfold Script.peek
  split
  · exact bind (store (fun _ h => h.touch id _) fun m => m.sameFunctions_touch id _) fun _ => load _
  · exact load _
  · exact pure _

theorem itemsFrom (id fuel n : Nat) (read : List Value) :
    Mirrors R (itemsFrom id fuel n read : Run σ (List Value))
      (itemsFrom id fuel n read) := by
  induction fuel generalizing n read with
  | zero => exact pure _
  | succ fuel ih =>
    refine bind (peek id _) fun v => ?_
    cases v <;> first | exact pure _ | exact ih _ _

theorem items (id : Nat) : Mirrors R (items id : Run σ (List Value)) (items id) :=
  itemsFrom id _ _ _

end

end Mirrors

end

end BuildComposition.Script
